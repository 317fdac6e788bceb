import Falcon.Graph.MarkDirty

/-!
# A rule has been built

The graph part of `GraphParallelBuilder::onRuleFinished`: the outputs of the
rule are marked up to date and every rule that uses one of them is told that
one more input is ready.  The counters are moved blindly; the only thing that
can go wrong is that a counter passes the number of inputs.
-/

namespace Falcon

namespace Graph

/-- The loop over the parent rules of `n` that reports the node ready. -/
def notifyParents (g : Graph) (n : NodeId) : Outcome Graph :=
  (g.node n).parentRules.foldlM (fun g q ↦ g.onRule q Rule.markInputReady) g

def markOutputUpToDate (g : Graph) (o : NodeId) : Outcome Graph :=
  (g.updateNode o (·.setState .upToDate)).notifyParents o

def markOutputsUpToDate (g : Graph) (r : RuleId) : Outcome Graph :=
  (g.rule r).outputs.foldlM markOutputUpToDate g

def markSourceUpToDate (g : Graph) (n : NodeId) : Graph :=
  if (g.node n).isSource then g.updateNode n (·.setState .upToDate) else g

def markSourcesUpToDate (g : Graph) (r : RuleId) : Graph :=
  (g.rule r).inputs.foldl markSourceUpToDate g

def finishRule (g : Graph) (r : RuleId) : Outcome Graph := do
  let g ← g.markOutputsUpToDate r
  pure ((g.markSourcesUpToDate r).updateRule r (·.setState .upToDate))

/-- `g'` is `g` with the nodes of `U` and the rules of `V` up to date and each
counter raised by `add`. -/
structure Cleaned (g : Graph) (U : Set NodeId) (V : Set RuleId) (add : RuleId → ℕ) (g' : Graph) :
    Prop where
  links : g'.links = g.links
  hashes : g'.hashes = g.hashes
  node : ∀ n, (g'.node n).isDirty = true ↔ (g.node n).isDirty = true ∧ n ∉ U
  rule : ∀ r, (g'.rule r).isDirty = true ↔ (g.rule r).isDirty = true ∧ r ∉ V
  numReady : ∀ r, (g'.rule r).numInputsReady = (g.rule r).numInputsReady + add r

namespace Cleaned

variable {g g' g'' : Graph} {U U' : Set NodeId} {V V' : Set RuleId} {add add' : RuleId → ℕ}

theorem refl (g : Graph) : g.Cleaned ∅ ∅ 0 g :=
  ⟨rfl, rfl, by simp, by simp, by simp⟩

theorem trans (h : g.Cleaned U V add g') (h' : g'.Cleaned U' V' add' g'') :
    g.Cleaned (U ∪ U') (V ∪ V') (add + add') g'' where
  links := h'.links.trans h.links
  hashes := h'.hashes.trans h.hashes
  node n := by
    rw [h'.node, h.node, Set.mem_union]
    tauto
  rule r := by
    rw [h'.rule, h.rule, Set.mem_union]
    tauto
  numReady r := by
    rw [h'.numReady, h.numReady, Pi.add_apply, add_assoc]

theorem congr (h : g.Cleaned U V add g') (hU : U = U') (hV : V = V') (hadd : add = add') :
    g.Cleaned U' V' add' g' :=
  hU ▸ hV ▸ hadd ▸ h

/-- An input is ready afterwards if it was, or if it has been built. -/
theorem inputReady_iff (h : g.Cleaned U V add g') (n : NodeId) :
    g'.inputReady n = true ↔ g.inputReady n = true ∨ n ∈ U := by
  have hnode := h.node n
  rw [inputReady, inputReady, isSource_of_links h.links, Bool.or_eq_true, Bool.or_eq_true,
    Bool.not_eq_true', Bool.not_eq_true', ← Bool.not_eq_true, ← Bool.not_eq_true, hnode]
  tauto

theorem ready_iff (h : g.Cleaned U V add g') (r : RuleId) :
    (g'.rule r).ready = true ↔
      (g.rule r).numInputsReady + add r = (g.rule r).inputs.length := by
  rw [Rule.ready, decide_eq_true_eq, h.numReady, inputs_of_links h.links]

end Cleaned

theorem cleaned_setNodeState (g : Graph) (n : NodeId) :
    g.Cleaned {n} ∅ 0 (g.updateNode n (·.setState .upToDate)) where
  links := links_setNode rfl rfl rfl rfl
  hashes := hashes_setNode rfl rfl
  node m := by
    rw [updateNode, setNode_node]
    by_cases hm : m = n <;> simp [hm, Node.setState, Node.isDirty]
  rule r := by simp [updateNode]
  numReady r := by simp [updateNode]

theorem cleaned_setRuleState (g : Graph) (r : RuleId) :
    g.Cleaned ∅ {r} 0 (g.updateRule r (·.setState .upToDate)) where
  links := links_setRule rfl rfl rfl rfl rfl
  hashes := hashes_setRule rfl rfl
  node n := by simp [updateRule]
  rule q := by
    rw [updateRule, setRule_rule]
    by_cases hq : q = r <;> simp [hq, Rule.setState, Rule.isDirty]
  numReady q := by
    rw [updateRule, proj_setRule Rule.numInputsReady (by rfl)]
    rfl

/-- The counters have room for one report to each rule of the list. -/
def Room (g : Graph) (l : List RuleId) : Prop :=
  ∀ q ∈ l, (g.rule q).numInputsReady + l.count q ≤ (g.rule q).inputs.length

/-- The result `x` of a computation that marks the nodes of `U` up to date and
reports one more ready input to each rule of the list. -/
def Reports (g : Graph) (U : Set NodeId) (l : List RuleId) (x : Outcome Graph) : Prop :=
  (g.Room l ∧ ∃ g', x = .ok g' ∧ g.Cleaned U ∅ (fun r ↦ l.count r) g') ∨
    (¬ g.Room l ∧ x = .error (.assertion .inputReadyBound))

theorem room_append {g g' : Graph} {U : Set NodeId} {V : Set RuleId} {l l' : List RuleId}
    (h : g.Cleaned U V (fun r ↦ l.count r) g') :
    g.Room (l ++ l') ↔ g.Room l ∧ g'.Room l' := by
  simp only [Room, List.mem_append, List.count_append, h.numReady, inputs_of_links h.links]
  constructor
  · intro hroom
    refine ⟨fun q hq ↦ ?_, fun q hq ↦ ?_⟩
    · have := hroom q (Or.inl hq)
      omega
    · have := hroom q (Or.inr hq)
      omega
  · rintro ⟨hl, hl'⟩ q hq
    by_cases hq' : q ∈ l'
    · have := hl' q hq'
      omega
    · have := hl q (hq.resolve_right hq')
      rw [List.count_eq_zero_of_not_mem hq']
      omega

theorem Reports.bind {g : Graph} {U U' : Set NodeId} {l l' : List RuleId} {x : Outcome Graph}
    {f : Graph → Outcome Graph} (h : g.Reports U l x)
    (hf : ∀ g', g.Cleaned U ∅ (fun r ↦ l.count r) g' → g'.Reports U' l' (f g')) :
    g.Reports (U ∪ U') (l ++ l') (x >>= f) := by
  rcases h with ⟨hroom, g', rfl, hclean⟩ | ⟨hroom, rfl⟩
  · rcases hf g' hclean with ⟨hroom', g'', hrun, hclean'⟩ | ⟨hroom', hrun⟩
    · left
      refine ⟨(room_append hclean).mpr ⟨hroom, hroom'⟩, g'', by simp [hrun], ?_⟩
      refine (hclean.trans hclean').congr rfl (Set.union_self ∅) ?_
      funext r
      simp [List.count_append]
    · right
      exact ⟨fun h ↦ hroom' ((room_append hclean).mp h).2, by simp [hrun]⟩
  · right
    refine ⟨fun h ↦ hroom fun q hq ↦ ?_, rfl⟩
    have := h q (List.mem_append_left l' hq)
    rw [List.count_append] at this
    omega

theorem reports_markInputReady (g : Graph) (q : RuleId) :
    g.Reports ∅ [q] (g.onRule q Rule.markInputReady) := by
  by_cases hle : (g.rule q).numInputsReady + 1 ≤ (g.rule q).inputs.length
  · refine Or.inl ⟨by simpa [Room] using hle,
      g.setRule q { g.rule q with numInputsReady := (g.rule q).numInputsReady + 1 }, ?_, ?_⟩
    · simp [onRule, Rule.markInputReady, hle, Except.map]
    · refine ⟨links_setRule rfl rfl rfl rfl rfl, hashes_setRule rfl rfl, by simp, ?_, ?_⟩
      · intro r
        rw [proj_setRule Rule.isDirty (by rfl)]
        simp
      · intro r
        rw [setRule_rule]
        by_cases hr : r = q
        · simp [hr]
        · simp [hr, Ne.symm hr]
  · refine Or.inr ⟨by simpa [Room] using hle, ?_⟩
    simp [onRule, Rule.markInputReady, hle, assert, Except.map]

theorem reports_nil (g : Graph) : g.Reports ∅ [] (.ok g) :=
  Or.inl ⟨by simp [Room], g, rfl, (Cleaned.refl g).congr rfl rfl (by funext r; simp)⟩

theorem reports_foldlM {f : Graph → RuleId → Outcome Graph} (l : List RuleId)
    (hf : ∀ (g : Graph) q, g.Reports ∅ [q] (f g q)) (g : Graph) : g.Reports ∅ l (l.foldlM f g) := by
  induction l generalizing g with
  | nil => exact reports_nil g
  | cons q l ih =>
      rw [List.foldlM_cons]
      simpa using (hf g q).bind fun g' _ ↦ ih g'

theorem reports_notifyParents (g : Graph) (n : NodeId) :
    g.Reports ∅ (g.node n).parentRules (g.notifyParents n) :=
  reports_foldlM _ reports_markInputReady g

theorem reports_markOutputUpToDate (g : Graph) (o : NodeId) :
    g.Reports {o} (g.links.parents o) (g.markOutputUpToDate o) := by
  have hclean := g.cleaned_setNodeState o
  have hfirst : g.Reports {o} [] (.ok (g.updateNode o (·.setState .upToDate))) :=
    Or.inl ⟨by simp [Room], _, rfl, hclean.congr rfl rfl (by funext r; simp)⟩
  have hnotify : ∀ g', g.Cleaned {o} ∅ (fun r ↦ List.count r []) g' →
      g'.Reports ∅ (g.links.parents o) (g'.notifyParents o) := by
    intro g' hg'
    have hparents : (g'.node o).parentRules = g.links.parents o :=
      parentRules_of_links hg'.links o
    rw [← hparents]
    exact reports_notifyParents g' o
  have h := hfirst.bind hnotify
  simpa [markOutputUpToDate] using h

theorem reports_outputs (L : Links) (l : List NodeId) (g : Graph) (hL : g.links = L) :
    g.Reports {n | n ∈ l} (l.flatMap L.parents) (l.foldlM markOutputUpToDate g) := by
  induction l generalizing g with
  | nil => simpa using reports_nil g
  | cons o l ih =>
      have hfirst : g.Reports {o} (L.parents o) (g.markOutputUpToDate o) :=
        hL ▸ reports_markOutputUpToDate g o
      have h := hfirst.bind fun g' hg' ↦ ih g' (hg'.links.trans hL)
      have hset : {n | n ∈ o :: l} = {o} ∪ {n | n ∈ l} := by
        ext n
        simp
      rw [List.foldlM_cons, List.flatMap_cons, hset]
      exact h

theorem cleaned_markSourceUpToDate (g : Graph) (n : NodeId) :
    g.Cleaned {m | m = n ∧ (g.node m).isSource = true} ∅ 0 (g.markSourceUpToDate n) := by
  rw [markSourceUpToDate]
  split
  · rename_i hsrc
    refine (g.cleaned_setNodeState n).congr ?_ rfl rfl
    ext m
    simp only [Set.mem_singleton_iff, Set.mem_ofPred_eq, iff_self_and]
    rintro rfl
    exact hsrc
  · rename_i hsrc
    refine (Cleaned.refl g).congr ?_ rfl rfl
    ext m
    simp only [Set.mem_empty_iff_false, Set.mem_ofPred_eq, false_iff, not_and]
    rintro rfl
    exact hsrc

theorem cleaned_foldl_markSourceUpToDate (l : List NodeId) (g : Graph) :
    g.Cleaned {m | m ∈ l ∧ (g.node m).isSource = true} ∅ 0 (l.foldl markSourceUpToDate g) := by
  induction l generalizing g with
  | nil => exact (Cleaned.refl g).congr (by simp) rfl rfl
  | cons n l ih =>
      have hfirst := g.cleaned_markSourceUpToDate n
      refine (hfirst.trans (ih _)).congr ?_ (Set.union_self ∅) (by funext r; rfl)
      ext m
      simp only [Set.mem_union, Set.mem_ofPred_eq, isSource_of_links hfirst.links, List.mem_cons]
      tauto

/-- The nodes that `onRuleFinished` marks up to date. -/
def finishedNodes (L : Links) (r : RuleId) : Set NodeId :=
  {n | n ∈ L.outputs r ∨ n ∈ L.inputs r ∧ L.child n = none}

/-- The reports that `onRuleFinished` makes. -/
def reportsOf (L : Links) (r : RuleId) : List RuleId := (L.outputs r).flatMap L.parents

/-- `onRuleFinished` fails only where a counter has no room for its reports. -/
theorem finishRule_spec (g : Graph) (r : RuleId) :
    (g.Room (reportsOf g.links r) ∧ ∃ g', g.finishRule r = .ok g' ∧
      g.Cleaned (finishedNodes g.links r) {r} (fun q ↦ (reportsOf g.links r).count q) g') ∨
    (¬ g.Room (reportsOf g.links r) ∧
      g.finishRule r = .error (.assertion .inputReadyBound)) := by
  rcases reports_outputs g.links (g.rule r).outputs g rfl with ⟨hroom, g₁, hrun, h₁⟩ | ⟨hroom, hrun⟩
  · refine Or.inl ⟨hroom, (g₁.markSourcesUpToDate r).updateRule r (·.setState .upToDate), ?_, ?_⟩
    · simp only [finishRule, markOutputsUpToDate, hrun, Lib.except_ok_bind, Lib.except_pure]
    · have h₂ := cleaned_foldl_markSourceUpToDate (g₁.rule r).inputs g₁
      have h₃ := cleaned_setRuleState (g₁.markSourcesUpToDate r) r
      refine ((h₁.trans h₂).trans h₃).congr ?_ (by simp) (by funext q; simp [reportsOf]; rfl)
      ext n
      rw [inputs_of_links h₁.links]
      simp only [Set.union_empty, Set.mem_union, Set.mem_ofPred_eq, finishedNodes,
        Node.isSource, childRule_of_links h₁.links, Option.isNone_iff_eq_none]
      rfl
  · refine Or.inr ⟨hroom, ?_⟩
    simp only [finishRule, markOutputsUpToDate, hrun, Lib.except_error_bind]

/-- The reports to `q` are its inputs among the outputs of `r`. -/
theorem count_reportsOf {L : Links} (hL : L.TwoWay) {r q : RuleId} (hr : r ∈ L.rules)
    (hq : q ∈ L.rules) :
    (reportsOf L r).count q = (L.inputs q).countP (fun n ↦ decide (n ∈ L.outputs r)) := by
  rw [reportsOf, Lib.count_flatMap_eq_countP fun n _ ↦ List.nodup_iff_count_le_one.mp
    (hL.parents_nodup n) q,
    ← Lib.countP_mem_comm (hL.outputs_nodup r hr) (hL.inputs_nodup q hq)]
  apply List.countP_congr
  intro n _
  simp [hL.mem_parents, hq]

end Graph

end Falcon
