import Falcon.Build.Finish
import Falcon.Graph.Rehash

/-!
# A depfile that names its own output

`Depfile::load` moves the ready counter of the rule down when it adds a dirty
target, although the target was not counted before.  If a rule that has just
run names its first output, the counter ends up wrong, or an assertion fails.
-/

namespace Falcon.Depfile

variable {ω : Type} {P : Platform ω} {w : ω} {g g' : Graph} {r : RuleId}

theorem foldlM_markInputDirty {l : List NodeId} (hready : ∀ n ∈ l, g.inputReady n = true)
    (h : l.foldlM (fun g n ↦ if g.inputReady n then g.onRule r Rule.markInputDirty else pure g) g =
      .ok g') :
    g' = g.setRule r { g.rule r with
      numInputsReady := (g.rule r).numInputsReady - l.length } := by
  induction l generalizing g with
  | nil =>
      simp only [List.foldlM_nil, Lib.except_pure, Except.ok.injEq] at h
      rw [← h]
      simp [Graph.setRule]
  | cons n l ih =>
      rw [List.foldlM_cons] at h
      obtain ⟨g₁, hstep, hrest⟩ := Lib.bind_eq_ok.mp h
      rw [if_pos (hready n List.mem_cons_self)] at hstep
      have hg₁ : g₁ = g.setRule r { g.rule r with
          numInputsReady := (g.rule r).numInputsReady - 1 } := by
        by_cases hpos : 0 < (g.rule r).numInputsReady
        · simpa [Graph.onRule, Rule.markInputDirty, hpos, Except.map, eq_comm] using hstep
        · simp [Graph.onRule, Rule.markInputDirty, hpos, assert, Except.map] at hstep
      have hready₁ : ∀ m ∈ l, g₁.inputReady m = true := by
        intro m hm
        rw [hg₁]
        exact hready m (List.mem_cons_of_mem n hm)
      rw [ih hready₁ hrest, hg₁]
      simp [Graph.setRule, Nat.sub_sub, Nat.add_comm]

theorem detachImplicit_ready (hready : ∀ n ∈ (g.rule r).inputs, g.inputReady n = true)
    (h : detachImplicit g r = .ok g') :
    g' = g.setRule r { g.rule r with
      inputs := Hash.explicitInputs (g.rule r)
      numImplicitDeps := 0
      numInputsReady := (g.rule r).numInputsReady - (implicitDeps (g.rule r)).length } := by
  obtain ⟨g₁, hloop, hpure⟩ := Lib.bind_eq_ok.mp h
  have hg₁ := foldlM_markInputDirty (fun n hn ↦ hready n
    (List.mem_of_mem_drop (List.mem_reverse.mp hn))) hloop
  simp only [Lib.except_pure, Except.ok.injEq] at hpure
  rw [← hpure, hg₁]
  simp [Graph.updateRule, Graph.setRule, Hash.explicitInputs, implicitDeps]

/-- What the last part of `load` leaves alone. -/
structure Dropped (o : NodeId) (g g' : Graph) : Prop where
  rule : g'.rule = g.rule
  rules : g'.rules = g.rules
  child : ∀ n, (g'.node n).childRule = (g.node n).childRule
  state : ∀ n, (g'.node n).isDirty = (g.node n).isDirty
  parents : ∀ n, (g'.node n).parentRules ⊆ (g.node n).parentRules
  self : (g'.node o).parentRules = (g.node o).parentRules

theorem dropDependency_dropped {o n : NodeId} (hne : n ≠ o) (h : dropDependency r g n = .ok g') :
    Dropped o g g' := by
  have h₁ : Dropped o g (g.unlink r n) := by
    refine ⟨rfl, rfl, Graph.proj_setNode Node.childRule (by rfl),
      Graph.proj_setNode Node.isDirty (by rfl), fun m ↦ ?_, ?_⟩
    · by_cases hm : m = n
      · rw [hm, Graph.unlink_node_self]
        exact List.erase_subset
      · rw [Graph.unlink_node_ne hm]
        exact List.Subset.refl _
    · rw [Graph.unlink_node_ne hne.symm]
  obtain ⟨-, ⟨-, -, rfl⟩ | ⟨-, rfl⟩⟩ := dropDependency_cases h
  · exact ⟨h₁.rule, h₁.rules, h₁.child, h₁.state, h₁.parents, h₁.self⟩
  · exact h₁

theorem foldlM_dropDependency {o : NodeId} {l : List NodeId} (hne : o ∉ l)
    (h : l.foldlM (dropDependency r) g = .ok g') : Dropped o g g' := by
  refine Lib.foldlM_preserves (Dropped o) (fun _ ↦ ⟨rfl, rfl, fun _ ↦ rfl, fun _ ↦ rfl,
    fun _ ↦ List.Subset.refl _, rfl⟩) ?_ ?_ h
  · intro g₁ g₂ g₃ h₁ h₂
    exact ⟨h₂.rule.trans h₁.rule, h₂.rules.trans h₁.rules,
      fun n ↦ (h₂.child n).trans (h₁.child n), fun n ↦ (h₂.state n).trans (h₁.state n),
      fun n ↦ List.Subset.trans (h₂.parents n) (h₁.parents n), h₂.self.trans h₁.self⟩
  · intro n hn g₁ g₂ hstep
    exact dropDependency_dropped (fun heq ↦ hne (heq ▸ hn)) hstep

/-- The graph once the rule has its own output `o` as its only implicit input. -/
structure SelfInput (g : Graph) (r : RuleId) (o : NodeId) (g' : Graph) : Prop where
  rules : g'.rules = g.rules
  inputs : (g'.rule r).inputs = Hash.explicitInputs (g.rule r) ++ [o]
  outputs : (g'.rule r).outputs = (g.rule r).outputs
  child : ∀ n, (g'.node n).childRule = (g.node n).childRule
  state : ∀ n, (g'.node n).isDirty = (g.node n).isDirty
  parents : ∀ n, n ≠ o → (g'.node n).parentRules ⊆ (g.node n).parentRules
  self : (g'.node o).parentRules = (g.node o).parentRules ++ [r]
  numReady : (g'.rule r).numInputsReady = if (g.node o).isDirty then
      (Hash.explicitInputs (g.rule r)).length - 1
    else (Hash.explicitInputs (g.rule r)).length + 1
  positive : (g.node o).isDirty = true → 0 < (Hash.explicitInputs (g.rule r)).length

theorem attach_self {o : NodeId} (hchild : (g.node o).childRule = some r)
    (hparent : r ∉ (g.node o).parentRules)
    (hcount : (g.rule r).numInputsReady = (g.rule r).inputs.length)
    (hexplicit : (g.rule r).numImplicitDeps = 0) (h : attach g r o false = .ok g') :
    SelfInput g r o g' := by
  have hE : Hash.explicitInputs (g.rule r) = (g.rule r).inputs := by
    simp [Hash.explicitInputs, hexplicit]
  have hhas : (g.node o).hasParent r = false := by simpa [Node.hasParent] using hparent
  generalize hg₁ : (g.updateRule r (·.addImplicitInput o)).updateNode o (·.addParentRule r) = g₁
  have hrule₁ : g₁.rule r = (g.rule r).addImplicitInput o := by
    rw [← hg₁]
    simp [Graph.updateNode, Graph.updateRule, Graph.setRule]
  have hnode₁ : ∀ n, g₁.node n = if n = o then (g.node o).addParentRule r else g.node n := by
    intro n
    rw [← hg₁, Graph.updateNode, Graph.setNode_node]
    rfl
  have hself : (g₁.node o).isSource = false := by
    simp [hnode₁, Node.isSource, Node.addParentRule, hchild]
  have hstate : ∀ n, (g₁.node n).isDirty = (g.node n).isDirty := by
    intro n
    rw [hnode₁]
    split
    · rename_i hn
      rw [hn]
      rfl
    · rfl
  have hsame : (g.updateRule r (·.addImplicitInput o)).node = g.node := rfl
  simp only [attach, linkInput, countInput, hsame, hhas, Bool.false_eq_true, if_false,
    Lib.except_pure,
    Lib.except_ok_bind, hg₁, hstate, hself, Bool.not_false, Bool.and_true] at h
  -- The remaining call moves the counter of `r` only.
  have hcall : ∃ k, g' = g₁.setRule r { g₁.rule r with numInputsReady := k } ∧
      k = (if (g.node o).isDirty then (g.rule r).inputs.length - 1
        else (g.rule r).inputs.length + 1) ∧
      ((g.node o).isDirty = true → 0 < (g.rule r).inputs.length) := by
    have hready₁ : (g₁.rule r).numInputsReady = (g.rule r).inputs.length := by
      rw [hrule₁, ← hcount]
      rfl
    have hlen₁ : (g₁.rule r).inputs.length = (g.rule r).inputs.length + 1 := by
      simp [hrule₁, Rule.addImplicitInput]
    cases hd : (g.node o).isDirty with
    | true =>
        simp only [hd, if_true] at h
        by_cases hpos : 0 < (g.rule r).inputs.length
        · refine ⟨(g.rule r).inputs.length - 1, ?_, by simp, fun _ ↦ hpos⟩
          simpa [Graph.onRule, Rule.markInputDirty, hready₁, hpos, Except.map, eq_comm] using h
        · simp [Graph.onRule, Rule.markInputDirty, hready₁, hpos, assert, Except.map] at h
    | false =>
        simp only [hd, Bool.false_eq_true, if_false] at h
        refine ⟨(g.rule r).inputs.length + 1, ?_, by simp, by simp⟩
        simpa [Graph.onRule, Rule.markInputReady, hready₁, hlen₁, Except.map, eq_comm] using h
  obtain ⟨k, rfl, hk, hpos⟩ := hcall
  have hrules : g₁.rules = g.rules := by
    rw [← hg₁]
    rfl
  have hnode : ∀ n, (g₁.setRule r { g₁.rule r with numInputsReady := k }).node n = g₁.node n :=
    fun _ ↦ rfl
  refine ⟨hrules, ?_, ?_, fun n ↦ ?_, fun n ↦ hstate n, fun n hn ↦ ?_, ?_, ?_, ?_⟩
  · rw [Graph.setRule_rule, if_pos rfl, hE]
    simp [hrule₁, Rule.addImplicitInput]
  · rw [Graph.setRule_rule, if_pos rfl]
    simp [hrule₁, Rule.addImplicitInput]
  · rw [hnode, hnode₁]
    split
    · rename_i hn
      rw [hn]
      rfl
    · rfl
  · rw [hnode, hnode₁, if_neg hn]
    exact List.Subset.refl _
  · rw [hnode, hnode₁, if_pos rfl]
    rfl
  · rw [Graph.setRule_rule, if_pos rfl, hE]
    exact hk
  · rw [hE]
    exact hpos


theorem load_self {o : NodeId} {content : String} {loaded : Bool} (hL : g.links.TwoWay)
    (hac : g.links.Acyclic) (hr : r ∈ g.rules)
    (hready : ∀ n ∈ (g.rule r).inputs, g.inputReady n = true)
    (hcount : (g.rule r).numInputsReady = (g.rule r).inputs.length)
    (ho : (g.rule r).outputs.head? = some o) (hlookup : g.nodes.lookup (g.node o).path = some o)
    (hparse : P.parseDepfile content = some ((g.node o).path, [(g.node o).path]))
    (h : load P w g r content = .ok (loaded, g')) : loaded = true ∧ SelfInput g r o g' := by
  have hmem : o ∈ (g.rule r).outputs := List.mem_of_mem_head? ho
  have hchild : (g.node o).childRule = some r := (hL.child_eq_some o r).mpr ⟨hr, hmem⟩
  have hnot : o ∉ (g.rule r).inputs := fun hin ↦ hac o (.single ⟨r, hchild, hin⟩)
  have hparent : r ∉ (g.node o).parentRules := fun hp ↦ hnot ((hL.mem_parents o r).mp hp).2
  simp only [load, Lib.bind_eq_ok] at h
  obtain ⟨g₁, hdetach, h⟩ := h
  have hg₁ := detachImplicit_ready hready hdetach
  have hrule₁ : g₁.rule r = { g.rule r with
      inputs := Hash.explicitInputs (g.rule r)
      numImplicitDeps := 0
      numInputsReady := (g.rule r).numInputsReady - (implicitDeps (g.rule r)).length } := by
    rw [hg₁, Graph.setRule_rule, if_pos rfl]
  have hnode₁ : g₁.node = g.node := by
    rw [hg₁]
    rfl
  have hnodes₁ : g₁.nodes = g.nodes := by
    rw [hg₁]
    rfl
  have hnot₁ : (g₁.rule r).isInput o = false := by
    rw [hrule₁]
    simp only [Rule.isInput, List.contains_eq_mem, decide_eq_false_iff_not]
    exact fun hin ↦ hnot (List.mem_of_mem_take hin)
  have hE₁ : Hash.explicitInputs (g₁.rule r) = Hash.explicitInputs (g.rule r) := by
    simp [hrule₁, Hash.explicitInputs]
  have hcount₁ : (g₁.rule r).numInputsReady = (g₁.rule r).inputs.length := by
    simp only [hrule₁, hcount, implicitDeps, Hash.explicitInputs, List.length_drop,
      List.length_take]
    omega
  have houtputs₁ : (g₁.rule r).outputs = (g.rule r).outputs := by rw [hrule₁]
  simp only [hparse, houtputs₁, ho, hnode₁, ne_eq, not_true_eq_false, if_false, Lib.bind_eq_ok,
    addDependencies, setRuleDependency, hnodes₁, hlookup, hnot₁, Bool.false_eq_true,
    Lib.except_pure, Except.ok.injEq, Prod.mk.injEq] at h
  obtain ⟨⟨g₂, left⟩, ⟨⟨n, g₃⟩, ⟨g₄, hattach, rfl, rfl⟩, rfl, rfl⟩, g₅, hdrop, rfl, rfl⟩ := h
  have h₄ := attach_self (g := g₁) (by rw [hnode₁, hchild]) (by rw [hnode₁]; exact hparent) hcount₁
    (by rw [hrule₁]) hattach
  have hd := foldlM_dropDependency (o := o) (by simp) hdrop
  refine ⟨rfl, ?_, ?_, ?_, fun n ↦ ?_, fun n ↦ ?_, fun n hn ↦ ?_, ?_, ?_, ?_⟩
  · rw [hd.rules, h₄.rules, hg₁]
    rfl
  · rw [hd.rule, h₄.inputs, hE₁]
  · rw [hd.rule, h₄.outputs, houtputs₁]
  · rw [hd.child, h₄.child, hnode₁]
  · rw [hd.state, h₄.state, hnode₁]
  · have hsub := List.Subset.trans (hd.parents n) (h₄.parents n hn)
    rw [hnode₁] at hsub
    exact hsub
  · rw [hd.self, h₄.self, hnode₁]
  · rw [hd.rule, h₄.numReady, hnode₁, hE₁]
  · intro hdirty
    rw [← hE₁]
    exact h₄.positive (by rw [hnode₁]; exact hdirty)

/-- Finishing the rule does not repair the counter. -/
theorem SelfInput.not_exact {o : NodeId} {g₁ g₂ g₃ : Graph} (h : SelfInput g r o g₁)
    (hL : g.links.TwoWay) (hac : g.links.Acyclic) (hr : r ∈ g.rules)
    (hready : ∀ n ∈ (g.rule r).inputs, g.inputReady n = true)
    (ho : o ∈ (g.rule r).outputs) (hlinks : g₂.links = g₁.links) (hmarks : g₂.marks = g₁.marks)
    (hfinish : g₂.finishRule r = .ok g₃) : ¬ g₃.Exact := by
  have hchild : ∀ x ∈ (g.rule r).outputs, (g.node x).childRule = some r :=
    fun x hx ↦ (hL.child_eq_some x r).mpr ⟨hr, hx⟩
  have hparent : ∀ x ∈ (g.rule r).outputs, r ∉ (g.node x).parentRules := by
    intro x hx hp
    exact hac x (.single ⟨r, hchild x hx, ((hL.mem_parents x r).mp hp).2⟩)
  have hout : g₂.links.outputs r = (g.rule r).outputs :=
    (Graph.outputs_of_links hlinks r).trans h.outputs
  have hreport : ∀ x ∈ (g.rule r).outputs,
      (g₂.links.parents x).count r = if x = o then 1 else 0 := by
    intro x hx
    have hpx : g₂.links.parents x = (g₁.node x).parentRules := Graph.parentRules_of_links hlinks x
    rw [hpx]
    by_cases hxo : x = o
    · subst x
      rw [h.self, List.count_append, List.count_eq_zero_of_not_mem (hparent o hx), if_pos rfl]
      simp
    · rw [if_neg hxo]
      exact List.count_eq_zero_of_not_mem fun hmem ↦ hparent x hx (h.parents x hxo hmem)
  have hcount : (Graph.reportsOf g₂.links r).count r = 1 := by
    have hnd : (g.rule r).outputs.Nodup := hL.outputs_nodup r hr
    rw [Graph.reportsOf, hout, Lib.count_flatMap_eq_countP, ← List.count_eq_one_of_mem hnd ho,
      List.count]
    · apply List.countP_congr
      intro x hx
      have hx' := hreport x hx
      rw [decide_eq_true_eq, beq_iff_eq, ← List.count_pos_iff, hx']
      split <;> simp_all
    · intro x hx
      rw [hreport x hx]
      split <;> simp
  have hinputs : (g₂.rule r).inputs = Hash.explicitInputs (g.rule r) ++ [o] :=
    (Graph.inputs_of_links hlinks r).trans h.inputs
  have hnum : (g₂.rule r).numInputsReady = (g₁.rule r).numInputsReady :=
    Graph.numInputsReady_of_marks hmarks r
  rcases g₂.finishRule_spec r with ⟨hroom, g₃', hrun, hclean⟩ | ⟨-, hrun⟩
  swap
  · rw [hfinish] at hrun
    cases hrun
  obtain rfl : g₃' = g₃ := by
    rw [hfinish] at hrun
    exact (Except.ok.inj hrun).symm
  have hrep : r ∈ Graph.reportsOf g₂.links r := List.count_pos_iff.mp (by omega)
  have hroom_r := hroom r hrep
  rw [hcount, hinputs, hnum, h.numReady, List.length_append, List.length_singleton] at hroom_r
  cases hd : (g.node o).isDirty with
  | false =>
      simp only [hd, Bool.false_eq_true, if_false] at hroom_r
      omega
  | true =>
      have hpos := h.positive hd
      intro hexact
      have hr₃ : r ∈ g₃'.rules := by
        rw [Graph.rules_of_links hclean.links, Graph.rules_of_links hlinks, h.rules]
        exact hr
      have heq := hexact r hr₃
      have hall : g₃'.nbReady r = (Hash.explicitInputs (g.rule r)).length + 1 := by
        rw [Graph.nbReady, Graph.inputs_of_links hclean.links, hinputs, ← List.length_singleton,
          ← List.length_append, List.countP_eq_length]
        intro n hn
        rw [hclean.inputReady_iff]
        rcases List.mem_append.mp hn with hn | hn
        · left
          have hold := hready n (List.mem_of_mem_take hn)
          simp only [Graph.inputReady, Node.isSource, Graph.childRule_of_links hlinks,
            Graph.nodeDirty_of_marks hmarks, h.child, h.state]
          exact hold
        · right
          left
          rw [List.mem_singleton.mp hn, hout]
          exact ho
      rw [hclean.numReady, hcount, hnum, h.numReady, if_pos hd, hall] at heq
      omega

end Falcon.Depfile
