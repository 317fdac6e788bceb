import Mathlib.Data.Set.Lattice
import Falcon.Graph.Links
import Falcon.Lib.Count

/-!
# Marking a node dirty

`Node::markDirty` and `Rule::markDirty` call each other up the graph without
looking at what is dirty already.  While a node is being processed, the
counters of some of its parent rules have been decreased although the node
does not read as dirty yet, and the recursion above it runs in such a state.
The invariant therefore carries the set of these pending decrements.
-/

namespace Falcon

/-- The recursion of `Rule::markDirty`, given the one of the nodes. -/
def Rule.markDirty (nodeMarkDirty : Graph → NodeId → Outcome Graph) (g : Graph) (r : RuleId) :
    Outcome Graph := do
  let g ← (g.rule r).outputs.foldlM nodeMarkDirty g
  pure (g.updateRule r (·.setState .outOfDate))

/-- One iteration of the loop of `Node::markDirty` over the parent rules of `n`. -/
def Node.markParentDirty (nodeMarkDirty : Graph → NodeId → Outcome Graph) (n : NodeId)
    (g : Graph) (r : RuleId) : Outcome Graph := do
  let g ← Rule.markDirty nodeMarkDirty g r
  -- A source file is always ready, even if it is dirty.
  if !(g.node n).isSource && !(g.node n).isDirty then g.onRule r Rule.markInputDirty
  else pure g

def Node.markDirty : ℕ → Graph → NodeId → Outcome Graph
  | 0, _, _ => .error .outOfFuel
  | fuel + 1, g, n => do
    let g ← (g.node n).parentRules.foldlM (Node.markParentDirty (Node.markDirty fuel) n) g
    pure (g.updateNode n (·.setState .outOfDate))

namespace Graph

/-- `g'` is `g` with the nodes of `U` and the rules of `V` marked dirty. -/
structure Marked (g : Graph) (U : Set NodeId) (V : Set RuleId) (g' : Graph) : Prop where
  links : g'.links = g.links
  stamps : g'.stamps = g.stamps
  node : ∀ n, (g'.node n).isDirty = true ↔ n ∈ U ∨ (g.node n).isDirty = true
  lazy : ∀ n, (g'.node n).isLazyFetched = true ↔ n ∉ U ∧ (g.node n).isLazyFetched = true
  rule : ∀ r, (g'.rule r).isDirty = true ↔ r ∈ V ∨ (g.rule r).isDirty = true

theorem Marked.refl (g : Graph) : g.Marked ∅ ∅ g :=
  ⟨rfl, rfl, by simp, by simp, by simp⟩

theorem Marked.trans {g₁ g₂ g₃ : Graph} {U U' : Set NodeId} {V V' : Set RuleId}
    (h : g₁.Marked U V g₂) (h' : g₂.Marked U' V' g₃) : g₁.Marked (U ∪ U') (V ∪ V') g₃ where
  links := h'.links.trans h.links
  stamps := h'.stamps.trans h.stamps
  node n := by
    rw [h'.node, h.node, Set.mem_union]
    tauto
  lazy n := by
    rw [h'.lazy, h.lazy, Set.mem_union]
    tauto
  rule r := by
    rw [h'.rule, h.rule, Set.mem_union]
    tauto

theorem Marked.congr {g g' : Graph} {U U' : Set NodeId} {V V' : Set RuleId}
    (h : g.Marked U V g') (hU : U = U') (hV : V = V') : g.Marked U' V' g' :=
  hU ▸ hV ▸ h

theorem marked_setNodeState (g : Graph) (n : NodeId) :
    g.Marked {n} ∅ (g.updateNode n (·.setState .outOfDate)) where
  links := links_setNode rfl rfl rfl rfl
  stamps := stamps_setNode rfl rfl rfl
  node m := by
    rw [updateNode, setNode_node]
    by_cases hm : m = n <;> simp [hm, Node.setState, Node.isDirty]
  lazy m := by
    rw [updateNode, setNode_node]
    by_cases hm : m = n <;> simp [hm, Node.setState]
  rule r := by simp [updateNode]

theorem marked_setRuleState (g : Graph) (r : RuleId) :
    g.Marked ∅ {r} (g.updateRule r (·.setState .outOfDate)) where
  links := links_setRule rfl rfl rfl rfl rfl
  stamps := stamps_setRule rfl rfl rfl
  node n := by simp [updateRule]
  lazy n := by simp [updateRule]
  rule q := by
    rw [updateRule, setRule_rule]
    by_cases hq : q = r <;> simp [hq, Rule.setState, Rule.isDirty]

/-- The counters are exact once the inputs in `D` are left out: `D n r` says
that rule `r` has been told already that its input `n` is dirty. -/
def ExactBut (g : Graph) (D : NodeId → RuleId → Bool) : Prop :=
  ∀ r ∈ g.rules,
    (g.rule r).numInputsReady = (g.rule r).inputs.countP fun n ↦ g.inputReady n && !D n r

theorem exactBut_false (g : Graph) : g.ExactBut (fun _ _ ↦ false) ↔ g.Exact := by
  simp [ExactBut, Exact, nbReady]

theorem inputReady_eq_false {g : Graph} {n : NodeId} :
    g.inputReady n = false ↔ (g.node n).isSource = false ∧ (g.node n).isDirty = true := by
  simp [inputReady]

/-- Reading the counters needs the links and the states of the nodes only. -/
theorem ExactBut.congr {g g' : Graph} {D : NodeId → RuleId → Bool} (h : g.ExactBut D)
    (hlinks : g'.links = g.links) (hnode : ∀ n, (g'.node n).isDirty = (g.node n).isDirty)
    (hready : ∀ r, (g'.rule r).numInputsReady = (g.rule r).numInputsReady) :
    g'.ExactBut D := by
  intro r hr
  have hin : ∀ n, g'.inputReady n = g.inputReady n := by
    intro n
    simp only [inputReady, isSource_of_links hlinks, hnode]
  rw [hready, inputs_of_links hlinks, h r (rules_of_links hlinks ▸ hr)]
  simp only [hin]

/-- One more pending decrement. -/
def addDebt (D : NodeId → RuleId → Bool) (n : NodeId) (r : RuleId) : NodeId → RuleId → Bool :=
  fun m q ↦ D m q || decide (m = n ∧ q = r)

theorem ExactBut.markInputDirty {g : Graph} {D : NodeId → RuleId → Bool} {n : NodeId} {r : RuleId}
    (h : g.ExactBut D) (hL : g.links.TwoWay) (hr : r ∈ (g.node n).parentRules)
    (hready : g.inputReady n = true) (hD : D n r = false) :
    ∃ g', g.onRule r Rule.markInputDirty = .ok g' ∧ g.Marked ∅ ∅ g' ∧
      g'.ExactBut (addDebt D n r) := by
  obtain ⟨hrules, hn⟩ := (hL.mem_parents n r).mp hr
  have hcount : (g.rule r).inputs.countP (fun m ↦ g.inputReady m && !D m r) =
      (g.rule r).inputs.countP (fun m ↦ g.inputReady m && !addDebt D n r m r) + 1 := by
    apply Lib.countP_eq_add_one (hL.inputs_nodup r hrules) hn
    · simp [hready, hD]
    · simp [addDebt]
    · intro m _ hmn
      simp [addDebt, hmn]
  have hpos : 0 < (g.rule r).numInputsReady := by
    rw [h r hrules, hcount]
    exact Nat.succ_pos _
  refine ⟨g.setRule r { g.rule r with numInputsReady := (g.rule r).numInputsReady - 1 }, ?_, ?_, ?_⟩
  · simp [onRule, Rule.markInputDirty, hpos, Except.map]
  · refine ⟨links_setRule rfl rfl rfl rfl rfl, stamps_setRule rfl rfl rfl, by simp, by simp, ?_⟩
    intro q
    rw [proj_setRule Rule.isDirty (by rfl)]
    simp
  · intro q hq
    have hready' : ∀ m, (g.setRule r { g.rule r with
        numInputsReady := (g.rule r).numInputsReady - 1 }).inputReady m = g.inputReady m :=
      fun _ ↦ rfl
    simp only [hready', proj_setRule Rule.inputs (x := { g.rule r with
      numInputsReady := (g.rule r).numInputsReady - 1 }) rfl]
    rw [setRule_rule]
    split
    · subst q
      simp only
      rw [h r hrules, hcount]
      rfl
    · rename_i hqr
      rw [h q hq]
      simp [addDebt, hqr]

/-- Once every parent rule has been told, the node itself turns dirty and the
pending decrements of the node are settled. -/
theorem ExactBut.settle {g : Graph} {D D' : NodeId → RuleId → Bool} {n : NodeId}
    (h : g.ExactBut D') (hL : g.links.TwoWay)
    (hother : ∀ m r, m ≠ n → D' m r = D m r)
    (hself : ∀ r, (g.node n).isSource = true → D' n r = D n r)
    (htold : ∀ r ∈ (g.node n).parentRules, g.inputReady n = true →
      (g.node n).isSource = false → D' n r = true) :
    (g.updateNode n (·.setState .outOfDate)).ExactBut D := by
  intro r hr
  have hset := g.marked_setNodeState n
  rw [inputs_of_links hset.links]
  change (g.rule r).numInputsReady = _
  rw [h r hr]
  apply List.countP_congr
  intro m hm
  by_cases hmn : m = n
  · subst m
    by_cases hsrc : (g.node n).isSource = true
    · have hsrc' := (isSource_of_links hset.links n).trans hsrc
      simp [inputReady, hsrc, hsrc', hself r hsrc]
    · have hsrc' : (g.node n).isSource = false := by simpa using hsrc
      have hfalse : (g.updateNode n (·.setState .outOfDate)).inputReady n = false :=
        inputReady_eq_false.mpr ⟨(isSource_of_links hset.links n).trans hsrc',
          (hset.node n).mpr (Or.inl rfl)⟩
      have hparent : r ∈ (g.node n).parentRules := (hL.mem_parents n r).mpr ⟨hr, hm⟩
      have htold' := htold r hparent
      cases hready : g.inputReady n with
      | false => simp [hfalse]
      | true => simp [hfalse, htold' hready hsrc']
  · have hsame : (g.updateNode n (·.setState .outOfDate)).inputReady m = g.inputReady m := by
      have hnode : (g.updateNode n (·.setState .outOfDate)).node m = g.node m := by
        rw [updateNode, setNode_node, if_neg hmn]
      simp only [inputReady, hnode]
    rw [hsame, hother m r hmn]

/-- The rules that use a node of `U`. -/
def consumers (L : Links) (U : Set NodeId) : Set RuleId :=
  {r | r ∈ L.rules ∧ ∃ m ∈ L.inputs r, m ∈ U}

theorem consumers_mono {L : Links} {U U' : Set NodeId} (h : U ⊆ U') :
    consumers L U ⊆ consumers L U' :=
  fun _ ⟨hr, m, hm, hmU⟩ ↦ ⟨hr, m, hm, h hmU⟩

/-- The effect of `Node::markDirty` on `n`. -/
def MarkedAbove (g : Graph) (n : NodeId) (g' : Graph) : Prop :=
  g.Marked (g.links.Above n) (consumers g.links (g.links.Above n)) g'

/-- What marking every output of rule `r` amounts to. -/
def aboveRule (L : Links) (r : RuleId) : Set NodeId := {m | ∃ o ∈ L.outputs r, m ∈ L.Above o}

section Spec

variable {L : Links} (hL : L.TwoWay)
include hL

theorem Above_eq_aboveRule (n : NodeId) :
    L.Above n = {n} ∪ ⋃ r ∈ L.parents n, aboveRule L r := by
  rw [hL.Above_eq]
  ext m
  simp [aboveRule]

/-- Rules that use a node above `n` are the parents of `n` and the rules that
use a node above one of their outputs. -/
theorem consumers_Above (n : NodeId) :
    consumers L (L.Above n) =
      ⋃ r ∈ L.parents n, (consumers L (aboveRule L r) ∪ {r}) := by
  ext q
  simp only [Set.mem_iUnion, Set.mem_union, Set.mem_singleton_iff, exists_prop]
  constructor
  · rintro ⟨hq, m, hm, hmn⟩
    rw [Above_eq_aboveRule hL] at hmn
    rcases hmn with hmn | hmn
    · exact ⟨q, (hL.mem_parents n q).mpr ⟨hq, hmn ▸ hm⟩, Or.inr rfl⟩
    · simp only [Set.mem_iUnion, exists_prop] at hmn
      obtain ⟨r, hr, hmr⟩ := hmn
      exact ⟨r, hr, Or.inl ⟨hq, m, hm, hmr⟩⟩
  · rintro ⟨r, hr, hqr | rfl⟩
    · refine consumers_mono ?_ hqr
      rw [Above_eq_aboveRule hL]
      exact fun m hm ↦ Or.inr (Set.mem_biUnion hr hm)
    · obtain ⟨hq, hn⟩ := (hL.mem_parents n q).mp hr
      exact ⟨hq, n, hn, Links.self_mem_Above n⟩

end Spec

/-- The loop of `Rule::markDirty`: every output of `r` has been processed. -/
theorem rule_markDirty_spec {g : Graph} {D : NodeId → RuleId → Bool} {r : RuleId}
    {nodeMarkDirty : Graph → NodeId → Outcome Graph}
    (hspec : ∀ o ∈ (g.rule r).outputs, ∀ h : Graph, h.links = g.links → h.ExactBut D →
      ∃ h', nodeMarkDirty h o = .ok h' ∧ h.MarkedAbove o h' ∧ h'.ExactBut D)
    (hD : g.ExactBut D) :
    ∃ g', Rule.markDirty nodeMarkDirty g r = .ok g' ∧
      g.Marked (aboveRule g.links r) (consumers g.links (aboveRule g.links r) ∪ {r}) g' ∧
      g'.ExactBut D := by
  obtain ⟨g₁, hloop, hmarked, hexact⟩ := Lib.foldlM_rule (f := nodeMarkDirty) (s := g)
    (l := (g.rule r).outputs)
    (fun pre h ↦ g.Marked {m | ∃ o ∈ pre, m ∈ g.links.Above o}
      (consumers g.links {m | ∃ o ∈ pre, m ∈ g.links.Above o}) h ∧ h.ExactBut D)
    ⟨(Marked.refl g).congr (by simp) (by simp [consumers]), hD⟩
    (by
      intro pre o post h hl ⟨hm, he⟩
      obtain ⟨h', hrun, hm', he'⟩ := hspec o (by simp [hl]) h hm.links he
      refine ⟨h', hrun, (hm.trans hm').congr ?_ ?_, he'⟩
      · rw [hm.links]
        ext m
        simp [or_and_right, exists_or]
      · rw [hm.links]
        ext q
        simp only [consumers, Set.mem_union, Set.mem_ofPred_eq, List.mem_append,
          List.mem_singleton]
        grind)
  refine ⟨g₁.updateRule r (·.setState .outOfDate), ?_, ?_, ?_⟩
  · simp [Rule.markDirty, hloop]
  · exact (hmarked.trans (g₁.marked_setRuleState r)).congr (Set.union_empty _) rfl
  · refine hexact.congr (g₁.marked_setRuleState r).links (fun _ ↦ rfl) fun q ↦ ?_
    exact proj_setRule Rule.numInputsReady (x := (g₁.rule r).setState .outOfDate) rfl q

/-- The pending decrements while the parents in `told` of a fresh node `n` have
been processed. -/
def debtOf (D : NodeId → RuleId → Bool) (n : NodeId) (told : List RuleId) (fresh : Bool) :
    NodeId → RuleId → Bool :=
  fun m q ↦ D m q || (fresh && decide (m = n ∧ q ∈ told))

@[simp] theorem debtOf_nil (D : NodeId → RuleId → Bool) (n : NodeId) (fresh : Bool) :
    debtOf D n [] fresh = D := by
  funext m q
  simp [debtOf]

@[simp] theorem debtOf_stale (D : NodeId → RuleId → Bool) (n : NodeId) (told : List RuleId) :
    debtOf D n told false = D := by
  funext m q
  simp [debtOf]

theorem addDebt_debtOf (D : NodeId → RuleId → Bool) (n : NodeId) (told : List RuleId)
    (r : RuleId) :
    addDebt (debtOf D n told true) n r = debtOf D n (told ++ [r]) true := by
  funext m q
  by_cases hm : m = n <;> by_cases hq : q = r <;> simp [addDebt, debtOf, hm, hq]

/-- The nodes and rules marked once the parents in `told` have been processed. -/
def MarkedParents (g : Graph) (told : List RuleId) (g' : Graph) : Prop :=
  g.Marked (⋃ r ∈ told, aboveRule g.links r)
    (⋃ r ∈ told, (consumers g.links (aboveRule g.links r) ∪ {r})) g'

theorem MarkedParents.snoc {g h h' : Graph} {told : List RuleId} {r : RuleId}
    (hm : g.MarkedParents told h)
    (hm' : h.Marked (aboveRule h.links r) (consumers h.links (aboveRule h.links r) ∪ {r}) h') :
    g.MarkedParents (told ++ [r]) h' := by
  refine (Marked.trans hm hm').congr ?_ ?_
  · rw [hm.links]
    ext m
    simp [or_and_right, exists_or]
  · rw [hm.links]
    ext m
    simp only [Set.mem_union, Set.mem_iUnion, exists_prop, List.mem_append, List.mem_singleton]
    grind

/-- Marking above the parents of a node does not reach the node itself. -/
theorem MarkedParents.isDirty_self {g g' : Graph} {told : List RuleId} {n : NodeId}
    (hL : g.links.TwoWay) (hac : g.links.Acyclic) (hm : g.MarkedParents told g')
    (hsub : ∀ r ∈ told, r ∈ (g.node n).parentRules) :
    (g'.node n).isDirty = (g.node n).isDirty := by
  rw [Bool.eq_iff_iff, Marked.node hm]
  refine or_iff_right fun hmem ↦ ?_
  simp only [Set.mem_iUnion, exists_prop] at hmem
  obtain ⟨r, hr, o, ho, hno⟩ := hmem
  exact Links.not_mem_Above_of_parent hL hac (hsub r hr) ho hno

/-- One parent rule of `n`: the recursion runs strictly above `n`, and a node
that still counted as ready owes the rule one decrement. -/
theorem markParentDirty_spec {g h : Graph} {n : NodeId} {D : NodeId → RuleId → Bool}
    {nodeMarkDirty : Graph → NodeId → Outcome Graph} {pre : List RuleId} {r : RuleId}
    (hL : g.links.TwoWay) (hac : g.links.Acyclic)
    (hspec : ∀ o ∈ g.links.outputs r, ∀ k : Graph, k.links = g.links →
      ∀ D', k.ExactBut D' → (∀ m q, D' m q = true → m ∉ g.links.Above o) →
      ∃ k', nodeMarkDirty k o = .ok k' ∧ k.MarkedAbove o k' ∧ k'.ExactBut D')
    (hpend : ∀ m q, D m q = true → m ∉ g.links.Above n)
    (hsub : ∀ q ∈ pre ++ [r], q ∈ (g.node n).parentRules) (hnew : r ∉ pre)
    (hm : g.MarkedParents pre h)
    (he : h.ExactBut (debtOf D n pre (!(g.node n).isSource && !(g.node n).isDirty))) :
    ∃ h', Node.markParentDirty nodeMarkDirty n h r = .ok h' ∧ g.MarkedParents (pre ++ [r]) h' ∧
      h'.ExactBut (debtOf D n (pre ++ [r]) (!(g.node n).isSource && !(g.node n).isDirty)) := by
  have hr : r ∈ (g.node n).parentRules := hsub r (by simp)
  have hspec' : ∀ o ∈ (h.rule r).outputs, ∀ k : Graph, k.links = h.links →
      k.ExactBut (debtOf D n pre (!(g.node n).isSource && !(g.node n).isDirty)) →
      ∃ k', nodeMarkDirty k o = .ok k' ∧ k.MarkedAbove o k' ∧
        k'.ExactBut (debtOf D n pre (!(g.node n).isSource && !(g.node n).isDirty)) := by
    intro o ho k hk hek
    have ho' : o ∈ g.links.outputs r := hm.links ▸ ho
    refine hspec o ho' k (hk.trans hm.links) _ hek fun m q hmq ↦ ?_
    simp only [debtOf, Bool.or_eq_true, Bool.and_eq_true, decide_eq_true_eq] at hmq
    rcases hmq with hDm | ⟨-, rfl, -⟩
    · exact fun hmo ↦ hpend m q hDm
        (Links.Above_of_feeds (hL.feeds_iff.mpr ⟨r, hr, ho'⟩) hmo)
    · exact Links.not_mem_Above_of_parent hL hac hr ho'
  obtain ⟨h₁, hrun, hm₁, he₁⟩ := rule_markDirty_spec hspec' he
  have hm₂ := hm.snoc hm₁
  have hdirty : (h₁.node n).isDirty = (g.node n).isDirty := hm₂.isDirty_self hL hac hsub
  have hsource : (h₁.node n).isSource = (g.node n).isSource := isSource_of_links hm₂.links n
  simp only [Node.markParentDirty, hrun, Lib.except_ok_bind, hdirty, hsource]
  cases hfresh : (!(g.node n).isSource && !(g.node n).isDirty) with
  | false => exact ⟨h₁, by simp, hm₂, by simpa [hfresh] using he₁⟩
  | true =>
      rw [hfresh] at he₁
      have hready : h₁.inputReady n = true := by
        simp only [Bool.and_eq_true] at hfresh
        rw [inputReady, hdirty, hfresh.2, Bool.or_true]
      have hDn : debtOf D n pre true n r = false := by
        have hDnr : D n r = false := by
          by_contra hne
          exact hpend n r (by simpa using hne) (Links.self_mem_Above n)
        simp [debtOf, hDnr, hnew]
      obtain ⟨h₂, hrun₂, hm₃, he₂⟩ := ExactBut.markInputDirty (n := n) he₁ (hm₂.links ▸ hL)
        (parentRules_of_links hm₂.links n ▸ hr) hready hDn
      refine ⟨h₂, by simp [hrun₂], ?_, ?_⟩
      · exact (Marked.trans hm₂ hm₃).congr (Set.union_empty _) (Set.union_empty _)
      · rw [addDebt_debtOf] at he₂
        exact he₂

theorem markDirty_spec_but {fuel : ℕ} {g : Graph} {n : NodeId} {D : NodeId → RuleId → Bool}
    (hL : g.links.TwoWay) (hac : g.links.Acyclic) (hrank : g.links.rankAbove n < fuel)
    (hD : g.ExactBut D) (hpend : ∀ m r, D m r = true → m ∉ g.links.Above n) :
    ∃ g', Node.markDirty fuel g n = .ok g' ∧ g.MarkedAbove n g' ∧ g'.ExactBut D := by
  induction fuel generalizing g n D with
  | zero => omega
  | succ fuel ih =>
      obtain ⟨g₁, hloop, hmarked, hexact⟩ := Lib.foldlM_rule (s := g)
        (l := (g.node n).parentRules) (f := Node.markParentDirty (Node.markDirty fuel) n)
        (fun pre h ↦ g.MarkedParents pre h ∧
          h.ExactBut (debtOf D n pre (!(g.node n).isSource && !(g.node n).isDirty)))
        ⟨(Marked.refl g).congr (by simp) (by simp), by simpa using hD⟩
        (by
          intro pre r post h hl ⟨hm, he⟩
          have hnodup : (pre ++ r :: post).Nodup := hl ▸ hL.parents_nodup n
          refine markParentDirty_spec hL hac ?_ hpend ?_ ?_ hm he
          · intro o ho k hk D' hD' hpend'
            have hr : r ∈ g.links.parents n := by
              change r ∈ (g.node n).parentRules
              simp [hl]
            have hlt := Links.rankAbove_lt hL hac hr ho
            exact ih (hk ▸ hL) (hk ▸ hac) (by rw [hk]; omega) hD' (by rwa [hk])
          · intro q hq
            rw [hl]
            simp only [List.mem_append, List.mem_cons, List.not_mem_nil, or_false] at hq ⊢
            exact hq.imp id Or.inl
          · exact fun hmem ↦ (List.nodup_append.mp hnodup).2.2 r hmem r (by simp) rfl)
      have hset := g₁.marked_setNodeState n
      refine ⟨g₁.updateNode n (·.setState .outOfDate), by simp [Node.markDirty, hloop], ?_, ?_⟩
      · refine (Marked.trans hmarked hset).congr ?_ ?_
        · rw [Above_eq_aboveRule hL, Set.union_comm]
          rfl
        · rw [consumers_Above hL, Set.union_empty]
          rfl
      · have hself := hmarked.isDirty_self hL hac fun _ h ↦ h
        apply hexact.settle (hmarked.links ▸ hL)
        · intro m r hmn
          simp [debtOf, hmn]
        · intro r hsrc
          rw [isSource_of_links hmarked.links] at hsrc
          simp [debtOf, hsrc]
        · intro r hr hready hsrc
          rw [parentRules_of_links hmarked.links] at hr
          rw [inputReady, hsrc, hself] at hready
          rw [isSource_of_links hmarked.links] at hsrc
          simp only [Bool.false_or] at hready
          simp [debtOf, hsrc, hready, hr]

/-- On an acyclic graph with exact counters, `Node::markDirty` returns without
violating an assertion, marks what lies above the node and the rules that use
any of it, and leaves the counters exact. -/
theorem markDirty_spec {g : Graph} (hL : g.links.TwoWay) (hac : g.links.Acyclic)
    (hexact : g.Exact) (n : NodeId) {fuel : ℕ} (hfuel : g.links.rankAbove n < fuel) :
    ∃ g', Node.markDirty fuel g n = .ok g' ∧ g.MarkedAbove n g' ∧ g'.Exact := by
  obtain ⟨g', hrun, hmarked, hex⟩ := markDirty_spec_but hL hac hfuel
    (g.exactBut_false.mpr hexact) (by simp)
  exact ⟨g', hrun, hmarked, g'.exactBut_false.mp hex⟩

end Graph

end Falcon
