import Falcon.Graph.Counted

/-!
# Links while rules are taken apart

The reloader takes a rule apart and puts it together again.  Meanwhile some
nodes hang loose: they have the rule as a parent, but are none of its inputs.
-/

namespace Falcon

namespace Graph

/-- The links agree when what hangs loose counts as an input, every rule has an
output, and a node is found under its path. -/
structure Woven (g : Graph) (loose : RuleId → List NodeId) : Prop where
  parents : ∀ n r, r ∈ (g.node n).parentRules ↔ r ∈ g.rules ∧ n ∈ (g.rule r).inputs ++ loose r
  child : ∀ n r, (g.node n).childRule = some r ↔ r ∈ g.rules ∧ n ∈ (g.rule r).outputs
  parents_nodup : ∀ n, (g.node n).parentRules.Nodup
  inputs_nodup : ∀ r ∈ g.rules, ((g.rule r).inputs ++ loose r).Nodup
  outputs_nodup : ∀ r ∈ g.rules, (g.rule r).outputs.Nodup
  rules_nodup : g.rules.Nodup
  output : ∀ r ∈ g.rules, (g.rule r).outputs ≠ []
  allocated : ∀ r ∈ g.rules, ∀ n, n ∈ (g.rule r).inputs ++ loose r ∨ n ∈ (g.rule r).outputs →
    n ∈ g.allocated
  lookup : ∀ n ∈ g.allocated, g.nodes.lookup (g.node n).path = some n
  nodes : ∀ e ∈ g.nodes, e.2 ∈ g.allocated ∧ (g.node e.2).path = e.1

variable {ω : Type} {P : Platform ω} {g g' : Graph} {loose loose' : RuleId → List NodeId}
  {n m : NodeId} {r : RuleId}

namespace Woven

theorem joined (h : g.Woven fun _ ↦ []) : g.Joined where
  twoWay := by
    refine ⟨fun n r ↦ ?_, h.child, h.parents_nodup, fun r hr ↦ ?_, h.outputs_nodup⟩
    · have hiff := h.parents n r
      rwa [List.append_nil] at hiff
    · have hnodup := h.inputs_nodup r hr
      rwa [List.append_nil] at hnodup
  allocated r hr n hn := by
    apply h.allocated r hr n
    rwa [List.append_nil]
  nodes := h.nodes

theorem path_injective (h : g.Woven loose) (hm : m ∈ g.allocated) (hn : n ∈ g.allocated)
    (heq : (g.node m).path = (g.node n).path) : m = n := by
  have hlookup := h.lookup m hm
  rw [heq, h.lookup n hn] at hlookup
  exact (Option.some.inj hlookup).symm

theorem parents_allocated (h : g.Woven loose) (hn : n ∉ g.allocated) :
    (g.node n).parentRules = [] := by
  rw [List.eq_nil_iff_forall_not_mem]
  intro r hr
  obtain ⟨hrules, hin⟩ := (h.parents n r).mp hr
  exact hn (h.allocated r hrules n (Or.inl hin))

theorem child_allocated (h : g.Woven loose) (hn : n ∉ g.allocated) :
    (g.node n).childRule = none := by
  cases hchild : (g.node n).childRule with
  | none => rfl
  | some r =>
      obtain ⟨hr, hout⟩ := (h.child n r).mp hchild
      exact absurd (h.allocated r hr n (Or.inr hout)) hn

theorem lookup_eq_none (h : g.Woven loose) {path : String} (hnone : g.nodes.lookup path = none)
    (hn : n ∈ g.allocated) : (g.node n).path ≠ path := by
  rintro rfl
  rw [h.lookup n hn] at hnone
  cases hnone

theorem mem_of_lookup (h : g.Woven loose) {path : String} (hlookup : g.nodes.lookup path = some n) :
    n ∈ g.allocated ∧ (g.node n).path = path :=
  h.nodes (path, n) (Lib.mem_of_lookup_eq_some hlookup)

/-- Inputs may come loose and be put back, in any order. -/
theorem congr (h : g.Woven loose)
    (hnode : ∀ n, (g'.node n).path = (g.node n).path ∧
      (g'.node n).childRule = (g.node n).childRule ∧
        (g'.node n).parentRules = (g.node n).parentRules)
    (hrules : g'.rules = g.rules) (hallocated : g'.allocated = g.allocated)
    (hnodes : g'.nodes = g.nodes)
    (houtputs : ∀ r ∈ g.rules, (g'.rule r).outputs = (g.rule r).outputs)
    (hinputs : ∀ r ∈ g.rules,
      ((g'.rule r).inputs ++ loose' r).Perm ((g.rule r).inputs ++ loose r)) :
    g'.Woven loose' := by
  constructor
  · intro n r
    rw [(hnode n).2.2, h.parents, hrules]
    exact and_congr_right fun hr ↦ (hinputs r hr).mem_iff.symm
  · intro n r
    rw [(hnode n).2.1, h.child, hrules]
    exact and_congr_right fun hr ↦ by rw [houtputs r hr]
  · intro n
    rw [(hnode n).2.2]
    exact h.parents_nodup n
  · intro r hr
    rw [hrules] at hr
    exact (hinputs r hr).nodup_iff.mpr (h.inputs_nodup r hr)
  · intro r hr
    rw [hrules] at hr
    rw [houtputs r hr]
    exact h.outputs_nodup r hr
  · rw [hrules]
    exact h.rules_nodup
  · intro r hr
    rw [hrules] at hr
    rw [houtputs r hr]
    exact h.output r hr
  · intro r hr n hn
    rw [hrules] at hr
    rw [(hinputs r hr).mem_iff, houtputs r hr] at hn
    rw [hallocated]
    exact h.allocated r hr n hn
  · intro n hn
    rw [hallocated] at hn
    rw [(hnode n).1, hnodes]
    exact h.lookup n hn
  · intro e he
    rw [hnodes] at he
    rw [hallocated, (hnode e.2).1]
    exact h.nodes e he

theorem of_links (h : g.Woven loose) (hl : g'.links = g.links) : g'.Woven loose := by
  have hnodes : g'.nodes = g.nodes := congrArg Links.nodes hl
  apply h.congr
  · intro n
    exact ⟨path_of_links hl n, childRule_of_links hl n, parentRules_of_links hl n⟩
  · exact rules_of_links hl
  · exact allocated_of_links hl
  · exact hnodes
  · exact fun r _ ↦ outputs_of_links hl r
  · intro r _
    rw [inputs_of_links hl]

/-- A node gets a parent that does not have it as an input yet. -/
theorem hang (h : g.Woven loose) (hr : r ∈ g.rules) (hn : n ∈ g.allocated)
    (hno : n ∉ (g.rule r).inputs ++ loose r) :
    (g.updateNode n (·.addParentRule r)).Woven (Function.update loose r (n :: loose r)) := by
  have hpath : ∀ m, ((g.updateNode n (·.addParentRule r)).node m).path = (g.node m).path :=
    proj_setNode Node.path rfl
  have hchild : ∀ m,
      ((g.updateNode n (·.addParentRule r)).node m).childRule = (g.node m).childRule :=
    proj_setNode Node.childRule rfl
  have hnot : r ∉ (g.node n).parentRules := fun hin ↦ hno ((h.parents n r).mp hin).2
  have hparents : ∀ m, ((g.updateNode n (·.addParentRule r)).node m).parentRules =
      if m = n then (g.node m).parentRules ++ [r] else (g.node m).parentRules := by
    intro m
    rw [updateNode, setNode_node]
    split
    · rename_i heq
      rw [heq]
      rfl
    · rfl
  have hself : Function.update loose r (n :: loose r) r = n :: loose r := Function.update_self ..
  have hother : ∀ q, q ≠ r → Function.update loose r (n :: loose r) q = loose q :=
    fun q hq ↦ Function.update_of_ne hq ..
  have hmem : ∀ m q, m ∈ (g.rule q).inputs ++ Function.update loose r (n :: loose r) q ↔
      m ∈ (g.rule q).inputs ++ loose q ∨ q = r ∧ m = n := by
    intro m q
    by_cases hq : q = r
    · subst hq
      rw [hself]
      simp only [List.mem_append, List.mem_cons, true_and]
      tauto
    · rw [hother q hq]
      simp [hq]
  constructor
  · intro m q
    change _ ↔ q ∈ g.rules ∧ m ∈ (g.rule q).inputs ++ _
    rw [hparents, hmem]
    by_cases hm : m = n
    · rw [if_pos hm, List.mem_append, h.parents, List.mem_singleton]
      constructor
      · rintro (⟨hq, hin⟩ | rfl)
        · exact ⟨hq, Or.inl hin⟩
        · exact ⟨hr, Or.inr ⟨rfl, hm⟩⟩
      · rintro ⟨hq, hin | ⟨heq, -⟩⟩
        · exact Or.inl ⟨hq, hin⟩
        · exact Or.inr heq
    · rw [if_neg hm, h.parents]
      simp [hm]
  · intro m q
    rw [hchild]
    exact h.child m q
  · intro m
    rw [hparents]
    split
    · rename_i hm
      subst hm
      refine (h.parents_nodup m).append (List.nodup_singleton r) ?_
      rw [List.disjoint_singleton]
      exact hnot
    · exact h.parents_nodup m
  · intro q hq
    change ((g.rule q).inputs ++ _).Nodup
    by_cases heq : q = r
    · subst heq
      rw [hself, List.perm_middle.nodup_iff]
      exact List.nodup_cons.mpr ⟨hno, h.inputs_nodup q hq⟩
    · rw [hother q heq]
      exact h.inputs_nodup q hq
  · exact h.outputs_nodup
  · exact h.rules_nodup
  · exact h.output
  · intro q hq m hin
    change m ∈ (g.rule q).inputs ++ _ ∨ _ at hin
    rw [hmem] at hin
    rcases hin with (hin | ⟨-, rfl⟩) | hout
    · exact h.allocated q hq m (Or.inl hin)
    · exact hn
    · exact h.allocated q hq m (Or.inr hout)
  · intro m hm
    rw [hpath]
    exact h.lookup m hm
  · intro e he
    rw [hpath]
    exact h.nodes e he

/-- A node that hangs loose loses the rule as a parent. -/
theorem unlink (h : g.Woven loose) (hr : r ∈ g.rules) (hn : n ∈ loose r) :
    (g.unlink r n).Woven (Function.update loose r ((loose r).erase n)) := by
  have hpath : ∀ m, ((g.unlink r n).node m).path = (g.node m).path := proj_setNode Node.path rfl
  have hchild : ∀ m, ((g.unlink r n).node m).childRule = (g.node m).childRule :=
    proj_setNode Node.childRule rfl
  have hnodup := h.inputs_nodup r hr
  have hnot : n ∉ (g.rule r).inputs := fun hin ↦
    List.disjoint_of_nodup_append hnodup hin hn
  have hself : Function.update loose r ((loose r).erase n) r = (loose r).erase n :=
    Function.update_self ..
  have hother : ∀ q, q ≠ r → Function.update loose r ((loose r).erase n) q = loose q :=
    fun q hq ↦ Function.update_of_ne hq ..
  have hmem : ∀ m q, m ∈ (g.rule q).inputs ++ Function.update loose r ((loose r).erase n) q ↔
      m ∈ (g.rule q).inputs ++ loose q ∧ ¬ (q = r ∧ m = n) := by
    intro m q
    by_cases hq : q = r
    · subst hq
      rw [hself, List.mem_append, List.mem_append,
        List.Nodup.mem_erase_iff (List.Nodup.of_append_right hnodup)]
      constructor
      · rintro (hin | ⟨hne, hin⟩)
        · exact ⟨Or.inl hin, fun heq ↦ hnot (heq.2 ▸ hin)⟩
        · exact ⟨Or.inr hin, fun heq ↦ hne heq.2⟩
      · rintro ⟨hin | hin, hne⟩
        · exact Or.inl hin
        · exact Or.inr ⟨fun heq ↦ hne ⟨rfl, heq⟩, hin⟩
    · rw [hother q hq]
      simp [hq]
  constructor
  · intro m q
    change _ ↔ q ∈ g.rules ∧ m ∈ (g.rule q).inputs ++ _
    rw [hmem]
    by_cases hm : m = n
    · subst hm
      rw [unlink_node_self]
      change q ∈ (g.node m).parentRules.erase r ↔ _
      rw [(h.parents_nodup m).mem_erase_iff, h.parents]
      tauto
    · rw [unlink_node_ne hm, h.parents]
      simp [hm]
  · intro m q
    rw [hchild]
    exact h.child m q
  · intro m
    by_cases hm : m = n
    · subst hm
      rw [unlink_node_self]
      exact (h.parents_nodup m).erase r
    · rw [unlink_node_ne hm]
      exact h.parents_nodup m
  · intro q hq
    change ((g.rule q).inputs ++ _).Nodup
    by_cases heq : q = r
    · subst heq
      rw [hself]
      exact hnodup.sublist (List.erase_sublist.append_left _)
    · rw [hother q heq]
      exact h.inputs_nodup q hq
  · exact h.outputs_nodup
  · exact h.rules_nodup
  · exact h.output
  · intro q hq m hin
    change m ∈ (g.rule q).inputs ++ _ ∨ _ at hin
    rw [hmem] at hin
    exact h.allocated q hq m (hin.imp_left And.left)
  · intro m hm
    rw [hpath]
    exact h.lookup m hm
  · intro e he
    rw [hpath]
    exact h.nodes e he

/-- A new node, under a path that no node has. -/
theorem insertNode (h : g.Woven loose) (hn : n ∉ g.allocated) {x : Node}
    (hlinks : x.childRule = none ∧ x.parentRules = []) (hpath : g.nodes.lookup x.path = none)
    (hnode : g'.node = Function.update g.node n x) (hrule : g'.rule = g.rule)
    (hrules : g'.rules = g.rules) (hallocated : g'.allocated = insert n g.allocated)
    (hnodes : g'.nodes = g.nodes ++ [(x.path, n)]) : g'.Woven loose := by
  have hself : g'.node n = x := by rw [hnode, Function.update_self]
  have hother : ∀ m, m ≠ n → g'.node m = g.node m :=
    fun m hm ↦ by rw [hnode, Function.update_of_ne hm]
  have hmem : ∀ m ∈ g.allocated, m ≠ n := fun m hm heq ↦ hn (heq ▸ hm)
  have hparents : ∀ m, (g'.node m).parentRules = (g.node m).parentRules := by
    intro m
    by_cases hm : m = n
    · rw [hm, hself, hlinks.2, h.parents_allocated hn]
    · rw [hother m hm]
  have hchild : ∀ m, (g'.node m).childRule = (g.node m).childRule := by
    intro m
    by_cases hm : m = n
    · rw [hm, hself, hlinks.1, h.child_allocated hn]
    · rw [hother m hm]
  constructor
  · intro m r
    rw [hparents, hrules, hrule]
    exact h.parents m r
  · intro m r
    rw [hchild, hrules, hrule]
    exact h.child m r
  · intro m
    rw [hparents]
    exact h.parents_nodup m
  · rw [hrules, hrule]
    exact h.inputs_nodup
  · rw [hrules, hrule]
    exact h.outputs_nodup
  · rw [hrules]
    exact h.rules_nodup
  · rw [hrules, hrule]
    exact h.output
  · intro r hr m hm
    rw [hrules] at hr
    rw [hrule] at hm
    rw [hallocated]
    exact Finset.mem_insert_of_mem (h.allocated r hr m hm)
  · intro m hm
    rw [hnodes]
    apply Lib.lookup_snoc_eq_some_iff.mpr
    by_cases heq : m = n
    · rw [heq, hself]
      exact Or.inr ⟨hpath, rfl, rfl⟩
    · rw [hallocated] at hm
      rw [hother m heq]
      exact Or.inl (h.lookup m ((Finset.mem_insert.mp hm).resolve_left heq))
  · intro e he
    rw [hnodes] at he
    rw [hallocated]
    rcases List.mem_append.mp he with he | he
    · obtain ⟨hin, hpath⟩ := h.nodes e he
      rw [hother e.2 (hmem e.2 hin)]
      exact ⟨Finset.mem_insert_of_mem hin, hpath⟩
    · rw [List.mem_singleton.mp he, hself]
      exact ⟨Finset.mem_insert_self n _, rfl⟩

/-- A node without links is forgotten. -/
theorem removeNode (h : g.Woven loose) (hn : n ∈ g.allocated)
    (hparents : (g.node n).parentRules = []) (hchild : (g.node n).childRule = none)
    (hnode : g'.node = g.node) (hrule : g'.rule = g.rule)
    (hrules : g'.rules = g.rules) (hallocated : g'.allocated = g.allocated.erase n)
    (hnodes : g'.nodes = g.nodes.filter fun e ↦ e.1 ≠ (g.node n).path) : g'.Woven loose := by
  constructor
  · rw [hnode, hrules, hrule]
    exact h.parents
  · rw [hnode, hrules, hrule]
    exact h.child
  · rw [hnode]
    exact h.parents_nodup
  · rw [hrules, hrule]
    exact h.inputs_nodup
  · rw [hrules, hrule]
    exact h.outputs_nodup
  · rw [hrules]
    exact h.rules_nodup
  · rw [hrules, hrule]
    exact h.output
  · intro r hr m hm
    rw [hrules] at hr
    rw [hrule] at hm
    rw [hallocated]
    refine Finset.mem_erase.mpr ⟨?_, h.allocated r hr m hm⟩
    rintro rfl
    rcases hm with hm | hm
    · have hp := (h.parents m r).mpr ⟨hr, hm⟩
      rw [hparents] at hp
      cases hp
    · have hc := (h.child m r).mpr ⟨hr, hm⟩
      rw [hchild] at hc
      cases hc
  · intro m hm
    rw [hallocated] at hm
    obtain ⟨hne, hm⟩ := Finset.mem_erase.mp hm
    have hpath : (g.node m).path ≠ (g.node n).path :=
      fun heq ↦ hne (h.path_injective hm hn heq)
    rw [hnode, hnodes, Lib.lookup_filter]
    · exact h.lookup m hm
    · intro e he
      simpa [he] using hpath
  · intro e he
    rw [hnodes] at he
    rw [hallocated, hnode]
    obtain ⟨he, hne⟩ := List.mem_filter.mp he
    obtain ⟨hin, hpath⟩ := h.nodes e he
    refine ⟨Finset.mem_erase.mpr ⟨fun heq ↦ ?_, hin⟩, hpath⟩
    rw [heq] at hpath
    simp [hpath] at hne

/-- A rule gets other outputs, which no other rule has. -/
theorem setOutputs (h : g.Woven loose) (hr : r ∈ g.rules) {outputs : List NodeId}
    (hnodup : outputs.Nodup) (hne : outputs ≠ [])
    (hfree : ∀ o ∈ outputs, o ∈ g.allocated ∧
      ∀ q, (g.node o).childRule = some q → q = r)
    (hnode : ∀ m, (g'.node m).path = (g.node m).path ∧
      (g'.node m).parentRules = (g.node m).parentRules ∧ (g'.node m).childRule =
        if m ∈ outputs then some r
        else if (g.node m).childRule = some r then none else (g.node m).childRule)
    (hself : (g'.rule r).outputs = outputs)
    (hrule : ∀ q, (g'.rule q).inputs = (g.rule q).inputs ∧
      (q ≠ r → (g'.rule q).outputs = (g.rule q).outputs))
    (hrules : g'.rules = g.rules) (hallocated : g'.allocated = g.allocated)
    (hnodes : g'.nodes = g.nodes) : g'.Woven loose := by
  constructor
  · intro m q
    rw [(hnode m).2.1, hrules, (hrule q).1]
    exact h.parents m q
  · intro m q
    rw [(hnode m).2.2, hrules]
    by_cases hq : q = r
    · rw [hq, hself]
      by_cases hm : m ∈ outputs
      · simp [hm, hr]
      · rw [if_neg hm]
        split
        · simp [hm]
        · rename_i hno
          simp [hno, hm]
    · rw [(hrule q).2 hq, ← h.child]
      by_cases hm : m ∈ outputs
      · rw [if_pos hm]
        constructor
        · intro heq
          exact absurd (Option.some.inj heq).symm hq
        · intro heq
          exact absurd ((hfree m hm).2 q heq) hq
      · rw [if_neg hm]
        split
        · rename_i heq
          rw [heq]
          simp [Ne.symm hq]
        · exact Iff.rfl
  · intro m
    rw [(hnode m).2.1]
    exact h.parents_nodup m
  · intro q hq
    rw [hrules] at hq
    rw [(hrule q).1]
    exact h.inputs_nodup q hq
  · intro q hq
    rw [hrules] at hq
    by_cases heq : q = r
    · rw [heq, hself]
      exact hnodup
    · rw [(hrule q).2 heq]
      exact h.outputs_nodup q hq
  · rw [hrules]
    exact h.rules_nodup
  · intro q hq
    rw [hrules] at hq
    by_cases heq : q = r
    · rw [heq, hself]
      exact hne
    · rw [(hrule q).2 heq]
      exact h.output q hq
  · intro q hq m hm
    rw [hrules] at hq
    rw [(hrule q).1] at hm
    rw [hallocated]
    by_cases heq : q = r
    · subst heq
      rcases hm with hm | hm
      · exact h.allocated q hq m (Or.inl hm)
      · rw [hself] at hm
        exact (hfree m hm).1
    · rw [(hrule q).2 heq] at hm
      exact h.allocated q hq m hm
  · intro m hm
    rw [hallocated] at hm
    rw [(hnode m).1, hnodes]
    exact h.lookup m hm
  · intro e he
    rw [hnodes] at he
    rw [hallocated, (hnode e.2).1]
    exact h.nodes e he

/-- A rule that is not taken apart is forgotten with all its links. -/
theorem removeRule (h : g.Woven loose)
    (hnode : ∀ m, (g'.node m).path = (g.node m).path ∧
      (g'.node m).parentRules = (g.node m).parentRules.erase r ∧
      (g'.node m).childRule =
        if (g.node m).childRule = some r then none else (g.node m).childRule)
    (hrule : ∀ q, q ≠ r → (g'.rule q).inputs = (g.rule q).inputs ∧
      (g'.rule q).outputs = (g.rule q).outputs)
    (hrules : g'.rules = g.rules.erase r) (hallocated : g'.allocated = g.allocated)
    (hnodes : g'.nodes = g.nodes) : g'.Woven loose := by
  have hmem : ∀ q, q ∈ g'.rules ↔ q ≠ r ∧ q ∈ g.rules := by
    intro q
    rw [hrules, h.rules_nodup.mem_erase_iff]
  constructor
  · intro m q
    rw [(hnode m).2.1, (h.parents_nodup m).mem_erase_iff, h.parents, hmem]
    by_cases hq : q = r
    · simp [hq]
    · rw [(hrule q hq).1]
      tauto
  · intro m q
    rw [(hnode m).2.2, hmem]
    by_cases hq : q = r
    · subst hq
      split
      · simp
      · rename_i hno
        simp [hno]
    · rw [(hrule q hq).2]
      split
      · rename_i heq
        have hno : ¬ (q ∈ g.rules ∧ m ∈ (g.rule q).outputs) := by
          rw [← h.child, heq]
          simpa using Ne.symm hq
        simp [hq, hno]
      · rw [h.child]
        simp [hq]
  · intro m
    rw [(hnode m).2.1]
    exact (h.parents_nodup m).erase r
  · intro q hq
    obtain ⟨hne, hq⟩ := (hmem q).mp hq
    rw [(hrule q hne).1]
    exact h.inputs_nodup q hq
  · intro q hq
    obtain ⟨hne, hq⟩ := (hmem q).mp hq
    rw [(hrule q hne).2]
    exact h.outputs_nodup q hq
  · rw [hrules]
    exact h.rules_nodup.erase r
  · intro q hq
    obtain ⟨hne, hq⟩ := (hmem q).mp hq
    rw [(hrule q hne).2]
    exact h.output q hq
  · intro q hq m hm
    obtain ⟨hne, hq⟩ := (hmem q).mp hq
    rw [(hrule q hne).1, (hrule q hne).2] at hm
    rw [hallocated]
    exact h.allocated q hq m hm
  · intro m hm
    rw [hallocated] at hm
    rw [(hnode m).1, hnodes]
    exact h.lookup m hm
  · intro e he
    rw [hnodes] at he
    rw [hallocated, (hnode e.2).1]
    exact h.nodes e he

/-- A new rule that generates a source file, as yet from nothing. -/
theorem insertRule (h : g.Woven loose) (hr : r ∉ g.rules) (hloose : loose r = [])
    (hn : n ∈ g.allocated) (hsource : (g.node n).childRule = none)
    (hnode : ∀ m, (g'.node m).path = (g.node m).path ∧
      (g'.node m).parentRules = (g.node m).parentRules ∧
      (g'.node m).childRule = if m = n then some r else (g.node m).childRule)
    (hself : (g'.rule r).inputs = [] ∧ (g'.rule r).outputs = [n])
    (hrule : ∀ q, q ≠ r → g'.rule q = g.rule q) (hrules : g'.rules = g.rules ++ [r])
    (hallocated : g'.allocated = g.allocated) (hnodes : g'.nodes = g.nodes) :
    g'.Woven loose := by
  have hmem : ∀ q, q ∈ g'.rules ↔ q ∈ g.rules ∨ q = r := by
    intro q
    rw [hrules, List.mem_append, List.mem_singleton]
  have hne : ∀ q ∈ g.rules, q ≠ r := fun q hq heq ↦ hr (heq ▸ hq)
  constructor
  · intro m q
    rw [(hnode m).2.1, h.parents, hmem]
    by_cases hq : q = r
    · simp [hq, hr, hself.1, hloose]
    · rw [hrule q hq]
      simp [hq]
  · intro m q
    rw [(hnode m).2.2, hmem]
    by_cases hq : q = r
    · subst hq
      rw [hself.2]
      by_cases hm : m = n
      · simp [hm]
      · have hno : (g.node m).childRule ≠ some q := fun heq ↦ hr ((h.child m q).mp heq).1
        simp [hm, hno]
    · rw [hrule q hq]
      by_cases hm : m = n
      · have hno : ¬ (q ∈ g.rules ∧ m ∈ (g.rule q).outputs) := by
          rw [← h.child, hm, hsource]
          simp
        rw [if_pos hm]
        simp [Ne.symm hq, hq, hno]
      · rw [if_neg hm, h.child]
        simp [hq]
  · intro m
    rw [(hnode m).2.1]
    exact h.parents_nodup m
  · intro q hq
    rcases (hmem q).mp hq with hq | rfl
    · rw [hrule q (hne q hq)]
      exact h.inputs_nodup q hq
    · rw [hself.1, hloose]
      exact List.nodup_nil
  · intro q hq
    rcases (hmem q).mp hq with hq | rfl
    · rw [hrule q (hne q hq)]
      exact h.outputs_nodup q hq
    · rw [hself.2]
      exact List.nodup_singleton n
  · rw [hrules]
    refine h.rules_nodup.append (List.nodup_singleton r) ?_
    rw [List.disjoint_singleton]
    exact hr
  · intro q hq
    rcases (hmem q).mp hq with hq | rfl
    · rw [hrule q (hne q hq)]
      exact h.output q hq
    · rw [hself.2]
      exact List.cons_ne_nil n []
  · intro q hq m hm
    rw [hallocated]
    rcases (hmem q).mp hq with hq | rfl
    · rw [hrule q (hne q hq)] at hm
      exact h.allocated q hq m hm
    · rw [hself.1, hself.2, hloose] at hm
      simp only [List.append_nil, List.not_mem_nil, List.mem_singleton, false_or] at hm
      rw [hm]
      exact hn
  · intro m hm
    rw [hallocated] at hm
    rw [(hnode m).1, hnodes]
    exact h.lookup m hm
  · intro e he
    rw [hnodes] at he
    rw [hallocated, (hnode e.2).1]
    exact h.nodes e he

/-- A node becomes an implicit input. -/
theorem linkInput (h : g.Woven loose) (hr : r ∈ g.rules) (hloose : loose r = [])
    (hn : n ∈ g.allocated) (hno : n ∉ (g.rule r).inputs) :
    (Depfile.linkInput g r n).Woven loose := by
  have hnot : n ∉ (g.rule r).inputs ++ loose r := by
    rw [hloose, List.append_nil]
    exact hno
  have hnotParent : r ∉ (g.node n).parentRules := fun hin ↦ hnot ((h.parents n r).mp hin).2
  obtain ⟨hrules, hnodes, hallocated⟩ := linkInput_frame (g := g) (r := r) (n := n)
  apply (h.hang hr hn hnot).congr
  · intro m
    have hpath : ((Depfile.linkInput g r n).node m).path = (g.node m).path :=
      Depfile.proj_linkInput Node.path (fun _ _ ↦ rfl) n m
    have hchild : ((Depfile.linkInput g r n).node m).childRule = (g.node m).childRule :=
      Depfile.proj_linkInput Node.childRule (fun _ _ ↦ rfl) n m
    rw [hpath, hchild, updateNode, setNode_node]
    rcases linkInput_parents (g := g) r n m with ⟨heq, hself⟩ | ⟨⟨rfl, -⟩, heq⟩
    · rw [heq]
      by_cases hm : m = n
      · subst hm
        exact absurd (hself rfl) hnotParent
      · rw [if_neg hm]
        exact ⟨rfl, rfl, rfl⟩
    · rw [heq, if_pos rfl]
      exact ⟨rfl, rfl, rfl⟩
  · exact hrules
  · exact hallocated
  · exact hnodes
  · intro q _
    exact outputs_linkInput r q n
  · intro q _
    change ((Depfile.linkInput g r n).rule q).inputs ++ _ |>.Perm ((g.rule q).inputs ++ _)
    by_cases hq : q = r
    · subst hq
      rw [linkInput_rule_self, Function.update_self, hloose]
      simp [Rule.addImplicitInput]
    · rw [linkInput_rule_ne hq, Function.update_of_ne hq]

end Woven

end Graph

end Falcon
