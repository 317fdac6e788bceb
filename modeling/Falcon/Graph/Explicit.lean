import Falcon.Graph.Edits

/-!
# The explicit part of a graph

The makefile fixes the explicit inputs and the outputs of every rule.  No edit
changes them: depfiles bring and take implicit inputs, behind the explicit ones
in a rule, and add the rule behind the explicit parents of a node.
-/

namespace Falcon

open Relation

namespace Graph

variable {ω : Type} {P : Platform ω} {g₀ g g' : Graph}

/-- The node is an explicit input or an output of a rule. -/
def Declared (g : Graph) (n : NodeId) : Prop :=
  ∃ r ∈ g.rules, n ∈ Hash.explicitInputs (g.rule r) ∨ n ∈ (g.rule r).outputs

/-- The rules with the node as an explicit input, in the order of its parents. -/
def explicitParents (g : Graph) (n : NodeId) : List RuleId :=
  (g.node n).parentRules.filter fun r ↦ n ∈ Hash.explicitInputs (g.rule r)

/-- `g` has the explicit part of `g₀`. -/
structure Explicit (g₀ g : Graph) : Prop where
  rules : g.rules = g₀.rules
  inputs : ∀ r, Hash.explicitInputs (g.rule r) = Hash.explicitInputs (g₀.rule r)
  outputs : ∀ r, (g.rule r).outputs = (g₀.rule r).outputs
  command : ∀ r, (g.rule r).command = (g₀.rule r).command
  node : ∀ n, g₀.Declared n → (g.node n).path = (g₀.node n).path ∧
    (g.node n).childRule = (g₀.node n).childRule ∧
      (g.node n).isExplicitDependency = (g₀.node n).isExplicitDependency

theorem Explicit.refl (g : Graph) : Explicit g g :=
  ⟨rfl, fun _ ↦ rfl, fun _ ↦ rfl, fun _ ↦ rfl, fun _ _ ↦ ⟨rfl, rfl, rfl⟩⟩

theorem Explicit.declared_iff (h : Explicit g₀ g) (n : NodeId) : g.Declared n ↔ g₀.Declared n := by
  simp only [Declared, h.rules, h.inputs, h.outputs]

theorem Wired.allocated (h : g.Wired) {n : NodeId} (hn : g.Declared n) : n ∈ g.allocated := by
  obtain ⟨r, hr, hin | hout⟩ := hn
  · exact (h.inputs r hr n (List.mem_of_mem_take hin)).2
  · exact (h.child n r (h.outputs r hr n hout)).2.2

theorem explicitInputs_of_relink (hstep : Relink P g g') (q : RuleId) :
    Hash.explicitInputs (g'.rule q) = Hash.explicitInputs (g.rule q) := by
  cases hstep with
  | count r numReady =>
      rw [setRule_rule]
      split
      · rename_i heq
        rw [heq]
        rfl
      · rfl
  | cut r =>
      by_cases hq : q = r
      · rw [hq, cutImplicit_rule_self]
        simp [Hash.explicitInputs]
      · rw [cutImplicit_rule_ne hq]
  | @link r n _ _ _ =>
      by_cases hq : q = r
      · have hle : (g.rule r).inputs.length - (g.rule r).numImplicitDeps ≤
            (g.rule r).inputs.length := Nat.sub_le _ _
        rw [hq, linkInput_rule_self]
        simp only [Hash.explicitInputs, Rule.addImplicitInput, List.length_append,
          List.length_singleton, Nat.add_sub_add_right]
        exact List.take_append_of_le_length hle
      · rw [linkInput_rule_ne hq]
  | register _ hrun =>
      obtain ⟨roots, sources, -, rfl⟩ := Depfile.addNode_eq hrun
      rfl
  | create | unlink | delete => rfl

theorem explicitInputs_of_edit (hstep : Edit P g g') (q : RuleId) :
    Hash.explicitInputs (g'.rule q) = Hash.explicitInputs (g.rule q) := by
  have hof : ∀ {k : Graph}, k.links = g.links →
      Hash.explicitInputs (k.rule q) = Hash.explicitInputs (g.rule q) := by
    intro k hl
    have hnum : (k.rule q).numImplicitDeps = (g.rule q).numImplicitDeps :=
      congrFun (congrArg Links.numImplicit hl) q
    rw [Hash.explicitInputs, Hash.explicitInputs, inputs_of_links hl, hnum]
  cases hstep with
  | relink h => exact explicitInputs_of_relink h q
  | hashNode hrun => exact hof (Hash.updateNodeHash_links hrun).1
  | hashRule hrun => exact hof (Hash.updateRuleHash_links hrun).1

namespace Explicit

theorem edit (h : Explicit g₀ g) (hg : g.Wired) (hstep : Edit P g g') : Explicit g₀ g' where
  rules := (rules_of_edits (.single hstep)).trans h.rules
  inputs r := (explicitInputs_of_edit hstep r).trans (h.inputs r)
  outputs r := by
    obtain ⟨_, _, _, _, _, hrule⟩ := rule_of_edit hstep r
    rw [hrule]
    exact h.outputs r
  command r := by
    obtain ⟨_, _, _, _, _, hrule⟩ := rule_of_edit hstep r
    rw [hrule]
    exact h.command r
  node n hn := by
    rcases node_of_edit hstep n with ⟨_, _, _, hnode⟩ | ⟨hfree, -⟩
    · rw [hnode]
      exact h.node n hn
    · exact absurd (hg.allocated ((h.declared_iff n).mpr hn)) hfree

theorem edits (h : Explicit g₀ g) (hg : g.Wired) (hrun : Edits P g g') : Explicit g₀ g' := by
  induction hrun with
  | refl => exact h
  | tail hrun hstep ih => exact ih.edit (hg.edits hrun) hstep

theorem of_links (h : Explicit g₀ g) (hl : g'.links = g.links) : Explicit g₀ g' where
  rules := (rules_of_links hl).trans h.rules
  inputs r := by
    have hnum : (g'.rule r).numImplicitDeps = (g.rule r).numImplicitDeps :=
      congrFun (congrArg Links.numImplicit hl) r
    rw [Hash.explicitInputs, inputs_of_links hl, hnum]
    exact h.inputs r
  outputs r := (outputs_of_links hl r).trans (h.outputs r)
  command r := (command_of_links hl r).trans (h.command r)
  node n hn := by
    have hflag : (g'.node n).isExplicitDependency = (g.node n).isExplicitDependency :=
      congrFun (congrArg Links.isExplicit hl) n
    rw [path_of_links hl, childRule_of_links hl, hflag]
    exact h.node n hn

end Explicit

/-! ## Explicit parents stand first -/

/-- The explicit parents of `g₀` are the first parents of the node. -/
def ExplicitFirst (g₀ g : Graph) : Prop :=
  ∀ n, g₀.Declared n → g₀.explicitParents n <+: (g.node n).parentRules

theorem ExplicitFirst.of_links (h : ExplicitFirst g₀ g) (hl : g'.links = g.links) :
    ExplicitFirst g₀ g' := by
  intro n hn
  rw [parentRules_of_links hl]
  exact h n hn

theorem mem_explicitParents (hg : g₀.Wired) {r : RuleId} (hr : r ∈ g₀.rules) {n : NodeId}
    (hn : n ∈ Hash.explicitInputs (g₀.rule r)) : r ∈ g₀.explicitParents n := by
  rw [explicitParents, List.mem_filter, decide_eq_true_eq]
  exact ⟨(hg.inputs r hr n (List.mem_of_mem_take hn)).1, hn⟩

theorem ExplicitFirst.relink (h : ExplicitFirst g₀ g) (hexplicit : Explicit g₀ g) (hg : g.Wired)
    (hstep : Relink P g g') : ExplicitFirst g₀ g' := by
  intro n hn
  have hfirst := h n hn
  have hmem : n ∈ g.allocated := hg.allocated ((hexplicit.declared_iff n).mpr hn)
  cases hstep with
  | create dep hash deps =>
      rw [createNode_node g dep hash deps hmem]
      exact hfirst
  | @link r m _ _ _ =>
      rcases linkInput_parents (g := g) r m n with ⟨heq, -⟩ | ⟨-, heq⟩
      · rw [heq]
        exact hfirst
      · rw [heq]
        exact hfirst.trans (List.prefix_append _ _)
  | register _ hrun =>
      obtain ⟨roots, sources, -, rfl⟩ := Depfile.addNode_eq hrun
      exact hfirst
  | @unlink r m hnot =>
      by_cases hnm : n = m
      · subst hnm
        have hr : r ∉ g₀.explicitParents n := by
          rw [explicitParents, List.mem_filter, decide_eq_true_eq, ← hexplicit.inputs]
          exact fun hin ↦ hnot (List.mem_of_mem_take hin.2)
        obtain ⟨rest, hrest⟩ := hfirst
        rw [unlink_node_self, ← hrest]
        simp only [List.erase_append_right _ hr]
        exact List.prefix_append _ _
      · rw [unlink_node_ne hnm]
        exact hfirst
  | count | cut | delete => exact hfirst

theorem ExplicitFirst.edit (h : ExplicitFirst g₀ g) (hexplicit : Explicit g₀ g) (hg : g.Wired)
    (hstep : Edit P g g') : ExplicitFirst g₀ g' := by
  cases hstep with
  | relink hrelink => exact h.relink hexplicit hg hrelink
  | hashNode hrun => exact h.of_links (Hash.updateNodeHash_links hrun).1
  | hashRule hrun => exact h.of_links (Hash.updateRuleHash_links hrun).1

/-- The graph is wired, and its explicit part is that of `g₀`. -/
structure Grounded (g₀ g : Graph) : Prop where
  base : g₀.Wired
  wired : g.Wired
  explicit : Explicit g₀ g
  first : ExplicitFirst g₀ g

namespace Grounded

theorem edit (h : Grounded g₀ g) (hstep : Edit P g g') : Grounded g₀ g' where
  base := h.base
  wired := h.wired.edit hstep
  explicit := h.explicit.edit h.wired hstep
  first := h.first.edit h.explicit h.wired hstep

theorem edits (h : Grounded g₀ g) (hrun : Edits P g g') : Grounded g₀ g' := by
  induction hrun with
  | refl => exact h
  | tail _ hstep ih => exact ih.edit hstep

theorem relinks (h : Grounded g₀ g) (hrun : Relinks P g g') : Grounded g₀ g' :=
  h.edits (edits_of_relinks hrun)

theorem of_links (h : Grounded g₀ g) (hl : g'.links = g.links) : Grounded g₀ g' where
  base := h.base
  wired := h.wired.of_links hl
  explicit := h.explicit.of_links hl
  first := h.first.of_links hl

/-- Also of a node that is not declared: it has no explicit parents. -/
theorem explicitParents_first (h : Grounded g₀ g) (n : NodeId) :
    g₀.explicitParents n <+: (g.node n).parentRules := by
  by_cases hn : g₀.Declared n
  · exact h.first n hn
  · have hnil : g₀.explicitParents n = [] := by
      rw [List.eq_nil_iff_forall_not_mem]
      intro r hr
      rw [explicitParents, List.mem_filter, decide_eq_true_eq] at hr
      exact hn ⟨r, h.base.parents n r hr.1, Or.inl hr.2⟩
    rw [hnil]
    exact List.nil_prefix

end Grounded

/-- Nothing is implicit in the graph of a makefile. -/
theorem Tied.grounded (h : g.Tied) (hnone : ∀ r ∈ g.rules, (g.rule r).numImplicitDeps = 0) :
    Grounded g g where
  base := h.wired
  wired := h.wired
  explicit := .refl g
  first n _ := by
    have hall : g.explicitParents n = (g.node n).parentRules := by
      rw [explicitParents, List.filter_eq_self]
      intro r hr
      obtain ⟨hrules, hin⟩ := (h.twoWay.mem_parents n r).mp hr
      rw [decide_eq_true_eq, Hash.explicitInputs_none (hnone r hrules)]
      exact hin
    rw [hall]

end Graph

end Falcon
