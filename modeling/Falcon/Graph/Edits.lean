import Falcon.Graph.Loads
import Falcon.Graph.MarkDirty

/-!
# Edits

Everything that hashing and loading do to a graph is a sequence of edits, each
of which changes a few fields.  The edits keep the graph wired, also where a
load gives up halfway and leaves a node with a parent that does not use it.
-/

namespace Falcon

open Relation

namespace Graph

/-- The links that hold between any two edits: in contrast to `Tied`, a node may
have parents that are not linked back. -/
structure Wired (g : Graph) : Prop where
  parents : ∀ n, ∀ r ∈ (g.node n).parentRules, r ∈ g.rules
  inputs : ∀ r ∈ g.rules, ∀ n ∈ (g.rule r).inputs, r ∈ (g.node n).parentRules ∧ n ∈ g.allocated
  nodup : ∀ r ∈ g.rules, (g.rule r).inputs.Nodup
  outputs : ∀ r ∈ g.rules, ∀ o ∈ (g.rule r).outputs, (g.node o).childRule = some r
  child : ∀ n r, (g.node n).childRule = some r →
    r ∈ g.rules ∧ n ∈ (g.rule r).outputs ∧ n ∈ g.allocated
  nodes : ∀ e ∈ g.nodes, e.2 ∈ g.allocated ∧ (g.node e.2).path = e.1

theorem wired_of_twoWay {g : Graph} (hL : g.links.TwoWay)
    (hallocated : ∀ r ∈ g.rules, ∀ n, n ∈ (g.rule r).inputs ∨ n ∈ (g.rule r).outputs →
      n ∈ g.allocated)
    (hnodes : ∀ e ∈ g.nodes, e.2 ∈ g.allocated ∧ (g.node e.2).path = e.1) : g.Wired where
  parents n r hr := ((hL.mem_parents n r).mp hr).1
  inputs r hr n hn := ⟨(hL.mem_parents n r).mpr ⟨hr, hn⟩, hallocated r hr n (Or.inl hn)⟩
  nodup := hL.inputs_nodup
  outputs r hr o ho := (hL.child_eq_some o r).mpr ⟨hr, ho⟩
  child n r hn := by
    obtain ⟨hr, hout⟩ := (hL.child_eq_some n r).mp hn
    exact ⟨hr, hout, hallocated r hr n (Or.inr hout)⟩
  nodes := hnodes

theorem Joined.wired {g : Graph} (h : g.Joined) : g.Wired :=
  wired_of_twoWay h.twoWay h.allocated h.nodes

theorem Wired.of_links {g g' : Graph} (h : g.Wired) (hl : g'.links = g.links) : g'.Wired := by
  have hrules : g'.rules = g.rules := rules_of_links hl
  have hallocated : g'.allocated = g.allocated := allocated_of_links hl
  have hnodes : g'.nodes = g.nodes := congrArg Links.nodes hl
  constructor
  · intro n r hr
    rw [parentRules_of_links hl] at hr
    rw [hrules]
    exact h.parents n r hr
  · intro r hr n hn
    rw [hrules] at hr
    rw [inputs_of_links hl] at hn
    rw [parentRules_of_links hl, hallocated]
    exact h.inputs r hr n hn
  · intro r hr
    rw [hrules] at hr
    rw [inputs_of_links hl]
    exact h.nodup r hr
  · intro r hr o ho
    rw [hrules] at hr
    rw [outputs_of_links hl] at ho
    rw [childRule_of_links hl]
    exact h.outputs r hr o ho
  · intro n r hn
    rw [childRule_of_links hl] at hn
    rw [hrules, outputs_of_links hl, hallocated]
    exact h.child n r hn
  · intro e he
    rw [hnodes] at he
    rw [hallocated, path_of_links hl]
    exact h.nodes e he

/-- The implicit inputs of a rule are cut off. -/
def cutImplicit (g : Graph) (r : RuleId) : Graph :=
  g.updateRule r fun x ↦
    { x with inputs := x.inputs.take (x.inputs.length - x.numImplicitDeps), numImplicitDeps := 0 }

/-- The edits that a load consists of. -/
inductive Relink {ω : Type} (P : Platform ω) : Graph → Graph → Prop
  | create (g dep hash deps) : Relink P g (g.createNode P dep hash deps)
  | count (g r numReady) : Relink P g (g.setRule r { g.rule r with numInputsReady := numReady })
  | cut (g r) : Relink P g (g.cutImplicit r)
  | link {g r n} (hr : r ∈ g.rules) (hn : n ∉ (g.rule r).inputs) (hmem : n ∈ g.allocated) :
    Relink P g (Depfile.linkInput g r n)
  | register {g g' n} (hn : n ∈ g.allocated) (hrun : g.addNode n = .ok g') : Relink P g g'
  | unlink {g r n} (hn : n ∉ (g.rule r).inputs) : Relink P g (g.unlink r n)
  | delete {g n} (hparents : (g.node n).parentRules = []) (hsource : (g.node n).childRule = none) :
    Relink P g (g.deleteNode n)

inductive Edit {ω : Type} (P : Platform ω) : Graph → Graph → Prop
  | relink {g g'} (h : Relink P g g') : Edit P g g'
  | hashNode {g g' w n a b changed} (hrun : Hash.updateNodeHash P w g n a b = .ok (changed, g')) :
    Edit P g g'
  | hashRule {g g' r a b} (hrun : Hash.updateRuleHash P g r a b = .ok g') : Edit P g g'

abbrev Relinks {ω : Type} (P : Platform ω) : Graph → Graph → Prop := ReflTransGen (Relink P)

abbrev Edits {ω : Type} (P : Platform ω) : Graph → Graph → Prop := ReflTransGen (Edit P)

variable {ω : Type} {P : Platform ω} {g g' : Graph}

/-! ## What the edits do to nodes and rules -/

theorem cutImplicit_rule_ne {r q : RuleId} (hq : q ≠ r) : (g.cutImplicit r).rule q = g.rule q := by
  rw [cutImplicit, updateRule, setRule_rule, if_neg hq]

theorem cutImplicit_rule_self (r : RuleId) :
    (g.cutImplicit r).rule r = { g.rule r with
      inputs := Hash.explicitInputs (g.rule r), numImplicitDeps := 0 } := by
  rw [cutImplicit, updateRule, setRule_rule, if_pos rfl]
  rfl

theorem inputs_cutImplicit_subset (r q : RuleId) :
    ((g.cutImplicit r).rule q).inputs ⊆ (g.rule q).inputs := by
  intro n hn
  by_cases hq : q = r
  · subst hq
    rw [cutImplicit_rule_self] at hn
    exact List.mem_of_mem_take hn
  · rwa [cutImplicit_rule_ne hq] at hn

theorem edits_of_relinks (hrun : Relinks P g g') : Edits P g g' := by
  induction hrun with
  | refl => exact .refl
  | tail _ hstep ih => exact ih.tail (.relink hstep)

/-! ## The graph stays wired -/

namespace Wired

theorem createNode (h : g.Wired) (dep hash deps : String) :
    (g.createNode P dep hash deps).Wired := by
  have hnode : ∀ n ∈ g.allocated, (g.createNode P dep hash deps).node n = g.node n :=
    fun n hn ↦ createNode_node g dep hash deps hn
  have hcases : ∀ n, (g.createNode P dep hash deps).node n = g.node n ∨
      (g.createNode P dep hash deps).node n =
        { Node.create dep false (P.uninitialised g.allocated) with
          hash := hash, hashDepfile := deps } := by
    intro n
    by_cases hn : n = P.newNode g.allocated
    · exact Or.inr (hn ▸ createNode_self g dep hash deps)
    · refine Or.inl ?_
      rw [Graph.createNode, setNode_node, if_neg hn]
  have hallocated : ∀ n ∈ g.allocated, n ∈ (g.createNode P dep hash deps).allocated :=
    fun n hn ↦ Finset.mem_insert_of_mem hn
  constructor
  · intro n r hr
    rcases hcases n with heq | heq
    · rw [heq] at hr
      exact h.parents n r hr
    · rw [heq] at hr
      cases hr
  · intro r hr n hn
    obtain ⟨hp, hmem⟩ := h.inputs r hr n hn
    rw [hnode n hmem]
    exact ⟨hp, hallocated n hmem⟩
  · exact h.nodup
  · intro r hr o ho
    have hchild := h.outputs r hr o ho
    rw [hnode o (h.child o r hchild).2.2]
    exact hchild
  · intro n r hn
    rcases hcases n with heq | heq
    · rw [heq] at hn
      obtain ⟨hr, hout, hmem⟩ := h.child n r hn
      exact ⟨hr, hout, hallocated n hmem⟩
    · rw [heq] at hn
      cases hn
  · intro e he
    obtain ⟨hmem, hpath⟩ := h.nodes e he
    rw [hnode e.2 hmem]
    exact ⟨hallocated e.2 hmem, hpath⟩

theorem cutImplicit (h : g.Wired) (r : RuleId) : (g.cutImplicit r).Wired := by
  have houtputs : ∀ q, ((g.cutImplicit r).rule q).outputs = (g.rule q).outputs :=
    proj_setRule Rule.outputs rfl
  constructor
  · exact h.parents
  · intro q hq n hn
    exact h.inputs q hq n (inputs_cutImplicit_subset r q hn)
  · intro q hq
    by_cases heq : q = r
    · rw [heq, cutImplicit_rule_self]
      exact (h.nodup r (heq ▸ hq)).sublist (List.take_sublist _ _)
    · rw [cutImplicit_rule_ne heq]
      exact h.nodup q hq
  · intro q hq o ho
    rw [houtputs] at ho
    exact h.outputs q hq o ho
  · intro n q hn
    rw [houtputs]
    exact h.child n q hn
  · exact h.nodes

theorem linkInput {r : RuleId} {n : NodeId} (h : g.Wired) (hr : r ∈ g.rules)
    (hn : n ∉ (g.rule r).inputs) (hmem : n ∈ g.allocated) :
    (Depfile.linkInput g r n).Wired := by
  obtain ⟨hrules, hnodes, hallocated⟩ := linkInput_frame (g := g) (r := r) (n := n)
  have hchild : ∀ m, ((Depfile.linkInput g r n).node m).childRule = (g.node m).childRule :=
    Depfile.proj_linkInput Node.childRule (fun _ _ ↦ rfl) n
  constructor
  · intro m q hq
    rw [hrules]
    rcases mem_linkInput_parents.mp hq with hq | ⟨-, rfl⟩
    · exact h.parents m q hq
    · exact hr
  · intro q hq m hm
    rw [hrules] at hq
    rw [hallocated, mem_linkInput_parents]
    by_cases heq : q = r
    · subst heq
      rw [linkInput_rule_self] at hm
      rcases List.mem_append.mp hm with hm | hm
      · exact ⟨Or.inl (h.inputs q hq m hm).1, (h.inputs q hq m hm).2⟩
      · rw [List.mem_singleton.mp hm]
        exact ⟨Or.inr ⟨rfl, rfl⟩, hmem⟩
    · rw [linkInput_rule_ne heq] at hm
      exact ⟨Or.inl (h.inputs q hq m hm).1, (h.inputs q hq m hm).2⟩
  · intro q hq
    rw [hrules] at hq
    by_cases heq : q = r
    · rw [heq, linkInput_rule_self]
      refine (h.nodup r hr).append (List.nodup_singleton n) ?_
      rw [List.disjoint_singleton]
      exact hn
    · rw [linkInput_rule_ne heq]
      exact h.nodup q hq
  · intro q hq o ho
    rw [hrules] at hq
    rw [outputs_linkInput] at ho
    rw [hchild]
    exact h.outputs q hq o ho
  · intro m q hm
    rw [hchild] at hm
    rw [hrules, outputs_linkInput, hallocated]
    exact h.child m q hm
  · intro e he
    rw [hnodes] at he
    rw [hallocated, Depfile.proj_linkInput Node.path (fun _ _ ↦ rfl)]
    exact h.nodes e he

theorem unlink {r : RuleId} {n : NodeId} (h : g.Wired) (hn : n ∉ (g.rule r).inputs) :
    (g.unlink r n).Wired := by
  have hchild : ∀ m, ((g.unlink r n).node m).childRule = (g.node m).childRule :=
    proj_setNode Node.childRule rfl
  have hpath : ∀ m, ((g.unlink r n).node m).path = (g.node m).path := proj_setNode Node.path rfl
  constructor
  · intro m q hq
    by_cases hm : m = n
    · rw [hm, unlink_node_self] at hq
      exact h.parents n q (List.mem_of_mem_erase hq)
    · rw [unlink_node_ne hm] at hq
      exact h.parents m q hq
  · intro q hq m hm
    obtain ⟨hp, hmem⟩ := h.inputs q hq m hm
    refine ⟨?_, hmem⟩
    by_cases heq : m = n
    · subst heq
      have hqr : q ≠ r := fun heq ↦ hn (heq ▸ hm)
      rw [unlink_node_self]
      exact (List.mem_erase_of_ne hqr).mpr hp
    · rw [unlink_node_ne heq]
      exact hp
  · exact h.nodup
  · intro q hq o ho
    rw [hchild]
    exact h.outputs q hq o ho
  · intro m q hm
    rw [hchild] at hm
    exact h.child m q hm
  · intro e he
    rw [hpath]
    exact h.nodes e he

/-- A node without links can be deleted. -/
theorem deleteNode {n : NodeId} (h : g.Wired) (hparents : (g.node n).parentRules = [])
    (hsource : (g.node n).childRule = none) : (g.deleteNode n).Wired := by
  constructor
  · exact h.parents
  · intro q hq m hm
    obtain ⟨hp, hmem⟩ := h.inputs q hq m hm
    refine ⟨hp, Finset.mem_erase.mpr ⟨?_, hmem⟩⟩
    rintro rfl
    rw [hparents] at hp
    cases hp
  · exact h.nodup
  · exact h.outputs
  · intro m q hm
    obtain ⟨hq, hout, hmem⟩ := h.child m q hm
    refine ⟨hq, hout, Finset.mem_erase.mpr ⟨?_, hmem⟩⟩
    rintro rfl
    have hnone : (g.node m).childRule = some q := hm
    rw [hsource] at hnone
    cases hnone
  · intro e he
    obtain ⟨he, hne⟩ := List.mem_filter.mp he
    obtain ⟨hmem, hpath⟩ := h.nodes e he
    refine ⟨Finset.mem_erase.mpr ⟨?_, hmem⟩, hpath⟩
    rintro rfl
    simp [hpath] at hne

theorem relink (h : g.Wired) (hstep : Relink P g g') : g'.Wired := by
  cases hstep with
  | create dep hash deps => exact h.createNode dep hash deps
  | count r numReady => exact h.of_links (links_setRule rfl rfl rfl rfl rfl)
  | cut r => exact h.cutImplicit r
  | link hr hn hmem => exact h.linkInput hr hn hmem
  | register hn hrun =>
      obtain ⟨roots, sources, -, rfl⟩ := Depfile.addNode_eq hrun
      refine ⟨h.parents, h.inputs, h.nodup, h.outputs, h.child, fun e he ↦ ?_⟩
      rcases List.mem_append.mp he with he | he
      · exact h.nodes e he
      · rw [List.mem_singleton.mp he]
        exact ⟨hn, rfl⟩
  | unlink hn => exact h.unlink hn
  | delete hparents hsource => exact h.deleteNode hparents hsource

theorem edit (h : g.Wired) (hstep : Edit P g g') : g'.Wired := by
  cases hstep with
  | relink hrelink => exact h.relink hrelink
  | hashNode hrun => exact h.of_links (Hash.updateNodeHash_links hrun).1
  | hashRule hrun => exact h.of_links (Hash.updateRuleHash_links hrun).1

theorem edits (h : g.Wired) (hrun : Edits P g g') : g'.Wired := by
  induction hrun with
  | refl => exact h
  | tail _ hstep ih => exact ih.edit hstep

theorem relinks (h : g.Wired) (hrun : Relinks P g g') : g'.Wired := h.edits (edits_of_relinks hrun)

end Wired

theorem rules_of_relink (hstep : Relink P g g') : g'.rules = g.rules := by
  cases hstep with
  | link => exact linkInput_frame.1
  | register _ hrun =>
      obtain ⟨roots, sources, -, rfl⟩ := Depfile.addNode_eq hrun
      rfl
  | create | count | cut | unlink | delete => rfl

theorem rules_of_edits (hrun : Edits P g g') : g'.rules = g.rules := by
  induction hrun with
  | refl => rfl
  | tail _ hstep ih =>
      refine Eq.trans ?_ ih
      cases hstep with
      | relink h => exact rules_of_relink h
      | hashNode hrun => exact rules_of_links (Hash.updateNodeHash_links hrun).1
      | hashRule hrun => exact rules_of_links (Hash.updateRuleHash_links hrun).1

theorem rules_of_relinks (hrun : Relinks P g g') : g'.rules = g.rules :=
  rules_of_edits (edits_of_relinks hrun)

/-- A load changes the parents of a node, unless it makes the node. -/
theorem node_of_relink (hstep : Relink P g g') (n : NodeId) :
    (∃ parents, g'.node n = { g.node n with parentRules := parents }) ∨
      n ∉ g.allocated ∧ ∃ dep hash deps, g'.node n =
        { Node.create dep false (P.uninitialised g.allocated) with
          hash := hash, hashDepfile := deps } := by
  cases hstep with
  | create dep hash deps =>
      by_cases hn : n = P.newNode g.allocated
      · refine Or.inr ⟨hn ▸ P.newNode_fresh g.allocated, dep, hash, deps, ?_⟩
        rw [hn]
        exact createNode_self g dep hash deps
      · refine Or.inl ⟨(g.node n).parentRules, ?_⟩
        rw [createNode, setNode_node, if_neg hn]
  | link =>
      rw [Depfile.linkInput]
      split
      · exact Or.inl ⟨_, rfl⟩
      · rw [updateNode, setNode_node]
        split
        · rename_i heq
          subst heq
          exact Or.inl ⟨_, rfl⟩
        · exact Or.inl ⟨_, rfl⟩
  | register _ hrun =>
      obtain ⟨roots, sources, -, rfl⟩ := Depfile.addNode_eq hrun
      exact Or.inl ⟨_, rfl⟩
  | @unlink r m _ =>
      by_cases hn : n = m
      · rw [hn, unlink_node_self]
        exact Or.inl ⟨_, rfl⟩
      · rw [unlink_node_ne hn]
        exact Or.inl ⟨_, rfl⟩
  | count | cut | delete => exact Or.inl ⟨_, rfl⟩

/-- A load changes the inputs and the counter of a rule. -/
theorem rule_of_relink (hstep : Relink P g g') (q : RuleId) :
    ∃ inputs numImplicit numReady, g'.rule q = { g.rule q with
      inputs := inputs, numImplicitDeps := numImplicit, numInputsReady := numReady } := by
  cases hstep with
  | count r numReady =>
      rw [setRule_rule]
      split
      · rename_i heq
        subst heq
        exact ⟨_, _, numReady, rfl⟩
      · exact ⟨_, _, _, rfl⟩
  | cut r =>
      by_cases hq : q = r
      · rw [hq, cutImplicit_rule_self]
        exact ⟨_, _, _, rfl⟩
      · rw [cutImplicit_rule_ne hq]
        exact ⟨_, _, _, rfl⟩
  | @link r n _ _ _ =>
      by_cases hq : q = r
      · rw [hq, linkInput_rule_self]
        exact ⟨_, _, _, rfl⟩
      · rw [linkInput_rule_ne hq]
        exact ⟨_, _, _, rfl⟩
  | register _ hrun =>
      obtain ⟨roots, sources, -, rfl⟩ := Depfile.addNode_eq hrun
      exact ⟨_, _, _, rfl⟩
  | create | unlink | delete => exact ⟨_, _, _, rfl⟩

/-- An edit of a node concerns its hashes and its parents, unless it makes the
node. -/
theorem node_of_edit (hstep : Edit P g g') (n : NodeId) :
    (∃ hash deps parents, g'.node n = { g.node n with
        hash := hash, hashDepfile := deps, parentRules := parents }) ∨
      n ∉ g.allocated ∧ ∃ dep hash deps, g'.node n =
        { Node.create dep false (P.uninitialised g.allocated) with
          hash := hash, hashDepfile := deps } := by
  cases hstep with
  | relink h =>
      rcases node_of_relink h n with ⟨parents, hnode⟩ | hnew
      · exact Or.inl ⟨_, _, parents, hnode⟩
      · exact Or.inr hnew
  | hashNode hrun =>
      obtain ⟨hash, deps, rfl⟩ := Hash.updateNodeHash_frame hrun
      rw [setNode_node]
      split
      · rename_i heq
        subst heq
        exact Or.inl ⟨hash, deps, _, rfl⟩
      · exact Or.inl ⟨_, _, _, rfl⟩
  | hashRule hrun =>
      obtain ⟨hash, deps, rfl⟩ := Hash.updateRuleHash_frame hrun
      exact Or.inl ⟨_, _, _, rfl⟩

theorem rule_of_edit (hstep : Edit P g g') (q : RuleId) :
    ∃ inputs numImplicit hash deps numReady, g'.rule q = { g.rule q with
      inputs := inputs, numImplicitDeps := numImplicit, hash := hash, hashDepfile := deps,
      numInputsReady := numReady } := by
  cases hstep with
  | relink h =>
      obtain ⟨inputs, numImplicit, numReady, hrule⟩ := rule_of_relink h q
      exact ⟨inputs, numImplicit, _, _, numReady, hrule⟩
  | hashNode hrun =>
      obtain ⟨hash, deps, rfl⟩ := Hash.updateNodeHash_frame hrun
      exact ⟨_, _, _, _, _, rfl⟩
  | hashRule hrun =>
      obtain ⟨hash, deps, rfl⟩ := Hash.updateRuleHash_frame hrun
      rw [setRule_rule]
      split
      · rename_i heq
        subst heq
        exact ⟨_, _, hash, deps, _, rfl⟩
      · exact ⟨_, _, _, _, _, rfl⟩

/-! ## Marking -/

/-- Marking is no edit: it leaves the links alone, and no node becomes clean. -/
structure Darker (g g' : Graph) : Prop where
  links : g'.links = g.links
  stamps : g'.stamps = g.stamps
  node : ∀ n, g'.node n = g.node n ∨ (g'.node n).isDirty = true

theorem Darker.refl (g : Graph) : g.Darker g := ⟨rfl, rfl, fun _ ↦ Or.inl rfl⟩

theorem Darker.trans {g'' : Graph} (h : g.Darker g') (h' : g'.Darker g'') : g.Darker g'' where
  links := h'.links.trans h.links
  stamps := h'.stamps.trans h.stamps
  node n := by
    rcases h'.node n with heq | hdirty
    · rw [heq]
      exact h.node n
    · exact Or.inr hdirty

theorem darker_setNode (g : Graph) (n : NodeId) :
    g.Darker (g.updateNode n (·.setState .outOfDate)) where
  links := links_setNode rfl rfl rfl rfl
  stamps := stamps_setNode rfl rfl rfl
  node m := by
    rw [updateNode, setNode_node]
    split
    · exact Or.inr rfl
    · exact Or.inl rfl

theorem darker_setRule (g : Graph) (r : RuleId) :
    g.Darker (g.updateRule r (·.setState .outOfDate)) where
  links := links_setRule rfl rfl rfl rfl rfl
  stamps := stamps_setRule rfl rfl rfl
  node _ := Or.inl rfl

theorem markDirty_darker {fuel : ℕ} {n : NodeId} (hrun : Node.markDirty fuel g n = .ok g') :
    g.Darker g' ∧ (g'.node n).isDirty = true := by
  induction fuel generalizing g n g' with
  | zero => cases hrun
  | succ fuel ih =>
      obtain ⟨g₁, hloop, hpure⟩ := Lib.bind_eq_ok.mp hrun
      have h₁ : g.Darker g₁ := by
        refine Lib.foldlM_preserves Darker Darker.refl (fun _ _ _ ↦ Darker.trans) ?_ hloop
        intro r _ k k' hstep
        obtain ⟨k₁, hrule, hcount⟩ := Lib.bind_eq_ok.mp hstep
        obtain ⟨k₂, houts, hset⟩ := Lib.bind_eq_ok.mp hrule
        have h₂ : k.Darker k₂ := Lib.foldlM_preserves Darker Darker.refl
          (fun _ _ _ ↦ Darker.trans) (fun o _ j j' hmark ↦ (ih hmark).1) houts
        rw [← Except.ok.inj hset] at hcount
        have h₃ := h₂.trans (darker_setRule k₂ r)
        split at hcount
        · obtain ⟨numReady, rfl⟩ :=
            Depfile.onRule_ready (fun _ _ ↦ Depfile.markInputDirty_eq) hcount
          exact h₃.trans ⟨links_setRule rfl rfl rfl rfl rfl, stamps_setRule rfl rfl rfl,
            fun _ ↦ Or.inl rfl⟩
        · rw [← Except.ok.inj hcount]
          exact h₃
      rw [← Except.ok.inj hpure]
      refine ⟨h₁.trans (darker_setNode g₁ n), ?_⟩
      rw [updateNode, setNode_node, if_pos rfl]
      rfl

end Graph

/-! ## Loading a depfile -/

namespace Depfile

open Graph

variable {ω : Type} {P : Platform ω} {w : ω} {g k k' : Graph} {r : RuleId}

theorem relink_ready {f : Rule → Outcome Rule}
    (hf : ∀ x y, f x = .ok y → ∃ numReady, y = { x with numInputsReady := numReady })
    (hrun : k.onRule r f = .ok k') :
    Relink P k k' ∧ ∀ q, (k'.rule q).inputs = (k.rule q).inputs := by
  obtain ⟨numReady, rfl⟩ := onRule_ready hf hrun
  exact ⟨.count k r numReady, proj_setRule Rule.inputs rfl⟩

theorem countInput_relink {n : NodeId} (hrun : countInput k r n = .ok k') :
    Relink P k k' ∧ ∀ q, (k'.rule q).inputs = (k.rule q).inputs := by
  rw [countInput] at hrun
  split at hrun
  · exact relink_ready (fun _ _ ↦ markInputDirty_eq) hrun
  · exact relink_ready (fun _ _ ↦ markInputReady_eq) hrun

/-- What one dependency does to the graph. -/
structure Named (P : Platform ω) (k : Graph) (r : RuleId) (n : NodeId) (k' : Graph) : Prop where
  relinks : Relinks P k k'
  inputs : ∀ m ∈ (k'.rule r).inputs, m ∈ (k.rule r).inputs ∨ m = n

theorem attach_relinks {n : NodeId} {isNewNode : Bool} (hr : r ∈ k.rules)
    (hn : n ∉ (k.rule r).inputs) (hmem : n ∈ k.allocated)
    (hrun : attach k r n isNewNode = .ok k') : Named P k r n k' := by
  obtain ⟨k₁, hadd, hcount⟩ := Lib.bind_eq_ok.mp hrun
  have hlink : Relink P k (linkInput k r n) := .link hr hn hmem
  have hadded : Relinks P (linkInput k r n) k₁ ∧ k₁.rule = (linkInput k r n).rule := by
    cases isNewNode with
    | false =>
        rw [Except.ok.inj hadd]
        exact ⟨.refl, rfl⟩
    | true =>
        have hmem' : n ∈ (linkInput k r n).allocated := by
          rw [linkInput_frame.2.2]
          exact hmem
        obtain ⟨roots, sources, -, heq⟩ := addNode_eq hadd
        exact ⟨.single (.register hmem' hadd), by rw [heq]⟩
  obtain ⟨hcounted, hinputs⟩ := countInput_relink (P := P) hcount
  refine ⟨.head hlink (hadded.1.tail hcounted), fun m hm ↦ ?_⟩
  rw [hinputs, hadded.2, linkInput_rule_self] at hm
  exact (List.mem_append.mp hm).imp_right List.mem_singleton.mp

theorem setRuleDependency_relinks {dep : String} {n : NodeId} (h : k.Wired) (hr : r ∈ k.rules)
    (hrun : setRuleDependency P w k r dep = .ok (n, k')) : Named P k r n k' := by
  rcases setRuleDependency_ok hrun with
    ⟨-, rfl, hash, deps, hattach⟩ | ⟨-, -, rfl⟩ | ⟨hlookup, hnot, hattach⟩
  · have hfresh : P.newNode k.allocated ∉ (k.rule r).inputs :=
      fun hin ↦ P.newNode_fresh _ (h.inputs r hr _ hin).2
    have hnamed := attach_relinks (P := P) (k := k.createNode P dep hash deps) hr hfresh
      (Finset.mem_insert_self _ _) hattach
    exact ⟨.head (.create k dep hash deps) hnamed.relinks, hnamed.inputs⟩
  · exact ⟨.refl, fun m hm ↦ Or.inl hm⟩
  · exact attach_relinks hr hnot (h.nodes (dep, n) (Lib.mem_of_lookup_eq_some hlookup)).1 hattach

theorem addDependencies_relinks {ins : List String} {before left : List NodeId} (h : k.Wired)
    (hr : r ∈ k.rules) (hbefore : ∀ n ∈ before, n ∉ (k.rule r).inputs)
    (hrun : addDependencies P w r ins (k, before) = .ok (k', left)) :
    Relinks P k k' ∧ ∀ n ∈ left, n ∉ (k'.rule r).inputs := by
  induction ins generalizing k before with
  | nil =>
      simp only [addDependencies, Lib.except_pure, Except.ok.injEq, Prod.mk.injEq] at hrun
      obtain ⟨rfl, rfl⟩ := hrun
      exact ⟨.refl, hbefore⟩
  | cons dep ins ih =>
      rw [addDependencies] at hrun
      obtain ⟨⟨n, k₁⟩, hdep, hrest⟩ := Lib.bind_eq_ok.mp hrun
      have hnamed := setRuleDependency_relinks h hr hdep
      have hr₁ : r ∈ k₁.rules := (rules_of_relinks hnamed.relinks) ▸ hr
      have hbefore₁ : ∀ m ∈ before.filter (· ≠ n), m ∉ (k₁.rule r).inputs := by
        intro m hm hin
        obtain ⟨hm, hne⟩ := mem_filter_ne.mp hm
        rcases hnamed.inputs m hin with hin | heq
        · exact hbefore m hm hin
        · exact hne heq
      obtain ⟨hrelinks, hleft⟩ := ih (h.relinks hnamed.relinks) hr₁ hbefore₁ hrest
      exact ⟨hnamed.relinks.trans hrelinks, hleft⟩

theorem detachImplicit_relinks (hrun : detachImplicit k r = .ok k') :
    Relinks P k k' ∧ (k'.rule r).inputs = Hash.explicitInputs (k.rule r) := by
  obtain ⟨numReady, rfl⟩ := detachImplicit_eq hrun
  have hcut : (k.setRule r { k.rule r with numInputsReady := numReady }).cutImplicit r =
      k.setRule r { k.rule r with
        inputs := Hash.explicitInputs (k.rule r)
        numImplicitDeps := 0
        numInputsReady := numReady } := by
    simp [cutImplicit, updateRule, setRule, Hash.explicitInputs]
  refine ⟨.head (.count k r numReady) (.single (hcut ▸ .cut _ r)), ?_⟩
  rw [setRule_rule, if_pos rfl]

theorem dropDependency_relinks {n : NodeId} (hn : n ∉ (k.rule r).inputs)
    (hrun : dropDependency r k n = .ok k') : Relinks P k k' ∧ k'.rule = k.rule := by
  have hrelink : Relink P k (k.unlink r n) := .unlink hn
  obtain ⟨-, ⟨hparents, hchild, rfl⟩ | ⟨-, rfl⟩⟩ := dropDependency_cases hrun
  · have hself := unlink_node_self (g := k) r n
    exact ⟨.head hrelink (.single (.delete (by rw [hself, hparents]) (by rw [hself, hchild]))), rfl⟩
  · exact ⟨.single hrelink, rfl⟩

theorem dropDependencies_relinks {left : List NodeId} (hleft : ∀ n ∈ left, n ∉ (k.rule r).inputs)
    (hrun : left.foldlM (dropDependency r) k = .ok k') : Relinks P k k' := by
  refine (Lib.foldlM_invariant (fun k₁ : Graph ↦ Relinks P k k₁ ∧ k₁.rule = k.rule) ?_ hrun
    ⟨.refl, rfl⟩).1
  rintro n hn k₁ k₂ hstep ⟨hrelinks, hrule⟩
  have hnot : n ∉ (k₁.rule r).inputs := by
    rw [hrule]
    exact hleft n hn
  obtain ⟨hdropped, hrule'⟩ := dropDependency_relinks (P := P) hnot hstep
  exact ⟨hrelinks.trans hdropped, hrule'.trans hrule⟩

theorem load_relinks {content : String} {loaded : Bool} (h : g.Wired) (hr : r ∈ g.rules)
    (hrun : load P w g r content = .ok (loaded, k')) : Relinks P g k' := by
  obtain ⟨g₁, hdetach, hcases⟩ := load_ok hrun
  obtain ⟨h₁, hinputs⟩ := detachImplicit_relinks (P := P) hdetach
  obtain ⟨-, rfl, -⟩ | ⟨-, first, ins, g₂, left, -, -, hadd, hdrop⟩ := hcases
  · exact h₁
  -- The former implicit inputs are no explicit inputs.
  have hbefore : ∀ n ∈ (implicitDeps (g.rule r)).reverse.dedup, n ∉ (g₁.rule r).inputs := by
    intro n hn hin
    rw [List.mem_dedup, List.mem_reverse] at hn
    rw [hinputs] at hin
    have hnodup := h.nodup r hr
    rw [← List.take_append_drop ((g.rule r).inputs.length - (g.rule r).numImplicitDeps)
      (g.rule r).inputs] at hnodup
    exact (List.nodup_append.mp hnodup).2.2 n hin n hn rfl
  have hr₁ : r ∈ g₁.rules := rules_of_relinks h₁ ▸ hr
  obtain ⟨h₂, hleft⟩ := addDependencies_relinks (h.relinks h₁) hr₁ hbefore hadd
  exact (h₁.trans h₂).trans (dropDependencies_relinks hleft hdrop)

theorem loadFromfile_relinks {loaded : Bool} (h : g.Wired) (hr : r ∈ g.rules)
    (hrun : loadFromfile P w g r = .ok (loaded, k')) : Relinks P g k' := by
  obtain ⟨-, rfl, -⟩ | ⟨content, -, -, hload⟩ := loadFromfile_ok hrun
  · exact .refl
  · exact load_relinks h hr hload

end Depfile

/-! ## Hashing -/

namespace Hash

open Graph

variable {ω : Type} {P : Platform ω} {w w' : ω} {g g' : Graph} {a b : Bool}

theorem restoreDepfile_edits {tmp : String} {r : RuleId} (h : g.Wired) (hr : r ∈ g.rules)
    (hrun : restoreDepfile P tmp g w r = .ok (g', w')) : Edits P g g' := by
  obtain ⟨rfl, -⟩ | ⟨loaded, k, -, -, -, hload, hupdate⟩ := restoreDepfile_ok hrun
  · exact .refl
  · exact (edits_of_relinks (Depfile.loadFromfile_relinks h hr hload)).tail (.hashRule hupdate)

theorem recomputeRuleHash_edits {nodeHash : Graph × ω → NodeId → Outcome (Graph × ω)}
    (hnode : ∀ s n s', s.1.Wired → nodeHash s n = .ok s' → Edits P s.1 s'.1) {s s' : Graph × ω}
    {r : RuleId} (h : s.1.Wired) (hr : r ∈ s.1.rules)
    (hrun : recomputeRuleHash P nodeHash s r = .ok s') : Edits P s.1 s'.1 := by
  obtain ⟨g₁, hupdate, hrun⟩ := Lib.bind_eq_ok.mp hrun
  obtain ⟨s₂, hrestore, hloop⟩ := Lib.bind_eq_ok.mp hrun
  have h₁ : Edits P s.1 g₁ := .single (.hashRule hupdate)
  have h₂ : Edits P s.1 s₂.1 :=
    h₁.trans (restoreDepfile_edits (h.edits h₁) (rules_of_edits h₁ ▸ hr) hrestore)
  exact Lib.foldlM_invariant (fun t : Graph × ω ↦ Edits P s.1 t.1)
    (fun n _ t t' hstep ht ↦ ht.trans (hnode t n t' (h.edits ht) hstep)) hloop h₂

theorem recomputeNodeHash_edits {fuel : ℕ} {n : NodeId} {changed : Bool} (h : g.Wired)
    (hrun : recomputeNodeHash P a b fuel (g, w) n = .ok (changed, g', w')) : Edits P g g' := by
  induction fuel generalizing g w n changed g' w' with
  | zero => cases hrun
  | succ fuel ih =>
      obtain ⟨g₁, hupdate, hcases⟩ := recomputeNodeHash_ok hrun
      have h₁ : Edits P g g₁ := .single (.hashNode hupdate)
      obtain ⟨-, heq⟩ | ⟨-, hloop⟩ := hcases
      · rw [(Prod.mk.inj heq).1]
        exact h₁
      · refine Lib.liveLoop_invariant (fun s : Graph × ω ↦ Edits P g s.1) ?_ hloop h₁
        intro s r hr s' hk hbody
        have hwired := h.edits hk
        refine hk.trans (recomputeRuleHash_edits ?_ hwired (hwired.parents n r hr) hbody)
        intro s m s' hs hm
        obtain ⟨⟨ch', s₂⟩, hrec, hpure⟩ := Lib.bind_eq_ok.mp hm
        rw [← Except.ok.inj hpure]
        exact ih hs hrec

end Hash

end Falcon
