import Mathlib.Tactic.Tauto
import Falcon.Graph.Rehash

/-!
# What loading a depfile does to the links

`Depfile::load` exchanges the implicit inputs of one rule and keeps all other
links, whatever the counters and the states of the nodes are.  While it runs,
the former implicit inputs that have not been named again still have the rule
as a parent.
-/

namespace Falcon

open Relation

/-- The links of a graph agree, and concern nodes that exist. -/
structure Graph.Joined (g : Graph) : Prop where
  twoWay : g.links.TwoWay
  allocated : ∀ r ∈ g.rules, ∀ n, n ∈ (g.rule r).inputs ∨ n ∈ (g.rule r).outputs →
    n ∈ g.allocated
  nodes : ∀ e ∈ g.nodes, e.2 ∈ g.allocated ∧ (g.node e.2).path = e.1

/-- What holds of the links of a graph of the daemon. -/
structure Graph.Tied (g : Graph) : Prop extends Joined g where
  implicit : ∀ r ∈ g.rules, (g.rule r).numImplicitDeps ≤ (g.rule r).inputs.length

theorem Graph.Joined.of_links {g g' : Graph} (h : g.Joined) (hl : g'.links = g.links) :
    g'.Joined where
  twoWay := hl ▸ h.twoWay
  allocated r hr n hn := by
    rw [inputs_of_links hl, outputs_of_links hl] at hn
    rw [allocated_of_links hl]
    exact h.allocated r (rules_of_links hl ▸ hr) n hn
  nodes e he := by
    have hnodes : g'.nodes = g.nodes := congrArg Links.nodes hl
    rw [path_of_links hl, allocated_of_links hl]
    exact h.nodes e (hnodes ▸ he)

theorem Graph.Tied.of_links {g g' : Graph} (h : g.Tied) (hl : g'.links = g.links) : g'.Tied where
  toJoined := h.toJoined.of_links hl
  implicit r hr := by
    have hnum : (g'.rule r).numImplicitDeps = (g.rule r).numImplicitDeps :=
      congrFun (congrArg Links.numImplicit hl) r
    rw [hnum, inputs_of_links hl]
    exact h.implicit r (rules_of_links hl ▸ hr)

theorem Graph.Joined.childRule_of_free {g : Graph} (h : g.Joined) {n : NodeId} (hn : n ∉ g.allocated) :
    (g.node n).childRule = none := by
  cases hc : (g.node n).childRule with
  | none => rfl
  | some r =>
      obtain ⟨hr, hout⟩ := (h.twoWay.child_eq_some n r).mp hc
      exact absurd (h.allocated r hr n (Or.inr hout)) hn

/-! ## New nodes and new inputs -/

namespace Graph

/-- A new node for the path `dep`, of which nothing knows yet. -/
def createNode {ω : Type} (P : Platform ω) (g : Graph) (dep hash deps : String) : Graph :=
  { g with allocated := insert (P.newNode g.allocated) g.allocated }.setNode
    (P.newNode g.allocated) { Node.create dep false (P.uninitialised g.allocated) with
      hash := hash, hashDepfile := deps }

variable {ω : Type} {P : Platform ω} {g : Graph}

theorem createNode_node (g : Graph) (dep hash deps : String) {n : NodeId}
    (hn : n ∈ g.allocated) : (g.createNode P dep hash deps).node n = g.node n := by
  have hne : n ≠ P.newNode g.allocated := fun heq ↦ P.newNode_fresh g.allocated (heq ▸ hn)
  rw [createNode, setNode_node, if_neg hne]

theorem createNode_self (g : Graph) (dep hash deps : String) :
    (g.createNode P dep hash deps).node (P.newNode g.allocated) =
      { Node.create dep false (P.uninitialised g.allocated) with
        hash := hash, hashDepfile := deps } := by
  rw [createNode, setNode_node, if_pos rfl]

theorem linkInput_rule_ne {r q : RuleId} (hq : q ≠ r) (n : NodeId) :
    (Depfile.linkInput g r n).rule q = g.rule q := by
  have hrule : (g.updateRule r (·.addImplicitInput n)).rule q = g.rule q := by
    rw [updateRule, setRule_rule, if_neg hq]
  rw [Depfile.linkInput]
  split
  · exact hrule
  · exact hrule

theorem linkInput_rule_self (r : RuleId) (n : NodeId) :
    (Depfile.linkInput g r n).rule r = (g.rule r).addImplicitInput n := by
  have hrule : (g.updateRule r (·.addImplicitInput n)).rule r = (g.rule r).addImplicitInput n := by
    rw [updateRule, setRule_rule, if_pos rfl]
  rw [Depfile.linkInput]
  split
  · exact hrule
  · exact hrule

/-- The node has the rule as a parent afterwards, behind those it had. -/
theorem linkInput_parents (r : RuleId) (n m : NodeId) :
    ((Depfile.linkInput g r n).node m).parentRules = (g.node m).parentRules ∧
        (m = n → r ∈ (g.node m).parentRules) ∨
      (m = n ∧ r ∉ (g.node m).parentRules) ∧
        ((Depfile.linkInput g r n).node m).parentRules = (g.node m).parentRules ++ [r] := by
  rw [Depfile.linkInput]
  split
  · rename_i hp
    refine Or.inl ⟨rfl, ?_⟩
    rintro rfl
    simpa [Node.hasParent, updateRule] using hp
  · rename_i hp
    rw [updateNode, setNode_node]
    by_cases hm : m = n
    · subst hm
      refine Or.inr ⟨⟨rfl, by simpa [Node.hasParent, updateRule] using hp⟩, ?_⟩
      rw [if_pos rfl]
      rfl
    · refine Or.inl ⟨?_, fun heq ↦ absurd heq hm⟩
      rw [if_neg hm]
      rfl

theorem mem_linkInput_parents {r q : RuleId} {n m : NodeId} :
    q ∈ ((Depfile.linkInput g r n).node m).parentRules ↔
      q ∈ (g.node m).parentRules ∨ m = n ∧ q = r := by
  rcases linkInput_parents (g := g) r n m with ⟨heq, hself⟩ | ⟨⟨rfl, -⟩, heq⟩
  · rw [heq]
    refine ⟨Or.inl, ?_⟩
    rintro (hq | ⟨hm, rfl⟩)
    · exact hq
    · exact hself hm
  · rw [heq, List.mem_append, List.mem_singleton]
    simp

theorem linkInput_frame {r : RuleId} {n : NodeId} :
    (Depfile.linkInput g r n).rules = g.rules ∧ (Depfile.linkInput g r n).nodes = g.nodes ∧
      (Depfile.linkInput g r n).allocated = g.allocated := by
  rw [Depfile.linkInput]
  split <;> exact ⟨rfl, rfl, rfl⟩

theorem outputs_linkInput (r q : RuleId) (n : NodeId) :
    ((Depfile.linkInput g r n).rule q).outputs = (g.rule q).outputs := by
  by_cases hq : q = r
  · rw [hq, linkInput_rule_self]
    rfl
  · rw [linkInput_rule_ne hq]

end Graph

/-! ## What holds while a depfile is loaded -/

namespace Depfile

/-- The graph `k` while a depfile is loaded for the rule `r` of `g`; `before`
holds the former implicit inputs that have not been named again. -/
structure Loading (g : Graph) (r : RuleId) (before : List NodeId) (k : Graph) : Prop where
  rules : k.rules = g.rules
  other : ∀ q, q ≠ r → k.rule q = g.rule q
  self : ∃ implicit numReady, k.rule r = { g.rule r with
    inputs := Hash.explicitInputs (g.rule r) ++ implicit
    numImplicitDeps := implicit.length
    numInputsReady := numReady }
  nodup : (k.rule r).inputs.Nodup
  child : ∀ n, (k.node n).childRule = (g.node n).childRule
  parents : ∀ n q, q ∈ (k.node n).parentRules ↔
    q ∈ g.rules ∧ (n ∈ (k.rule q).inputs ∨ q = r ∧ n ∈ before)
  parents_nodup : ∀ n, (k.node n).parentRules.Nodup
  before_nodup : before.Nodup
  before_inputs : ∀ n ∈ before, n ∉ (k.rule r).inputs
  before_allocated : ∀ n ∈ before, n ∈ k.allocated
  allocated : ∀ q ∈ g.rules, ∀ n, n ∈ (k.rule q).inputs ∨ n ∈ (k.rule q).outputs →
    n ∈ k.allocated
  nodes : ∀ e ∈ k.nodes, e.2 ∈ k.allocated ∧ (k.node e.2).path = e.1
  node : ∀ n ∈ g.allocated, (k.node n).path = (g.node n).path ∧
    (k.node n).hash = (g.node n).hash ∧ (k.node n).hashDepfile = (g.node n).hashDepfile

variable {g k k' : Graph} {r : RuleId} {before left : List NodeId}

theorem Loading.outputs (h : Loading g r before k) (q : RuleId) :
    (k.rule q).outputs = (g.rule q).outputs := by
  by_cases hq : q = r
  · obtain ⟨implicit, numReady, hself⟩ := h.self
    rw [hq, hself]
  · rw [h.other q hq]

theorem Loading.not_output (hg : g.Joined) (h : Loading g r before k) {q : RuleId} (hq : q ∈ g.rules)
    {n : NodeId} (hn : (k.node n).childRule = none) : n ∉ (k.rule q).outputs := by
  intro hout
  rw [h.outputs] at hout
  have hchild := (hg.twoWay.child_eq_some n q).mpr ⟨hq, hout⟩
  rw [h.child] at hn
  exact absurd (hchild.symm.trans hn) (Option.some_ne_none q)

/-- The ready counter of the rule does not matter. -/
theorem Loading.setReady (h : Loading g r before k) (numReady : ℕ) :
    Loading g r before (k.setRule r { k.rule r with numInputsReady := numReady }) := by
  have hinputs : ∀ q, ((k.setRule r { k.rule r with numInputsReady := numReady }).rule q).inputs =
      (k.rule q).inputs := Graph.proj_setRule Rule.inputs rfl
  have houtputs : ∀ q, ((k.setRule r { k.rule r with numInputsReady := numReady }).rule q).outputs =
      (k.rule q).outputs := Graph.proj_setRule Rule.outputs rfl
  refine ⟨h.rules, fun q hq ↦ ?_, ?_, ?_, h.child, ?_, h.parents_nodup, h.before_nodup, ?_,
    h.before_allocated, ?_, h.nodes, h.node⟩
  · rw [Graph.setRule_rule, if_neg hq]
    exact h.other q hq
  · obtain ⟨implicit, numReady', hself⟩ := h.self
    refine ⟨implicit, numReady, ?_⟩
    rw [Graph.setRule_rule, if_pos rfl, hself]
  · rw [hinputs]
    exact h.nodup
  · intro n q
    rw [hinputs]
    exact h.parents n q
  · intro n hn
    rw [hinputs]
    exact h.before_inputs n hn
  · intro q hq n
    rw [hinputs, houtputs]
    exact h.allocated q hq n

theorem onRule_ready {f : Rule → Outcome Rule}
    (hf : ∀ x y, f x = .ok y → ∃ numReady, y = { x with numInputsReady := numReady })
    (hrun : k.onRule r f = .ok k') :
    ∃ numReady, k' = k.setRule r { k.rule r with numInputsReady := numReady } := by
  cases hy : f (k.rule r) with
  | error e => simp [Graph.onRule, hy, Except.map] at hrun
  | ok y =>
      obtain ⟨numReady, rfl⟩ := hf _ _ hy
      simp only [Graph.onRule, hy, Except.map, Except.ok.injEq] at hrun
      exact ⟨numReady, hrun.symm⟩

theorem markInputReady_eq {x y : Rule} (h : x.markInputReady = .ok y) :
    ∃ numReady, y = { x with numInputsReady := numReady } := by
  simp only [Rule.markInputReady, Lib.bind_eq_ok, Lib.except_pure, Except.ok.injEq] at h
  obtain ⟨-, -, rfl⟩ := h
  exact ⟨_, rfl⟩

theorem markInputDirty_eq {x y : Rule} (h : x.markInputDirty = .ok y) :
    ∃ numReady, y = { x with numInputsReady := numReady } := by
  simp only [Rule.markInputDirty, Lib.bind_eq_ok, Lib.except_pure, Except.ok.injEq] at h
  obtain ⟨-, -, rfl⟩ := h
  exact ⟨_, rfl⟩

theorem Loading.countInput {n : NodeId} (h : Loading g r before k)
    (hrun : countInput k r n = .ok k') : Loading g r before k' ∧
      ∃ numReady, k' = k.setRule r { k.rule r with numInputsReady := numReady } := by
  have hk' : ∃ numReady, k' = k.setRule r { k.rule r with numInputsReady := numReady } := by
    rw [Depfile.countInput] at hrun
    split at hrun
    · exact onRule_ready (fun _ _ ↦ markInputDirty_eq) hrun
    · exact onRule_ready (fun _ _ ↦ markInputReady_eq) hrun
  obtain ⟨numReady, rfl⟩ := hk'
  exact ⟨h.setReady numReady, numReady, rfl⟩

/-- Cutting off the implicit inputs changes the rule only. -/
theorem detachImplicit_eq (hrun : detachImplicit g r = .ok k) :
    ∃ numReady, k = g.setRule r { g.rule r with
      inputs := Hash.explicitInputs (g.rule r)
      numImplicitDeps := 0
      numInputsReady := numReady } := by
  obtain ⟨g₁, hloop, hpure⟩ := Lib.bind_eq_ok.mp hrun
  -- Only the counter of the rule changes in the loop.
  obtain ⟨numReady, hg₁⟩ : ∃ numReady,
      g₁ = g.setRule r { g.rule r with numInputsReady := numReady } := by
    refine Lib.foldlM_invariant (fun k : Graph ↦ ∃ numReady,
      k = g.setRule r { g.rule r with numInputsReady := numReady }) ?_ hloop
      ⟨(g.rule r).numInputsReady, by simp [Graph.setRule]⟩
    rintro n - k k' hstep ⟨numReady, rfl⟩
    split at hstep
    · obtain ⟨numReady', rfl⟩ := onRule_ready (fun _ _ ↦ markInputDirty_eq) hstep
      exact ⟨numReady', by simp [Graph.setRule]⟩
    · exact ⟨numReady, (Except.ok.inj hstep).symm⟩
  refine ⟨numReady, ?_⟩
  rw [← Except.ok.inj hpure, hg₁]
  simp [Graph.updateRule, Graph.setRule, Hash.explicitInputs]

/-- The implicit inputs are cut off; they still have the rule as a parent. -/
theorem loading_detach (hg : g.Joined) (hr : r ∈ g.rules) (hrun : detachImplicit g r = .ok k) :
    Loading g r (implicitDeps (g.rule r)).reverse.dedup k ∧ k.nodes = g.nodes ∧
      k.allocated = g.allocated ∧ (k.rule r).inputs = Hash.explicitInputs (g.rule r) := by
  obtain ⟨numReady, hk⟩ := detachImplicit_eq hrun
  have hself : k.rule r = { g.rule r with
      inputs := Hash.explicitInputs (g.rule r)
      numImplicitDeps := 0
      numInputsReady := numReady } := by
    rw [hk, Graph.setRule_rule, if_pos rfl]
  have hother : ∀ q, q ≠ r → k.rule q = g.rule q := by
    intro q hq
    rw [hk, Graph.setRule_rule, if_neg hq]
  have hsplit : (g.rule r).inputs =
      Hash.explicitInputs (g.rule r) ++ implicitDeps (g.rule r) :=
    (List.take_append_drop _ _).symm
  have hnodup := hg.twoWay.inputs_nodup r hr
  change (g.rule r).inputs.Nodup at hnodup
  rw [hsplit, List.nodup_append] at hnodup
  have hnode : k.node = g.node := by rw [hk]; rfl
  have hallocated : k.allocated = g.allocated := by rw [hk]; rfl
  have hbefore : ∀ n, n ∈ (implicitDeps (g.rule r)).reverse.dedup ↔
      n ∈ implicitDeps (g.rule r) := by simp
  refine ⟨⟨by rw [hk]; rfl, hother, ⟨[], numReady, by simpa using hself⟩, ?_, by simp [hnode], ?_,
    ?_, List.nodup_dedup _, ?_, ?_, ?_, ?_, by simp [hnode]⟩, by rw [hk]; rfl, hallocated,
    by rw [hself]⟩
  · rw [hself]
    exact hnodup.1
  · intro n q
    rw [hnode, hbefore]
    refine (hg.twoWay.mem_parents n q).trans (and_congr_right fun _ ↦ ?_)
    change n ∈ (g.rule q).inputs ↔ _
    by_cases hq : q = r
    · subst hq
      rw [hself, hsplit, List.mem_append]
      simp
    · rw [hother q hq]
      simp [hq]
  · intro n
    rw [hnode]
    exact hg.twoWay.parents_nodup n
  · intro n hn hin
    rw [hself] at hin
    exact hnodup.2.2 n hin n ((hbefore n).mp hn) rfl
  · intro n hn
    rw [hallocated]
    refine hg.allocated r hr n (Or.inl ?_)
    rw [hsplit]
    exact List.mem_append_right _ ((hbefore n).mp hn)
  · intro q hq n hn
    rw [hallocated]
    apply hg.allocated q hq n
    by_cases hqr : q = r
    · subst hqr
      rw [hself] at hn
      exact hn.imp_left fun hn ↦ List.mem_of_mem_take hn
    · rwa [hother q hqr] at hn
  · intro e he
    rw [hallocated, hnode]
    rw [hk] at he
    exact hg.nodes e he

/-- Nodes are added to the graph but not deleted yet. -/
structure Adding (g : Graph) (r : RuleId) (before : List NodeId) (k : Graph) : Prop
    extends Loading g r before k where
  grows : g.allocated ⊆ k.allocated
  found : ∀ path n, g.nodes.lookup path = some n → k.nodes.lookup path = some n
  source : ∀ path n, k.nodes.lookup path = some n →
    g.nodes.lookup path = some n ∨ (g.node n).childRule = none

theorem mem_filter_ne {n t : NodeId} : n ∈ before.filter (· ≠ t) ↔ n ∈ before ∧ n ≠ t := by
  simp

/-- Linking an input changes the parents of the node only. -/
theorem proj_linkInput {β : Type*} (proj : Node → β)
    (hproj : ∀ x parents, proj { x with parentRules := parents } = proj x) (t n : NodeId) :
    proj ((linkInput k r t).node n) = proj (k.node n) := by
  rw [linkInput]
  split
  · rfl
  · exact Graph.proj_setNode (g := k.updateRule r (·.addImplicitInput t)) proj (hproj _ _) n

/-- A node that is not an input of the rule becomes one. -/
theorem Loading.linkInput {t : NodeId} (hr : r ∈ g.rules) (ht : t ∈ k.allocated)
    (hnot : t ∉ (k.rule r).inputs) (h : Loading g r before k) :
    Loading g r (before.filter (· ≠ t)) (linkInput k r t) ∧
      (∀ n, n ∈ ((linkInput k r t).rule r).inputs ↔ n ∈ (k.rule r).inputs ∨ n = t) ∧
      (linkInput k r t).nodes = k.nodes ∧ (linkInput k r t).allocated = k.allocated := by
  obtain ⟨hrules, hnodes, hallocated⟩ := Graph.linkInput_frame (g := k) (r := r) (n := t)
  have hself := Graph.linkInput_rule_self (g := k) r t
  have hother : ∀ q, q ≠ r → (Depfile.linkInput k r t).rule q = k.rule q :=
    fun q hq ↦ Graph.linkInput_rule_ne hq t
  have hinputs : ((Depfile.linkInput k r t).rule r).inputs = (k.rule r).inputs ++ [t] := by
    rw [hself]
    rfl
  refine ⟨⟨hrules.trans h.rules, fun q hq ↦ (hother q hq).trans (h.other q hq), ?_, ?_,
    fun n ↦ (proj_linkInput Node.childRule (fun _ _ ↦ rfl) t n).trans (h.child n), ?_, ?_,
    h.before_nodup.filter _, ?_, ?_, ?_, ?_, ?_⟩,
    fun n ↦ by rw [hinputs, List.mem_append, List.mem_singleton], hnodes, hallocated⟩
  · obtain ⟨implicit, numReady, heq⟩ := h.self
    refine ⟨implicit ++ [t], numReady, ?_⟩
    rw [hself, heq]
    simp [Rule.addImplicitInput]
  · rw [hinputs, List.nodup_append]
    refine ⟨h.nodup, List.nodup_singleton t, ?_⟩
    rintro a ha b hb rfl
    exact hnot (List.mem_singleton.mp hb ▸ ha)
  · intro n q
    rw [Graph.mem_linkInput_parents, h.parents n q, mem_filter_ne]
    by_cases hq : q = r
    · subst hq
      rw [hinputs, List.mem_append, List.mem_singleton]
      by_cases hn : n = t
      · simp [hn, hr]
      · simp [hn]
    · simp [hother q hq, hq]
  · intro n
    rcases Graph.linkInput_parents (g := k) r t n with ⟨heq, -⟩ | ⟨⟨-, hnew⟩, heq⟩
    · rw [heq]
      exact h.parents_nodup n
    · rw [heq, List.nodup_append]
      refine ⟨h.parents_nodup n, List.nodup_singleton r, ?_⟩
      rintro a ha b hb rfl
      exact hnew (List.mem_singleton.mp hb ▸ ha)
  · intro n hn
    obtain ⟨hmem, hne⟩ := mem_filter_ne.mp hn
    rw [hinputs, List.mem_append, List.mem_singleton, not_or]
    exact ⟨h.before_inputs n hmem, hne⟩
  · intro n hn
    rw [hallocated]
    exact h.before_allocated n (mem_filter_ne.mp hn).1
  · intro q hq n hn
    rw [hallocated]
    rw [Graph.outputs_linkInput] at hn
    by_cases hqr : q = r
    · subst hqr
      rw [hinputs, List.mem_append, List.mem_singleton] at hn
      rcases hn with (hn | rfl) | hn
      · exact h.allocated q hq n (Or.inl hn)
      · exact ht
      · exact h.allocated q hq n (Or.inr hn)
    · rw [hother q hqr] at hn
      exact h.allocated q hq n hn
  · intro e he
    rw [hnodes] at he
    rw [hallocated, proj_linkInput Node.path (fun _ _ ↦ rfl)]
    exact h.nodes e he
  · intro n hn
    rw [proj_linkInput Node.path (fun _ _ ↦ rfl), proj_linkInput Node.hash (fun _ _ ↦ rfl),
      proj_linkInput Node.hashDepfile (fun _ _ ↦ rfl)]
    exact h.node n hn

/-- An address that was not in use gets a node without links. -/
theorem Loading.newNode (hg : g.Joined) {t : NodeId} {x : Node} (ht : t ∉ k.allocated)
    (hgrows : g.allocated ⊆ k.allocated) (hchild : x.childRule = none)
    (hparents : x.parentRules = []) (h : Loading g r before k) :
    Loading g r before ({ k with allocated := insert t k.allocated }.setNode t x) := by
  have hnode : ∀ n, n ≠ t →
      ({ k with allocated := insert t k.allocated }.setNode t x).node n = k.node n := by
    intro n hn
    rw [Graph.setNode_node, if_neg hn]
  have hself : ({ k with allocated := insert t k.allocated }.setNode t x).node t = x := by
    rw [Graph.setNode_node, if_pos rfl]
  refine ⟨h.rules, h.other, h.self, h.nodup, fun n ↦ ?_, fun n q ↦ ?_, fun n ↦ ?_,
    h.before_nodup, h.before_inputs, fun n hn ↦ Finset.mem_insert_of_mem (h.before_allocated n hn),
    fun q hq n hn ↦ Finset.mem_insert_of_mem (h.allocated q hq n hn), fun e he ↦ ?_,
    fun n hn ↦ ?_⟩
  · by_cases hn : n = t
    · rw [hn, hself, hchild]
      exact (hg.childRule_of_free fun hmem ↦ ht (hgrows hmem)).symm
    · rw [hnode n hn]
      exact h.child n
  · by_cases hn : n = t
    · rw [hn, hself, hparents]
      refine ⟨fun hq ↦ absurd hq (by simp), ?_⟩
      rintro ⟨hq, hin | ⟨-, hin⟩⟩
      · exact absurd (h.allocated q hq t (Or.inl hin)) ht
      · exact absurd (h.before_allocated t hin) ht
    · rw [hnode n hn]
      exact h.parents n q
  · by_cases hn : n = t
    · rw [hn, hself, hparents]
      exact List.nodup_nil
    · rw [hnode n hn]
      exact h.parents_nodup n
  · obtain ⟨hmem, hpath⟩ := h.nodes e he
    have hne : e.2 ≠ t := fun heq ↦ ht (heq ▸ hmem)
    rw [hnode _ hne]
    exact ⟨Finset.mem_insert_of_mem hmem, hpath⟩
  · have hne : n ≠ t := fun heq ↦ ht (heq ▸ hgrows hn)
    rw [hnode n hne]
    exact h.node n hn

theorem addNode_eq {t : NodeId} (hrun : k.addNode t = .ok k') :
    ∃ roots sources, k.nodes.lookup (k.node t).path = none ∧ k' = { k with
      roots := roots, sources := sources, nodes := k.nodes ++ [((k.node t).path, t)] } := by
  rw [Graph.addNode] at hrun
  split at hrun
  · cases hrun
  · rename_i hnone
    exact ⟨_, _, Option.not_isSome_iff_eq_none.mp hnone, (Except.ok.inj hrun).symm⟩

theorem Loading.addNode {t : NodeId} (ht : t ∈ k.allocated) (h : Loading g r before k)
    (hrun : k.addNode t = .ok k') : Loading g r before k' := by
  obtain ⟨roots, sources, -, rfl⟩ := addNode_eq hrun
  refine ⟨h.rules, h.other, h.self, h.nodup, h.child, h.parents, h.parents_nodup, h.before_nodup,
    h.before_inputs, h.before_allocated, h.allocated, fun e he ↦ ?_, h.node⟩
  rcases List.mem_append.mp he with he | he
  · exact h.nodes e he
  · rw [List.mem_singleton.mp he]
    exact ⟨ht, rfl⟩

/-- What `attach` adds. -/
structure Attached (g : Graph) (r : RuleId) (before : List NodeId) (k : Graph) (t : NodeId)
    (k' : Graph) : Prop where
  loading : Loading g r (before.filter (· ≠ t)) k'
  inputs : ∀ n, n ∈ (k'.rule r).inputs ↔ n ∈ (k.rule r).inputs ∨ n = t
  allocated : k'.allocated = k.allocated

theorem attach_spec {t : NodeId} {isNewNode : Bool} (hr : r ∈ g.rules) (ht : t ∈ k.allocated)
    (hnot : t ∉ (k.rule r).inputs) (h : Loading g r before k)
    (hrun : attach k r t isNewNode = .ok k') :
    Attached g r before k t k' ∧ (isNewNode = false → k'.nodes = k.nodes) ∧
      (isNewNode = true → k.nodes.lookup (k.node t).path = none ∧
        k'.nodes = k.nodes ++ [((k.node t).path, t)]) := by
  obtain ⟨k₁, hadd, hcount⟩ := Lib.bind_eq_ok.mp hrun
  obtain ⟨hlink, hinputs, hnodes, hallocated⟩ := h.linkInput hr ht hnot
  have hpath : ((linkInput k r t).node t).path = (k.node t).path :=
    proj_linkInput Node.path (fun _ _ ↦ rfl) t t
  cases isNewNode with
  | false =>
      obtain rfl : linkInput k r t = k₁ := Except.ok.inj hadd
      obtain ⟨hloading, numReady, rfl⟩ := hlink.countInput hcount
      refine ⟨⟨hloading, fun n ↦ ?_, hallocated⟩, fun _ ↦ hnodes, fun hno ↦ by cases hno⟩
      rw [Graph.setRule_rule, if_pos rfl]
      exact hinputs n
  | true =>
      have ht₁ : t ∈ (linkInput k r t).allocated := hallocated ▸ ht
      have hadded := hlink.addNode ht₁ hadd
      obtain ⟨hloading, numReady, rfl⟩ := hadded.countInput hcount
      obtain ⟨roots, sources, hnone, rfl⟩ := addNode_eq hadd
      rw [hpath, hnodes] at hnone
      refine ⟨⟨hloading, fun n ↦ ?_, hallocated⟩, fun hno ↦ (by cases hno), fun _ ↦ ⟨hnone, ?_⟩⟩
      · rw [Graph.setRule_rule, if_pos rfl]
        exact hinputs n
      · change (linkInput k r t).nodes ++ _ = _
        rw [hnodes, hpath]

/-- One dependency has been made an input of the rule. -/
structure DependencySet (g : Graph) (r : RuleId) (before : List NodeId) (k : Graph) (dep : String)
    (t : NodeId) (k' : Graph) : Prop where
  adding : Adding g r (before.filter (· ≠ t)) k'
  inputs : ∀ n, n ∈ (k'.rule r).inputs ↔ n ∈ (k.rule r).inputs ∨ n = t
  target : ∀ n, g.nodes.lookup dep = some n → n = t
  source : g.nodes.lookup dep = some t ∨ (g.node t).childRule = none

variable {ω : Type} {P : Platform ω} {w : ω}

/-- The node of a dependency is new, or it is an input already, or it becomes one. -/
theorem setRuleDependency_ok {dep : String} {t : NodeId}
    (hrun : setRuleDependency P w k r dep = .ok (t, k')) :
    (k.nodes.lookup dep = none ∧ t = P.newNode k.allocated ∧
      ∃ hash deps, attach (k.createNode P dep hash deps) r t true = .ok k') ∨
    (k.nodes.lookup dep = some t ∧ t ∈ (k.rule r).inputs ∧ k' = k) ∨
    (k.nodes.lookup dep = some t ∧ t ∉ (k.rule r).inputs ∧ attach k r t false = .ok k') := by
  rw [setRuleDependency] at hrun
  split at hrun
  · rename_i hlookup
    obtain ⟨⟨changed, k₁⟩, hhash, hrest⟩ := Lib.bind_eq_ok.mp hrun
    obtain ⟨k₂, hattach, hpure⟩ := Lib.bind_eq_ok.mp hrest
    simp only [Lib.except_pure, Except.ok.injEq, Prod.mk.injEq] at hpure
    obtain ⟨rfl, rfl⟩ := hpure
    obtain ⟨hash, deps, hk₁⟩ := Hash.updateNodeHash_frame hhash
    have hcreated : k₁ = k.createNode P dep hash deps := by
      rw [hk₁, Graph.createNode, Graph.setNode_node, if_pos rfl]
      simp [Graph.setNode]
    exact Or.inl ⟨hlookup, rfl, hash, deps, hcreated ▸ hattach⟩
  · rename_i target hlookup
    split at hrun
    · rename_i hin
      simp only [Lib.except_pure, Except.ok.injEq, Prod.mk.injEq] at hrun
      obtain ⟨rfl, rfl⟩ := hrun
      exact Or.inr (Or.inl ⟨hlookup, by simpa [Rule.isInput] using hin, rfl⟩)
    · rename_i hin
      obtain ⟨k₁, hattach, hpure⟩ := Lib.bind_eq_ok.mp hrun
      simp only [Lib.except_pure, Except.ok.injEq, Prod.mk.injEq] at hpure
      obtain ⟨rfl, rfl⟩ := hpure
      exact Or.inr (Or.inr ⟨hlookup, by simpa [Rule.isInput] using hin, hattach⟩)

theorem setRuleDependency_spec (hg : g.Joined) (hr : r ∈ g.rules) {dep : String} {t : NodeId}
    (h : Adding g r before k) (hrun : setRuleDependency P w k r dep = .ok (t, k')) :
    DependencySet g r before k dep t k' := by
  rcases setRuleDependency_ok hrun with
    ⟨hlookup, ht, hash, deps, hattach⟩ | ⟨hlookup, hmem, rfl⟩ | ⟨hlookup, hnot, hattach⟩
  · -- a new node
    have hfree : t ∉ k.allocated := ht ▸ P.newNode_fresh k.allocated
    subst ht
    have hself := Graph.createNode_self (P := P) k dep hash deps
    have hnew : Loading g r before (k.createNode P dep hash deps) :=
      h.newNode hg hfree h.grows rfl rfl
    have hnot : P.newNode k.allocated ∉ (k.rule r).inputs :=
      fun hin ↦ hfree (h.allocated r hr _ (Or.inl hin))
    obtain ⟨⟨hloading, hinputs, hallocated⟩, -, hadded⟩ :=
      attach_spec (k := k.createNode P dep hash deps) hr (Finset.mem_insert_self _ k.allocated)
        hnot hnew hattach
    have hnodes : k'.nodes = k.nodes ++ [(dep, P.newNode k.allocated)] := by
      rw [(hadded rfl).2, hself]
      rfl
    have hchild : (g.node (P.newNode k.allocated)).childRule = none :=
      hg.childRule_of_free fun hmem ↦ hfree (h.grows hmem)
    have hnone : g.nodes.lookup dep = none := by
      cases hl : g.nodes.lookup dep with
      | none => rfl
      | some n => exact absurd ((h.found dep n hl).symm.trans hlookup) (by simp)
    refine ⟨⟨hloading, ?_, ?_, ?_⟩, hinputs, ?_, Or.inr hchild⟩
    · rw [hallocated]
      exact h.grows.trans (Finset.subset_insert _ k.allocated)
    · intro path n hl
      rw [hnodes]
      exact Lib.lookup_snoc_eq_some_iff.mpr (Or.inl (h.found path n hl))
    · intro path n hl
      rw [hnodes] at hl
      rcases Lib.lookup_snoc_eq_some_iff.mp hl with hold | ⟨-, -, rfl⟩
      · exact h.source path n hold
      · exact Or.inr hchild
    · intro n hl
      rw [hnone] at hl
      cases hl
  · -- an input of the rule
    have hfilter : before.filter (· ≠ t) = before := by
      rw [List.filter_eq_self]
      intro n hn
      have hne : n ≠ t := fun heq ↦ h.before_inputs n hn (heq ▸ hmem)
      simpa using hne
    refine ⟨hfilter.symm ▸ h, fun n ↦ ?_, fun n hn ↦ ?_, h.source dep t hlookup⟩
    · exact ⟨Or.inl, fun hn ↦ hn.elim id fun heq ↦ heq ▸ hmem⟩
    · exact Option.some.inj ((h.found dep n hn).symm.trans hlookup)
  · -- a node that becomes one
    have htarget := (h.nodes (dep, t) (Lib.mem_of_lookup_eq_some hlookup)).1
    obtain ⟨⟨hloading, hinputs, hallocated⟩, hnodes, -⟩ :=
      attach_spec hr htarget hnot h.toLoading hattach
    have hnodes := hnodes rfl
    refine ⟨⟨hloading, hallocated ▸ h.grows, ?_, ?_⟩, hinputs, fun n hn ↦ ?_,
      h.source dep t hlookup⟩
    · rw [hnodes]
      exact h.found
    · rw [hnodes]
      exact h.source
    · exact Option.some.inj ((h.found dep n hn).symm.trans hlookup)

/-- The dependencies `ins` have been made inputs of the rule. -/
structure DependenciesSet (g : Graph) (r : RuleId) (k : Graph) (ins : List String)
    (left : List NodeId) (k' : Graph) : Prop where
  adding : Adding g r left k'
  kept : ∀ n ∈ (k.rule r).inputs, n ∈ (k'.rule r).inputs
  listed : ∀ dep ∈ ins, ∀ n, g.nodes.lookup dep = some n → n ∈ (k'.rule r).inputs
  source : ∀ n ∈ (k'.rule r).inputs, n ∈ (k.rule r).inputs ∨ (g.node n).childRule = none ∨
    ∃ dep ∈ ins, g.nodes.lookup dep = some n

theorem addDependencies_spec (hg : g.Joined) (hr : r ∈ g.rules) {ins : List String}
    (h : Adding g r before k) (hrun : addDependencies P w r ins (k, before) = .ok (k', left)) :
    DependenciesSet g r k ins left k' := by
  induction ins generalizing k before with
  | nil =>
      simp only [addDependencies, Lib.except_pure, Except.ok.injEq, Prod.mk.injEq] at hrun
      obtain ⟨rfl, rfl⟩ := hrun
      exact ⟨h, fun n hn ↦ hn, by simp, fun n hn ↦ Or.inl hn⟩
  | cons dep ins ih =>
      rw [addDependencies] at hrun
      obtain ⟨⟨t, k₁⟩, hstep, hrest⟩ := Lib.bind_eq_ok.mp hrun
      have hset := setRuleDependency_spec hg hr h hstep
      have hall := ih hset.adding hrest
      refine ⟨hall.adding, fun n hn ↦ hall.kept n ((hset.inputs n).mpr (Or.inl hn)), ?_, ?_⟩
      · intro d hd n hn
        rcases List.mem_cons.mp hd with rfl | hd
        · exact hall.kept n ((hset.inputs n).mpr (Or.inr (hset.target n hn)))
        · exact hall.listed d hd n hn
      · intro n hn
        rcases hall.source n hn with hold | hsource | ⟨d, hd, hlookup⟩
        · rcases (hset.inputs n).mp hold with hin | rfl
          · exact Or.inl hin
          · rcases hset.source with hlookup | hsource
            · exact Or.inr (Or.inr ⟨dep, List.mem_cons_self, hlookup⟩)
            · exact Or.inr (Or.inl hsource)
        · exact Or.inr (Or.inl hsource)
        · exact Or.inr (Or.inr ⟨d, List.mem_cons_of_mem dep hd, hlookup⟩)

/-- A former implicit input that has not been named again loses the rule. -/
theorem dropDependency_spec (hg : g.Joined) {n : NodeId} (h : Loading g r (n :: left) k)
    (hrun : dropDependency r k n = .ok k') : Loading g r left k' ∧ k'.rule = k.rule := by
  obtain ⟨-, hcases⟩ := dropDependency_cases hrun
  have hin : n ∉ (k.rule r).inputs := h.before_inputs n List.mem_cons_self
  obtain ⟨hnotLeft, hleft⟩ := List.nodup_cons.mp h.before_nodup
  have hself : ((k.unlink r n).node n).parentRules = (k.node n).parentRules.erase r := by
    rw [Graph.unlink_node_self]
  have hchild : ∀ m, ((k.unlink r n).node m).childRule = (k.node m).childRule :=
    Graph.proj_setNode Node.childRule rfl
  have hpath : ∀ m, ((k.unlink r n).node m).path = (k.node m).path :=
    Graph.proj_setNode Node.path rfl
  have hhash : ∀ m, ((k.unlink r n).node m).hash = (k.node m).hash :=
    Graph.proj_setNode Node.hash rfl
  have hhashDepfile : ∀ m, ((k.unlink r n).node m).hashDepfile = (k.node m).hashDepfile :=
    Graph.proj_setNode Node.hashDepfile rfl
  have h₁ : Loading g r left (k.unlink r n) := by
    refine ⟨h.rules, h.other, h.self, h.nodup, fun m ↦ (hchild m).trans (h.child m),
      fun m q ↦ ?_, fun m ↦ ?_, hleft,
      fun m hm ↦ ?_, fun m hm ↦ ?_, fun q hq m hm ↦ ?_, fun e he ↦ ?_, fun m hm ↦ ?_⟩
    · by_cases hm : m = n
      · subst hm
        rw [hself, (h.parents_nodup m).mem_erase_iff, h.parents m q]
        constructor
        · rintro ⟨hq, hrules, hmem | ⟨rfl, -⟩⟩
          · exact ⟨hrules, Or.inl hmem⟩
          · exact absurd rfl hq
        · rintro ⟨hrules, hmem | ⟨-, hmem⟩⟩
          · exact ⟨fun heq ↦ hin (heq ▸ hmem), hrules, Or.inl hmem⟩
          · exact absurd hmem hnotLeft
      · rw [Graph.unlink_node_ne hm, h.parents m q, List.mem_cons]
        simp [hm]
    · by_cases hm : m = n
      · rw [hm, hself]
        exact (h.parents_nodup n).erase r
      · rw [Graph.unlink_node_ne hm]
        exact h.parents_nodup m
    · exact h.before_inputs m (List.mem_cons_of_mem n hm)
    · exact h.before_allocated m (List.mem_cons_of_mem n hm)
    · exact h.allocated q hq m hm
    · rw [hpath]
      exact h.nodes e he
    · rw [hpath, hhash, hhashDepfile]
      exact h.node m hm
  rcases hcases with ⟨hgone, hsource, rfl⟩ | ⟨-, rfl⟩
  · -- The node is deleted: it has no links.
    refine ⟨⟨h₁.rules, h₁.other, h₁.self, h₁.nodup, h₁.child, h₁.parents, h₁.parents_nodup,
      hleft, h₁.before_inputs, fun m hm ↦ ?_, fun q hq m hm ↦ ?_, fun e he ↦ ?_, h₁.node⟩, rfl⟩
    · exact Finset.mem_erase.mpr ⟨fun heq ↦ hnotLeft (heq ▸ hm), h₁.before_allocated m hm⟩
    · refine Finset.mem_erase.mpr ⟨?_, h₁.allocated q hq m hm⟩
      rintro rfl
      rcases hm with hm | hm
      · have hp := (h₁.parents m q).mpr ⟨hq, Or.inl hm⟩
        rw [hself, hgone] at hp
        cases hp
      · exact h₁.not_output hg hq ((hchild m).trans hsource) hm
    · obtain ⟨hmem, hne⟩ := List.mem_filter.mp he
      obtain ⟨halloc, heq⟩ := h₁.nodes e hmem
      refine ⟨Finset.mem_erase.mpr ⟨fun hen ↦ ?_, halloc⟩, heq⟩
      rw [hen] at heq
      simp [heq] at hne
  · exact ⟨h₁, rfl⟩

theorem dropDependencies_spec (hg : g.Joined) (h : Loading g r left k)
    (hrun : left.foldlM (dropDependency r) k = .ok k') : Loading g r [] k' ∧ k'.rule = k.rule := by
  induction left generalizing k with
  | nil =>
      rw [← Except.ok.inj hrun]
      exact ⟨h, rfl⟩
  | cons n left ih =>
      rw [List.foldlM_cons] at hrun
      obtain ⟨k₁, hstep, hrest⟩ := Lib.bind_eq_ok.mp hrun
      obtain ⟨h₁, hrule⟩ := dropDependency_spec hg h hstep
      obtain ⟨h', hrule'⟩ := ih h₁ hrest
      exact ⟨h', hrule'.trans hrule⟩

theorem Loading.joined (hg : g.Joined) (h : Loading g r [] k) : k.Joined := by
  have hmem : ∀ q ∈ k.links.rules, q ∈ g.rules := by
    intro q hq
    rw [← h.rules]
    exact hq
  refine ⟨⟨fun n q ↦ ?_, fun n q ↦ ?_, h.parents_nodup, fun q hq ↦ ?_, fun q hq ↦ ?_⟩,
    fun q hq ↦ h.allocated q (h.rules ▸ hq), h.nodes⟩
  · refine (h.parents n q).trans ?_
    change _ ↔ q ∈ k.rules ∧ n ∈ (k.rule q).inputs
    rw [h.rules]
    simp
  · change (k.node n).childRule = some q ↔ q ∈ k.rules ∧ n ∈ (k.rule q).outputs
    rw [h.child, h.rules, h.outputs]
    exact hg.twoWay.child_eq_some n q
  · change (k.rule q).inputs.Nodup
    by_cases hqr : q = r
    · exact hqr ▸ h.nodup
    · rw [h.other q hqr]
      exact hg.twoWay.inputs_nodup q (hmem q hq)
  · change (k.rule q).outputs.Nodup
    rw [h.outputs]
    exact hg.twoWay.outputs_nodup q (hmem q hq)

theorem Loading.tied (hg : g.Tied) (h : Loading g r [] k) : k.Tied := by
  refine ⟨h.joined hg.toJoined, fun q hq ↦ ?_⟩
  by_cases hqr : q = r
  · obtain ⟨implicit, numReady, hself⟩ := h.self
    rw [hqr, hself, List.length_append]
    exact Nat.le_add_left _ _
  · rw [h.other q hqr]
    exact hg.implicit q (h.rules ▸ hq)

/-- The content is a depfile for the first output of the rule, and lists `ins`. -/
def Names (P : Platform ω) (g : Graph) (r : RuleId) (content : String) (ins : List String) : Prop :=
  ∃ first, (g.rule r).outputs.head? = some first ∧
    P.parseDepfile content = some ((g.node first).path, ins)

/-- The rule `r` has got the implicit inputs that `ins` names. -/
structure Loaded (g : Graph) (r : RuleId) (ins : List String) (g' : Graph) : Prop where
  loading : Loading g r [] g'
  listed : ∀ dep ∈ ins, ∀ n, g.nodes.lookup dep = some n → n ∈ (g'.rule r).inputs
  source : ∀ n ∈ (g'.rule r).inputs, n ∈ Hash.explicitInputs (g.rule r) ∨
    (g.node n).childRule = none ∨ ∃ dep ∈ ins, g.nodes.lookup dep = some n

theorem load_spec {g' : Graph} {content : String} {ins : List String} {loaded : Bool} (hg : g.Joined)
    (hr : r ∈ g.rules) (hnames : Names P g r content ins)
    (hrun : load P w g r content = .ok (loaded, g')) : Loaded g r ins g' := by
  obtain ⟨first, hfirst, hparse⟩ := hnames
  obtain ⟨g₁, hdetach, hcases⟩ := load_ok hrun
  obtain ⟨h₁, hnodes, hallocated, hinputs⟩ := loading_detach hg hr hdetach
  have hfirst₁ : (g₁.rule r).outputs.head? = some first := by
    rw [h₁.outputs]
    exact hfirst
  have hmem : first ∈ g.allocated := hg.allocated r hr first (Or.inr (List.mem_of_head? hfirst))
  rw [← (h₁.node first hmem).1] at hparse
  obtain ⟨-, -, hother⟩ | ⟨-, first', ins', g₂, left, hfirst', hparse', hadd, hdrop⟩ := hcases
  · exact absurd hparse (hother first ins hfirst₁)
  obtain rfl : ins = ins' := (Prod.mk.inj (Option.some.inj (hparse.symm.trans hparse'))).2
  have hadding : Adding g r (implicitDeps (g.rule r)).reverse.dedup g₁ :=
    ⟨h₁, hallocated ▸ Finset.Subset.refl _, fun path n hn ↦ hnodes ▸ hn,
      fun path n hn ↦ Or.inl (hnodes ▸ hn)⟩
  have hset := addDependencies_spec hg hr hadding hadd
  obtain ⟨h₃, hrule⟩ := dropDependencies_spec hg hset.adding.toLoading hdrop
  refine ⟨h₃, fun dep hdep n hn ↦ ?_, fun n hn ↦ ?_⟩
  · rw [hrule]
    exact hset.listed dep hdep n hn
  · rw [hrule] at hn
    rw [← hinputs]
    exact hset.source n hn

/-! ## Cycles -/

/-- The depfile lists a target that is an output of the rule, or is made from
one. -/
def ClosesCycle (g : Graph) (r : RuleId) (ins : List String) : Prop :=
  ∃ dep ∈ ins, ∃ n, g.nodes.lookup dep = some n ∧ ∃ o ∈ (g.rule r).outputs, n ∈ g.links.Above o

/-- The dependencies that a load for the rule leaves alone. -/
def OtherFeeds (g : Graph) (r : RuleId) (m n : NodeId) : Prop :=
  ∃ q, (g.node n).childRule = some q ∧ (q = r → m ∈ Hash.explicitInputs (g.rule r)) ∧
    (q ≠ r → m ∈ (g.rule q).inputs)

section Cycles

variable (hg : g.Tied) (hr : r ∈ g.rules)
include hg hr

/-- The other dependencies and the implicit ones make up all. -/
theorem feeds_eq_join (h : Loading g r [] k) :
    k.links.Feeds = Lib.Join (OtherFeeds g r) {n | n ∈ implicitDeps (k.rule r)}
      {n | n ∈ (g.rule r).outputs} := by
  obtain ⟨implicit, numReady, hself⟩ := h.self
  have himplicit : implicitDeps (k.rule r) = implicit := by
    simp [implicitDeps, hself]
  have hinputs : (k.rule r).inputs = Hash.explicitInputs (g.rule r) ++ implicit := by rw [hself]
  funext m n
  simp only [eq_iff_iff, Lib.Join, Set.mem_ofPred_eq, himplicit]
  constructor
  · rintro ⟨q, hchild, hm⟩
    change (k.node n).childRule = some q at hchild
    change m ∈ (k.rule q).inputs at hm
    rw [h.child] at hchild
    by_cases hq : q = r
    · subst hq
      rw [hinputs, List.mem_append] at hm
      rcases hm with hm | hm
      · exact Or.inl ⟨q, hchild, fun _ ↦ hm, fun hne ↦ absurd rfl hne⟩
      · exact Or.inr ⟨hm, ((hg.twoWay.child_eq_some n q).mp hchild).2⟩
    · rw [h.other q hq] at hm
      exact Or.inl ⟨q, hchild, fun heq ↦ absurd heq hq, fun _ ↦ hm⟩
  · rintro (⟨q, hchild, hself', hother⟩ | ⟨hm, hn⟩)
    · refine ⟨q, (h.child n).trans hchild, ?_⟩
      change m ∈ (k.rule q).inputs
      by_cases hq : q = r
      · subst hq
        rw [hinputs]
        exact List.mem_append_left _ (hself' rfl)
      · rw [h.other q hq]
        exact hother hq
    · refine ⟨r, (h.child n).trans ((hg.twoWay.child_eq_some n r).mpr ⟨hr, hn⟩), ?_⟩
      change m ∈ (k.rule r).inputs
      rw [hinputs]
      exact List.mem_append_right _ hm

omit hg hr in
theorem otherFeeds_le {m n : NodeId} (h : OtherFeeds g r m n) : g.links.Feeds m n := by
  obtain ⟨q, hchild, hself, hother⟩ := h
  refine ⟨q, hchild, ?_⟩
  by_cases hq : q = r
  · subst hq
    exact List.mem_of_mem_take (hself rfl)
  · exact hother hq

/-- In an acyclic graph the inputs of the rule are of no use above its outputs. -/
theorem otherFeeds_of_above (hac : g.links.Acyclic) {o n : NodeId} (ho : o ∈ (g.rule r).outputs)
    (hn : n ∈ g.links.Above o) : ReflTransGen (OtherFeeds g r) o n := by
  induction hn with
  | refl => exact .refl
  | tail hpath hstep ih =>
      obtain ⟨q, hchild, hm⟩ := hstep
      refine ih.tail ⟨q, hchild, fun hq ↦ ?_, fun _ ↦ hm⟩
      subst hq
      have hback := (hg.twoWay.child_eq_some o q).mpr ⟨hr, ho⟩
      exact absurd hpath (Lib.Acyclic.not_reach_back hac ⟨q, hback, hm⟩)

/-- A load keeps the graph acyclic just if it closes no cycle. -/
theorem Loaded.acyclic_iff (hac : g.links.Acyclic) {ins : List String} {g' : Graph}
    (h : Loaded g r ins g') : g'.links.Acyclic ↔ ¬ ClosesCycle g r ins := by
  have hother : Lib.Acyclic (OtherFeeds g r) := hac.mono fun _ _ ↦ otherFeeds_le
  rw [Links.Acyclic, feeds_eq_join hg hr h.loading, hother.join_iff]
  obtain ⟨implicit, numReady, hself⟩ := h.loading.self
  have himplicit : implicitDeps (g'.rule r) = implicit := by simp [implicitDeps, hself]
  have hinputs : (g'.rule r).inputs = Hash.explicitInputs (g.rule r) ++ implicit := by rw [hself]
  constructor
  · rintro hno ⟨dep, hdep, n, hlookup, o, ho, habove⟩
    have hn := h.listed dep hdep n hlookup
    rw [hinputs, List.mem_append] at hn
    rcases hn with hn | hn
    · -- an explicit input above an output would close a cycle of the old graph
      have hchild := (hg.twoWay.child_eq_some o r).mpr ⟨hr, ho⟩
      exact Lib.Acyclic.not_reach_back hac ⟨r, hchild, List.mem_of_mem_take hn⟩ habove
    · exact hno n (himplicit ▸ hn) o ho (otherFeeds_of_above hg hr hac ho habove)
  · intro hno n hn o ho hpath
    rw [himplicit] at hn
    have habove : n ∈ g.links.Above o :=
      ReflTransGen.mono (fun _ _ ↦ otherFeeds_le) _ _ hpath
    have hchild := (hg.twoWay.child_eq_some o r).mpr ⟨hr, ho⟩
    rcases h.source n (hinputs ▸ List.mem_append_right _ hn) with hexplicit | hsource | hlisted
    · exact Lib.Acyclic.not_reach_back hac ⟨r, hchild, List.mem_of_mem_take hexplicit⟩ habove
    · rcases ReflTransGen.cases_tail habove with heq | ⟨m, -, q, hq, -⟩
      · rw [heq] at hsource
        exact absurd (hchild.symm.trans hsource) (Option.some_ne_none r)
      · exact absurd (hq.symm.trans hsource) (Option.some_ne_none q)
    · obtain ⟨dep, hdep, hlookup⟩ := hlisted
      exact hno ⟨dep, hdep, n, hlookup, o, ho, habove⟩

end Cycles

end Depfile

end Falcon
