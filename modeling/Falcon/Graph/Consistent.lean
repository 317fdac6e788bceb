import Falcon.Graph.Links

/-!
# Consistent graphs

The states that `GraphConsistencyChecker` accepts, together with what it takes
for granted: the links agree in both directions and the graph has no cycle.
-/

namespace Falcon.Graph

/-- The links, the node map and the sets of roots and sources describe one
acyclic graph on the nodes that are allocated. -/
structure Linked (g : Graph) : Prop where
  twoWay : g.links.TwoWay
  acyclic : g.links.Acyclic
  allocated : ∀ r ∈ g.rules, ∀ n, n ∈ (g.rule r).inputs ∨ n ∈ (g.rule r).outputs →
    n ∈ g.allocated
  lookup : ∀ n ∈ g.allocated, g.nodes.lookup (g.node n).path = some n
  nodes : ∀ e ∈ g.nodes, e.2 ∈ g.allocated ∧ (g.node e.2).path = e.1
  roots : ∀ n, n ∈ g.roots ↔ n ∈ g.allocated ∧ (g.node n).parentRules = []
  sources : ∀ n, n ∈ g.sources ↔ n ∈ g.allocated ∧ (g.node n).childRule = none
  output : ∀ r ∈ g.rules, (g.rule r).outputs ≠ []
  phony_output : ∀ r ∈ g.rules, (g.rule r).isPhony = true → (g.rule r).outputs.length = 1

theorem Linked.of_links {g g' : Graph} (h : g.Linked) (hl : g'.links = g.links) : g'.Linked where
  twoWay := hl ▸ h.twoWay
  acyclic := hl ▸ h.acyclic
  allocated r hr n hn := by
    rw [inputs_of_links hl, outputs_of_links hl] at hn
    rw [allocated_of_links hl]
    exact h.allocated r (rules_of_links hl ▸ hr) n hn
  lookup n hn := by
    have hnodes : g'.nodes = g.nodes := congrArg Links.nodes hl
    rw [hnodes, path_of_links hl]
    exact h.lookup n (allocated_of_links hl ▸ hn)
  nodes e he := by
    have hnodes : g'.nodes = g.nodes := congrArg Links.nodes hl
    rw [path_of_links hl, allocated_of_links hl]
    exact h.nodes e (hnodes ▸ he)
  roots n := by
    have hroots : g'.roots = g.roots := congrArg Links.roots hl
    rw [hroots, allocated_of_links hl, parentRules_of_links hl]
    exact h.roots n
  sources n := by
    have hsources : g'.sources = g.sources := congrArg Links.sources hl
    rw [hsources, allocated_of_links hl, childRule_of_links hl]
    exact h.sources n
  output r hr := by
    rw [outputs_of_links hl]
    exact h.output r (rules_of_links hl ▸ hr)
  phony_output r hr hphony := by
    rw [outputs_of_links hl]
    exact h.phony_output r (rules_of_links hl ▸ hr) (isPhony_of_links hl r ▸ hphony)

structure Consistent (g : Graph) : Prop extends Linked g where
  node_hash : ∀ n ∈ g.allocated, (g.node n).hash ≠ "" ∧ (g.node n).hashDepfile ≠ ""
  rule_hash : ∀ r ∈ g.rules, (g.rule r).hash ≠ "" ∧ (g.rule r).hashDepfile ≠ ""
  dirty_node : ∀ n r, (g.node n).childRule = some r → (g.node n).isDirty = true →
    (g.rule r).isDirty = true
  dirty_rule : ∀ r ∈ g.rules, (g.rule r).isDirty = true → ∀ o ∈ (g.rule r).outputs,
    (g.node o).isLazyFetched = true ∨ (g.node o).isDirty = true
  dirty_input : ∀ r ∈ g.rules, ∀ n ∈ (g.rule r).inputs, (g.node n).isDirty = true →
    (g.rule r).isDirty = true
  exact : g.Exact

end Falcon.Graph
