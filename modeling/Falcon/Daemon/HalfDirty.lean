import Falcon.Build.LazyBuild
import Falcon.Build.Overrun
import Falcon.Daemon.SetDirty

/-!
# Rules with several outputs

`setDirty` on an output marks that output and its rule by hand and leaves the
other outputs of the rule alone, while `onRuleFinished` reports all of them.
-/

namespace Falcon

open BuildEvent

namespace Links

variable {L : Links} (hL : L.TwoWay) {n o : NodeId} {r : RuleId}
include hL

/-- Two outputs of one rule do not depend on each other. -/
theorem not_mem_Above_sibling (hac : L.Acyclic) (hn : L.child n = some r) (ho : o ∈ L.outputs r)
    (hne : o ≠ n) : o ∉ L.Above n := by
  intro hmem
  have hr : r ∈ L.rules := ((hL.child_eq_some n r).mp hn).1
  have ho' : L.child o = some r := (hL.child_eq_some o r).mpr ⟨hr, ho⟩
  rcases Relation.ReflTransGen.cases_tail hmem with heq | ⟨m, hm, q, hq, hin⟩
  · exact hne heq
  · obtain rfl : r = q := Option.some.inj (ho'.symm.trans hq)
    exact hac n (Relation.TransGen.tail' hm ⟨r, hn, hin⟩)

end Links

namespace Graph

/-- The outputs of a dirty rule are dirty or have been fetched lazily. -/
def NoHalfDirtyRule (g : Graph) : Prop :=
  ∀ r ∈ g.rules, (g.rule r).isDirty = true → ∀ o ∈ (g.rule r).outputs,
    (g.node o).isDirty = true ∨ (g.node o).isLazyFetched = true

variable {g g' : Graph} {n : NodeId} {r : RuleId}

/-- `setDirty` marks what lies above the output, and the rule of the output. -/
theorem markTarget_spec (hL : g.links.TwoWay) (hac : g.links.Acyclic) (hexact : g.Exact)
    (hn : (g.node n).childRule = some r) {fuel : ℕ} (hfuel : g.links.rankAbove n < fuel) :
    ∃ g', Daemon.markTarget fuel g n = .ok g' ∧ g'.Exact ∧
      g.Marked (g.links.Above n) (consumers g.links (g.links.Above n) ∪ {r}) g' := by
  obtain ⟨g₁, hmark, hmarked, hex⟩ := markDirty_spec hL hac hexact n hfuel
  have hc : (g₁.node n).childRule = some r := (childRule_of_links hmarked.links n).trans hn
  have hset := g₁.marked_setRuleState r
  refine ⟨g₁.updateRule r (·.setState .outOfDate), ?_, ?_, ?_⟩
  · rw [Daemon.markTarget, hmark, Lib.except_ok_bind]
    simp only [hc, Lib.except_pure]
  · rw [← exactBut_false] at hex ⊢
    refine hex.congr hset.links (fun _ ↦ rfl) fun q ↦ ?_
    exact proj_setRule Rule.numInputsReady (x := (g₁.rule r).setState .outOfDate) rfl q
  · exact (Marked.trans hmarked hset).congr (Set.union_empty _) rfl

section Marked

variable (hg : g.Consistent) (hn : (g.node n).childRule = some r)
  (hm : g.Marked (g.links.Above n) (consumers g.links (g.links.Above n) ∪ {r}) g')
include hm

theorem dirtyNodes_of_marked : g'.dirtyNodes = g.links.Above n ∪ g.dirtyNodes :=
  Set.ext fun x ↦ hm.node x

include hg in
theorem Consistent.hashed_of_marked :
    (∀ x ∈ g'.allocated, (g'.node x).hash ≠ "" ∧ (g'.node x).hashDepfile ≠ "") ∧
      ∀ j ∈ g'.rules, (g'.rule j).hash ≠ "" := by
  have hhashes : g'.hashes = g.hashes := congrArg Stamps.toHashes hm.stamps
  refine ⟨fun x hx ↦ ?_, fun j hj ↦ ?_⟩
  · have hhash : (g'.node x).hash = (g.node x).hash := congrFun (congrArg Hashes.nodeHash hhashes) x
    have hdeps : (g'.node x).hashDepfile = (g.node x).hashDepfile :=
      congrFun (congrArg Hashes.nodeHashDepfile hhashes) x
    rw [hhash, hdeps]
    exact hg.node_hash x (allocated_of_links hm.links ▸ hx)
  · have hhash : (g'.rule j).hash = (g.rule j).hash := congrFun (congrArg Hashes.ruleHash hhashes) j
    rw [hhash]
    exact (hg.rule_hash j (rules_of_links hm.links ▸ hj)).1

include hg in
/-- Only the rule of `n` can be left half dirty. -/
theorem noHalfDirtyRule_of_marked (h : ∀ o ∈ (g.rule r).outputs,
    o ∈ g.links.Above n ∪ g.dirtyNodes ∨ (g.node o).isLazyFetched = true) :
    g'.NoHalfDirtyRule := by
  intro q hq hd o ho
  rw [rules_of_links hm.links] at hq
  rw [outputs_of_links hm.links] at ho
  rw [hm.node, hm.lazy]
  by_cases hmem : o ∈ g.links.Above n
  · exact Or.inl (Or.inl hmem)
  · rcases (hm.rule q).mp hd with (⟨-, m, hin, hmn⟩ | rfl) | hd
    · exact absurd (Links.Above_of_feeds
        ⟨q, (hg.twoWay.child_eq_some o q).mpr ⟨hq, ho⟩, hin⟩ (Links.self_mem_Above o))
        fun hom ↦ hmem (Relation.ReflTransGen.trans hmn hom)
    · exact (h o ho).imp id fun hlazy ↦ ⟨hmem, hlazy⟩
    · rcases hg.dirty_rule q hq hd o ho with hlazy | hdo
      · exact Or.inr ⟨hmem, hlazy⟩
      · exact Or.inl (Or.inr hdo)

include hg hn in
theorem outputs_of_noHalfDirtyRule (h : g'.NoHalfDirtyRule) : ∀ o ∈ (g.rule r).outputs,
    o ∈ g.links.Above n ∪ g.dirtyNodes ∨ (g.node o).isLazyFetched = true := by
  intro o ho
  have hr : r ∈ g'.rules := by
    rw [rules_of_links hm.links]
    exact ((hg.twoWay.child_eq_some n r).mp hn).1
  have hall := h r hr ((hm.rule r).mpr (Or.inl (Or.inr rfl))) o
    (by rw [outputs_of_links hm.links]; exact ho)
  rw [hm.node, hm.lazy] at hall
  exact hall.imp id And.right

end Marked

end Graph

namespace Daemon

variable {ω : Type} {P : Platform ω} {C : DaemonConfig ω} {d : Daemon ω} {target : String}
  {n : NodeId} {r : RuleId}

/-- The daemon takes a change of the output `n` of `r` for its own. -/
def IgnoresChange (P : Platform ω) (d : Daemon ω) (n : NodeId) (r : RuleId) : Prop :=
  (P.mtime d.world (d.graph.node n).path).any (isOwnChange d.graph n r) = true

/-- The nodes that are out of date once `setDirty` has been told about the output
`n` of `r`. -/
def dirtied (P : Platform ω) (d : Daemon ω) (n : NodeId) (r : RuleId) : Set NodeId :=
  {x | (x ∈ d.graph.links.Above n ∧ ¬ IgnoresChange P d n r) ∨ x ∈ d.graph.dirtyNodes}

/-- The state before `setDirty` on the output `n` of `r` from which no rule is
left half dirty: the other outputs of the rule are out of date afterwards, or
lazily fetched, and not in the way of a build. -/
structure StaysWhole (P : Platform ω) (d : Daemon ω) (n : NodeId) (r : RuleId) : Prop where
  outputs : ¬ IgnoresChange P d n r → ∀ o ∈ (d.graph.rule r).outputs,
    o ∈ dirtied P d n r ∨ (d.graph.node o).isLazyFetched = true
  reportable : d.graph.Reportable (dirtied P d n r)

end Daemon

/-- `parse.c` has been fetched, `parse.h` and `parse.o` have not; the compiler
writes a depfile. -/
def fetchedGraph : Graph :=
  parserFetched.setRule 1 { parserFetched.rule 1 with depfile := "parse.d" }

def fetchedDaemon : Daemon Unit := ⟨fetchedGraph, (), ∅⟩

theorem fetchedGraph_rules {r : RuleId} (hr : r ∈ fetchedGraph.rules) : r = 0 ∨ r = 1 :=
  parserGraph_rules hr

theorem fetchedGraph_allocated {n : NodeId} (hn : n ∈ fetchedGraph.allocated) :
    n = 0 ∨ n = 1 ∨ n = 2 ∨ n = 3 :=
  parserGraph_allocated hn

theorem twoWay_fetchedGraph : fetchedGraph.links.TwoWay :=
  @Links.twoWay_of_bounded _ 5 (fun _ ↦ ⟨rfl, rfl⟩) (by decide) (by decide)

theorem consistent_fetchedGraph : fetchedGraph.Consistent where
  twoWay := twoWay_fetchedGraph
  acyclic := twoWay_fetchedGraph.acyclic_of_rank id (by decide)
  allocated := by
    intro r hr n hn
    rcases fetchedGraph_rules hr with rfl | rfl
    · exact consistent_parserGraph.allocated 0 (by decide) n hn
    · exact consistent_parserGraph.allocated 1 (by decide) n hn
  lookup := by
    intro n hn
    rcases fetchedGraph_allocated hn with rfl | rfl | rfl | rfl <;> decide
  nodes := by decide
  roots := by
    rintro (_ | _ | _ | _ | n) <;>
      simp [fetchedGraph, parserFetched, parserGraph, Graph.setNode, Graph.setRule, Node.create]
  sources := by
    rintro (_ | _ | _ | _ | n) <;>
      simp [fetchedGraph, parserFetched, parserGraph, Graph.setNode, Graph.setRule, Node.create]
  output := by
    intro r hr
    rcases fetchedGraph_rules hr with rfl | rfl <;> decide
  phony_output := by
    intro r hr
    rcases fetchedGraph_rules hr with rfl | rfl <;> decide
  node_hash := by
    intro n hn
    rcases fetchedGraph_allocated hn with rfl | rfl | rfl | rfl <;> decide
  rule_hash := by
    intro r hr
    rcases fetchedGraph_rules hr with rfl | rfl <;> decide
  dirty_node := by
    rintro (_ | _ | _ | _ | n) r hr <;>
      simp [fetchedGraph, parserFetched, parserGraph, Graph.setNode, Graph.setRule,
        Node.create] at hr <;> subst hr <;> decide
  dirty_rule := by
    intro r hr
    rcases fetchedGraph_rules hr with rfl | rfl <;> decide
  dirty_input := by
    intro r hr
    rcases fetchedGraph_rules hr with rfl | rfl <;> decide
  exact := by
    intro r hr
    rcases fetchedGraph_rules hr with rfl | rfl <;> decide

end Falcon
