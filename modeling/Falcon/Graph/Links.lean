import Mathlib.Data.Finset.Card
import Falcon.Graph.Core
import Falcon.Lib.Dag

/-!
# The links of a graph

The part of a graph that the marking, hashing and building code leaves alone:
paths, commands and the pointers between nodes and rules.  `TwoWay` says that
the pointers agree with each other, as the comments of `graph.h` describe
them, and `Feeds` is the relation that has to be acyclic.
-/

namespace Falcon

open Relation

structure Links where
  path : NodeId → String
  child : NodeId → Option RuleId
  parents : NodeId → List RuleId
  isExplicit : NodeId → Bool
  inputs : RuleId → List NodeId
  outputs : RuleId → List NodeId
  numImplicit : RuleId → ℕ
  command : RuleId → String
  depfile : RuleId → String
  roots : Finset NodeId
  sources : Finset NodeId
  nodes : List (String × NodeId)
  rules : List RuleId
  allocated : Finset NodeId

structure Hashes where
  nodeHash : NodeId → String
  nodeHashDepfile : NodeId → String
  ruleHash : RuleId → String
  ruleHashDepfile : RuleId → String

/-- Hashes and timestamps, which marking does not touch. -/
structure Stamps extends Hashes where
  nodeTime : NodeId → Timestamp
  ruleTime : RuleId → Timestamp

/-- States, counters and timestamps, which hashing does not touch. -/
structure Marks where
  nodeState : NodeId → State
  nodeLazy : NodeId → Bool
  nodeTime : NodeId → Timestamp
  ruleState : RuleId → State
  ruleReady : RuleId → ℕ
  ruleTime : RuleId → Timestamp

namespace Graph

def links (g : Graph) : Links where
  path n := (g.node n).path
  child n := (g.node n).childRule
  parents n := (g.node n).parentRules
  isExplicit n := (g.node n).isExplicitDependency
  inputs r := (g.rule r).inputs
  outputs r := (g.rule r).outputs
  numImplicit r := (g.rule r).numImplicitDeps
  command r := (g.rule r).command
  depfile r := (g.rule r).depfile
  roots := g.roots
  sources := g.sources
  nodes := g.nodes
  rules := g.rules
  allocated := g.allocated

def hashes (g : Graph) : Hashes where
  nodeHash n := (g.node n).hash
  nodeHashDepfile n := (g.node n).hashDepfile
  ruleHash r := (g.rule r).hash
  ruleHashDepfile r := (g.rule r).hashDepfile

def stamps (g : Graph) : Stamps where
  toHashes := g.hashes
  nodeTime n := (g.node n).timestamp
  ruleTime r := (g.rule r).timestamp

def marks (g : Graph) : Marks where
  nodeState n := (g.node n).state
  nodeLazy n := (g.node n).isLazyFetched
  nodeTime n := (g.node n).timestamp
  ruleState r := (g.rule r).state
  ruleReady r := (g.rule r).numInputsReady
  ruleTime r := (g.rule r).timestamp

/-- The budget that suffices for a recursion along an acyclic graph. -/
def depth (g : Graph) : ℕ := (g.rules.flatMap fun r ↦ (g.rule r).outputs).length + 2

end Graph

namespace Links

/-- Both ends of every link agree and nothing is linked twice. -/
structure TwoWay (L : Links) : Prop where
  mem_parents : ∀ n r, r ∈ L.parents n ↔ r ∈ L.rules ∧ n ∈ L.inputs r
  child_eq_some : ∀ n r, L.child n = some r ↔ r ∈ L.rules ∧ n ∈ L.outputs r
  parents_nodup : ∀ n, (L.parents n).Nodup
  inputs_nodup : ∀ r ∈ L.rules, (L.inputs r).Nodup
  outputs_nodup : ∀ r ∈ L.rules, (L.outputs r).Nodup

/-- `m` is an input of the rule that generates `n`. -/
def Feeds (L : Links) (m n : NodeId) : Prop := ∃ r, L.child n = some r ∧ m ∈ L.inputs r

/-- `n` itself and every node whose generation uses `n`. -/
def Above (L : Links) (n : NodeId) : Set NodeId := {m | ReflTransGen L.Feeds n m}

def Acyclic (L : Links) : Prop := Lib.Acyclic L.Feeds

/-- The nodes generated by some rule. -/
def targets (L : Links) : Finset NodeId := (L.rules.flatMap L.outputs).toFinset

variable {L : Links}

theorem self_mem_Above (n : NodeId) : n ∈ L.Above n := ReflTransGen.refl

theorem Above_of_feeds {m n : NodeId} (h : L.Feeds m n) : L.Above n ⊆ L.Above m :=
  fun _ hk ↦ ReflTransGen.head h hk

/-- The links of a graph whose nodes are numbered below `bound`. -/
theorem twoWay_of_bounded {bound : ℕ}
    (hbeyond : ∀ k, L.parents (k + bound) = [] ∧ L.child (k + bound) = none)
    (hnodes : ∀ n < bound, (L.parents n).Nodup ∧
      (∀ r ∈ L.parents n, r ∈ L.rules ∧ n ∈ L.inputs r) ∧
      ∀ r ∈ L.child n, r ∈ L.rules ∧ n ∈ L.outputs r)
    (hrules : ∀ r ∈ L.rules, (L.inputs r).Nodup ∧ (L.outputs r).Nodup ∧
      (∀ n ∈ L.inputs r, r ∈ L.parents n) ∧ ∀ n ∈ L.outputs r, L.child n = some r) :
    L.TwoWay := by
  have hcases : ∀ n, n < bound ∨ (L.parents n = [] ∧ L.child n = none) := by
    intro n
    rcases Nat.lt_or_ge n bound with hn | hn
    · exact Or.inl hn
    · obtain ⟨k, rfl⟩ := Nat.exists_eq_add_of_le' hn
      exact Or.inr (hbeyond k)
  refine ⟨fun n r ↦ ⟨fun hr ↦ ?_, fun h ↦ (hrules r h.1).2.2.1 n h.2⟩,
    fun n r ↦ ⟨fun hr ↦ ?_, fun h ↦ (hrules r h.1).2.2.2 n h.2⟩, fun n ↦ ?_,
    fun r hr ↦ (hrules r hr).1, fun r hr ↦ (hrules r hr).2.1⟩
  all_goals rcases hcases n with hn | ⟨hparents, hchild⟩
  · exact (hnodes n hn).2.1 r hr
  · rw [hparents] at hr
    cases hr
  · exact (hnodes n hn).2.2 r hr
  · rw [hchild] at hr
    cases hr
  · exact (hnodes n hn).1
  · rw [hparents]
    exact List.nodup_nil

namespace TwoWay

variable (hL : L.TwoWay)
include hL

theorem acyclic_of_rank (rank : NodeId → ℕ)
    (h : ∀ r ∈ L.rules, ∀ m ∈ L.inputs r, ∀ n ∈ L.outputs r, rank m < rank n) : L.Acyclic := by
  apply Lib.acyclic_of_rank rank
  rintro m n ⟨r, hchild, hm⟩
  obtain ⟨hr, hn⟩ := (hL.child_eq_some n r).mp hchild
  exact h r hr m hm n hn

theorem feeds_iff {m n : NodeId} :
    L.Feeds m n ↔ ∃ r ∈ L.parents m, n ∈ L.outputs r := by
  constructor
  · rintro ⟨r, hchild, hm⟩
    obtain ⟨hr, hn⟩ := (hL.child_eq_some n r).mp hchild
    exact ⟨r, (hL.mem_parents m r).mpr ⟨hr, hm⟩, hn⟩
  · rintro ⟨r, hr, hn⟩
    obtain ⟨hrules, hm⟩ := (hL.mem_parents m r).mp hr
    exact ⟨r, (hL.child_eq_some n r).mpr ⟨hrules, hn⟩, hm⟩

theorem mem_targets_of_feeds (m n : NodeId) (h : L.Feeds m n) : n ∈ L.targets := by
  obtain ⟨r, hchild, -⟩ := h
  obtain ⟨hr, hn⟩ := (hL.child_eq_some n r).mp hchild
  exact List.mem_toFinset.mpr (List.mem_flatMap.mpr ⟨r, hr, hn⟩)

/-- What lies above a node: the node, and what lies above the outputs of the
rules that use it. -/
theorem Above_eq (n : NodeId) :
    L.Above n = {n} ∪ {m | ∃ r ∈ L.parents n, ∃ o ∈ L.outputs r, m ∈ L.Above o} := by
  ext m
  simp only [Set.mem_union, Set.mem_singleton_iff, Set.mem_ofPred_eq, Above]
  constructor
  · intro h
    rcases ReflTransGen.cases_head h with heq | ⟨o, hfeeds, hom⟩
    · exact Or.inl heq.symm
    · obtain ⟨r, hr, ho⟩ := hL.feeds_iff.mp hfeeds
      exact Or.inr ⟨r, hr, o, ho, hom⟩
  · rintro (rfl | ⟨r, hr, o, ho, hom⟩)
    · exact .refl
    · exact ReflTransGen.head (hL.feeds_iff.mpr ⟨r, hr, ho⟩) hom

end TwoWay

/-- The number of targets strictly above a node. -/
noncomputable def rankAbove (L : Links) : NodeId → ℕ := Lib.reachCount L.Feeds L.targets

theorem rankAbove_lt (hL : L.TwoWay) (hac : L.Acyclic) {n o : NodeId} {r : RuleId}
    (hr : r ∈ L.parents n) (ho : o ∈ L.outputs r) : L.rankAbove o < L.rankAbove n :=
  Lib.Acyclic.reachCount_lt hac hL.mem_targets_of_feeds (hL.feeds_iff.mpr ⟨r, hr, ho⟩)

theorem not_mem_Above_of_parent (hL : L.TwoWay) (hac : L.Acyclic) {n o : NodeId} {r : RuleId}
    (hr : r ∈ L.parents n) (ho : o ∈ L.outputs r) : n ∉ L.Above o :=
  Lib.Acyclic.not_reach_back hac (hL.feeds_iff.mpr ⟨r, hr, ho⟩)

/-- Every node is below a root: a set that holds the roots of `A` and goes down
from the outputs of a rule to its inputs holds all of `A`. -/
theorem mem_of_roots (hL : L.TwoWay) (hac : L.Acyclic) (hne : ∀ r ∈ L.rules, L.outputs r ≠ [])
    {A S : Set NodeId} (hA : ∀ r ∈ L.rules, ∀ o ∈ L.outputs r, o ∈ A)
    (hroots : ∀ n ∈ A, L.parents n = [] → n ∈ S)
    (hdown : ∀ r ∈ L.rules, ∀ o ∈ L.outputs r, o ∈ S → ∀ n ∈ L.inputs r, n ∈ S) :
    ∀ n ∈ A, n ∈ S := by
  intro n hn
  induction hk : L.rankAbove n using Nat.strong_induction_on generalizing n with
  | _ k ih =>
      cases hp : L.parents n with
      | nil => exact hroots n hn hp
      | cons r l =>
          have hr : r ∈ L.parents n := by simp [hp]
          obtain ⟨hrules, hin⟩ := (hL.mem_parents n r).mp hr
          obtain ⟨o, ho⟩ := List.exists_mem_of_ne_nil _ (hne r hrules)
          have hlt := rankAbove_lt hL hac hr ho
          exact hdown r hrules o ho (ih _ (hk ▸ hlt) o (hA r hrules o ho) rfl) n hin

/-- The number of targets below a node, with the node itself if it is one. -/
noncomputable def rankBelow (L : Links) (n : NodeId) : ℕ :=
  Lib.reachCount (Function.swap L.Feeds) L.targets n + if (L.child n).isSome then 1 else 0

theorem rankBelow_lt_of_input (hL : L.TwoWay) {m n : NodeId} {r : RuleId}
    (hno : ¬ TransGen L.Feeds m m) (hn : L.child n = some r) (hm : m ∈ L.inputs r) :
    L.rankBelow m < L.rankBelow n := by
  have hfeeds : L.Feeds m n := ⟨r, hn, hm⟩
  rw [rankBelow, rankBelow, hn]
  cases hc : L.child m with
  | none =>
      have hzero : Lib.reachCount (Function.swap L.Feeds) L.targets m = 0 := by
        apply Lib.reachCount_eq_zero
        rintro x ⟨q, hq, -⟩
        rw [hc] at hq
        cases hq
      simp [hzero]
  | some q =>
      have hmem : m ∈ L.targets := by
        obtain ⟨hq, hmq⟩ := (hL.child_eq_some m q).mp hc
        exact List.mem_toFinset.mpr (List.mem_flatMap.mpr ⟨q, hq, hmq⟩)
      have hno' : ¬ TransGen (Function.swap L.Feeds) m m := fun h ↦ hno (transGen_swap.mp h)
      have hlt := Lib.reachCount_lt_of_mem (S := L.targets) hno' hmem hfeeds
      simp only [Option.isSome_some, if_true]
      omega

theorem rankBelow_lt (hL : L.TwoWay) (hac : L.Acyclic) {m n : NodeId} {r : RuleId}
    (hn : L.child n = some r) (hm : m ∈ L.inputs r) : L.rankBelow m < L.rankBelow n :=
  rankBelow_lt_of_input hL (hac m) hn hm

end Links

namespace Graph

variable {g g' : Graph}

theorem rankAbove_lt_depth (g : Graph) (n : NodeId) : g.links.rankAbove n < g.depth := by
  have hcard : g.links.rankAbove n ≤ g.links.targets.card := Lib.reachCount_le _ _ _
  have hlen : g.links.targets.card ≤ (g.links.rules.flatMap g.links.outputs).length :=
    List.toFinset_card_le _
  change _ < (g.links.rules.flatMap g.links.outputs).length + 2
  omega

theorem rankBelow_lt_depth (g : Graph) (n : NodeId) : g.links.rankBelow n < g.depth := by
  have hcount : Lib.reachCount (Function.swap g.links.Feeds) g.links.targets n ≤
      g.links.targets.card := Lib.reachCount_le _ _ _
  have hlen : g.links.targets.card ≤ (g.links.rules.flatMap g.links.outputs).length :=
    List.toFinset_card_le _
  have hrank : g.links.rankBelow n ≤ g.links.targets.card + 1 := by
    rw [Links.rankBelow]
    split <;> omega
  change _ < (g.links.rules.flatMap g.links.outputs).length + 2
  omega

/-! ## Frame lemmas -/

theorem proj_setNode {β : Type*} (proj : Node → β) {n : NodeId} {x : Node}
    (h : proj x = proj (g.node n)) (m : NodeId) :
    proj ((g.setNode n x).node m) = proj (g.node m) := by
  rw [setNode_node]
  split
  · subst m
    exact h
  · rfl

theorem proj_setRule {β : Type*} (proj : Rule → β) {r : RuleId} {x : Rule}
    (h : proj x = proj (g.rule r)) (q : RuleId) :
    proj ((g.setRule r x).rule q) = proj (g.rule q) := by
  rw [setRule_rule]
  split
  · subst q
    exact h
  · rfl

theorem links_setNode {n : NodeId} {x : Node} (hpath : x.path = (g.node n).path)
    (hchild : x.childRule = (g.node n).childRule)
    (hparents : x.parentRules = (g.node n).parentRules)
    (hexplicit : x.isExplicitDependency = (g.node n).isExplicitDependency) :
    (g.setNode n x).links = g.links := by
  simp only [links, setNode_rule, proj_setNode Node.path hpath, proj_setNode Node.childRule hchild,
    proj_setNode Node.parentRules hparents, proj_setNode Node.isExplicitDependency hexplicit]
  rfl

theorem links_setRule {r : RuleId} {x : Rule} (hin : x.inputs = (g.rule r).inputs)
    (hout : x.outputs = (g.rule r).outputs)
    (hnum : x.numImplicitDeps = (g.rule r).numImplicitDeps)
    (hcmd : x.command = (g.rule r).command) (hdep : x.depfile = (g.rule r).depfile) :
    (g.setRule r x).links = g.links := by
  simp only [links, setRule_node, proj_setRule Rule.inputs hin, proj_setRule Rule.outputs hout,
    proj_setRule Rule.numImplicitDeps hnum, proj_setRule Rule.command hcmd,
    proj_setRule Rule.depfile hdep]
  rfl

theorem links_setTimestamp (g : Graph) (r : RuleId) (t : Timestamp) :
    (g.updateRule r (·.setTimestamp t)).links = g.links :=
  links_setRule rfl rfl rfl rfl rfl

theorem hashes_setNode {n : NodeId} {x : Node} (hhash : x.hash = (g.node n).hash)
    (hdeps : x.hashDepfile = (g.node n).hashDepfile) : (g.setNode n x).hashes = g.hashes := by
  simp only [hashes, setNode_rule, proj_setNode Node.hash hhash,
    proj_setNode Node.hashDepfile hdeps]

theorem hashes_setRule {r : RuleId} {x : Rule} (hhash : x.hash = (g.rule r).hash)
    (hdeps : x.hashDepfile = (g.rule r).hashDepfile) : (g.setRule r x).hashes = g.hashes := by
  simp only [hashes, setRule_node, proj_setRule Rule.hash hhash,
    proj_setRule Rule.hashDepfile hdeps]

theorem stamps_setNode {n : NodeId} {x : Node} (hhash : x.hash = (g.node n).hash)
    (hdeps : x.hashDepfile = (g.node n).hashDepfile)
    (htime : x.timestamp = (g.node n).timestamp) : (g.setNode n x).stamps = g.stamps := by
  simp only [stamps, hashes_setNode hhash hdeps, setNode_rule, proj_setNode Node.timestamp htime]

theorem stamps_setRule {r : RuleId} {x : Rule} (hhash : x.hash = (g.rule r).hash)
    (hdeps : x.hashDepfile = (g.rule r).hashDepfile)
    (htime : x.timestamp = (g.rule r).timestamp) : (g.setRule r x).stamps = g.stamps := by
  simp only [stamps, hashes_setRule hhash hdeps, setRule_node, proj_setRule Rule.timestamp htime]

theorem marks_setNode {n : NodeId} {x : Node} (hstate : x.state = (g.node n).state)
    (hlazy : x.isLazyFetched = (g.node n).isLazyFetched)
    (htime : x.timestamp = (g.node n).timestamp) : (g.setNode n x).marks = g.marks := by
  simp only [marks, setNode_rule, proj_setNode Node.state hstate,
    proj_setNode Node.isLazyFetched hlazy, proj_setNode Node.timestamp htime]

theorem marks_setRule {r : RuleId} {x : Rule} (hstate : x.state = (g.rule r).state)
    (hready : x.numInputsReady = (g.rule r).numInputsReady)
    (htime : x.timestamp = (g.rule r).timestamp) : (g.setRule r x).marks = g.marks := by
  simp only [marks, setRule_node, proj_setRule Rule.state hstate,
    proj_setRule Rule.numInputsReady hready, proj_setRule Rule.timestamp htime]

theorem hashes_of_stamps (h : g'.stamps = g.stamps) : g'.hashes = g.hashes :=
  congrArg Stamps.toHashes h

section SameLinks

variable (h : g'.links = g.links)
include h

theorem childRule_of_links (n : NodeId) : (g'.node n).childRule = (g.node n).childRule :=
  congrFun (congrArg Links.child h) n

theorem parentRules_of_links (n : NodeId) : (g'.node n).parentRules = (g.node n).parentRules :=
  congrFun (congrArg Links.parents h) n

theorem path_of_links (n : NodeId) : (g'.node n).path = (g.node n).path :=
  congrFun (congrArg Links.path h) n

theorem inputs_of_links (r : RuleId) : (g'.rule r).inputs = (g.rule r).inputs :=
  congrFun (congrArg Links.inputs h) r

theorem outputs_of_links (r : RuleId) : (g'.rule r).outputs = (g.rule r).outputs :=
  congrFun (congrArg Links.outputs h) r

theorem command_of_links (r : RuleId) : (g'.rule r).command = (g.rule r).command :=
  congrFun (congrArg Links.command h) r

theorem depfile_of_links (r : RuleId) : (g'.rule r).depfile = (g.rule r).depfile :=
  congrFun (congrArg Links.depfile h) r

theorem rules_of_links : g'.rules = g.rules := congrArg Links.rules h

theorem allocated_of_links : g'.allocated = g.allocated := congrArg Links.allocated h

theorem isSource_of_links (n : NodeId) : (g'.node n).isSource = (g.node n).isSource := by
  simp only [Node.isSource, childRule_of_links h]

theorem isPhony_of_links (r : RuleId) : (g'.rule r).isPhony = (g.rule r).isPhony := by
  simp only [Rule.isPhony, command_of_links h]

theorem hasDepfile_of_links (r : RuleId) : (g'.rule r).hasDepfile = (g.rule r).hasDepfile := by
  simp only [Rule.hasDepfile, depfile_of_links h]

end SameLinks

section SameMarks

variable (h : g'.marks = g.marks)
include h

theorem nodeDirty_of_marks (n : NodeId) : (g'.node n).isDirty = (g.node n).isDirty := by
  have hstate : (g'.node n).state = (g.node n).state := congrFun (congrArg Marks.nodeState h) n
  simp only [Node.isDirty, hstate]

theorem ruleDirty_of_marks (r : RuleId) : (g'.rule r).isDirty = (g.rule r).isDirty := by
  have hstate : (g'.rule r).state = (g.rule r).state := congrFun (congrArg Marks.ruleState h) r
  simp only [Rule.isDirty, hstate]

theorem numInputsReady_of_marks (r : RuleId) :
    (g'.rule r).numInputsReady = (g.rule r).numInputsReady :=
  congrFun (congrArg Marks.ruleReady h) r

end SameMarks

theorem nbReady_of_links_marks (hl : g'.links = g.links) (hm : g'.marks = g.marks) (r : RuleId) :
    g'.nbReady r = g.nbReady r := by
  rw [nbReady, nbReady, inputs_of_links hl]
  apply List.countP_congr
  intro n _
  simp only [inputReady, isSource_of_links hl, nodeDirty_of_marks hm]

theorem Exact.of_links_marks (h : g.Exact) (hl : g'.links = g.links) (hm : g'.marks = g.marks) :
    g'.Exact := by
  intro r hr
  rw [rules_of_links hl] at hr
  rw [numInputsReady_of_marks hm, nbReady_of_links_marks hl hm, h r hr]

end Graph

end Falcon
