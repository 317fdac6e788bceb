import Falcon.Graph.Closure
import Falcon.Graph.DepfileParser

/-!
# The ready counter of a loaded rule

A load first takes the old implicit inputs out of the ready counter and then
counts the new ones.  A dirty target makes the counter go down, although it
has just become an input and was never counted.
-/

namespace Falcon

namespace Depfile

open Graph

variable {ω : Type} {P : Platform ω} {w : ω} {g k k₁ k' : Graph} {r : RuleId}

/-- What a load for the rule `r` takes for granted. -/
structure Loadable (g : Graph) (r : RuleId) : Prop where
  inputs : ∀ n ∈ (g.rule r).inputs, n ∈ g.allocated
  implicit : ∀ n ∈ implicitDeps (g.rule r), r ∈ (g.node n).parentRules
  nodes : ∀ e ∈ g.nodes, e.2 ∈ g.allocated

/-! ## One dependency -/

/-- `k₁` is `k` with a node for the path `dep` as a further input of the rule,
which has not been counted yet. -/
inductive Joins (P : Platform ω) (w : ω) (k : Graph) (r : RuleId) (dep : String) :
    NodeId → Graph → Prop
  | found {t} (hlookup : k.nodes.lookup dep = some t) (hnot : t ∉ (k.rule r).inputs) :
    Joins P w k r dep t (linkInput k r t)
  | created {t} (hlookup : k.nodes.lookup dep = none) (ht : t = P.newNode k.allocated) :
    Joins P w k r dep t { linkInput (k.createNode P dep
        (P.digest [dep, (P.readFile w dep).getD ""])
        (P.digest [dep, (P.readFile w dep).getD ""])) r t with
      nodes := k.nodes ++ [(dep, t)], sources := insert t k.sources }

/-- A dependency is an input already, or becomes one and is counted. -/
theorem setRuleDependency_cases (P : Platform ω) (w : ω) (k : Graph) (r : RuleId) (dep : String) :
    (∃ t, k.nodes.lookup dep = some t ∧ t ∈ (k.rule r).inputs ∧
      setRuleDependency P w k r dep = .ok (t, k)) ∨
    ∃ t k₁, Joins P w k r dep t k₁ ∧
      setRuleDependency P w k r dep = (countInput k₁ r t).map fun k' ↦ (t, k') := by
  cases hlookup : k.nodes.lookup dep with
  | some t =>
      by_cases hin : t ∈ (k.rule r).inputs
      · exact Or.inl ⟨t, rfl, hin, by simp [setRuleDependency, hlookup, Rule.isInput, hin]⟩
      · refine Or.inr ⟨t, _, .found hlookup hin, ?_⟩
        simp only [setRuleDependency, hlookup, Rule.isInput, List.contains_eq_mem, hin,
          decide_false, Bool.false_eq_true, if_false, attach, Lib.except_pure, Lib.except_ok_bind]
        cases countInput (linkInput k r t) r t <;> rfl
  | none =>
      refine Or.inr ⟨_, _, .created hlookup rfl, ?_⟩
      let t := P.newNode k.allocated
      let x := Node.create dep false (P.uninitialised k.allocated)
      let g₀ := { k with allocated := insert t k.allocated }.setNode t x
      let digest := P.digest [dep, (P.readFile w dep).getD ""]
      have hx : g₀.node t = x := by rw [Graph.setNode_node, if_pos rfl]
      have hhash : Hash.updateNodeHash P w g₀ t true true =
          .ok ((Hash.updateSourceHash P w x true true).1, k.createNode P dep digest digest) := by
        apply (Hash.updateNodeHash_source (by rw [hx]; rfl)).mpr
        refine ⟨rfl, by rw [hx], ?_⟩
        rw [hx]
        simp only [g₀, setNode, createNode, Function.update_idem]
        rfl
      have hself := createNode_self (P := P) k dep digest digest
      have hpath : ((linkInput (k.createNode P dep digest digest) r t).node t).path = dep := by
        rw [proj_linkInput Node.path (fun _ _ ↦ rfl), hself]
        rfl
      have hsource : ((linkInput (k.createNode P dep digest digest) r t).node t).isSource =
          true := by
        rw [proj_linkInput Node.isSource (fun _ _ ↦ rfl), hself]
        rfl
      have hparent :
          ((linkInput (k.createNode P dep digest digest) r t).node t).parentRules.isEmpty =
            false := by
        rw [List.isEmpty_eq_false_iff]
        exact List.ne_nil_of_mem (mem_linkInput_parents.mpr (Or.inr ⟨rfl, rfl⟩))
      have hnodes : (linkInput (k.createNode P dep digest digest) r t).nodes = k.nodes :=
        linkInput_frame.2.1
      have hadd : (linkInput (k.createNode P dep digest digest) r t).addNode t = .ok
          { linkInput (k.createNode P dep digest digest) r t with
            nodes := k.nodes ++ [(dep, t)]
            sources := insert t (linkInput (k.createNode P dep digest digest) r t).sources } := by
        simp only [Graph.addNode, hpath, hsource, hparent, hnodes, hlookup, Option.isSome_none,
          Bool.false_eq_true, if_false, if_true]
      have hsources : (linkInput (k.createNode P dep digest digest) r t).sources = k.sources := by
        rw [linkInput]
        split <;> rfl
      rw [hsources] at hadd
      have hrun : setRuleDependency P w k r dep =
          (Hash.updateNodeHash P w g₀ t true true >>= fun x ↦
            attach x.2 r t true >>= fun g ↦ pure (t, g)) := by
        simp only [setRuleDependency, hlookup]
        rfl
      rw [hrun, hhash]
      simp only [Lib.except_ok_bind, attach, if_true, hadd]
      cases countInput _ r t <;> rfl

namespace Joins

variable {dep : String} {t : NodeId} (h : Joins P w k r dep t k₁)
include h

theorem rule_self : k₁.rule r = (k.rule r).addImplicitInput t := by
  cases h with
  | found hlookup hnot => exact linkInput_rule_self r t
  | created hlookup ht => exact linkInput_rule_self r t

theorem rule_ne {q : RuleId} (hq : q ≠ r) : k₁.rule q = k.rule q := by
  cases h with
  | found hlookup hnot => exact linkInput_rule_ne hq t
  | created hlookup ht => exact linkInput_rule_ne hq t

theorem allocated_subset : k.allocated ⊆ k₁.allocated := by
  cases h with
  | found hlookup hnot => exact linkInput_frame.2.2.symm ▸ Finset.Subset.refl _
  | created hlookup ht => exact linkInput_frame.2.2.symm ▸ Finset.subset_insert _ _

/-- A node that exists keeps everything but its parents. -/
theorem proj_node {β : Type*} (proj : Node → β)
    (hproj : ∀ x parents, proj { x with parentRules := parents } = proj x) {n : NodeId}
    (hn : n ∈ k.allocated) : proj (k₁.node n) = proj (k.node n) := by
  cases h with
  | found hlookup hnot => exact proj_linkInput proj hproj _ n
  | created hlookup ht =>
      refine (proj_linkInput proj hproj _ n).trans ?_
      rw [createNode_node _ _ _ _ hn]

theorem inputReady {n : NodeId} (hn : n ∈ k.allocated) : k₁.inputReady n = k.inputReady n :=
  have hsource := h.proj_node Node.isSource (fun _ _ ↦ rfl) hn
  have hdirty := h.proj_node Node.isDirty (fun _ _ ↦ rfl) hn
  by rw [Graph.inputReady, Graph.inputReady, hsource, hdirty]

theorem parents {n : NodeId} (hn : n ∈ k.allocated) (hr : r ∈ (k.node n).parentRules) :
    r ∈ (k₁.node n).parentRules := by
  cases h with
  | found hlookup hnot => exact mem_linkInput_parents.mpr (Or.inl hr)
  | created hlookup ht =>
      refine mem_linkInput_parents.mpr (Or.inl ?_)
      rwa [createNode_node _ _ _ _ hn]

theorem lookup_self (hnodes : ∀ e ∈ k.nodes, e.2 ∈ k.allocated) :
    k₁.nodes.lookup dep = some t ∧ t ∈ k₁.allocated := by
  cases h with
  | found hlookup hnot =>
      rw [linkInput_frame.2.1, linkInput_frame.2.2]
      exact ⟨hlookup, hnodes (dep, t) (Lib.mem_of_lookup_eq_some hlookup)⟩
  | created hlookup ht =>
      refine ⟨?_, ?_⟩
      · exact Lib.lookup_snoc_eq_some_iff.mpr (Or.inr ⟨hlookup, rfl, rfl⟩)
      · change t ∈ (linkInput (k.createNode P dep _ _) r t).allocated
        rw [linkInput_frame.2.2, ht]
        exact Finset.mem_insert_self _ _

theorem lookup_iff {path : String} {n : NodeId} :
    k₁.nodes.lookup path = some n ↔
      k.nodes.lookup path = some n ∨ k.nodes.lookup dep = none ∧ path = dep ∧ n = t := by
  cases h with
  | found hlookup hnot =>
      rw [linkInput_frame.2.1, hlookup]
      simp
  | created hlookup ht =>
      refine Lib.lookup_snoc_eq_some_iff.trans (or_congr_right ?_)
      refine and_congr_left fun ⟨hpath, _⟩ ↦ ?_
      rw [hpath]

theorem mem_nodes {e : String × NodeId} (he : e ∈ k₁.nodes) : e ∈ k.nodes ∨ e = (dep, t) := by
  cases h with
  | found hlookup hnot => exact Or.inl (linkInput_frame.2.1 ▸ he)
  | created hlookup ht => exact (List.mem_append.mp he).imp_right List.mem_singleton.mp

/-- A node that is new is a source, and counts as ready. -/
theorem ready_of_created (hlookup : k.nodes.lookup dep = none) :
    k₁.inputReady t = true ∧ t ∉ k.allocated := by
  cases h with
  | found hsome hnot =>
      rw [hlookup] at hsome
      cases hsome
  | created _ ht =>
      refine ⟨?_, ht ▸ P.newNode_fresh _⟩
      apply Bool.or_eq_true_iff.mpr
      left
      refine (proj_linkInput Node.isSource (fun _ _ ↦ rfl) t t).trans ?_
      rw [ht, createNode_self]
      rfl

end Joins

/-! ## Counting -/

/-- The counter of the rule misses `d` of the inputs that are ready. -/
def Behind (d : ℕ) (k : Graph) (r : RuleId) : Prop := (k.rule r).numInputsReady + d = k.nbReady r

/-- The inputs of the rule and the nodes of the map exist. -/
structure Live (k : Graph) (r : RuleId) : Prop where
  inputs : ∀ n ∈ (k.rule r).inputs, n ∈ k.allocated
  nodes : ∀ e ∈ k.nodes, e.2 ∈ k.allocated

/-- The path is no new dependency on a dirty target. -/
def NamesReady (k : Graph) (r : RuleId) (dep : String) : Prop :=
  ∀ n, k.nodes.lookup dep = some n → n ∉ (k.rule r).inputs → k.inputReady n = true

theorem countInput_eq {t : NodeId} (hrun : countInput k r t = .ok k') :
    ∃ numReady, k' = k.setRule r { k.rule r with numInputsReady := numReady } := by
  rw [countInput] at hrun
  split at hrun
  · exact onRule_ready (fun _ _ ↦ markInputDirty_eq) hrun
  · exact onRule_ready (fun _ _ ↦ markInputReady_eq) hrun

/-- A dependency that has been set was an input already, or has joined the inputs
and been counted. -/
theorem setRuleDependency_joins {dep : String} {t : NodeId}
    (hrun : setRuleDependency P w k r dep = .ok (t, k')) :
    (k.nodes.lookup dep = some t ∧ t ∈ (k.rule r).inputs ∧ k' = k) ∨
    ∃ k₁ numReady, Joins P w k r dep t k₁ ∧
      k' = k₁.setRule r { k₁.rule r with numInputsReady := numReady } := by
  rcases setRuleDependency_cases P w k r dep with
    ⟨t', hlookup, hin, heq⟩ | ⟨t', k₁, hjoin, heq⟩
  · rw [heq] at hrun
    obtain ⟨rfl, rfl⟩ := Prod.mk.inj (Except.ok.inj hrun)
    exact Or.inl ⟨hlookup, hin, rfl⟩
  · rw [heq] at hrun
    cases hcount : countInput k₁ r t' with
    | error f =>
        rw [hcount] at hrun
        cases hrun
    | ok k₂ =>
        rw [hcount] at hrun
        obtain ⟨rfl, rfl⟩ := Prod.mk.inj (Except.ok.inj hrun)
        obtain ⟨numReady, hk₂⟩ := countInput_eq hcount
        exact Or.inr ⟨k₁, numReady, hjoin, hk₂⟩

theorem countInput_ready {t : NodeId} (h : k.inputReady t = true)
    (hroom : (k.rule r).numInputsReady + 1 ≤ (k.rule r).inputs.length) :
    countInput k r t = .ok (k.setRule r { k.rule r with
      numInputsReady := (k.rule r).numInputsReady + 1 }) := by
  have hcond : ((k.node t).isDirty && !(k.node t).isSource) = false := by
    rw [inputReady] at h
    cases hd : (k.node t).isDirty <;> simp_all
  simp only [countInput, hcond, Bool.false_eq_true, if_false, onRule, Rule.markInputReady, hroom,
    decide_true, assert_true, Lib.except_ok_bind, Lib.except_pure, Except.map]

theorem countInput_unready {t : NodeId} (h : k.inputReady t = false) :
    countInput k r t = if 0 < (k.rule r).numInputsReady then
        .ok (k.setRule r { k.rule r with numInputsReady := (k.rule r).numInputsReady - 1 })
      else .error (.assertion .inputDirtyBound) := by
  obtain ⟨hsource, hdirty⟩ := inputReady_eq_false.mp h
  by_cases hpos : 0 < (k.rule r).numInputsReady
  · rw [if_pos hpos]
    simp only [countInput, hdirty, hsource, Bool.not_false, Bool.and_true, if_true, onRule,
      Rule.markInputDirty, hpos, decide_true, assert_true, Lib.except_ok_bind, Lib.except_pure,
      Except.map]
  · rw [if_neg hpos]
    simp only [countInput, hdirty, hsource, Bool.not_false, Bool.and_true, if_true, onRule,
      Rule.markInputDirty, hpos, decide_false, assert, Bool.false_eq_true, if_false,
      Lib.except_error_bind, Except.map]

/-- The new input is one more that is ready, or the counter falls behind. -/
theorem Joins.count {dep : String} {t : NodeId} {d : ℕ} (h : Joins P w k r dep t k₁)
    (hlive : Live k r) (hd : Behind d k r) :
    (∃ e numReady, countInput k₁ r t =
        .ok (k₁.setRule r { k₁.rule r with numInputsReady := numReady }) ∧
      Behind (d + e) (k₁.setRule r { k₁.rule r with numInputsReady := numReady }) r ∧
      (e = 0 ↔ k₁.inputReady t = true)) ∨
    countInput k₁ r t = .error (.assertion .inputDirtyBound) ∧ k₁.inputReady t = false := by
  have hinputs : (k₁.rule r).inputs = (k.rule r).inputs ++ [t] := by
    rw [h.rule_self]
    rfl
  have hcounter : (k₁.rule r).numInputsReady = (k.rule r).numInputsReady := by
    rw [h.rule_self]
    rfl
  have hcount : (k₁.rule r).inputs.countP k₁.inputReady =
      k.nbReady r + if k₁.inputReady t then 1 else 0 := by
    rw [hinputs, List.countP_append, List.countP_singleton, nbReady]
    congr 1
    apply List.countP_congr
    intro n hn
    rw [h.inputReady (hlive.inputs n hn)]
  have hle : k.nbReady r ≤ (k.rule r).inputs.length := List.countP_le_length
  have hlen : (k₁.rule r).inputs.length = (k.rule r).inputs.length + 1 := by
    rw [hinputs, List.length_append, List.length_singleton]
  have hbehind : ∀ numReady e, numReady + (d + e) = (k₁.rule r).inputs.countP k₁.inputReady →
      Behind (d + e) (k₁.setRule r { k₁.rule r with numInputsReady := numReady }) r := by
    intro numReady e heq
    rw [Behind, nbReady, setRule_rule, if_pos rfl]
    exact heq
  rw [Behind] at hd
  cases hready : k₁.inputReady t with
  | true =>
      rw [hready, if_pos rfl] at hcount
      refine Or.inl ⟨0, _, countInput_ready hready (by omega), hbehind _ _ (by omega), by simp⟩
  | false =>
      rw [hready] at hcount
      simp only [Bool.false_eq_true, if_false] at hcount
      by_cases hpos : 0 < (k₁.rule r).numInputsReady
      · refine Or.inl ⟨1, _, (countInput_unready hready).trans (if_pos hpos),
          hbehind _ _ (by omega), by simp⟩
      · exact Or.inr ⟨(countInput_unready hready).trans (if_neg hpos), rfl⟩

/-- What the loop over the dependencies has made of the graph, `e` of them being
dirty targets that were not inputs before. -/
structure Added (d : ℕ) (k : Graph) (r : RuleId) (ins : List String) (e : ℕ) (k' : Graph) :
    Prop where
  live : Live k' r
  behind : Behind (d + e) k' r
  ready : e = 0 ↔ ∀ dep ∈ ins, NamesReady k r dep
  parents : ∀ n ∈ k.allocated, r ∈ (k.node n).parentRules → r ∈ (k'.node n).parentRules
  allocated : k.allocated ⊆ k'.allocated

theorem Joins.live {dep : String} {t : NodeId} {numReady : ℕ} (h : Joins P w k r dep t k₁)
    (hlive : Live k r) :
    Live (k₁.setRule r { k₁.rule r with numInputsReady := numReady }) r := by
  refine ⟨fun n hn ↦ ?_, fun e he ↦ ?_⟩
  · rw [setRule_rule, if_pos rfl] at hn
    change n ∈ (k₁.rule r).inputs at hn
    rw [h.rule_self] at hn
    rcases List.mem_append.mp hn with hn | hn
    · exact h.allocated_subset (hlive.inputs n hn)
    · exact List.mem_singleton.mp hn ▸ (h.lookup_self hlive.nodes).2
  · rcases h.mem_nodes he with he | rfl
    · exact h.allocated_subset (hlive.nodes e he)
    · exact (h.lookup_self hlive.nodes).2

/-- Whether the new input is ready is seen from the graph before. -/
theorem Joins.namesReady_iff {dep : String} {t : NodeId} (h : Joins P w k r dep t k₁)
    (hlive : Live k r) : NamesReady k r dep ↔ k₁.inputReady t = true := by
  cases hlookup : k.nodes.lookup dep with
  | none =>
      refine iff_of_true (fun n hn ↦ ?_) (h.ready_of_created hlookup).1
      rw [hlookup] at hn
      cases hn
  | some m =>
      cases h with
      | created hnone ht =>
          rw [hlookup] at hnone
          cases hnone
      | found hsome hnot =>
          have hmem : t ∈ k.allocated := hlive.nodes _ (Lib.mem_of_lookup_eq_some hsome)
          rw [(Joins.found (P := P) (w := w) hsome hnot).inputReady hmem]
          constructor
          · exact fun hnames ↦ hnames t hsome hnot
          · intro hready n hn _
            obtain rfl : t = n := Option.some.inj (hsome.symm.trans hn)
            exact hready

/-- A later dependency is judged the same once a ready one has been added. -/
theorem Joins.namesReady_of_ready {dep path : String} {t : NodeId} {numReady : ℕ}
    (h : Joins P w k r dep t k₁) (hlive : Live k r) (hready : k₁.inputReady t = true) :
    NamesReady (k₁.setRule r { k₁.rule r with numInputsReady := numReady }) r path ↔
      NamesReady k r path := by
  have hinputs : ((k₁.setRule r { k₁.rule r with numInputsReady := numReady }).rule r).inputs =
      (k.rule r).inputs ++ [t] := by
    rw [setRule_rule, if_pos rfl, h.rule_self]
    rfl
  have hlookup : ∀ n, (k₁.setRule r { k₁.rule r with numInputsReady := numReady }).nodes.lookup
      path = some n ↔ k.nodes.lookup path = some n ∨
        k.nodes.lookup dep = none ∧ path = dep ∧ n = t := fun n ↦ h.lookup_iff
  have hold : ∀ n, k.nodes.lookup path = some n → n ∈ k.allocated :=
    fun n hn ↦ hlive.nodes (path, n) (Lib.mem_of_lookup_eq_some hn)
  constructor
  · intro hnames n hn hnot
    rw [← h.inputReady (hold n hn)]
    by_cases hnt : n = t
    · exact hnt ▸ hready
    · refine hnames n ((hlookup n).mpr (Or.inl hn)) ?_
      rw [hinputs, List.mem_append, List.mem_singleton, not_or]
      exact ⟨hnot, hnt⟩
  · intro hnames n hn hnot
    rw [hinputs, List.mem_append, List.mem_singleton, not_or] at hnot
    rcases (hlookup n).mp hn with hn | ⟨-, -, rfl⟩
    · exact (h.inputReady (hold n hn)).trans (hnames n hn hnot.1)
    · exact absurd rfl hnot.2

theorem addDependencies_counted {d : ℕ} (hlive : Live k r) (hd : Behind d k r)
    (ins : List String) (before : List NodeId) :
    (∃ k' left e, addDependencies P w r ins (k, before) = .ok (k', left) ∧
      left.Sublist before ∧ Added d k r ins e k') ∨
    addDependencies P w r ins (k, before) = .error (.assertion .inputDirtyBound) ∧
      ¬ ∀ dep ∈ ins, NamesReady k r dep := by
  induction ins generalizing k d before with
  | nil =>
      refine Or.inl ⟨k, before, 0, rfl, List.Sublist.refl _, hlive, hd, by simp, fun _ _ h ↦ h,
        Finset.Subset.refl _⟩
  | cons dep ins ih =>
      rw [addDependencies]
      rcases setRuleDependency_cases P w k r dep with ⟨t, hlookup, hin, hrun⟩ | ⟨t, k₁, hjoin, hrun⟩
      · -- an input already
        have hnames : NamesReady k r dep := by
          intro n hn hnot
          rw [hlookup] at hn
          exact absurd (Option.some.inj hn ▸ hin) hnot
        rw [hrun, Lib.except_ok_bind]
        rcases ih hlive hd (before.filter (· ≠ t)) with
          ⟨k', left, e, hrest, hleft, hadded⟩ | ⟨hrest, hnot⟩
        · refine Or.inl ⟨k', left, e, hrest, hleft.trans List.filter_sublist,
            { hadded with ready := ?_ }⟩
          rw [hadded.ready, List.forall_mem_cons]
          exact (and_iff_right hnames).symm
        · exact Or.inr ⟨hrest, fun hall ↦ hnot fun p hp ↦ hall p (List.mem_cons_of_mem dep hp)⟩
      · rw [hrun]
        have hhead := hjoin.namesReady_iff hlive
        rcases hjoin.count hlive hd with ⟨e₁, numReady, hcount, hbehind, he₁⟩ | ⟨hcount, hready⟩
        · rw [hcount]
          simp only [Except.map, Lib.except_ok_bind]
          have hgrows := hjoin.allocated_subset
          rcases ih (hjoin.live hlive) hbehind (before.filter (· ≠ t)) with
            ⟨k', left, e, hrest, hleft, hadded⟩ | ⟨hrest, hnot⟩
          · refine Or.inl ⟨k', left, e₁ + e, hrest, hleft.trans List.filter_sublist, {
              live := hadded.live
              behind := by rw [← Nat.add_assoc]; exact hadded.behind
              ready := ?_
              parents := fun n hn hp ↦ hadded.parents n (hgrows hn) (hjoin.parents hn hp)
              allocated := hgrows.trans hadded.allocated }⟩
            rw [Nat.add_eq_zero_iff, he₁, hadded.ready, List.forall_mem_cons, hhead]
            refine and_congr_right fun hready ↦ forall₂_congr fun p _ ↦ ?_
            exact hjoin.namesReady_of_ready hlive hready
          · refine Or.inr ⟨hrest, fun hall ↦ hnot fun p hp ↦ ?_⟩
            have hready := hhead.mp (hall dep List.mem_cons_self)
            exact (hjoin.namesReady_of_ready hlive hready).mpr
              (hall p (List.mem_cons_of_mem dep hp))
        · rw [hcount]
          refine Or.inr ⟨rfl, fun hall ↦ ?_⟩
          have hready' := hhead.mp (hall dep List.mem_cons_self)
          rw [hready] at hready'
          cases hready'

/-! ## The old implicit inputs -/

/-- The graph with the implicit inputs of the rule cut off and not counted. -/
def detached (g : Graph) (r : RuleId) : Graph :=
  g.setRule r { g.rule r with
    inputs := Hash.explicitInputs (g.rule r)
    numImplicitDeps := 0
    numInputsReady := (Hash.explicitInputs (g.rule r)).countP g.inputReady }

theorem detached_rule (g : Graph) (r : RuleId) : (detached g r).rule r =
    { g.rule r with
      inputs := Hash.explicitInputs (g.rule r)
      numImplicitDeps := 0
      numInputsReady := (Hash.explicitInputs (g.rule r)).countP g.inputReady } := by
  rw [detached, setRule_rule, if_pos rfl]

theorem detachImplicit_counted (hexact : (g.rule r).numInputsReady = g.nbReady r) :
    detachImplicit g r = .ok (detached g r) := by
  have hsplit : g.nbReady r = (Hash.explicitInputs (g.rule r)).countP g.inputReady +
      (implicitDeps (g.rule r)).countP g.inputReady := by
    rw [nbReady, ← List.countP_append]
    exact congrArg _ (List.take_append_drop _ _).symm
  let counted : ℕ → Graph := fun c ↦ g.setRule r { g.rule r with
    numInputsReady := g.nbReady r - c }
  obtain ⟨k, hloop, rfl⟩ := Lib.foldlM_rule (s := g)
    (f := fun g n ↦ if g.inputReady n then g.onRule r Rule.markInputDirty else pure g)
    (l := (implicitDeps (g.rule r)).reverse)
    (fun pre k ↦ k = counted (pre.countP g.inputReady))
    (by simp [counted, ← hexact, setRule])
    (by
      rintro pre n post k hl rfl
      have hready : (counted (pre.countP g.inputReady)).inputReady n = g.inputReady n := rfl
      rw [hready, List.countP_append, List.countP_singleton]
      cases hn : g.inputReady n with
      | false => exact ⟨_, rfl, rfl⟩
      | true =>
          have hcount : (implicitDeps (g.rule r)).countP g.inputReady =
              pre.countP g.inputReady + (1 + post.countP g.inputReady) := by
            rw [← List.countP_reverse, hl, List.countP_append, List.countP_cons, hn]
            simp [Nat.add_comm]
          have hself : (counted (pre.countP g.inputReady)).rule r = { g.rule r with
              numInputsReady := g.nbReady r - pre.countP g.inputReady } := by
            rw [setRule_rule, if_pos rfl]
          have hpos : 0 < ((counted (pre.countP g.inputReady)).rule r).numInputsReady := by
            rw [hself]
            change 0 < g.nbReady r - pre.countP g.inputReady
            omega
          refine ⟨_, by simp [onRule, Rule.markInputDirty, hpos, Except.map]; rfl, ?_⟩
          rw [hself]
          simp [counted, setRule, Nat.sub_sub])
  have hall : (implicitDeps (g.rule r)).reverse.countP g.inputReady =
      (implicitDeps (g.rule r)).countP g.inputReady := List.countP_reverse
  refine Lib.bind_eq_ok.mpr ⟨_, hloop, congrArg Except.ok ?_⟩
  have hsub : g.nbReady r - (implicitDeps (g.rule r)).countP g.inputReady =
      (Hash.explicitInputs (g.rule r)).countP g.inputReady := by omega
  rw [hall]
  simp only [counted, hsub, updateRule, setRule, detached, Function.update_self,
    Function.update_idem]
  rfl

/-- The former implicit inputs that have not been named again are let go. -/
theorem dropDependencies_total {left : List NodeId} (hnodup : left.Nodup)
    (hparents : ∀ n ∈ left, r ∈ (k.node n).parentRules) :
    ∃ k', left.foldlM (dropDependency r) k = .ok k' ∧ k'.rule = k.rule ∧
      ∀ n, k'.inputReady n = k.inputReady n := by
  obtain ⟨k', hrun, hrule, -, hready⟩ :=
    Lib.foldlM_rule (f := dropDependency r) (s := k) (l := left)
    (fun pre k' ↦ k'.rule = k.rule ∧ (∀ n, n ∉ pre → k'.node n = k.node n) ∧
      ∀ n, k'.inputReady n = k.inputReady n) ⟨rfl, fun _ _ ↦ rfl, fun _ ↦ rfl⟩ (by
    intro pre n post k₁ hl ⟨hrule, hnode, hready⟩
    have hnot : n ∉ pre := by
      intro hmem
      rw [hl] at hnodup
      exact (List.nodup_append.mp hnodup).2.2 n hmem n List.mem_cons_self rfl
    have hp : r ∈ (k₁.node n).parentRules := by
      rw [hnode n hnot]
      exact hparents n (by simp [hl])
    have hstep : k₁.onNode n (·.removeParentRule r) = .ok (k₁.unlink r n) :=
      onNode_removeParentRule.mpr ⟨hp, rfl⟩
    have hother : ∀ m, m ∉ pre ++ [n] → (k₁.unlink r n).node m = k.node m := by
      intro m hm
      rw [List.mem_append, List.mem_singleton, not_or] at hm
      rw [unlink_node_ne hm.2]
      exact hnode m hm.1
    have hsame : ∀ m, (k₁.unlink r n).inputReady m = k.inputReady m := by
      intro m
      have hsource : ((k₁.unlink r n).node m).isSource = (k₁.node m).isSource :=
        proj_setNode Node.isSource (by rfl) m
      have hdirty : ((k₁.unlink r n).node m).isDirty = (k₁.node m).isDirty :=
        proj_setNode Node.isDirty (by rfl) m
      rw [← hready m, inputReady, inputReady, hsource, hdirty]
    rw [dropDependency, hstep, Lib.except_ok_bind]
    split
    · exact ⟨_, rfl, hrule, hother, hsame⟩
    · exact ⟨_, rfl, hrule, hother, hsame⟩)
  exact ⟨k', hrun, hrule, hready⟩

/-! ## The load -/

/-- The counter is exact for the new inputs, and it was never moved out of its bounds. -/
def KeepsCounter (P : Platform ω) (w : ω) (g : Graph) (r : RuleId) (content : String) : Prop :=
  load P w g r content ≠ .error (.assertion .inputReadyBound) ∧
  load P w g r content ≠ .error (.assertion .inputDirtyBound) ∧
  ∀ g', load P w g r content = .ok (true, g') → (g'.rule r).numInputsReady = g'.nbReady r

/-- A load that lists the dependencies `ins` comes to its end, unless a dirty
target finds the counter at zero. -/
theorem load_counted {content : String} {ins : List String} (hg : Loadable g r)
    (hexact : (g.rule r).numInputsReady = g.nbReady r) (hnames : Names P g r content ins) :
    (∃ g' e, load P w g r content = .ok (true, g') ∧
      (g'.rule r).numInputsReady + e = g'.nbReady r ∧
      (e = 0 ↔ ∀ dep ∈ ins, NamesReady (detached g r) r dep)) ∨
    load P w g r content = .error (.assertion .inputDirtyBound) ∧
      ¬ ∀ dep ∈ ins, NamesReady (detached g r) r dep := by
  obtain ⟨first, hfirst, hparse⟩ := hnames
  have hself := detached_rule g r
  have hfirst' : ((detached g r).rule r).outputs.head? = some first := by
    rw [hself]
    exact hfirst
  have hlive : Live (detached g r) r := by
    refine ⟨fun n hn ↦ ?_, hg.nodes⟩
    rw [hself] at hn
    exact hg.inputs n (List.mem_of_mem_take hn)
  have hbehind : Behind 0 (detached g r) r := by
    rw [Behind, nbReady, hself]
    rfl
  have hpath : ((detached g r).node first).path = (g.node first).path := rfl
  simp only [load, detachImplicit_counted hexact, Lib.except_ok_bind, hparse, hfirst', hpath,
    ne_eq, not_true_eq_false, if_false]
  rcases addDependencies_counted (P := P) (w := w) hlive hbehind ins
    (implicitDeps (g.rule r)).reverse.dedup with
    ⟨k, left, e, hadd, hleft, hadded⟩ | ⟨hadd, hnot⟩
  · -- the implicit inputs that are left over have the rule as a parent
    have hparents : ∀ n ∈ left, r ∈ (k.node n).parentRules := by
      intro n hn
      have hmem : n ∈ implicitDeps (g.rule r) :=
        List.mem_reverse.mp (List.mem_dedup.mp (hleft.subset hn))
      exact hadded.parents n (hg.inputs n (List.mem_of_mem_drop hmem)) (hg.implicit n hmem)
    obtain ⟨k', hdrop, hrule, hready⟩ :=
      dropDependencies_total (hleft.nodup (List.nodup_dedup _)) hparents
    have hcount : k'.nbReady r = k.nbReady r := by
      rw [nbReady, nbReady, hrule]
      exact List.countP_congr fun n _ ↦ by rw [hready]
    have hbehind' := hadded.behind
    rw [Behind, Nat.zero_add] at hbehind'
    refine Or.inl ⟨k', e, ?_, ?_, hadded.ready⟩
    · rw [hadd, Lib.except_ok_bind, hdrop, Lib.except_ok_bind]
      rfl
    · rw [hcount, hrule, hbehind']
  · refine Or.inr ⟨?_, hnot⟩
    rw [hadd]
    rfl

/-- A load keeps the counter of its rule just if the depfile names no dirty
target, the explicit inputs of the rule aside. -/
theorem load_keepsCounter_iff {content : String} (hg : Loadable g r)
    (hexact : (g.rule r).numInputsReady = g.nbReady r) :
    KeepsCounter P w g r content ↔ ∀ ins, Names P g r content ins → ∀ dep ∈ ins, ∀ n,
      g.nodes.lookup dep = some n → n ∉ Hash.explicitInputs (g.rule r) →
        (g.node n).isSource = true ∨ (g.node n).isDirty = false := by
  have hcond : ∀ ins : List String, (∀ dep ∈ ins, NamesReady (detached g r) r dep) ↔
      ∀ dep ∈ ins, ∀ n, g.nodes.lookup dep = some n → n ∉ Hash.explicitInputs (g.rule r) →
        (g.node n).isSource = true ∨ (g.node n).isDirty = false := by
    intro ins
    have hinputs : ((detached g r).rule r).inputs = Hash.explicitInputs (g.rule r) := by
      rw [detached_rule]
    have hready : ∀ n, (detached g r).inputReady n = true ↔
        (g.node n).isSource = true ∨ (g.node n).isDirty = false := by
      intro n
      change g.inputReady n = true ↔ _
      simp [inputReady]
    simp only [NamesReady, hinputs, hready]
    rfl
  constructor
  · rintro ⟨-, hno, hall⟩ ins hnames
    rw [← hcond]
    rcases load_counted (w := w) hg hexact hnames with ⟨g', e, hrun, hcount, he⟩ | ⟨hrun, -⟩
    · apply he.mp
      have heq := hall g' hrun
      omega
    · exact absurd hrun hno
  · intro hall
    by_cases hnames : ∃ ins, Names P g r content ins
    · obtain ⟨ins, hnames⟩ := hnames
      have hready := (hcond ins).mpr (hall ins hnames)
      rcases load_counted (w := w) hg hexact hnames with ⟨g', e, hrun, hcount, he⟩ | ⟨-, hno⟩
      · have hzero := he.mpr hready
        rw [KeepsCounter, hrun]
        refine ⟨by simp, by simp, fun g'' heq ↦ ?_⟩
        obtain rfl : g' = g'' := (Prod.mk.inj (Except.ok.inj heq)).2
        omega
      · exact absurd hready hno
    · -- the content is no depfile of the rule
      have hrun : load P w g r content = .ok (false, detached g r) ∨
          load P w g r content = .error (.assertion .depfileRuleOutput) := by
        simp only [load, detachImplicit_counted hexact, Lib.except_ok_bind]
        have houtputs : ((detached g r).rule r).outputs = (g.rule r).outputs := by
          rw [detached_rule]
        cases hparse : P.parseDepfile content with
        | none => exact Or.inl rfl
        | some parsed =>
            obtain ⟨output, ins⟩ := parsed
            simp only [houtputs]
            cases hfirst : (g.rule r).outputs.head? with
            | none => exact Or.inr rfl
            | some first =>
                have hne : output ≠ ((detached g r).node first).path := by
                  rintro rfl
                  exact hnames ⟨ins, first, hfirst, hparse⟩
                simp only [hne, ne_eq, not_false_eq_true, if_true]
                exact Or.inl rfl
      rcases hrun with hrun | hrun <;> simp [KeepsCounter, hrun]

/-! ## A generated header -/

/-- The makefile `parse.y -> parse.h` and `main.c -> main.o`, in the state in
which `main.c` has been compiled for the first time. -/
def headerGraph (dirty : Bool) : Graph where
  node
    | 0 => { Node.create "parse.y" true false with parentRules := [0] }
    | 1 => { Node.create "parse.h" true false with
        childRule := some 0, state := if dirty then .outOfDate else .upToDate }
    | 2 => { Node.create "main.c" true false with parentRules := [1] }
    | 3 => { Node.create "main.o" true false with childRule := some 1, state := .outOfDate }
    | _ => Node.create "" true false
  rule
    | 0 => { Rule.create [0] [1] with
        command := "yacc -d parse.y", numInputsReady := 1
        state := if dirty then .outOfDate else .upToDate }
    | 1 => { Rule.create [2] [3] with
        command := "cc -MD -c main.c", depfile := "main.d", numInputsReady := 1
        state := .outOfDate }
    | _ => Rule.create [] []
  roots := {1, 3}
  sources := {0, 2}
  nodes := [("parse.y", 0), ("parse.h", 1), ("main.c", 2), ("main.o", 3)]
  rules := [0, 1]
  allocated := {0, 1, 2, 3}

/-- The compiler has found that `main.c` includes `parse.h`. -/
def headerPlatform : Platform Unit where
  readFile _ path := if path = "main.d" then some "main.o: main.c parse.h" else none
  mtime _ _ := none
  now _ := 0
  sha256 s := s.toUTF8.toList
  parseDepfile := DepfileParser.parseDepfile
  newNode used := used.sup id + 1
  newNode_fresh := fresh_above
  uninitialised _ := false
  restoreNode _ _ w := .ok (false, w)
  restoreRule _ _ w := .ok (false, w)
  restoreDepfile _ _ w := .ok (false, w)
  saveRule _ _ w := .ok w

theorem loadable_headerGraph (dirty : Bool) : Loadable (headerGraph dirty) 1 where
  inputs := by simp [headerGraph, Rule.create]
  implicit := by simp [headerGraph, Rule.create, implicitDeps]
  nodes := by simp [headerGraph]

/-- The header has been made before. -/
theorem keepsCounter_header_made :
    KeepsCounter headerPlatform () (headerGraph false) 1 "main.o: main.c parse.h" := by
  apply (load_keepsCounter_iff (loadable_headerGraph false) rfl).mpr
  rintro ins ⟨first, -, hparse⟩ dep hdep n hn -
  have hins : ins = ["main.c", "parse.h"] :=
    (congrArg Prod.snd (Option.some.inj hparse)).symm
  rw [hins] at hdep
  simp only [List.mem_cons, List.not_mem_nil, or_false] at hdep
  rcases hdep with rfl | rfl
  · obtain rfl : n = 2 := (Option.some.inj hn).symm
    exact Or.inl rfl
  · obtain rfl : n = 1 := (Option.some.inj hn).symm
    exact Or.inr rfl

/-- The header is out of date: the rule, which has one ready input of two, is
left with a counter of zero. -/
theorem not_keepsCounter_header : ¬ ∀ (g : Graph) (r : RuleId) (content : String),
    Loadable g r → (g.rule r).numInputsReady = g.nbReady r →
    KeepsCounter headerPlatform () g r content := by
  intro h
  have hkeeps := h (headerGraph true) 1 "main.o: main.c parse.h" (loadable_headerGraph true) rfl
  have hrun : (load headerPlatform () (headerGraph true) 1 "main.o: main.c parse.h" >>= fun x ↦
      pure (x.1 && (x.2.rule 1).numInputsReady = 0 && x.2.nbReady 1 = 1) : Outcome Bool) =
      .ok true := by decide +kernel
  obtain ⟨⟨loaded, g'⟩, hload, hfacts⟩ := Lib.bind_eq_ok.mp hrun
  simp only [Lib.except_pure, Except.ok.injEq, Bool.and_eq_true, decide_eq_true_eq] at hfacts
  obtain ⟨⟨rfl, hcounter⟩, hready⟩ := hfacts
  have heq := hkeeps.2.2 g' hload
  rw [hcounter, hready] at heq
  cases heq

end Depfile

end Falcon
