import Falcon.Graph.Installs

/-!
# The roots of a graph under loads

A load gives parents to nodes that exist and takes parents from others.  A node
becomes a root when it is created without parents and stops being one when it is
deleted; nothing is done for a node that gets its first parent, or for a target
that loses its last one.
-/

namespace Falcon

/-- The roots are the nodes without parents. -/
def Graph.RootsExact (g : Graph) : Prop :=
  ∀ n, n ∈ g.roots ↔ n ∈ g.allocated ∧ (g.node n).parentRules = []

namespace Depfile

open Graph

variable {ω : Type} {P : Platform ω} {w : ω} {g g' k k₁ k' : Graph} {r : RuleId}

/-! ## The dependencies -/

theorem linkInput_node_ne {t n : NodeId} (hn : n ≠ t) : (linkInput g r t).node n = g.node n := by
  rw [linkInput]
  split
  · rfl
  · rw [updateNode, setNode_node, if_neg hn]
    rfl

theorem linkInput_roots {t : NodeId} : (linkInput g r t).roots = g.roots := by
  rw [linkInput]
  split <;> rfl

theorem Joins.roots {dep : String} {t : NodeId} (h : Joins P w k r dep t k₁) :
    k₁.roots = k.roots := by
  cases h with
  | found _ _ => exact linkInput_roots
  | created _ _ => exact linkInput_roots (g := k.createNode P dep _ _)

theorem Joins.node_ne {dep : String} {t n : NodeId} (h : Joins P w k r dep t k₁) (hn : n ≠ t) :
    k₁.node n = k.node n := by
  cases h with
  | found _ _ => exact linkInput_node_ne hn
  | created _ ht =>
      refine (linkInput_node_ne (g := k.createNode P dep _ _) hn).trans ?_
      rw [createNode, setNode_node, if_neg (ht ▸ hn)]

/-- The new input has the rule as a parent. -/
theorem Joins.parents_self {dep : String} {t : NodeId} (h : Joins P w k r dep t k₁) :
    (k₁.node t).parentRules ≠ [] := by
  cases h with
  | found _ _ => exact List.ne_nil_of_mem (mem_linkInput_parents.mpr (Or.inr ⟨rfl, rfl⟩))
  | created _ _ =>
      exact List.ne_nil_of_mem (mem_linkInput_parents (g := k.createNode P dep _ _).mpr
        (Or.inr ⟨rfl, rfl⟩))

theorem Joins.allocated_cases {dep : String} {t n : NodeId} (h : Joins P w k r dep t k₁)
    (hn : n ∈ k₁.allocated) : n ∈ k.allocated ∨ n = t := by
  cases h with
  | found _ _ => exact Or.inl (linkInput_frame.2.2 ▸ hn)
  | created _ ht =>
      change n ∈ (linkInput (k.createNode P dep _ _) r t).allocated at hn
      rw [linkInput_frame.2.2] at hn
      exact ht ▸ (Finset.mem_insert.mp hn).symm

/-- One of the paths leads to the node. -/
def Listed (g : Graph) (ins : List String) (n : NodeId) : Prop :=
  ∃ dep ∈ ins, g.nodes.lookup dep = some n

/-- The graph `k` after the dependencies `ins` have been added to the rule, of
which `before` are the former implicit inputs that none of them was. -/
structure Naming (g : Graph) (r : RuleId) (ins : List String) (k : Graph) (before : List NodeId) :
    Prop where
  roots : k.roots = g.roots
  allocated : g.allocated ⊆ k.allocated
  lookup : ∀ path, ∀ n ∈ g.allocated, k.nodes.lookup path = some n ↔ g.nodes.lookup path = some n
  inputs : ∀ n ∈ g.allocated, n ∈ (k.rule r).inputs ↔
    n ∈ Hash.explicitInputs (g.rule r) ∨ Listed g ins n
  parents : ∀ n ∈ g.allocated, (k.node n).parentRules = [] ↔ (g.node n).parentRules = [] ∧
    (n ∈ Hash.explicitInputs (g.rule r) ∨ ¬ Listed g ins n)
  kept : ∀ n ∈ g.allocated, ¬ Listed g ins n → k.node n = g.node n
  created : ∀ n ∈ k.allocated, n ∉ g.allocated → (k.node n).parentRules ≠ [] ∧ n ∉ before
  mem_before : ∀ n ∈ g.allocated, n ∈ before ↔ n ∈ implicitDeps (g.rule r) ∧ ¬ Listed g ins n
  nodup : before.Nodup

theorem listed_snoc {ins : List String} {dep : String} {n : NodeId} :
    Listed g (ins ++ [dep]) n ↔ Listed g ins n ∨ g.nodes.lookup dep = some n := by
  simp [Listed, or_and_right, exists_or]

section Step

variable {ins : List String} {before : List NodeId} {dep : String} {t : NodeId}
  (h : Naming g r ins k before)
include h

/-- Among the nodes that existed, the path leads to the target only. -/
theorem Naming.listed_step (hrun : setRuleDependency P w k r dep = .ok (t, k')) :
    ∀ n ∈ g.allocated, Listed g (ins ++ [dep]) n ↔ Listed g ins n ∨ n = t := by
  intro n hn
  rw [listed_snoc, ← h.lookup dep n hn]
  refine or_congr_right ?_
  rcases setRuleDependency_joins hrun with ⟨hlookup, -⟩ | ⟨k₁, numReady, hjoin, -⟩
  · simp [hlookup, eq_comm]
  · cases hjoin with
    | found hlookup _ => simp [hlookup, eq_comm]
    | created hlookup ht =>
        have hne : n ≠ t := by
          rintro rfl
          exact P.newNode_fresh k.allocated (ht ▸ h.allocated hn)
        simp [hlookup, hne]

variable (hlisted : ∀ n ∈ g.allocated, Listed g (ins ++ [dep]) n ↔ Listed g ins n ∨ n = t)
include hlisted

theorem Naming.mem_before_step : ∀ n ∈ g.allocated, n ∈ before.filter (· ≠ t) ↔
    n ∈ implicitDeps (g.rule r) ∧ ¬ Listed g (ins ++ [dep]) n := by
  intro n hn
  rw [mem_filter_ne, h.mem_before n hn, hlisted n hn]
  tauto

/-- The dependency is an input already. -/
theorem Naming.found (hin : t ∈ (k.rule r).inputs) :
    Naming g r (ins ++ [dep]) k (before.filter (· ≠ t)) := by
  refine ⟨h.roots, h.allocated, h.lookup, fun n hn ↦ ?_, fun n hn ↦ ?_, fun n hn hno ↦ ?_,
    fun n hn hold ↦ ?_, h.mem_before_step hlisted, h.nodup.filter _⟩
  · rw [h.inputs n hn, hlisted n hn]
    have := h.inputs n hn
    by_cases heq : n = t
    · subst heq
      tauto
    · tauto
  · rw [h.parents n hn, hlisted n hn]
    by_cases heq : n = t
    · subst heq
      have hcases := (h.inputs n hn).mp hin
      tauto
    · tauto
  · exact h.kept n hn fun hyes ↦ hno ((hlisted n hn).mpr (Or.inl hyes))
  · obtain ⟨hparents, hnot⟩ := h.created n hn hold
    exact ⟨hparents, fun hmem ↦ hnot (List.mem_of_mem_filter hmem)⟩

/-- The dependency becomes an input, and is counted. -/
theorem Naming.joins (hjoin : Joins P w k r dep t k₁) (numReady : ℕ) :
    Naming g r (ins ++ [dep]) (k₁.setRule r { k₁.rule r with numInputsReady := numReady })
      (before.filter (· ≠ t)) := by
  have hinputs : (k₁.rule r).inputs = (k.rule r).inputs ++ [t] := by
    rw [hjoin.rule_self]
    rfl
  refine ⟨hjoin.roots.trans h.roots, h.allocated.trans hjoin.allocated_subset,
    fun path n hn ↦ ?_, fun n hn ↦ ?_, fun n hn ↦ ?_, fun n hn hno ↦ ?_, fun n hn hold ↦ ?_,
    h.mem_before_step hlisted, h.nodup.filter _⟩
  · change k₁.nodes.lookup path = some n ↔ _
    rw [hjoin.lookup_iff, h.lookup path n hn, or_iff_left]
    rintro ⟨hnone, -, rfl⟩
    exact (hjoin.ready_of_created hnone).2 (h.allocated hn)
  · rw [setRule_rule, if_pos rfl, hlisted n hn]
    change n ∈ (k₁.rule r).inputs ↔ _
    rw [hinputs, List.mem_append, List.mem_singleton, h.inputs n hn, or_assoc]
  · change (k₁.node n).parentRules = [] ↔ _
    rw [hlisted n hn]
    by_cases heq : n = t
    · subst heq
      have hexplicit : n ∉ Hash.explicitInputs (g.rule r) := by
        cases hjoin with
        | found _ hnot => exact fun hin ↦ hnot ((h.inputs n hn).mpr (Or.inl hin))
        | created _ ht => exact absurd (h.allocated hn) (ht ▸ P.newNode_fresh k.allocated)
      have hparents := hjoin.parents_self
      tauto
    · rw [hjoin.node_ne heq, h.parents n hn]
      tauto
  · have hne : n ≠ t := fun heq ↦ hno ((hlisted n hn).mpr (Or.inr heq))
    refine (hjoin.node_ne hne).trans (h.kept n hn fun hyes ↦ ?_)
    exact hno ((hlisted n hn).mpr (Or.inl hyes))
  · change (k₁.node n).parentRules ≠ [] ∧ _
    by_cases heq : n = t
    · subst heq
      exact ⟨hjoin.parents_self, by simp⟩
    · obtain ⟨hparents, hnot⟩ := h.created n ((hjoin.allocated_cases hn).resolve_right heq) hold
      rw [hjoin.node_ne heq]
      exact ⟨hparents, fun hmem ↦ hnot (List.mem_of_mem_filter hmem)⟩

omit hlisted in
theorem Naming.step (hrun : setRuleDependency P w k r dep = .ok (t, k')) :
    Naming g r (ins ++ [dep]) k' (before.filter (· ≠ t)) := by
  have hlisted := h.listed_step hrun
  rcases setRuleDependency_joins hrun with ⟨-, hin, rfl⟩ | ⟨k₁, numReady, hjoin, rfl⟩
  · exact h.found hlisted hin
  · exact h.joins hlisted hjoin numReady

end Step

theorem addDependencies_naming {ins done : List String} {before left : List NodeId}
    (h : Naming g r done k before)
    (hrun : addDependencies P w r ins (k, before) = .ok (k', left)) :
    Naming g r (done ++ ins) k' left := by
  induction ins generalizing k before done with
  | nil =>
      obtain ⟨rfl, rfl⟩ := Prod.mk.inj (Except.ok.inj hrun)
      rwa [List.append_nil]
  | cons dep ins ih =>
      rw [addDependencies] at hrun
      obtain ⟨⟨t, k₁⟩, hstep, hrest⟩ := Lib.bind_eq_ok.mp hrun
      have hall := ih (h.step hstep) hrest
      rwa [List.append_assoc] at hall

/-! ## The former implicit inputs -/

/-- The graph after the nodes `pre` have lost the rule as a parent. -/
structure Dropping (k : Graph) (r : RuleId) (pre : List NodeId) (k' : Graph) : Prop where
  kept : ∀ n, n ∉ pre → k'.node n = k.node n ∧
    (n ∈ k'.roots ↔ n ∈ k.roots) ∧ (n ∈ k'.allocated ↔ n ∈ k.allocated)
  dropped : ∀ n ∈ pre, r ∈ (k.node n).parentRules ∧
    (k'.node n).parentRules = (k.node n).parentRules.erase r ∧
    (n ∈ k'.roots ↔ n ∈ k.roots ∧ ¬ Unused k r n) ∧
    (n ∈ k'.allocated ↔ n ∈ k.allocated ∧ ¬ Unused k r n)

theorem Dropping.step {pre : List NodeId} {n : NodeId} (h : Dropping k r pre k₁)
    (hn : n ∉ pre) (hrun : dropDependency r k₁ n = .ok k') : Dropping k r (pre ++ [n]) k' := by
  obtain ⟨hparent, hcases⟩ := dropDependency_cases hrun
  obtain ⟨hnode, hroots, hallocated⟩ := h.kept n hn
  rw [hnode] at hparent hcases
  have hother : ∀ m, m ≠ n → k'.node m = k₁.node m ∧ (m ∈ k'.roots ↔ m ∈ k₁.roots) ∧
      (m ∈ k'.allocated ↔ m ∈ k₁.allocated) := by
    intro m hm
    obtain ⟨-, -, rfl⟩ | ⟨-, rfl⟩ := hcases
    · refine ⟨unlink_node_ne hm, ?_, ?_⟩
      · exact Finset.mem_erase.trans (and_iff_right hm)
      · exact Finset.mem_erase.trans (and_iff_right hm)
    · exact ⟨unlink_node_ne hm, Iff.rfl, Iff.rfl⟩
  have hself : (k'.node n).parentRules = (k.node n).parentRules.erase r ∧
      (n ∈ k'.roots ↔ n ∈ k₁.roots ∧ ¬ Unused k r n) ∧
      (n ∈ k'.allocated ↔ n ∈ k₁.allocated ∧ ¬ Unused k r n) := by
    rw [← hnode]
    obtain ⟨hparents, hchild, rfl⟩ | ⟨hstays, rfl⟩ := hcases
    · have hunused : Unused k r n := ⟨hparents, hchild⟩
      refine ⟨congrArg Node.parentRules (unlink_node_self r n), ?_, ?_⟩
      · change n ∈ k₁.roots.erase n ↔ _
        simp [hunused]
      · change n ∈ k₁.allocated.erase n ↔ _
        simp [hunused]
    · have hused : ¬ Unused k r n := hstays
      exact ⟨congrArg Node.parentRules (unlink_node_self r n), (and_iff_left hused).symm,
        (and_iff_left hused).symm⟩
  constructor
  · intro m hm
    rw [List.mem_append, List.mem_singleton, not_or] at hm
    obtain ⟨hnode', hroots', hallocated'⟩ := h.kept m hm.1
    obtain ⟨hnode'', hroots'', hallocated''⟩ := hother m hm.2
    exact ⟨hnode''.trans hnode', hroots''.trans hroots', hallocated''.trans hallocated'⟩
  · intro m hm
    rcases List.mem_append.mp hm with hm | hm
    · obtain ⟨hold, hparents, hroots', hallocated'⟩ := h.dropped m hm
      have hne : m ≠ n := fun heq ↦ hn (heq ▸ hm)
      obtain ⟨hnode'', hroots'', hallocated''⟩ := hother m hne
      rw [hnode'']
      exact ⟨hold, hparents, hroots''.trans hroots', hallocated''.trans hallocated'⟩
    · obtain rfl := List.mem_singleton.mp hm
      rw [hroots, hallocated] at hself
      exact ⟨hparent, hself⟩

theorem dropDependencies_dropping {left : List NodeId} (hnodup : left.Nodup)
    (hrun : left.foldlM (dropDependency r) k = .ok k') : Dropping k r left k' := by
  refine Lib.foldlM_prefix (fun pre k' ↦ Dropping k r pre k')
    ⟨fun n _ ↦ ⟨rfl, Iff.rfl, Iff.rfl⟩, by simp⟩ ?_ hrun
  intro pre n post k₁ k₂ hl h hstep
  refine h.step (fun hmem ↦ ?_) hstep
  rw [hl] at hnodup
  exact (List.nodup_append.mp hnodup).2.2 n hmem n List.mem_cons_self rfl

/-! ## The load -/

theorem Naming.start (g : Graph) (r : RuleId) (numReady : ℕ) :
    Naming g r [] (g.setRule r { g.rule r with
      inputs := Hash.explicitInputs (g.rule r)
      numImplicitDeps := 0
      numInputsReady := numReady }) (implicitDeps (g.rule r)).reverse.dedup where
  roots := rfl
  allocated := Finset.Subset.refl _
  lookup _ _ _ := Iff.rfl
  inputs n _ := by
    rw [setRule_rule, if_pos rfl]
    simp [Listed]
  parents n _ := by
    rw [setRule_node]
    simp [Listed]
  kept _ _ _ := rfl
  created n hn hno := absurd hn hno
  mem_before n _ := by simp [Listed]
  nodup := List.nodup_dedup _

/-- What the two loops leave of one node. -/
theorem mem_roots_iff {ins : List String} {left : List NodeId} (hroots : g.RootsExact)
    (hk : Naming g r ins k left) (hdrop : Dropping k r left g') (n : NodeId) :
    (n ∈ g'.roots ↔ n ∈ g'.allocated ∧ (g'.node n).parentRules = []) ↔
      (n ∈ g.roots → Listed g ins n → n ∈ Hash.explicitInputs (g.rule r)) ∧
      (n ∈ g.allocated → n ∈ implicitDeps (g.rule r) → ¬ Listed g ins n →
        (g.node n).childRule ≠ none → (g.node n).parentRules.erase r ≠ []) := by
  have hold := hroots n
  rw [← hk.roots] at hold ⊢
  by_cases hn : n ∈ g.allocated
  · have hn' := hk.allocated hn
    have hbefore := hk.mem_before n hn
    by_cases hleft : n ∈ left
    · obtain ⟨hparent, hparents, hroots', hallocated'⟩ := hdrop.dropped n hleft
      obtain ⟨himplicit, hnot⟩ := hbefore.mp hleft
      have hnode := hk.kept n hn hnot
      have hno : n ∉ k.roots := by
        rw [hold, ← hnode]
        exact fun h ↦ List.ne_nil_of_mem hparent h.2
      rw [hroots', hallocated', hparents, Unused, hnode]
      simp only [hno, hn, hn', himplicit, hnot, false_and, true_and, false_iff, IsEmpty.forall_iff,
        not_false_eq_true, forall_const]
      tauto
    · obtain ⟨hnode, hroots', hallocated'⟩ := hdrop.kept n hleft
      have hlisted : ¬ (n ∈ implicitDeps (g.rule r) ∧ ¬ Listed g ins n) := mt hbefore.mpr hleft
      rw [hroots', hallocated', hnode, hk.parents n hn, hold]
      simp only [hn, hn', true_and, forall_const]
      constructor
      · intro hiff
        refine ⟨fun hnil hyes ↦ ?_, fun himplicit hnot ↦ absurd ⟨himplicit, hnot⟩ hlisted⟩
        exact (hiff.mp hnil).2.resolve_right (not_not.mpr hyes)
      · rintro ⟨hfirst, -⟩
        refine ⟨fun hnil ↦ ⟨hnil, ?_⟩, fun h ↦ h.1⟩
        by_cases hyes : Listed g ins n
        · exact Or.inl (hfirst hnil hyes)
        · exact Or.inr hyes
  · have hno : n ∉ k.roots := fun h ↦ hn (hold.mp h).1
    -- a node that the load has created keeps its parent
    have hgone : ¬ (n ∈ g'.allocated ∧ (g'.node n).parentRules = []) := by
      rintro ⟨hmem, hnil⟩
      by_cases hleft : n ∈ left
      · obtain ⟨-, -, -, hallocated'⟩ := hdrop.dropped n hleft
        exact (hk.created n (hallocated'.mp hmem).1 hn).2 hleft
      · obtain ⟨hnode, -, hallocated'⟩ := hdrop.kept n hleft
        exact (hk.created n (hallocated'.mp hmem) hn).1 (hnode ▸ hnil)
    have hroots' : n ∉ g'.roots := by
      by_cases hleft : n ∈ left
      · exact fun h ↦ hno ((hdrop.dropped n hleft).2.2.1.mp h).1
      · exact fun h ↦ hno ((hdrop.kept n hleft).2.1.mp h)
    exact ⟨fun _ ↦ ⟨fun h ↦ absurd h hno, fun h ↦ absurd h hn⟩,
      fun _ ↦ ⟨fun h ↦ absurd h hroots', fun h ↦ absurd h hgone⟩⟩

/-- A load keeps the roots exact just if it gives no node its first parent and
takes the last one from no target. -/
theorem load_rootsExact_iff {content output : String} {ins : List String}
    (hroots : g.RootsExact) (hparse : P.parseDepfile content = some (output, ins))
    (hrun : load P w g r content = .ok (true, g')) :
    g'.RootsExact ↔
      (∀ n ∈ g.roots, Listed g ins n → n ∈ Hash.explicitInputs (g.rule r)) ∧
      (∀ n ∈ g.allocated, n ∈ implicitDeps (g.rule r) → ¬ Listed g ins n →
        (g.node n).childRule ≠ none → (g.node n).parentRules.erase r ≠ []) := by
  obtain ⟨k, hdetach, hcases⟩ := load_ok hrun
  obtain ⟨hfalse, -⟩ | ⟨-, first, ins', k₁, left, -, hparse', hadd, hdrop⟩ := hcases
  · cases hfalse
  obtain rfl : ins = ins' := (Prod.mk.inj (Option.some.inj (hparse.symm.trans hparse'))).2
  obtain ⟨numReady, rfl⟩ := detachImplicit_eq hdetach
  have hnaming := addDependencies_naming (.start g r numReady) hadd
  rw [List.nil_append] at hnaming
  have hdropping := dropDependencies_dropping hnaming.nodup hdrop
  have hnode := mem_roots_iff hroots hnaming hdropping
  constructor
  · exact fun h ↦ ⟨fun n ↦ ((hnode n).mp (h n)).1, fun n ↦ ((hnode n).mp (h n)).2⟩
  · exact fun ⟨hfirst, hlast⟩ n ↦ (hnode n).mpr ⟨hfirst n, hlast n⟩

/-- A new header. -/
theorem load_rootsExact_include : ∃ g',
    load includePlatform () includeGraph 0 "main.o: main.c new.h new.h" = .ok (true, g') ∧
      g'.RootsExact := by
  have hrun : (load includePlatform () includeGraph 0 "main.o: main.c new.h new.h" >>= fun x ↦
      pure x.1 : Outcome Bool) = .ok true := by decide +kernel
  obtain ⟨⟨loaded, g'⟩, hload, hloaded⟩ := Lib.bind_eq_ok.mp hrun
  obtain rfl : loaded = true := Except.ok.inj hloaded
  have hroots : includeGraph.RootsExact := by
    rintro (_ | _ | _ | n) <;> simp [includeGraph, Node.create]
  have hparse : includePlatform.parseDepfile "main.o: main.c new.h new.h" =
      some ("main.o", ["main.c", "new.h", "new.h"]) := by decide +kernel
  refine ⟨g', hload, (load_rootsExact_iff hroots hparse hload).mpr ⟨?_, ?_⟩⟩
  · rintro n hn ⟨dep, hdep, hlookup⟩
    obtain rfl : n = 2 := by simpa [includeGraph] using hn
    obtain rfl | rfl : dep = "main.c" ∨ dep = "new.h" := by simpa using hdep
    · cases hlookup
    · cases hlookup
  · intro n hn himplicit _ hchild
    obtain rfl : n = 1 := by simpa [includeGraph, implicitDeps, Rule.create] using himplicit
    exact absurd rfl hchild

/-- The header that nothing used is not a root any more, and is listed as one. -/
theorem not_rootsExact_header :
    ¬ ∀ (g : Graph) (r : RuleId) (content : String) (g' : Graph), g.RootsExact →
      load headerPlatform () g r content = .ok (true, g') → g'.RootsExact := by
  intro hclaim
  have hroots : (headerGraph false).RootsExact := by
    rintro (_ | _ | _ | _ | n) <;> simp [headerGraph, Node.create]
  have hrun : (load headerPlatform () (headerGraph false) 1 "main.o: main.c parse.h" >>= fun x ↦
      pure (x.1 && 1 ∈ x.2.roots && (x.2.node 1).parentRules = [1]) : Outcome Bool) =
      .ok true := by decide +kernel
  obtain ⟨⟨loaded, g'⟩, hload, hfacts⟩ := Lib.bind_eq_ok.mp hrun
  simp only [Lib.except_pure, Except.ok.injEq, Bool.and_eq_true, decide_eq_true_eq] at hfacts
  obtain ⟨⟨rfl, hroot⟩, hparents⟩ := hfacts
  have hexact := (hclaim _ _ _ g' hroots hload 1).mp hroot
  rw [hparents] at hexact
  cases hexact.2

end Depfile

end Falcon
