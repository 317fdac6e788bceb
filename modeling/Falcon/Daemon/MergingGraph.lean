import Falcon.Daemon.MergingDepfiles

/-!
# The walk over both graphs

Every node of the new graph is met, since each is below a root; what has not been
met is deleted.  What is left is as the new makefile has it.
-/

namespace Falcon

open Relation Lib

namespace GraphReloader

variable {ω : Type} {P : Platform ω} {A : Allocator} {w : ω} {g g' new k k' : Graph}
  {s s' : Reload} {n m : NodeId} {r q : RuleId} {path : String} {O : Opened}

/-! ## Opening a rule -/

/-- An old rule is taken apart. -/
theorem Merging.opens (h : Merging P w g new O s) (hr : O r = none) (hrules : r ∈ s.graph.rules)
    (hq : q ∈ new.rules) (hshare : Shares s.graph new r q) :
    Merging P w g new (openRule O r q (s.graph.rule r).inputs)
      { s with graph := s.graph.updateRule r cleared } := by
  have hself : (s.graph.updateRule r cleared).rule r = cleared (s.graph.rule r) := by
    rw [Graph.updateRule, Graph.setRule_rule, if_pos rfl]
  have hne : ∀ p, p ≠ r → (s.graph.updateRule r cleared).rule p = s.graph.rule p := by
    intro p hp
    rw [Graph.updateRule, Graph.setRule_rule, if_neg hp]
  have houtputs : ∀ p, ((s.graph.updateRule r cleared).rule p).outputs =
      (s.graph.rule p).outputs := by
    intro p
    by_cases hp : p = r
    · rw [hp, hself]
      rfl
    · rw [hne p hp]
  apply h.frame
  · apply h.woven.congr
    · exact fun n ↦ ⟨rfl, rfl, rfl⟩
    · rfl
    · rfl
    · rfl
    · exact fun p _ ↦ houtputs p
    · intro p _
      rw [loose_openRule]
      by_cases hp : p = r
      · rw [hp, hself, Function.update_self, loose_none hr, List.append_nil]
        exact .refl _
      · rw [hne p hp, Function.update_of_ne hp]
  · exact fun n hn ↦ ⟨hn, rfl⟩
  · exact fun n _ ↦ rfl
  · exact fun n hn hno ↦ absurd hn hno
  · intro p q' l ho
    change p ∈ s.graph.rules ∧ q' ∈ new.rules ∧ ∀ path ∈ s.graph.paths _, _
    rw [houtputs]
    by_cases hp : p = r
    · subst hp
      obtain ⟨rfl, -⟩ := Prod.mk.inj (Option.some.inj (openRule_self.symm.trans ho))
      exact ⟨hrules, hq, fun path ↦ ((h.turns p hrules hr q hq hshare).outputs path).mp⟩
    · exact h.opened p q' l ((openRule_ne hp).symm.trans ho)
  · intro p hp ho
    have hpr : p ≠ r := by
      rintro rfl
      rw [openRule_self] at ho
      cases ho
    change p ∈ s.graph.rules ∧ O p = none ∧ _
    rw [openRule_ne hpr] at ho
    rw [hne p hpr]
    exact ⟨hp, ho, rfl, rfl, Or.inl rfl⟩
  · rfl
  · exact fun e he ↦ he
  · exact fun e he ↦ Or.inl he

theorem onward_cleared (hr : O r = none) (s : Reload) :
    Onward O s { s with graph := s.graph.updateRule r cleared } := onward_updateRule hr s cleared

theorem createNewRule_ok {A : Allocator} (hrun : createNewRule A k n = .ok k') :
    (k.node n).childRule = none ∧
      k' = { (k.setRule (A.newRule k.rules) (Rule.create [] [n])).updateNode n fun x ↦
        { x with childRule := some (A.newRule k.rules) } with
          rules := k.rules ++ [A.newRule k.rules] } := by
  obtain ⟨k₁, hset, hpure⟩ := bind_eq_ok.mp hrun
  have hset' : ((k.node n).setChild (A.newRule k.rules)).map
      ((k.setRule (A.newRule k.rules) (Rule.create [] [n])).setNode n) = .ok k₁ := hset
  rw [Node.setChild] at hset'
  cases hchild : (k.node n).childRule with
  | some p =>
      rw [hchild] at hset'
      cases hset'
  | none =>
      rw [hchild] at hset'
      refine ⟨rfl, ?_⟩
      rw [← Except.ok.inj hpure, ← Except.ok.inj hset']
      rfl

/-- A source file gets a rule, which is taken apart already. -/
theorem Merging.creates {A : Allocator} (h : Merging P w g new O s) (hn : n ∈ s.graph.allocated)
    (hq : q ∈ new.rules) (hpath : (s.graph.node n).path ∈ new.paths (new.rule q).outputs)
    (hrun : createNewRule A s.graph n = .ok k') (hr : r = A.newRule s.graph.rules) :
    O r = none ∧ Merging P w g new (openRule O r q []) { s with graph := k' } ∧
      Onward O s { s with graph := k' } ∧ k'.rule r = Rule.create [] [n] ∧
      (k'.node n).childRule = some r := by
  obtain ⟨hnone, hk'⟩ := createNewRule_ok hrun
  rw [← hr] at hk'
  have hfresh : r ∉ s.graph.rules := hr ▸ A.newRule_fresh s.graph.rules
  have hclosed : O r = none := by
    cases ho : O r with
    | none => rfl
    | some e => exact absurd (h.opened r e.1 e.2 ho).1 hfresh
  have hself : k'.rule r = Rule.create [] [n] := by
    rw [hk']
    change (s.graph.setRule r (Rule.create [] [n])).rule r = _
    rw [Graph.setRule_rule, if_pos rfl]
  have hne : ∀ p, p ≠ r → k'.rule p = s.graph.rule p := by
    intro p hp
    rw [hk']
    change (s.graph.setRule r (Rule.create [] [n])).rule p = _
    rw [Graph.setRule_rule, if_neg hp]
  have hnode : ∀ m, (k'.node m).path = (s.graph.node m).path ∧
      (k'.node m).parentRules = (s.graph.node m).parentRules ∧
      (k'.node m).childRule = if m = n then some r else (s.graph.node m).childRule := by
    intro m
    rw [hk']
    refine ⟨Graph.proj_setNode Node.path (by rfl) m,
      Graph.proj_setNode Node.parentRules (by rfl) m, ?_⟩
    change ((s.graph.setNode n _).node m).childRule = _
    rw [Graph.setNode_node]
    split
    · rfl
    · rfl
  have hrules : k'.rules = s.graph.rules ++ [r] := by rw [hk']
  have hallocated : k'.allocated = s.graph.allocated := by
    rw [hk']
    rfl
  have hnodes : k'.nodes = s.graph.nodes := by
    rw [hk']
    rfl
  have hmemRule : ∀ p ∈ s.graph.rules, p ≠ r := fun p hp heq ↦ hfresh (heq ▸ hp)
  have hpaths : ∀ l, k'.paths l = s.graph.paths l :=
    fun l ↦ Graph.paths_congr fun m _ ↦ (hnode m).1
  have hloose : loose (openRule O r q []) = loose O := by
    rw [loose_openRule, ← loose_none hclosed, Function.update_eq_self]
  refine ⟨hclosed, ?_, ⟨fun m hm ↦ ⟨hallocated ▸ hm, (hnode m).1⟩, Finset.Subset.refl _,
    fun p hp ↦ ?_⟩, hself, ?_⟩
  · apply h.frame
    · rw [hloose]
      exact h.woven.insertRule hfresh (loose_none hclosed) hn hnone hnode
        (by rw [hself]; exact ⟨rfl, rfl⟩) hne hrules hallocated hnodes
    · exact fun m hm ↦ ⟨hallocated ▸ hm, (hnode m).1⟩
    · intro m hm
      refine (hnode m).2.2.trans (if_neg ?_)
      rintro rfl
      exact (h.seen m hm).2.2.mp hnone ⟨q, hq, hpath⟩
    · exact fun m hm hno ↦ absurd (hallocated ▸ hm) hno
    · intro p q' l ho
      change p ∈ k'.rules ∧ q' ∈ new.rules ∧ ∀ path ∈ k'.paths (k'.rule p).outputs, _
      rw [hrules, hpaths]
      by_cases hp : p = r
      · subst hp
        obtain ⟨rfl, -⟩ := Prod.mk.inj (Option.some.inj (openRule_self.symm.trans ho))
        refine ⟨List.mem_append_right _ (List.mem_singleton_self p), hq, fun path hin ↦ ?_⟩
        rw [hself] at hin
        rw [List.mem_singleton.mp hin]
        exact hpath
      · rw [openRule_ne hp] at ho
        rw [hne p hp]
        obtain ⟨hp', hq', hall⟩ := h.opened p q' l ho
        exact ⟨List.mem_append_left _ hp', hq', hall⟩
    · intro p hp ho
      have hpr : p ≠ r := by
        rintro rfl
        rw [openRule_self] at ho
        cases ho
      change p ∈ k'.rules at hp
      rw [hrules, List.mem_append, List.mem_singleton] at hp
      rw [openRule_ne hpr] at ho
      change p ∈ s.graph.rules ∧ O p = none ∧ (k'.rule p).inputs = _ ∧
        (k'.rule p).numImplicitDeps = _ ∧ ((k'.rule p).outputs = _ ∨ (k'.rule p).outputs ⊆ _ ∧ _)
      rw [hne p hpr]
      exact ⟨hp.resolve_right hpr, ho, rfl, rfl, Or.inl rfl⟩
    · rfl
    · exact fun e he ↦ he
    · exact fun e he ↦ Or.inl he
  · apply hne
    rintro rfl
    exact hp hclosed
  · rw [(hnode n).2.2, if_pos rfl]

/-- A node is seen whose rule, if it has one, is taken apart. -/
theorem Merging.see (h : Merging P w g new O s) (hn : n ∈ s.graph.allocated)
    (hholds : new.Holds (s.graph.node n).path)
    (hstatus : (s.graph.node n).childRule = none ↔ ¬ new.Makes (s.graph.node n).path)
    (hmet : ∀ e ∈ s.originalNodes, e.1 ≠ (s.graph.node n).path)
    (hopen : ∀ r, (s.graph.node n).childRule = some r → O r ≠ none) :
    Merging P w g new O { s with nodesSeen := insert n s.nodesSeen } := by
  constructor
  · exact h.woven
  · exact h.node
  · exact h.opened
  · exact h.turns
  · exact h.old
  · exact h.implicit
  · intro m hm
    rcases Finset.mem_insert.mp hm with rfl | hm
    · exact ⟨hn, hholds, hstatus⟩
    · exact h.seen m hm
  · intro m hm r hchild ho q hq hshare
    rcases Finset.mem_insert.mp hm with rfl | hm
    · exact absurd ho (hopen r hchild)
    · obtain ⟨hinputs, hseen⟩ := h.remade m hm r hchild ho q hq hshare
      refine ⟨hinputs, fun path hpath ↦ ?_⟩
      obtain ⟨x, hx, hself⟩ := hseen path hpath
      exact ⟨x, Finset.mem_insert_of_mem hx, hself⟩
  · exact h.original
  · intro m hm e he
    rcases Finset.mem_insert.mp hm with rfl | hm
    · exact hmet e he
    · exact h.met m hm e he
  · exact h.unmet

/-! ## The traversal -/

/-- The rules that are taken apart are on the way from `m` to a root. -/
def Above (new : Graph) (O : Opened) (m : NodeId) : Prop :=
  ∀ r q l, O r = some (q, l) → ∀ x ∈ (new.rule q).outputs,
    new.links.rankBelow m < new.links.rankBelow x

theorem Above.open (hnew : Clean new) (h : Above new O m) (hchild : (new.node m).childRule = some q)
    {x : NodeId} (hx : x ∈ (new.rule q).inputs) (r : RuleId) (l : List NodeId) :
    Above new (openRule O r q l) x := by
  obtain ⟨hq, hm⟩ := (hnew.twoWay.child_eq_some m q).mp hchild
  intro p q' l' ho y hy
  by_cases hp : p = r
  · subst hp
    obtain ⟨rfl, -⟩ := Prod.mk.inj (Option.some.inj (openRule_self.symm.trans ho))
    exact Links.rankBelow_lt hnew.twoWay hnew.acyclic
      ((hnew.twoWay.child_eq_some y q).mpr ⟨hq, hy⟩) hx
  · have hlt := h p q' l' ((openRule_ne hp).symm.trans ho) y hy
    exact (Links.rankBelow_lt hnew.twoWay hnew.acyclic hchild hx).trans hlt

/-- The rule of `m` is not turned into yet. -/
theorem Above.fresh (hnew : Clean new) (h : Above new O m)
    (hchild : (new.node m).childRule = some q) : ∀ p q' l', O p = some (q', l') → q' ≠ q := by
  rintro p q' l' ho rfl
  have hm := ((hnew.twoWay.child_eq_some m q').mp hchild).2
  exact lt_irrefl _ (h p q' l' ho m hm)

/-- The rule of a node that `q` generates is not taken apart. -/
theorem Merging.closed (hnew : Clean new) (h : Merging P w g new O s)
    (hfresh : ∀ p q' l', O p = some (q', l') → q' ≠ q) (hq : q ∈ new.rules)
    (hpath : (s.graph.node n).path ∈ new.paths (new.rule q).outputs)
    (hchild : (s.graph.node n).childRule = some r) : O r = none := by
  obtain ⟨-, hout⟩ := (h.woven.child n r).mp hchild
  cases ho : O r with
  | none => rfl
  | some e =>
      obtain ⟨-, hq', hall⟩ := h.opened r e.1 e.2 ho
      exact absurd (hnew.rule_unique hq' hq (hall _ (Graph.path_mem_paths hout)) hpath)
        (hfresh r e.1 e.2 ho)

theorem updateTarget_merges (hg : Mergeable P w g new) (hnew : Clean new)
    {node : NodeUpdate} {b : Bool} (hr : O r = none) (hq : q ∈ new.rules)
    (hfresh : ∀ p q' l', O p = some (q', l') → q' ≠ q)
    (hE : ∀ n ∈ Hash.explicitInputs (s.graph.rule r),
      (s.graph.node n).path ∈ new.paths (new.rule q).inputs ∨ n ∈ g.allocated ∧ Discarded g new n)
    (hI : ∀ n ∈ Depfile.implicitDeps (s.graph.rule r),
      (s.graph.node n).path ∉ new.paths (new.rule q).inputs ∧
        Listed P w g new (s.graph.node n).path)
    (hspec : ∀ m ∈ (new.rule q).inputs, ∀ l, NodeMerges P w g new (openRule O r q l) node m)
    (h : Merging P w g new (openRule O r q (s.graph.rule r).inputs)
      { s with graph := s.graph.updateRule r cleared })
    (hn : n ∈ s.graph.allocated)
    (hpath : (s.graph.node n).path ∈ new.paths (new.rule q).outputs)
    (hrun : updateTarget P w new node s n r q = .ok (b, s')) :
    Merging P w g new O s' ∧ Onward O { s with graph := s.graph.updateRule r cleared } s' := by
  obtain ⟨⟨c, s₁⟩, hrule, hrun⟩ := bind_eq_ok.mp hrun
  obtain ⟨h₁, hon₁⟩ := updateSubGraphRule_merges hg hnew hr hq hfresh hE hI hspec h hrule
  cases c with
  | false =>
      obtain ⟨-, rfl⟩ := Prod.mk.inj (Except.ok.inj hrun)
      exact ⟨h₁, hon₁⟩
  | true =>
      cases hchild : (s₁.graph.node n).childRule with
      | none => simp [hchild] at hrun
      | some p =>
          simp only [hchild, if_true] at hrun
          obtain ⟨k, hhash, hpure⟩ := bind_eq_ok.mp hrun
          obtain ⟨-, rfl⟩ := Prod.mk.inj (Except.ok.inj hpure)
          obtain ⟨hash, deps, rfl⟩ := Hash.updateRuleHash_frame hhash
          have hpath₁ : (s₁.graph.node n).path = (s.graph.node n).path := (hon₁.node n hn).2
          have hp : O p = none := h₁.closed hnew hfresh hq (hpath₁ ▸ hpath) hchild
          exact ⟨h₁.touch (.updateRule s₁.graph p
              (f := fun x ↦ { x with hash := hash, hashDepfile := deps }) fun _ ↦ ⟨rfl, rfl, rfl⟩),
            hon₁.trans (onward_updateRule hp s₁ fun x ↦
              { x with hash := hash, hashDepfile := deps })⟩

/-! ## A node -/

/-- `updateSubGraph` does for `m` what the loop over the inputs asks for. -/
def Recurses (P : Platform ω) (w : ω) (g new : Graph) (node : NodeUpdate) : Prop :=
  ∀ O m, m ∈ new.allocated → Above new O m → NodeMerges P w g new O node m

/-- The node and its new node are generated, by the rules `r` and `q`. -/
theorem updateTarget_seen (hg : Mergeable P w g new) (hnew : Clean new) {node : NodeUpdate}
    {b : Bool} (hnode : Recurses P w g new node) (hm : Above new O m)
    (hr : O r = none) (hchild : (new.node m).childRule = some q)
    (hE : ∀ n ∈ Hash.explicitInputs (s.graph.rule r),
      (s.graph.node n).path ∈ new.paths (new.rule q).inputs ∨ n ∈ g.allocated ∧ Discarded g new n)
    (hI : ∀ n ∈ Depfile.implicitDeps (s.graph.rule r),
      (s.graph.node n).path ∉ new.paths (new.rule q).inputs ∧
        Listed P w g new (s.graph.node n).path)
    (h : Merging P w g new (openRule O r q (s.graph.rule r).inputs)
      { s with graph := s.graph.updateRule r cleared })
    (hn : n ∈ s.graph.allocated) (hpath : (s.graph.node n).path = (new.node m).path)
    (hmet : ∀ e ∈ s.originalNodes, e.1 ≠ (new.node m).path)
    (hself : (s.graph.node n).childRule = some r)
    (hrun : updateTarget P w new node { s with nodesSeen := insert n s.nodesSeen } n r q =
      .ok (b, s')) :
    Merging P w g new O s' ∧ Onward O s s' ∧ n ∈ s'.nodesSeen := by
  obtain ⟨hq, hout⟩ := (hnew.twoWay.child_eq_some m q).mp hchild
  have hmakes : new.Makes (s.graph.node n).path :=
    hpath ▸ ⟨q, hq, Graph.path_mem_paths hout⟩
  have hseen := h.see (n := n) hn (hnew.holds_of_makes hmakes)
    (iff_of_false (by
      change (s.graph.node n).childRule ≠ none
      rw [hself]
      exact Option.some_ne_none r) (not_not.mpr hmakes))
    (hpath ▸ hmet) (fun p hp ↦ by
      obtain rfl := Option.some.inj (hself.symm.trans hp)
      rw [openRule_self]
      exact Option.some_ne_none _)
  obtain ⟨h', hon⟩ := updateTarget_merges (s := { s with nodesSeen := insert n s.nodesSeen })
    hg hnew hr hq (hm.fresh hnew hchild) hE hI
    (fun x hx l ↦ hnode _ x (hnew.allocated q hq x (Or.inl hx)) (hm.open hnew hchild hx r l))
    hseen hn (hpath ▸ Graph.path_mem_paths hout) hrun
  have hstart : Onward O s { s with
      nodesSeen := insert n s.nodesSeen, graph := s.graph.updateRule r cleared } := by
    obtain ⟨hnode', -, hrule'⟩ := onward_cleared hr s
    exact ⟨hnode', Finset.subset_insert n _, hrule'⟩
  exact ⟨h', hstart.trans hon, hon.seen (Finset.mem_insert_self n _)⟩

theorem updateChild_merges (hg : Mergeable P w g new) (hnew : Clean new) {A : Allocator}
    {node : NodeUpdate} {b : Bool} (hnode : Recurses P w g new node) (hm : m ∈ new.allocated)
    (habove : Above new O m) (h : Merging P w g new O s) (hn : n ∈ s.graph.allocated)
    (hpath : (s.graph.node n).path = (new.node m).path)
    (hmet : ∀ e ∈ s.originalNodes, e.1 ≠ (new.node m).path)
    (hrun : updateChild P A w new node { s with nodesSeen := insert n s.nodesSeen } n m =
      .ok (b, s')) :
    Merging P w g new O s' ∧ Onward O s s' ∧ n ∈ s'.nodesSeen := by
  have hholds : new.Holds (s.graph.node n).path := ⟨m, hm, hpath.symm⟩
  have hmakes := hnew.makes_iff hm
  rw [← hpath] at hmakes
  rw [updateChild] at hrun
  cases hchild : (s.graph.node n).childRule with
  | none =>
      cases hnewChild : (new.node m).childRule with
      | none =>
          simp only [hchild, hnewChild] at hrun
          obtain ⟨-, rfl⟩ := Prod.mk.inj (Except.ok.inj hrun)
          have hno : ¬ new.Makes (s.graph.node n).path := by simp [hmakes, hnewChild]
          have hseen := h.see hn hholds (iff_of_true hchild hno) (hpath ▸ hmet)
            fun r hr ↦ by simp [hchild] at hr
          have hsame : SameLists s.graph { s.graph with sources := insert n s.graph.sources } :=
            ⟨fun _ ↦ ⟨rfl, rfl, rfl⟩, fun _ ↦ ⟨rfl, rfl, rfl⟩, rfl, rfl, rfl⟩
          exact ⟨hseen.touch hsame, ⟨fun x hx ↦ ⟨hx, rfl⟩, Finset.subset_insert n _,
            fun _ _ ↦ rfl⟩, Finset.mem_insert_self n _⟩
      | some q =>
          simp only [hchild, hnewChild] at hrun
          obtain ⟨k, hcreate, htarget⟩ := bind_eq_ok.mp hrun
          obtain ⟨hq, hout⟩ := (hnew.twoWay.child_eq_some m q).mp hnewChild
          obtain ⟨hr, h₁, hon₁, hrule₁, hself⟩ := h.creates hn hq
            (hpath ▸ Graph.path_mem_paths hout) hcreate rfl
          obtain ⟨hn₁, hpath₁⟩ := hon₁.node n hn
          have hcleared : (k.updateRule (A.newRule s.graph.rules) cleared) = k := by
            have heq : cleared (k.rule (A.newRule s.graph.rules)) =
                k.rule (A.newRule s.graph.rules) := by
              rw [hrule₁]
              rfl
            rw [Graph.updateRule, heq]
            simp [Graph.setRule]
          have hinputs : (k.rule (A.newRule s.graph.rules)).inputs = [] := by
            rw [hrule₁]
            rfl
          obtain ⟨h₂, hon₂, hseen⟩ := updateTarget_seen (s := { s with graph := k }) hg hnew hnode
            habove hr hnewChild (by
              intro x hx
              have hin := List.mem_of_mem_take hx
              rw [hinputs] at hin
              cases hin) (by
              intro x hx
              have hin := List.mem_of_mem_drop hx
              rw [hinputs] at hin
              cases hin) (by
              rw [hcleared, hinputs]
              exact h₁) hn₁ (hpath₁.trans hpath) hmet hself htarget
          exact ⟨h₂, hon₁.trans hon₂, hseen⟩
  | some r =>
      cases hnewChild : (new.node m).childRule with
      | none =>
          simp only [hchild, hnewChild] at hrun
          obtain ⟨k, hdelete, hpure⟩ := bind_eq_ok.mp hrun
          obtain ⟨-, rfl⟩ := Prod.mk.inj (Except.ok.inj hpure)
          have hno : ¬ new.Makes (s.graph.node n).path := by simp [hmakes, hnewChild]
          obtain ⟨h₁, hon₁, hchild₁⟩ := deleteChildRule_spec h hno hdelete
          obtain ⟨hn₁, hpath₁⟩ := hon₁.node n hn
          have hnone : (k.node n).childRule = none := (hchild₁ n).trans (if_pos rfl)
          have hseen := h₁.see (n := n) hn₁ (hpath₁ ▸ hholds)
            (iff_of_true hnone (hpath₁ ▸ hno)) (fun e he ↦ hpath₁ ▸ hpath ▸ hmet e he)
            fun p hp ↦ by simp [hnone] at hp
          obtain ⟨k', hk'⟩ : ∃ k' : Graph, k' = { GraphDependencyScan.statNode P w k n with
              sources := insert n (GraphDependencyScan.statNode P w k n).sources } := ⟨_, rfl⟩
          have hsame : SameLists k k' := by
            rw [hk']
            refine ⟨fun x ↦ ⟨?_, ?_, ?_⟩, fun _ ↦ ⟨rfl, rfl, rfl⟩, rfl, rfl, rfl⟩
            · exact Graph.proj_setNode Node.path (by rfl) x
            · exact Graph.proj_setNode Node.childRule (by rfl) x
            · exact Graph.proj_setNode Node.parentRules (by rfl) x
          have hrule : k'.rule = k.rule := by
            rw [hk']
            rfl
          rw [← hk']
          refine ⟨hseen.touch hsame, hon₁.trans ⟨fun x hx ↦ ?_, Finset.subset_insert n _,
            fun p _ ↦ congrFun hrule p⟩, Finset.mem_insert_self n _⟩
          exact ⟨hsame.allocated ▸ hx, (hsame.node x).1⟩
      | some q =>
          simp only [hchild, hnewChild] at hrun
          obtain ⟨hq, hout⟩ := (hnew.twoWay.child_eq_some m q).mp hnewChild
          have hpathq : (s.graph.node n).path ∈ new.paths (new.rule q).outputs :=
            hpath ▸ Graph.path_mem_paths hout
          have hr : O r = none := h.closed hnew (habove.fresh hnew hnewChild) hq hpathq hchild
          obtain ⟨hrules, hself⟩ := (h.woven.child n r).mp hchild
          have hshare : Shares s.graph new r q := ⟨_, Graph.path_mem_paths hself, hpathq⟩
          have hturns := h.turns r hrules hr q hq hshare
          exact updateTarget_seen hg hnew hnode habove hr hnewChild hturns.inputs
            (fun x hx ↦ ⟨hturns.implicit x hx, h.implicit r hrules hr x hx⟩)
            (h.opens hr hrules hq hshare) hn hpath hmet hchild hrun

theorem updateSubGraph_merges (hg : Mergeable P w g new) (hnew : Clean new) {A : Allocator}
    (fuel : ℕ) : Recurses P w g new (updateSubGraph P A w new fuel) := by
  induction fuel with
  | zero =>
      intro O m _ _ s n b s' _ _ _ _ hrun
      cases hrun
  | succ fuel ih =>
      intro O m hm habove s n b s' h hn hpath hmet hrun
      rw [updateSubGraph] at hrun
      split at hrun
      · rename_i hseen
        obtain ⟨-, rfl⟩ := Prod.mk.inj (Except.ok.inj hrun)
        exact ⟨h, .refl O s, hseen⟩
      · obtain ⟨⟨c, s₁⟩, hchild, hpure⟩ := bind_eq_ok.mp hrun
        obtain ⟨h₁, hon₁, hseen⟩ := updateChild_merges hg hnew ih hm habove h hn hpath hmet hchild
        obtain ⟨-, rfl⟩ := Prod.mk.inj (Except.ok.inj hpure)
        obtain ⟨hn₁, -⟩ := hon₁.node n hn
        obtain ⟨k, hk⟩ : ∃ k, k =
            if c then s₁.graph.updateNode n (·.setState .outOfDate) else s₁.graph := ⟨_, rfl⟩
        have hsame : SameLists s₁.graph k ∧ k.rule = s₁.graph.rule := by
          rw [hk]
          split
          · refine ⟨⟨fun x ↦ ⟨?_, ?_, ?_⟩, fun _ ↦ ⟨rfl, rfl, rfl⟩, rfl, rfl, rfl⟩, rfl⟩
            · exact Graph.proj_setNode Node.path (by rfl) x
            · exact Graph.proj_setNode Node.childRule (by rfl) x
            · exact Graph.proj_setNode Node.parentRules (by rfl) x
          · exact ⟨⟨fun _ ↦ ⟨rfl, rfl, rfl⟩, fun _ ↦ ⟨rfl, rfl, rfl⟩, rfl, rfl, rfl⟩, rfl⟩
        rw [← hk]
        have h₂ := h₁.touch hsame.1
        have hnodes : assignKey k.nodes (k.node n).path n = k.nodes :=
          h₂.assignKey_eq (hsame.1.allocated ▸ hn₁)
        rw [hnodes]
        refine ⟨h₂, hon₁.trans ⟨fun x hx ↦ ?_, Finset.Subset.refl _, fun p _ ↦ ?_⟩, hseen⟩
        · exact ⟨hsame.1.allocated ▸ hx, (hsame.1.node x).1⟩
        · exact congrFun hsame.2 p

/-! ## The walk over both graphs -/

/-- No rule is taken apart. -/
abbrev unopened : Opened := fun _ ↦ none

theorem above_unopened : Above new unopened m := by
  intro r q l ho
  cases ho

theorem Mergeable.merging (hg : Mergeable P w g new) :
    Merging P w g new unopened ⟨{ g with roots := ∅, sources := ∅ }, g.nodes, ∅⟩ where
  woven := by
    apply hg.woven.congr
    · exact fun n ↦ ⟨rfl, rfl, rfl⟩
    · rfl
    · rfl
    · rfl
    · exact fun r _ ↦ rfl
    · exact fun r _ ↦ .refl _
  node n hn := ⟨hn, rfl⟩
  opened r q l ho := by cases ho
  turns r hr _ q hq hshare := by
    refine ⟨hg.outputs r hr q hq hshare, fun n hn ↦ ?_, hg.implicit r hr q hq hshare⟩
    refine (hg.inputs r hr q hq hshare n hn).imp_right fun hgone ↦ ⟨?_, hgone⟩
    exact hg.woven.allocated r hr n (Or.inl (List.mem_append_left _ (List.mem_of_mem_take hn)))
  old r hr _ _ := ⟨hr, rfl, List.Subset.refl _⟩
  implicit r hr _ n hn := Or.inl ⟨r, hr, Graph.path_mem_paths hn⟩
  seen n hn := absurd hn (Finset.notMem_empty n)
  remade n hn := absurd hn (Finset.notMem_empty n)
  original := hg.woven.nodes
  met n hn := absurd hn (Finset.notMem_empty n)
  unmet n hn := Or.inl ⟨_, Lib.mem_of_lookup_eq_some (hg.woven.lookup n hn), rfl⟩

/-- Some node with the path of `m` has been seen. -/
def Covered (new : Graph) (s : Reload) (m : NodeId) : Prop :=
  ∃ n ∈ s.nodesSeen, (s.graph.node n).path = (new.node m).path

theorem Covered.onward (h : Merging P w g new O s) (hon : Onward O s s') (hm : Covered new s m) :
    Covered new s' m := by
  obtain ⟨n, hn, hpath⟩ := hm
  exact ⟨n, hon.seen hn, (hon.node n (h.seen n hn).1).2.trans hpath⟩

theorem updateRoot_merges (hg : Mergeable P w g new) (hnew : Clean new) {A : Allocator}
    (h : Merging P w g new unopened s) (hm : m ∈ new.allocated)
    (hrun : updateRoot P A w new s m = .ok s') :
    Merging P w g new unopened s' ∧ Onward unopened s s' ∧ Covered new s' m := by
  obtain ⟨⟨n, s₁⟩, hget⟩ : ∃ x, getNodeFromAll P new s m = x := ⟨_, rfl⟩
  obtain ⟨h₁, hgot⟩ := getNodeFromAll_spec h hm hget
  rw [updateRoot, hget] at hrun
  obtain ⟨⟨c, s₂⟩, hsub, hrun⟩ := bind_eq_ok.mp hrun
  obtain ⟨k, hhash, hpure⟩ := bind_eq_ok.mp hrun
  obtain ⟨h₂, hon₂, hseen⟩ := updateSubGraph_merges hg hnew new.depth unopened m hm above_unopened s₁ n
    c s₂ h₁ hgot.mem hgot.path hgot.met hsub
  have hl : k.links = s₂.graph.links := by
    split at hhash
    · obtain ⟨⟨d, k₁⟩, hupdate, hpure⟩ := bind_eq_ok.mp hhash
      obtain rfl : k₁ = k := Except.ok.inj hpure
      exact (Hash.updateNodeHash_links hupdate).1
    · exact (congrArg Graph.links (Except.ok.inj hhash)).symm
  obtain rfl := Except.ok.inj hpure
  have hsame := SameLists.of_links hl
  have hon₃ : Onward unopened s₂ { s₂ with graph := { k with roots := insert n k.roots } } :=
    ⟨fun x hx ↦ ⟨hsame.allocated.symm ▸ hx, (hsame.node x).1⟩, Finset.Subset.refl _,
      fun p hp ↦ absurd rfl hp⟩
  have hn := (hon₂.node n hgot.mem).2.trans hgot.path
  refine ⟨h₂.touch ⟨hsame.node, hsame.rule, hsame.rules, hsame.allocated, hsame.nodes⟩,
    ((hgot.onward unopened).trans hon₂).trans hon₃, n, hseen, ?_⟩
  exact (hsame.node n).1.trans hn

theorem updateRoots_merges (hg : Mergeable P w g new) (hnew : Clean new) {A : Allocator}
    (hrun : updateRoots P A w new g = .ok s) :
    Merging P w g new unopened s ∧ ∀ m ∈ new.allocated, Covered new s m := by
  have hmem : ∀ {m}, m ∈ new.roots.sort (· ≤ ·) ↔ m ∈ new.roots := Finset.mem_sort _
  obtain ⟨h, hroots⟩ := Lib.foldlM_prefix
    (fun pre t ↦ Merging P w g new unopened t ∧ ∀ m ∈ pre, Covered new t m)
    ⟨hg.merging, fun m hm ↦ absurd hm List.not_mem_nil⟩
    (fun pre m post t t' hl ⟨ht, hpre⟩ hstep ↦ by
      have hm : m ∈ new.roots := hmem.mp (by simp [hl])
      obtain ⟨ht', hon, hself⟩ := updateRoot_merges hg hnew ht ((hnew.roots m).mp hm).1 hstep
      refine ⟨ht', fun x hx ↦ ?_⟩
      rcases List.mem_append.mp hx with hx | hx
      · exact (hpre x hx).onward ht hon
      · exact List.mem_singleton.mp hx ▸ hself) hrun
  refine ⟨h, ?_⟩
  apply Links.mem_of_roots hnew.twoWay hnew.acyclic hnew.output
    (A := {m | m ∈ new.allocated}) (S := {m | Covered new s m})
  · exact fun q hq m hm ↦ hnew.allocated q hq m (Or.inr hm)
  · exact fun m hm hparents ↦ hroots m (hmem.mpr ((hnew.roots m).mpr ⟨hm, hparents⟩))
  · rintro q hq m hm ⟨n, hn, hpath⟩ x hx
    obtain ⟨hin, -, hstatus⟩ := h.seen n hn
    have hpathq : (s.graph.node n).path ∈ new.paths (new.rule q).outputs :=
      hpath ▸ Graph.path_mem_paths hm
    cases hchild : (s.graph.node n).childRule with
    | none => exact absurd ⟨q, hq, hpathq⟩ (hstatus.mp hchild)
    | some r =>
        have hout := ((h.woven.child n r).mp hchild).2
        exact (h.remade n hn r hchild rfl q hq ⟨_, Graph.path_mem_paths hout, hpathq⟩).seen _
          (Graph.path_mem_paths hx)

/-! ## The nodes that have not been met -/

/-- `k` is `g` without some of the nodes that had no parents. -/
structure Cleaned (g k : Graph) : Prop where
  woven : k.Woven fun _ ↦ []
  path : ∀ n, (k.node n).path = (g.node n).path
  node : ∀ n ∈ k.allocated, n ∈ g.allocated ∧ (k.node n).childRule = (g.node n).childRule
  rule : ∀ r ∈ k.rules, r ∈ g.rules ∧ (k.rule r).inputs = (g.rule r).inputs ∧
    (k.rule r).numImplicitDeps = (g.rule r).numImplicitDeps ∧
    (k.rule r).outputs ⊆ (g.rule r).outputs

theorem Cleaned.refl (h : g.Woven fun _ ↦ []) : Cleaned g g where
  woven := h
  path _ := rfl
  node _ hn := ⟨hn, rfl⟩
  rule _ hr := ⟨hr, rfl, rfl, List.Subset.refl _⟩

/-- The same, but for the node `n`, which is a source file without parents now. -/
structure CleanedBut (g : Graph) (n : NodeId) (l : Finset NodeId) (k : Graph) : Prop where
  woven : k.Woven fun _ ↦ []
  allocated : k.allocated = l
  parents : (k.node n).parentRules = []
  child : (k.node n).childRule = none
  path : ∀ m, (k.node m).path = (g.node m).path
  node : ∀ m ∈ l, m ≠ n → m ∈ g.allocated ∧ (k.node m).childRule = (g.node m).childRule
  rule : ∀ r ∈ k.rules, r ∈ g.rules ∧ (k.rule r).inputs = (g.rule r).inputs ∧
    (k.rule r).numImplicitDeps = (g.rule r).numImplicitDeps ∧
    (k.rule r).outputs ⊆ (g.rule r).outputs

theorem Cleaned.deleteChildRule (h : Cleaned g k) (hparents : (k.node n).parentRules = [])
    (hrun : deleteChildRule k n = .ok k') : CleanedBut g n k.allocated k' := by
  obtain ⟨r, hchild, hunmade, hwoven⟩ := deleteChildRule_woven h.woven hrun
  have hwoven := hwoven rfl
  have hsame : ∀ p, (k'.rule p).inputs = (k.rule p).inputs ∧
      (k'.rule p).numImplicitDeps = (k.rule p).numImplicitDeps ∧
      (k'.rule p).outputs ⊆ (k.rule p).outputs := by
    intro p
    by_cases hp : p = r
    · exact hp ▸ ⟨hunmade.inputs, hunmade.numImplicitDeps, hunmade.outputs⟩
    · rw [hunmade.rule p hp]
      exact ⟨rfl, rfl, List.Subset.refl _⟩
  refine ⟨hwoven, hunmade.allocated, ?_, ?_, fun m ↦ (hunmade.path m).trans (h.path m),
    fun m hm hne ↦ ⟨(h.node m hm).1, ?_⟩, fun p hp ↦ ?_⟩
  · rw [List.eq_nil_iff_forall_not_mem]
    intro p hp
    obtain ⟨hp, hin⟩ := (hwoven.parents n p).mp hp
    rw [(hsame p).1] at hin
    have hold := (h.woven.parents n p).mpr ⟨hunmade.rules p hp, hin⟩
    rw [hparents] at hold
    cases hold
  · rw [hunmade.child, if_pos rfl]
  · rw [hunmade.child, if_neg hne]
    exact (h.node m hm).2
  · obtain ⟨hr, hinputs, hnum, hout⟩ := h.rule p (hunmade.rules p hp)
    exact ⟨hr, (hsame p).1.trans hinputs, (hsame p).2.1.trans hnum,
      List.Subset.trans (hsame p).2.2 hout⟩

/-- The node is forgotten. -/
theorem CleanedBut.forget {e : String × NodeId} {l : Finset NodeId}
    (he : (g.node e.2).path = e.1) (h : CleanedBut g e.2 l k) (hmem : e.2 ∈ l) :
    Cleaned g { k with nodes := eraseKey k.nodes e.1, allocated := k.allocated.erase e.2 } where
  woven := by
    apply h.woven.removeNode (h.allocated ▸ hmem) h.parents h.child
    · rfl
    · rfl
    · rfl
    · rfl
    · rw [h.path e.2, he]
      rfl
  path := h.path
  node m hm := by
    obtain ⟨hne, hm⟩ := Finset.mem_erase.mp hm
    exact h.node m (h.allocated ▸ hm) hne
  rule := h.rule

theorem cleanNode_cleaned {e : String × NodeId} (hg : g.Woven fun _ ↦ [])
    (he : e.2 ∈ g.allocated ∧ (g.node e.2).path = e.1) (h : Cleaned g k)
    (hrun : cleanNode k e = .ok k') :
    Cleaned g k' ∧ k'.allocated = k.allocated.erase e.2 := by
  obtain ⟨u, hassert, hrun⟩ := bind_eq_ok.mp hrun
  obtain ⟨k₁, hdelete, hpure⟩ := bind_eq_ok.mp hrun
  have hparents : (k.node e.2).parentRules = [] := by simpa using assert_eq_ok.mp hassert
  rw [← Except.ok.inj hpure]
  by_cases hmem : e.2 ∈ k.allocated
  · have hbut : CleanedBut g e.2 k.allocated k₁ := by
      split at hdelete
      · rename_i hsource
        obtain rfl : k = k₁ := Except.ok.inj hdelete
        exact ⟨h.woven, rfl, hparents, by simpa [Node.isSource] using hsource, h.path,
          fun m hm _ ↦ h.node m hm, h.rule⟩
      · exact h.deleteChildRule hparents hdelete
    exact ⟨hbut.forget he.2 hmem, congrArg (·.erase e.2) hbut.allocated⟩
  · -- an entry that is there twice
    have hsource : (k.node e.2).isSource = true := by
      simp [Node.isSource, h.woven.child_allocated hmem]
    rw [if_pos hsource] at hdelete
    obtain rfl : k = k₁ := Except.ok.inj hdelete
    have hnodes : eraseKey k.nodes e.1 = k.nodes := by
      rw [eraseKey, List.filter_eq_self]
      intro x hx
      obtain ⟨hin, hpath⟩ := h.woven.nodes x hx
      refine decide_eq_true fun heq ↦ hmem ?_
      have hpath' : (g.node x.2).path = (g.node e.2).path := by
        rw [← h.path, hpath, heq, he.2]
      exact hg.path_injective (h.node x.2 hin).1 he.1 hpath' ▸ hin
    rw [hnodes, Finset.erase_eq_of_notMem hmem]
    exact ⟨h, rfl⟩

theorem cleanNodes_cleaned {l : List (String × NodeId)} (hg : g.Woven fun _ ↦ [])
    (hl : ∀ e ∈ l, e.2 ∈ g.allocated ∧ (g.node e.2).path = e.1)
    (hrun : l.foldlM cleanNode g = .ok k') :
    Cleaned g k' ∧ ∀ e ∈ l, e.2 ∉ k'.allocated := by
  refine Lib.foldlM_prefix
    (fun pre k ↦ Cleaned g k ∧ ∀ e ∈ pre, e.2 ∉ k.allocated)
    ⟨.refl hg, fun e he ↦ absurd he List.not_mem_nil⟩
    (fun pre e post k₁ k₂ heq ⟨h₁, hpre⟩ hstep ↦ ?_) hrun
  obtain ⟨h₂, hallocated⟩ := cleanNode_cleaned hg (hl e (by simp [heq])) h₁ hstep
  refine ⟨h₂, fun x hx ↦ ?_⟩
  rw [hallocated]
  rcases List.mem_append.mp hx with hx | hx
  · exact fun hin ↦ hpre x hx (Finset.mem_of_mem_erase hin)
  · rw [List.mem_singleton.mp hx]
    exact Finset.notMem_erase e.2 _

/-! ## The graph that comes out -/

/-- No rule is left that the new makefile does not have. -/
theorem Merging.shares_of_cleaned (hg : Mergeable P w g new) (h : Merging P w g new unopened s)
    (hcovered : ∀ m ∈ new.allocated, Covered new s m) (hk : Cleaned s.graph k)
    (hgone : ∀ e ∈ s.originalNodes, e.2 ∉ k.allocated) (hr : r ∈ k.rules) :
    ∃ q ∈ new.rules, Shares s.graph new r q := by
  by_contra hnone
  have hno : ∀ q ∈ new.rules, ¬ Shares s.graph new r q :=
    fun q hq hshare ↦ hnone ⟨q, hq, hshare⟩
  obtain ⟨hrules, -, -, hsub⟩ := hk.rule r hr
  have hold := h.old r hrules rfl hno
  obtain ⟨x, hx⟩ := List.exists_mem_of_ne_nil _ (hk.woven.output r hr)
  have hxk := hk.woven.allocated r hr x (Or.inr hx)
  have hxs := (hk.node x hxk).1
  have hchild := (h.woven.child x r).mpr ⟨hrules, hsub hx⟩
  have hxg : x ∈ (g.rule r).outputs := hold.outputs (hsub hx)
  have hpathg : (s.graph.node x).path = (g.node x).path :=
    (h.node x (hg.woven.allocated r hold.mem x (Or.inr hxg))).2
  -- the new makefile does not have a node for the output
  have hnot : ¬ new.Holds (s.graph.node x).path := by
    rintro ⟨m, hm, hpath⟩
    obtain ⟨n, hn, hself⟩ := hcovered m hm
    obtain ⟨hns, -, hstatus⟩ := h.seen n hn
    obtain rfl := h.woven.path_injective hns hxs (hself.trans hpath)
    have hmakes : new.Makes (s.graph.node n).path := by
      by_contra hmakes
      exact Option.some_ne_none r (hchild.symm.trans (hstatus.mpr hmakes))
    obtain ⟨q, hq, hpathq⟩ := hmakes
    exact hno q hq ⟨_, Graph.path_mem_paths (hsub hx), hpathq⟩
  rcases h.unmet x hxs with ⟨e, he, hpath⟩ | hholds | hlisted
  · obtain ⟨hes, hself⟩ := h.original e he
    obtain rfl := h.woven.path_injective hes hxs (hself.trans hpath)
    exact hgone e he hxk
  · exact hnot hholds
  · rw [hpathg] at hnot hlisted
    exact hg.gone x r ((hg.woven.child x r).mpr ⟨hold.mem, hxg⟩) hnot hlisted

/-- Whatever the reload keeps is as the new makefile has it. -/
theorem updateGraph_merges (hg : Mergeable P w g new) (hnew : Clean new) {A : Allocator}
    {order : List (String × NodeId) → List (String × NodeId)} (horder : ∀ l, (order l).Perm l)
    (hrun : updateGraph P A w new order g = .ok g') :
    g'.Woven (fun _ ↦ []) ∧ ∀ r ∈ g'.rules, ∀ n ∈ Hash.explicitInputs (g'.rule r),
      (g'.node n).childRule = none → ∃ m, (new.node m).childRule = none ∧
        (∃ q ∈ new.rules, m ∈ (new.rule q).inputs) ∧ (new.node m).path = (g'.node n).path := by
  obtain ⟨s, hroots, hclean⟩ := bind_eq_ok.mp hrun
  obtain ⟨h, hcovered⟩ := updateRoots_merges hg hnew hroots
  obtain ⟨hk, hgone⟩ := cleanNodes_cleaned h.woven
    (fun e he ↦ h.original e ((horder _).mem_iff.mp he)) hclean
  refine ⟨hk.woven, fun r hr n hn hsource ↦ ?_⟩
  obtain ⟨q, hq, hshare⟩ := h.shares_of_cleaned hg hcovered hk
    (fun e he ↦ hgone e ((horder _).mem_iff.mpr he)) hr
  obtain ⟨hrules, hinputs, hnum, -⟩ := hk.rule r hr
  have hnk := hk.woven.allocated r hr n
    (Or.inl (List.mem_append_left _ (List.mem_of_mem_take hn)))
  obtain ⟨hns, hchildn⟩ := hk.node n hnk
  have hexplicit : n ∈ Hash.explicitInputs (s.graph.rule r) := by
    rwa [Hash.explicitInputs, hinputs, hnum] at hn
  -- the rule has been remade, since one of its outputs has been seen
  have hremade : Remade new s r q := by
    have hshare' := hshare
    obtain ⟨path, hpath, hpathq⟩ := hshare'
    obtain ⟨y, hy, hself⟩ := Graph.mem_paths.mp hpath
    obtain ⟨m, hm, hpathm⟩ := Graph.mem_paths.mp hpathq
    obtain ⟨x, hx, hpathx⟩ := hcovered m (hnew.allocated q hq m (Or.inr hm))
    obtain rfl := h.woven.path_injective (h.seen x hx).1
      (h.woven.allocated r hrules y (Or.inr hy)) (hpathx.trans (hpathm.trans hself.symm))
    exact h.remade x hx r ((h.woven.child x r).mpr ⟨hrules, hy⟩) rfl q hq hshare
  have hpath := hremade.inputs n hexplicit
  obtain ⟨x, hx, hpathx⟩ := hremade.seen _ hpath
  obtain ⟨hxs, -, hstatus⟩ := h.seen x hx
  obtain rfl := h.woven.path_injective hxs hns hpathx
  have hmakes := hstatus.mp (hchildn.symm.trans hsource)
  obtain ⟨m, hm, hpathm⟩ := Graph.mem_paths.mp hpath
  refine ⟨m, ?_, ⟨q, hq, hm⟩, hpathm.trans (hk.path x).symm⟩
  cases hchild : (new.node m).childRule with
  | none => rfl
  | some p =>
      rw [← hpathm] at hmakes
      exact absurd ((hnew.makes_iff (hnew.allocated q hq m (Or.inl hm))).mpr ⟨p, hchild⟩) hmakes

end GraphReloader

end Falcon
