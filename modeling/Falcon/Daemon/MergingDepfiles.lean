import Falcon.Daemon.MergingRules

/-!
# The implicit inputs of a rule

With the depfile of `q` the rule keeps its implicit inputs, and with another one
it gets those that this one lists.  Then the rule is like `q` and is put back
among the others.
-/

namespace Falcon

open Relation Lib

namespace GraphReloader

variable {ω : Type} {P : Platform ω} {A : Allocator} {w : ω} {g new k k' : Graph}
  {s s' s₀ : Reload} {n m : NodeId} {r q : RuleId} {path : String} {O : Opened}
  {l l' I : List NodeId}

/-! ## The command and the depfile -/

theorem unlinkAll_merges (h : Merging P w g new (openRule O r q l) s)
    (hrun : l.foldlM (fun g n ↦ g.onNode n (·.removeParentRule r)) s.graph = .ok k') :
    Merging P w g new (openRule O r q []) { s with graph := k' } ∧
      Onward O s { s with graph := k' } ∧ k'.rule = s.graph.rule := by
  induction l generalizing s with
  | nil =>
      obtain rfl : s.graph = k' := Except.ok.inj hrun
      exact ⟨h, .refl O s, rfl⟩
  | cons n l ih =>
      rw [List.foldlM_cons] at hrun
      obtain ⟨k₁, hstep, hrest⟩ := bind_eq_ok.mp hrun
      obtain ⟨-, rfl⟩ := Graph.onNode_removeParentRule.mp hstep
      obtain ⟨h', honward, hrule⟩ := ih (s := { s with graph := s.graph.unlink r n }) h.unlink hrest
      exact ⟨h', (onward_unlink O s r n).trans honward, hrule⟩

/-- The rule gets an implicit input. -/
theorem Merging.link (h : Merging P w g new (openRule O r q []) s) (hr : O r = none)
    (hn : n ∈ s.graph.allocated) (hno : n ∉ (s.graph.rule r).inputs) :
    Merging P w g new (openRule O r q []) { s with graph := Depfile.linkInput s.graph r n } ∧
      Onward O s { s with graph := Depfile.linkInput s.graph r n } := by
  obtain ⟨hrules, hnodes, hallocated⟩ := Graph.linkInput_frame (g := s.graph) (r := r) (n := n)
  have hloose : loose (openRule O r q []) r = [] := loose_openRule_self
  have hpath : ∀ m, ((Depfile.linkInput s.graph r n).node m).path = (s.graph.node m).path :=
    fun m ↦ Depfile.proj_linkInput Node.path (fun _ _ ↦ rfl) n m
  have hchild : ∀ m, ((Depfile.linkInput s.graph r n).node m).childRule =
      (s.graph.node m).childRule :=
    fun m ↦ Depfile.proj_linkInput Node.childRule (fun _ _ ↦ rfl) n m
  refine ⟨?_, fun m hm ↦ ⟨hallocated ▸ hm, hpath m⟩, Finset.Subset.refl _, fun p hp ↦ ?_⟩
  · apply h.remake (h.woven.linkInput (h.opened r q _ openRule_self).1 hloose hn hno)
    · exact fun m ↦ ⟨hpath m, hchild m⟩
    · exact Graph.outputs_linkInput r r n
    · exact fun p hp ↦ Graph.linkInput_rule_ne hp n
    · exact hrules
    · exact hallocated
  · have hne : p ≠ r := fun heq ↦ hp (heq ▸ hr)
    exact Graph.linkInput_rule_ne hne n

theorem Merging.joins {dep : String} (h : Merging P w g new (openRule O r q []) s)
    (hr : O r = none) (hlisted : Listed P w g new dep)
    (hjoin : Depfile.Joins P w s.graph r dep n k') :
    Merging P w g new (openRule O r q []) { s with graph := k' } ∧
      Onward O s { s with graph := k' } ∧ (k'.node n).path = dep := by
  have hpathOf : ∀ k : Graph, ((Depfile.linkInput k r n).node n).path = (k.node n).path :=
    fun k ↦ Depfile.proj_linkInput Node.path (fun _ _ ↦ rfl) n n
  cases hjoin with
  | found hlookup hnot =>
      obtain ⟨hn, hpath⟩ := h.woven.mem_of_lookup hlookup
      obtain ⟨h', honward⟩ := h.link hr hn hnot
      exact ⟨h', honward, (hpathOf s.graph).trans hpath⟩
  | created hlookup hn =>
      obtain ⟨digest, hdigest⟩ : ∃ d, d = P.digest [dep, (P.readFile w dep).getD ""] := ⟨_, rfl⟩
      obtain ⟨k, hk⟩ : ∃ k, k = { s.graph.createNode P dep digest digest with
          nodes := s.graph.nodes ++ [(dep, n)], sources := insert n s.graph.sources } := ⟨_, rfl⟩
      have heq : { Depfile.linkInput (s.graph.createNode P dep digest digest) r n with
          nodes := s.graph.nodes ++ [(dep, n)], sources := insert n s.graph.sources } =
            Depfile.linkInput k r n := by
        rw [hk, Depfile.linkInput, Depfile.linkInput]
        split
        · rename_i hparent
          exact (if_pos hparent).symm
        · rename_i hparent
          exact (if_neg hparent).symm
      rw [← hdigest, heq]
      have hfree : n ∉ s.graph.allocated := hn ▸ P.newNode_fresh s.graph.allocated
      have hself : k.node n = { Node.create dep false (P.uninitialised s.graph.allocated) with
          hash := digest, hashDepfile := digest } := by
        rw [hk, hn]
        exact Graph.createNode_self s.graph dep digest digest
      have hold : ∀ m ∈ s.graph.allocated, k.node m = s.graph.node m := by
        intro m hm
        rw [hk]
        exact Graph.createNode_node s.graph dep digest digest hm
      have hallocated : k.allocated = insert n s.graph.allocated := by
        rw [hk, hn]
        rfl
      have h₁ : Merging P w g new (openRule O r q []) { s with graph := k } := by
        refine h.insertNode hfree (x := { Node.create dep false
          (P.uninitialised s.graph.allocated) with hash := digest, hashDepfile := digest })
          ⟨rfl, rfl⟩ hlookup (Or.inr hlisted) ?_ ?_ ?_ hallocated ?_
        · rw [hk, hn]
          rfl
        · rw [hk]
          rfl
        · rw [hk]
          rfl
        · rw [hk]
          rfl
      have hon₁ : Onward O s { s with graph := k } := by
        refine ⟨fun m hm ↦ ⟨?_, ?_⟩, Finset.Subset.refl _, fun p _ ↦ ?_⟩
        · rw [hallocated]
          exact Finset.mem_insert_of_mem hm
        · exact congrArg Node.path (hold m hm)
        · rw [hk]
          rfl
      have hno : n ∉ (k.rule r).inputs := by
        intro hin
        apply hfree
        rw [hk] at hin
        exact h.woven.allocated r (h.opened r q _ openRule_self).1 n
          (Or.inl (List.mem_append_left _ hin))
      obtain ⟨h₂, hon₂⟩ := h₁.link hr (by
        rw [hallocated]
        exact Finset.mem_insert_self n _) hno
      refine ⟨h₂, hon₁.trans hon₂, (hpathOf k).trans ?_⟩
      rw [hself]
      rfl

/-- Implicit inputs, as the depfile lists them, have been put after the inputs
`base`. -/
structure DepfileMerged (P : Platform ω) (w : ω) (g new : Graph) (O : Opened) (s₀ : Reload)
    (r q : RuleId) (base : List NodeId) (s : Reload) : Prop where
  merging : Merging P w g new (openRule O r q []) s
  onward : Onward O s₀ s
  inputs : ∃ J, (s.graph.rule r).inputs = base ++ J ∧ (s.graph.rule r).numImplicitDeps = J.length ∧
    ∀ n ∈ J, Listed P w g new (s.graph.node n).path
  outputs : (s.graph.rule r).outputs = (s₀.graph.rule r).outputs
  seen : s.nodesSeen = s₀.nodesSeen

theorem Merging.depfileMerged (h : Merging P w g new (openRule O r q []) s)
    (hnone : (s.graph.rule r).numImplicitDeps = 0) :
    DepfileMerged P w g new O s r q (s.graph.rule r).inputs s where
  merging := h
  onward := .refl O s
  inputs := ⟨[], by simp, hnone, fun n hn ↦ absurd hn List.not_mem_nil⟩
  outputs := rfl
  seen := rfl

theorem DepfileMerged.of_onward {base : List NodeId} {s₁ : Reload} (hon : Onward O s₀ s₁)
    (hout : (s₁.graph.rule r).outputs = (s₀.graph.rule r).outputs)
    (hseen : s₁.nodesSeen = s₀.nodesSeen) (h : DepfileMerged P w g new O s₁ r q base s) :
    DepfileMerged P w g new O s₀ r q base s :=
  ⟨h.merging, hon.trans h.onward, h.inputs, h.outputs.trans hout, h.seen.trans hseen⟩

/-- The hashes, the states and the counters do not matter. -/
theorem DepfileMerged.updateRule {base : List NodeId} {f : Rule → Rule} (hr : O r = none)
    (hf : ∀ x, (f x).inputs = x.inputs ∧ (f x).outputs = x.outputs ∧
      (f x).numImplicitDeps = x.numImplicitDeps)
    (h : DepfileMerged P w g new O s₀ r q base s) :
    DepfileMerged P w g new O s₀ r q base { s with graph := s.graph.updateRule r f } := by
  have hself : (s.graph.updateRule r f).rule r = f (s.graph.rule r) := by
    rw [Graph.updateRule, Graph.setRule_rule, if_pos rfl]
  obtain ⟨J, hinputs, hnum, hJ⟩ := h.inputs
  refine ⟨h.merging.touch (.updateRule s.graph r hf), h.onward.trans (onward_updateRule hr s f),
    ⟨J, ?_, ?_, hJ⟩, ?_, h.seen⟩
  · exact (congrArg Rule.inputs hself).trans ((hf _).1.trans hinputs)
  · exact (congrArg Rule.numImplicitDeps hself).trans ((hf _).2.2.trans hnum)
  · exact (congrArg Rule.outputs hself).trans ((hf _).2.1.trans h.outputs)

theorem addDependencies_merges {ins : List String} {before left base : List NodeId}
    (hr : O r = none) (hlisted : ∀ dep ∈ ins, Listed P w g new dep)
    (h : DepfileMerged P w g new O s₀ r q base s)
    (hrun : Depfile.addDependencies P w r ins (s.graph, before) = .ok (k', left)) :
    DepfileMerged P w g new O s₀ r q base { s with graph := k' } ∧ left ⊆ before := by
  induction ins generalizing s before with
  | nil =>
      obtain ⟨rfl, rfl⟩ := Prod.mk.inj (Except.ok.inj hrun)
      exact ⟨h, List.Subset.refl _⟩
  | cons dep ins ih =>
      obtain ⟨⟨n, k₁⟩, hstep, hrest⟩ := bind_eq_ok.mp hrun
      have h₁ : DepfileMerged P w g new O s₀ r q base { s with graph := k₁ } := by
        rcases Depfile.setRuleDependency_joins hstep with
          ⟨-, -, rfl⟩ | ⟨k₂, numReady, hjoin, rfl⟩
        · exact h
        · obtain ⟨hmerging, honward, hpath⟩ :=
            h.merging.joins hr (hlisted dep List.mem_cons_self) hjoin
          obtain ⟨J, hinputs, hnum, hJ⟩ := h.inputs
          have hself := hjoin.rule_self
          have h₂ : DepfileMerged P w g new O s₀ r q base { s with graph := k₂ } := by
            refine ⟨hmerging, h.onward.trans honward, ⟨J ++ [n], ?_, ?_, fun m hm ↦ ?_⟩, ?_,
              h.seen⟩
            · change (k₂.rule r).inputs = _
              rw [hself, ← List.append_assoc, ← hinputs]
              rfl
            · change (k₂.rule r).numImplicitDeps = _
              rw [hself, List.length_append, ← hnum]
              rfl
            · rcases List.mem_append.mp hm with hm | hm
              · have hmem := h.merging.woven.allocated r (h.merging.opened r q _ openRule_self).1 m
                  (Or.inl (by simp [hinputs, hm]))
                change Listed P w g new (k₂.node m).path
                rw [(honward.node m hmem).2]
                exact hJ m hm
              · rw [List.mem_singleton.mp hm]
                change Listed P w g new (k₂.node n).path
                rw [hpath]
                exact hlisted dep List.mem_cons_self
            · change (k₂.rule r).outputs = _
              rw [hself, ← h.outputs]
              rfl
          exact h₂.updateRule (f := fun x ↦ { x with numInputsReady := numReady }) hr
            fun _ ↦ ⟨rfl, rfl, rfl⟩
      obtain ⟨h', hsub⟩ := ih (s := { s with graph := k₁ })
        (fun dep' hdep ↦ hlisted dep' (List.mem_cons_of_mem dep hdep)) h₁ hrest
      exact ⟨h', fun m hm ↦ List.mem_of_mem_filter (hsub hm)⟩

/-- The depfile of a rule without implicit inputs. -/
theorem loadFromfile_merges {b : Bool} {base : List NodeId} (hr : O r = none)
    (hnone : (s.graph.rule r).numImplicitDeps = 0)
    (hdepfile : (s.graph.rule r).depfile = (new.rule q).depfile)
    (h : DepfileMerged P w g new O s₀ r q base s)
    (hrun : Depfile.loadFromfile P w s.graph r = .ok (b, k')) :
    DepfileMerged P w g new O s₀ r q base { s with graph := k' } := by
  rcases Depfile.loadFromfile_ok hrun with ⟨-, rfl, -⟩ | ⟨content, hread, -, hload⟩
  · exact h
  obtain ⟨k, hdetach, hcases⟩ := Depfile.load_ok hload
  obtain ⟨numReady, rfl⟩ := Depfile.detachImplicit_eq hdetach
  have himplicit : Depfile.implicitDeps (s.graph.rule r) = [] := by
    simp [Depfile.implicitDeps, hnone]
  have hdetached : s.graph.setRule r { s.graph.rule r with
      inputs := Hash.explicitInputs (s.graph.rule r)
      numImplicitDeps := 0
      numInputsReady := numReady } =
        s.graph.updateRule r fun x ↦ { x with numInputsReady := numReady } := by
    have hexplicit : Hash.explicitInputs (s.graph.rule r) = (s.graph.rule r).inputs := by
      simp [Hash.explicitInputs, hnone]
    rw [hexplicit, ← hnone]
    rfl
  have h₁ := h.updateRule (f := fun x ↦ { x with numInputsReady := numReady }) hr
    fun _ ↦ ⟨rfl, rfl, rfl⟩
  rw [← hdetached] at h₁
  obtain ⟨-, rfl, -⟩ | ⟨-, first, ins, k₁, left, -, hparse, hadd, hdrop⟩ := hcases
  · exact h₁
  · have hq := (h.merging.opened r q _ openRule_self).2.1
    have hlisted : ∀ dep ∈ ins, Listed P w g new dep := by
      intro dep hdep
      rw [hdepfile] at hread
      exact Or.inr ⟨q, hq, content, _, ins, hread, hparse, hdep⟩
    rw [himplicit] at hadd
    obtain ⟨h₂, hsub⟩ := addDependencies_merges hr hlisted h₁ hadd
    rw [List.subset_nil.mp hsub] at hdrop
    exact Except.ok.inj hdrop ▸ h₂

/-! ## The implicit inputs that stay -/

/-- A node that is registered under its path is not registered anew. -/
theorem Merging.assignKey_eq (h : Merging P w g new O s) (hn : n ∈ s.graph.allocated) :
    assignKey s.graph.nodes (s.graph.node n).path n = s.graph.nodes := by
  rw [assignKey, h.woven.lookup n hn, Option.isSome_some, if_pos rfl]
  refine (List.map_congr_left fun e he ↦ ?_).trans (List.map_id _)
  split
  · rename_i hpath
    obtain ⟨hmem, hself⟩ := h.woven.nodes e he
    have heq := h.woven.path_injective hmem hn (hself.trans hpath)
    exact Prod.ext hpath.symm heq.symm
  · rfl

theorem keepImplicit_merges (hr : O r = none)
    (h : Merging P w g new (openRule O r q (n :: l)) s)
    (hlisted : Listed P w g new (s.graph.node n).path) (hrun : keepImplicit r s n = .ok s') :
    Merging P w g new (openRule O r q l) s' ∧ Onward O s s' ∧ s'.nodesSeen = s.nodesSeen ∧
      ∃ numReady, s'.graph.rule r = { s.graph.rule r with
        inputs := (s.graph.rule r).inputs ++ [n], numInputsReady := numReady } := by
  have hrules := (h.opened r q _ openRule_self).1
  have hloose : loose (openRule O r q (n :: l)) r = n :: l := loose_openRule_self
  have hn : n ∈ s.graph.allocated := by
    apply h.woven.allocated r hrules n
    rw [hloose]
    exact Or.inl (List.mem_append_right _ List.mem_cons_self)
  obtain ⟨k, hpush, hpure⟩ := bind_eq_ok.mp hrun
  obtain ⟨numReady, hk⟩ := pushInput_eq hpush
  rw [h.assignKey_eq hn] at hk
  obtain rfl := Except.ok.inj hpure
  have hself : k.rule r = { s.graph.rule r with
      inputs := (s.graph.rule r).inputs ++ [n], numInputsReady := numReady } := by
    rw [hk, Graph.setRule_rule, if_pos rfl]
  have hne : ∀ p, p ≠ r → k.rule p = s.graph.rule p := by
    intro p hp
    rw [hk, Graph.setRule_rule, if_neg hp]
  have hwoven : k.Woven (loose (openRule O r q l)) := by
    apply h.woven.congr
    · intro x
      rw [hk]
      exact ⟨rfl, rfl, rfl⟩
    · rw [hk]
      rfl
    · rw [hk]
      rfl
    · rw [hk]
      rfl
    · intro p _
      by_cases hp : p = r
      · rw [hp, hself]
      · rw [hne p hp]
    · intro p _
      rw [loose_openRule, loose_openRule]
      by_cases hp : p = r
      · rw [hp, hself, Function.update_self, Function.update_self, List.append_assoc]
        exact .refl _
      · rw [hne p hp, Function.update_of_ne hp, Function.update_of_ne hp]
  have h₁ : Merging P w g new (openRule O r q l) { s with graph := k } := by
    apply h.remake hwoven
    · intro x
      rw [hk]
      exact ⟨rfl, rfl⟩
    · rw [hself]
    · exact hne
    · rw [hk]
      rfl
    · rw [hk]
      rfl
  refine ⟨?_, ⟨fun x hx ↦ ?_, Finset.Subset.refl _, fun p hp ↦ ?_⟩, rfl, numReady, hself⟩
  · exact h₁.erase _ (Or.inr hlisted)
  · change x ∈ k.allocated ∧ (k.node x).path = _
    rw [hk]
    exact ⟨hx, rfl⟩
  · exact hne p fun heq ↦ hp (heq ▸ hr)

theorem keepAllImplicit_merges (hr : O r = none)
    (h : Merging P w g new (openRule O r q l) s)
    (hlisted : ∀ n ∈ l, Listed P w g new (s.graph.node n).path)
    (hrun : l.foldlM (keepImplicit r) s = .ok s') :
    Merging P w g new (openRule O r q []) s' ∧ Onward O s s' ∧ s'.nodesSeen = s.nodesSeen ∧
      ∃ numReady, s'.graph.rule r = { s.graph.rule r with
        inputs := (s.graph.rule r).inputs ++ l, numInputsReady := numReady } := by
  induction l generalizing s with
  | nil =>
      obtain rfl : s = s' := Except.ok.inj hrun
      exact ⟨h, .refl O s, rfl, (s.graph.rule r).numInputsReady, by simp⟩
  | cons n l ih =>
      rw [List.foldlM_cons] at hrun
      obtain ⟨s₁, hstep, hrest⟩ := bind_eq_ok.mp hrun
      obtain ⟨h₁, hon₁, hseen₁, numReady₁, hself₁⟩ :=
        keepImplicit_merges hr h (hlisted n List.mem_cons_self) hstep
      have hrules := (h.opened r q _ openRule_self).1
      have hlisted₁ : ∀ m ∈ l, Listed P w g new (s₁.graph.node m).path := by
        intro m hm
        have hmem : m ∈ s.graph.allocated := by
          apply h.woven.allocated r hrules m
          rw [loose_openRule_self]
          exact Or.inl (List.mem_append_right _ (List.mem_cons_of_mem n hm))
        rw [(hon₁.node m hmem).2]
        exact hlisted m (List.mem_cons_of_mem n hm)
      obtain ⟨h₂, hon₂, hseen₂, numReady, hself₂⟩ := ih h₁ hlisted₁ hrest
      refine ⟨h₂, hon₁.trans hon₂, hseen₂.trans hseen₁, numReady, ?_⟩
      rw [hself₂, hself₁, List.append_assoc]
      rfl

theorem updateRuleDepfiles_merges {b : Bool} (hr : O r = none)
    (h : Merging P w g new (openRule O r q I) s) (hnone : (s.graph.rule r).numImplicitDeps = 0)
    (hlisted : ∀ n ∈ I, Listed P w g new (s.graph.node n).path)
    (hrun : updateRuleDepfiles P w new s r I q = .ok (b, s')) :
    DepfileMerged P w g new O s r q (s.graph.rule r).inputs s' := by
  have hrules := (h.opened r q _ openRule_self).1
  have hmem : ∀ n ∈ I, n ∈ s.graph.allocated := by
    intro n hn
    apply h.woven.allocated r hrules n
    rw [loose_openRule_self]
    exact Or.inl (List.mem_append_right _ hn)
  rw [updateRuleDepfiles] at hrun
  split at hrun
  · -- another depfile
    obtain ⟨k, hunlink, hrun⟩ := bind_eq_ok.mp hrun
    obtain ⟨⟨c, k₂⟩, hload, hpure⟩ := bind_eq_ok.mp hrun
    obtain ⟨-, rfl⟩ := Prod.mk.inj (Except.ok.inj hpure)
    obtain ⟨h₁, hon₁, hrule₁⟩ := unlinkAll_merges (O := O) h hunlink
    obtain ⟨k₁, hk₁⟩ : ∃ k₁, k₁ = k.updateRule r fun x ↦
        { x with depfile := (new.rule q).depfile } := ⟨_, rfl⟩
    rw [← hk₁] at hload
    have hself : k₁.rule r = { s.graph.rule r with depfile := (new.rule q).depfile } := by
      rw [hk₁, Graph.updateRule, Graph.setRule_rule, if_pos rfl, hrule₁]
    have h₂ : Merging P w g new (openRule O r q []) { s with graph := k₁ } := by
      rw [hk₁]
      exact h₁.touch (.updateRule k r fun _ ↦ ⟨rfl, rfl, rfl⟩)
    have hon₂ : Onward O s { s with graph := k₁ } := by
      rw [hk₁]
      exact hon₁.trans (onward_updateRule hr { s with graph := k } _)
    have hnone₂ : (k₁.rule r).numImplicitDeps = 0 := by
      rw [hself]
      exact hnone
    have hinputs₂ : (k₁.rule r).inputs = (s.graph.rule r).inputs := by rw [hself]
    have hstart := h₂.depfileMerged (O := O) hnone₂
    rw [← hinputs₂]
    apply DepfileMerged.of_onward hon₂
    · change (k₁.rule r).outputs = _
      rw [hself]
    · rfl
    · apply loadFromfile_merges hr hnone₂ _ hstart hload
      change (k₁.rule r).depfile = _
      rw [hself]
  · -- the same depfile
    obtain ⟨s₁, hkeep, hpure⟩ := bind_eq_ok.mp hrun
    obtain ⟨-, rfl⟩ := Prod.mk.inj (Except.ok.inj hpure)
    obtain ⟨h₁, hon₁, hseen₁, numReady, hrule₁⟩ := keepAllImplicit_merges hr h hlisted hkeep
    obtain ⟨k, hk⟩ : ∃ k, k = s₁.graph.updateRule r fun x ↦
        { x with numImplicitDeps := I.length } := ⟨_, rfl⟩
    have hself : k.rule r = { s₁.graph.rule r with numImplicitDeps := I.length } := by
      rw [hk, Graph.updateRule, Graph.setRule_rule, if_pos rfl]
    have hne : ∀ p, p ≠ r → k.rule p = s₁.graph.rule p := by
      intro p hp
      rw [hk, Graph.updateRule, Graph.setRule_rule, if_neg hp]
    have hwoven : k.Woven (loose (openRule O r q [])) := by
      apply h₁.woven.congr
      · intro x
        rw [hk]
        exact ⟨rfl, rfl, rfl⟩
      · rw [hk]
        rfl
      · rw [hk]
        rfl
      · rw [hk]
        rfl
      · intro p _
        rw [hk]
        exact Graph.proj_setRule Rule.outputs (by rfl) p
      · intro p _
        rw [hk]
        exact List.Perm.of_eq (congrArg (· ++ _) (Graph.proj_setRule Rule.inputs (by rfl) p))
    have h₂ : Merging P w g new (openRule O r q []) { s₁ with graph := k } := by
      apply h₁.remake hwoven
      · intro x
        rw [hk]
        exact ⟨rfl, rfl⟩
      · rw [hself]
      · exact hne
      · rw [hk]
        rfl
      · rw [hk]
        rfl
    rw [← hk]
    refine ⟨h₂, ?_, ⟨I, ?_, ?_, fun n hn ↦ ?_⟩, ?_, hseen₁⟩
    · rw [hk]
      exact hon₁.trans (onward_updateRule hr s₁ _)
    · change (k.rule r).inputs = _
      rw [hself, hrule₁]
    · change (k.rule r).numImplicitDeps = _
      rw [hself]
    · change Listed P w g new (k.node n).path
      rw [hk]
      change Listed P w g new (s₁.graph.node n).path
      rw [(hon₁.node n (hmem n hn)).2]
      exact hlisted n hn
    · change (k.rule r).outputs = _
      rw [hself, hrule₁]

/-! ## The whole rule -/

/-- A rule that is made up like `q` is put back among the others. -/
theorem Merging.close (hnew : Clean new) {J base : List NodeId} (hr : O r = none)
    (h : Merging P w g new (openRule O r q []) s)
    (houtputs : s.graph.paths (s.graph.rule r).outputs = new.paths (new.rule q).outputs)
    (hinputs : (s.graph.rule r).inputs = base ++ J)
    (hnum : (s.graph.rule r).numImplicitDeps = J.length)
    (hbase : s.graph.paths base = new.paths (new.rule q).inputs)
    (hseen : ∀ n ∈ base, n ∈ s.nodesSeen)
    (hlisted : ∀ n ∈ J, Listed P w g new (s.graph.node n).path) : Merging P w g new O s := by
  obtain ⟨hrules, hq, -⟩ := h.opened r q _ openRule_self
  have hloose : loose (openRule O r q []) = loose O := by
    rw [loose_openRule, ← loose_none hr, Function.update_eq_self]
  have hexplicit : Hash.explicitInputs (s.graph.rule r) = base := by
    simp [Hash.explicitInputs, hinputs, hnum]
  have himplicit : Depfile.implicitDeps (s.graph.rule r) = J := by
    simp [Depfile.implicitDeps, hinputs, hnum]
  have hmem : ∀ n ∈ base ++ J, n ∈ s.graph.allocated := by
    intro n hn
    rw [← hinputs] at hn
    exact h.woven.allocated r hrules n (Or.inl (List.mem_append_left _ hn))
  have hunique : ∀ q' ∈ new.rules, Shares s.graph new r q' → q' = q := by
    rintro q' hq' ⟨path, hpath, hpath'⟩
    rw [houtputs] at hpath
    exact hnew.rule_unique hq' hq hpath' hpath
  have hopen : ∀ {p}, p ≠ r → (openRule O r q [] p = none ↔ O p = none) :=
    fun hp ↦ by rw [openRule_ne hp]
  constructor
  · exact hloose ▸ h.woven
  · exact h.node
  · intro p q' l ho
    have hp : p ≠ r := by
      rintro rfl
      rw [hr] at ho
      cases ho
    exact h.opened p q' l ((openRule_ne hp).trans ho)
  · intro p hp ho q' hq' hshare
    by_cases heq : p = r
    · subst heq
      obtain rfl := hunique q' hq' hshare
      refine ⟨fun path ↦ ?_, fun n hn ↦ ?_, fun n hn hin ↦ ?_⟩
      · rw [houtputs]
      · rw [hexplicit] at hn
        rw [← hbase]
        exact Or.inl (Graph.path_mem_paths hn)
      · rw [himplicit] at hn
        rw [← hbase] at hin
        obtain ⟨m, hm, hpath⟩ := Graph.mem_paths.mp hin
        obtain rfl := h.woven.path_injective (hmem m (List.mem_append_left J hm))
          (hmem n (List.mem_append_right base hn)) hpath
        have hnodup := h.woven.inputs_nodup p hrules
        rw [hinputs] at hnodup
        exact List.disjoint_of_nodup_append hnodup.of_append_left hm hn
    · exact h.turns p hp ((hopen heq).mpr ho) q' hq' hshare
  · intro p hp ho hno
    by_cases heq : p = r
    · subst heq
      obtain ⟨o, hout⟩ := List.exists_mem_of_ne_nil _ (h.woven.output p hp)
      refine absurd ⟨_, Graph.path_mem_paths hout, ?_⟩ (hno q hq)
      rw [← houtputs]
      exact Graph.path_mem_paths hout
    · exact h.old p hp ((hopen heq).mpr ho) hno
  · intro p hp ho n hn
    by_cases heq : p = r
    · subst heq
      rw [himplicit] at hn
      exact hlisted n hn
    · exact h.implicit p hp ((hopen heq).mpr ho) n hn
  · exact h.seen
  · intro n hn p hchild ho q' hq' hshare
    by_cases heq : p = r
    · subst heq
      obtain rfl := hunique q' hq' hshare
      refine ⟨fun x hx ↦ ?_, fun path hpath ↦ ?_⟩
      · rw [hexplicit] at hx
        rw [← hbase]
        exact Graph.path_mem_paths hx
      · rw [← hbase] at hpath
        obtain ⟨x, hx, hself⟩ := Graph.mem_paths.mp hpath
        exact ⟨x, hseen x hx, hself⟩
    · exact h.remade n hn p hchild ((hopen heq).mpr ho) q' hq' hshare
  · exact h.original
  · exact h.met
  · exact h.unmet

theorem updateRuleCommand_eq (new : Graph) (s : Reload) (r q : RuleId) :
    ∃ command, (updateRuleCommand new s r q).2 =
      { s with graph := s.graph.updateRule r fun x ↦ { x with command := command } } := by
  rw [updateRuleCommand]
  split
  · exact ⟨(new.rule q).command, rfl⟩
  · refine ⟨(s.graph.rule r).command, ?_⟩
    simp [Graph.updateRule, Graph.setRule]

/-- The rule with its inputs taken off. -/
def cleared (x : Rule) : Rule := { x with inputs := [], numInputsReady := 0, numImplicitDeps := 0 }

/-- The state after `updateSubGraphRule` has been run on `s`. -/
theorem updateSubGraphRule_ok {node : NodeUpdate} {b : Bool}
    (hrun : updateSubGraphRule P w new node s r q = .ok (b, s')) :
    ∃ b₁ s₁ b₂ s₂ command b₄ s₄ state,
      updateRuleInputs P w new node { s with graph := s.graph.updateRule r cleared } r
        (Hash.explicitInputs (s.graph.rule r)) q = .ok (b₁, s₁) ∧
      updateRuleOutputs P new s₁ r q = .ok (b₂, s₂) ∧
      updateRuleDepfiles P w new
        { s₂ with graph := s₂.graph.updateRule r fun x ↦ { x with command := command } } r
        (Depfile.implicitDeps (s.graph.rule r)) q = .ok (b₄, s₄) ∧
      s' = { s₄ with graph := s₄.graph.updateRule r fun x ↦ { x with state := state } } := by
  obtain ⟨⟨b₁, s₁⟩, hinputs, hrun⟩ := bind_eq_ok.mp hrun
  obtain ⟨⟨b₂, s₂⟩, houtputs, hrun⟩ := bind_eq_ok.mp hrun
  obtain ⟨⟨b₄, s₄⟩, hdepfile, hpure⟩ := bind_eq_ok.mp hrun
  obtain ⟨command, hcommand⟩ := updateRuleCommand_eq new s₂ r q
  have hdepfile' : updateRuleDepfiles P w new (updateRuleCommand new s₂ r q).2 r
      (Depfile.implicitDeps (s.graph.rule r)) q = .ok (b₄, s₄) := hdepfile
  rw [hcommand] at hdepfile'
  obtain ⟨-, hs'⟩ := Prod.mk.inj (Except.ok.inj hpure)
  refine ⟨b₁, s₁, b₂, s₂, command, b₄, s₄, (s'.graph.rule r).state, hinputs, houtputs, hdepfile',
    ?_⟩
  rw [← hs']
  split
  · simp [Graph.updateRule, Graph.setRule, Rule.setState]
  · simp [Graph.updateRule, Graph.setRule]

theorem updateSubGraphRule_merges (hg : Mergeable P w g new) (hnew : Clean new)
    {node : NodeUpdate} {b : Bool} (hr : O r = none) (hq : q ∈ new.rules)
    (hfresh : ∀ p q' l', O p = some (q', l') → q' ≠ q)
    (hE : ∀ n ∈ Hash.explicitInputs (s.graph.rule r),
      (s.graph.node n).path ∈ new.paths (new.rule q).inputs ∨ n ∈ g.allocated ∧ Discarded g new n)
    (hI : ∀ n ∈ Depfile.implicitDeps (s.graph.rule r),
      (s.graph.node n).path ∉ new.paths (new.rule q).inputs ∧
        Listed P w g new (s.graph.node n).path)
    (hspec : ∀ m ∈ (new.rule q).inputs, ∀ l, NodeMerges P w g new (openRule O r q l) node m)
    (h : Merging P w g new (openRule O r q (s.graph.rule r).inputs)
      { s with graph := s.graph.updateRule r cleared })
    (hrun : updateSubGraphRule P w new node s r q = .ok (b, s')) :
    Merging P w g new O s' ∧ Onward O { s with graph := s.graph.updateRule r cleared } s' := by
  obtain ⟨b₁, s₁, b₂, s₂, command, b₄, s₄, state, hinputs, houtputs, hdepfile, rfl⟩ :=
    updateSubGraphRule_ok hrun
  have hsplit : Hash.explicitInputs (s.graph.rule r) ++ Depfile.implicitDeps (s.graph.rule r) =
      (s.graph.rule r).inputs := List.take_append_drop _ _
  have hmem : ∀ n ∈ (s.graph.rule r).inputs, n ∈ s.graph.allocated := by
    intro n hn
    apply h.woven.allocated r (h.opened r q _ openRule_self).1 n
    rw [loose_openRule_self]
    exact Or.inl (List.mem_append_right _ hn)
  have hcleared : (s.graph.updateRule r cleared).rule r = cleared (s.graph.rule r) := by
    rw [Graph.updateRule, Graph.setRule_rule, if_pos rfl]
  have hstart := h
  rw [← hsplit] at hstart
  obtain ⟨hreplaced, hrest⟩ := updateRuleInputs_merges
    (s := { s with graph := s.graph.updateRule r cleared }) hg hnew hr hq hE
    (fun n hn ↦ (hI n hn).1) hspec hstart (congrArg Rule.inputs hcleared) hinputs
  obtain ⟨h₂, hon₂, ⟨outputs, hrule₂⟩, hpaths₂, hseen₂⟩ :=
    updateRuleOutputs_merges hnew hr hfresh hreplaced.merging houtputs
  -- the command
  obtain ⟨s₃, hs₃⟩ : ∃ s₃ : Reload, s₃ = { s₂ with graph := s₂.graph.updateRule r fun x ↦
      { x with command := command } } := ⟨_, rfl⟩
  rw [← hs₃] at hdepfile
  have hrule₃ : s₃.graph.rule r = { s₁.graph.rule r with
      outputs := outputs, command := command } := by
    rw [hs₃, Graph.updateRule, Graph.setRule_rule, if_pos rfl, hrule₂]
  have hnode₃ : s₃.graph.node = s₂.graph.node := by
    rw [hs₃]
    rfl
  have h₃ : Merging P w g new (openRule O r q (Depfile.implicitDeps (s.graph.rule r))) s₃ := by
    rw [hs₃]
    exact h₂.touch (.updateRule s₂.graph r fun _ ↦ ⟨rfl, rfl, rfl⟩)
  have hon₃ : Onward O { s with graph := s.graph.updateRule r cleared } s₃ := by
    rw [hs₃]
    exact (hreplaced.onward.trans hon₂).trans (onward_updateRule hr s₂ _)
  have hnone₃ : (s₃.graph.rule r).numImplicitDeps = 0 := by
    rw [hrule₃]
    exact hrest.2.2.trans (congrArg Rule.numImplicitDeps hcleared)
  have hlisted₃ : ∀ n ∈ Depfile.implicitDeps (s.graph.rule r),
      Listed P w g new (s₃.graph.node n).path := by
    intro n hn
    rw [(hon₃.node n (hmem n (List.mem_of_mem_drop hn))).2]
    exact (hI n hn).2
  -- the depfile
  have h₄ := (updateRuleDepfiles_merges hr h₃ hnone₃ hlisted₃ hdepfile).updateRule
    (f := fun x ↦ { x with state := state }) hr fun _ ↦ ⟨rfl, rfl, rfl⟩
  obtain ⟨J, hJ, hnum, hlisted⟩ := h₄.inputs
  have hpaths : ∀ l, (∀ n ∈ l, n ∈ s₃.graph.allocated) →
      (s₄.graph.updateRule r fun x ↦ { x with state := state }).paths l = s₃.graph.paths l :=
    fun l hl ↦ Graph.paths_congr fun n hn ↦ (h₄.onward.node n (hl n hn)).2
  have hrules₃ := (h₃.opened r q _ openRule_self).1
  refine ⟨h₄.merging.close hnew hr ?_ hJ hnum ?_ (fun n hn ↦ ?_) hlisted, hon₃.trans h₄.onward⟩
  · rw [h₄.outputs, hpaths _ fun n hn ↦ h₃.woven.allocated r hrules₃ n (Or.inr hn), ← hpaths₂,
      hrule₃, hrule₂, Graph.paths, Graph.paths, hnode₃]
  · rw [hpaths _ fun n hn ↦
      h₃.woven.allocated r hrules₃ n (Or.inl (List.mem_append_left _ hn)), ← hreplaced.inputs,
      hrule₃]
    refine Graph.paths_congr fun n hn ↦ ?_
    rw [hnode₃]
    refine (hon₂.node n ?_).2
    exact hreplaced.merging.woven.allocated r (hreplaced.merging.opened r q _ openRule_self).1 n
      (Or.inl (List.mem_append_left _ hn))
  · rw [hrule₃] at hn
    rw [h₄.seen, hs₃]
    change n ∈ s₂.nodesSeen
    rw [hseen₂]
    exact hreplaced.seen n hn

end GraphReloader

end Falcon
