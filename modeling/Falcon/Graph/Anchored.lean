import Falcon.Graph.Loads
import Falcon.Build.Plan

/-!
# Dirty nodes and their rules

A dirty node with a child rule should have a dirty rule.  This module shows
that marking keeps it so for every node but the one it starts from, and that
rehashing keeps it so whatever depfiles are restored on the way: loading a
depfile creates source files, deletes source files and moves parents, but it
touches neither a state nor a child rule.
-/

namespace Falcon

namespace Graph

/-- Every output points back to its rule, and dirty outputs have dirty rules. -/
structure Anchored (g : Graph) : Prop where
  parents : ∀ n, ∀ r ∈ (g.node n).parentRules, r ∈ g.rules
  outputs : ∀ r ∈ g.rules, ∀ o ∈ (g.rule r).outputs,
    (g.node o).childRule = some r ∧ o ∈ g.allocated
  dirty : g.DirtyHasDirtyRule

theorem Anchored.of_links {g g' : Graph} (h : g.Anchored) (hl : g'.links = g.links)
    (hd : g'.DirtyHasDirtyRule) : g'.Anchored where
  parents n r hr := by
    rw [parentRules_of_links hl] at hr
    rw [rules_of_links hl]
    exact h.parents n r hr
  outputs r hr o ho := by
    rw [rules_of_links hl] at hr
    rw [outputs_of_links hl] at ho
    have hallocated : g'.allocated = g.allocated := congrArg Links.allocated hl
    rw [childRule_of_links hl, hallocated]
    exact h.outputs r hr o ho
  dirty := hd

theorem Anchored.of_links_marks {g g' : Graph} (h : g.Anchored) (hl : g'.links = g.links)
    (hm : g'.marks = g.marks) : g'.Anchored := by
  refine h.of_links hl fun n r hn hd ↦ ?_
  rw [childRule_of_links hl] at hn
  rw [nodeDirty_of_marks hm] at hd
  rw [ruleDirty_of_marks hm]
  exact h.dirty n r hn hd

/-- A node may change in everything but its child rule and its state. -/
theorem Anchored.setNode {g : Graph} (h : g.Anchored) {n : NodeId} {x : Node}
    (hchild : x.childRule = (g.node n).childRule) (hstate : x.isDirty = (g.node n).isDirty)
    (hparents : ∀ r ∈ x.parentRules, r ∈ g.rules) : (g.setNode n x).Anchored where
  parents m r hr := by
    rw [setNode_node] at hr
    split at hr
    · exact hparents r hr
    · exact h.parents m r hr
  outputs r hr o ho := by
    rw [proj_setNode Node.childRule hchild]
    exact h.outputs r hr o ho
  dirty m r hm hd := by
    rw [proj_setNode Node.childRule hchild] at hm
    rw [proj_setNode Node.isDirty hstate] at hd
    exact h.dirty m r hm hd

/-- A rule may change in everything but its outputs and its state. -/
theorem Anchored.setRule {g : Graph} (h : g.Anchored) {r : RuleId} {x : Rule}
    (houtputs : x.outputs = (g.rule r).outputs) (hstate : x.isDirty = (g.rule r).isDirty) :
    (g.setRule r x).Anchored where
  parents := h.parents
  outputs q hq o ho := by
    rw [proj_setRule Rule.outputs houtputs] at ho
    exact h.outputs q hq o ho
  dirty m q hm hd := by
    rw [proj_setRule Rule.isDirty hstate]
    exact h.dirty m q hm hd

theorem Anchored.markInputReady {g g' : Graph} (h : g.Anchored) {r : RuleId}
    (hrun : g.onRule r Rule.markInputReady = .ok g') : g'.Anchored ∧ g'.rules = g.rules := by
  obtain ⟨numReady, rfl⟩ := Depfile.onRule_ready (fun _ _ ↦ Depfile.markInputReady_eq) hrun
  exact ⟨h.setRule rfl rfl, rfl⟩

theorem Anchored.markInputDirty {g g' : Graph} (h : g.Anchored) {r : RuleId}
    (hrun : g.onRule r Rule.markInputDirty = .ok g') : g'.Anchored ∧ g'.rules = g.rules := by
  obtain ⟨numReady, rfl⟩ := Depfile.onRule_ready (fun _ _ ↦ Depfile.markInputDirty_eq) hrun
  exact ⟨h.setRule rfl rfl, rfl⟩

theorem Anchored.addNode {g g' : Graph} (h : g.Anchored) {n : NodeId}
    (hrun : g.addNode n = .ok g') : g'.Anchored ∧ g'.rules = g.rules := by
  rw [Graph.addNode] at hrun
  split at hrun
  · cases hrun
  · rw [← Except.ok.inj hrun]
    exact ⟨⟨h.parents, h.outputs, h.dirty⟩, rfl⟩

/-- Deleting a source file. -/
theorem Anchored.deleteNode {g : Graph} (h : g.Anchored) {n : NodeId}
    (hsrc : (g.node n).isSource = true) : (g.deleteNode n).Anchored where
  parents := h.parents
  outputs r hr o ho := by
    obtain ⟨hchild, hallocated⟩ := h.outputs r hr o ho
    refine ⟨hchild, Finset.mem_erase.mpr ⟨?_, hallocated⟩⟩
    rintro rfl
    rw [Node.isSource, hchild] at hsrc
    cases hsrc
  dirty := h.dirty

/-- A new source file at an address that was free. -/
theorem Anchored.newNode {g : Graph} (h : g.Anchored) {n : NodeId} (hn : n ∉ g.allocated)
    {x : Node} (hchild : x.childRule = none) (hparents : x.parentRules = []) :
    ({ g with allocated := insert n g.allocated }.setNode n x).Anchored where
  parents m r hr := by
    rw [setNode_node] at hr
    split at hr
    · rw [hparents] at hr
      cases hr
    · exact h.parents m r hr
  outputs r hr o ho := by
    obtain ⟨hc, ha⟩ := h.outputs r hr o ho
    have hne : o ≠ n := fun heq ↦ hn (heq ▸ ha)
    rw [setNode_node, if_neg hne]
    exact ⟨hc, Finset.mem_insert_of_mem ha⟩
  dirty m r hm hd := by
    rw [setNode_node] at hm hd
    split at hm
    · rw [hchild] at hm
      cases hm
    · rename_i hne
      rw [if_neg hne] at hd
      exact h.dirty m r hm hd

/-! ## Marking -/

/-- Dirty outputs have dirty rules, except for the rules of `S`: their outputs
are being marked and they are marked afterwards. -/
def DirtyBut (g : Graph) (S : Set RuleId) : Prop :=
  ∀ n r, (g.node n).childRule = some r → (g.node n).isDirty = true →
    (g.rule r).isDirty = true ∨ r ∈ S

theorem DirtyBut.mono {g : Graph} {S S' : Set RuleId} (h : g.DirtyBut S) (hsub : S ⊆ S') :
    g.DirtyBut S' :=
  fun n r hn hd ↦ (h n r hn hd).imp id fun hr ↦ hsub hr

theorem DirtyBut.setRuleState {g : Graph} {S : Set RuleId} {r : RuleId}
    (h : g.DirtyBut (insert r S)) : (g.updateRule r (·.setState .outOfDate)).DirtyBut S := by
  intro n q hn hd
  have hmarked := g.marked_setRuleState r
  rw [hmarked.rule]
  rcases h n q hn hd with hq | hq
  · exact Or.inl (Or.inr hq)
  · rcases hq with rfl | hq
    · exact Or.inl (Or.inl rfl)
    · exact Or.inr hq

theorem DirtyBut.markInputDirty {g g' : Graph} {S : Set RuleId} {r : RuleId}
    (h : g.DirtyBut S) (hrun : g.onRule r Rule.markInputDirty = .ok g') :
    g'.links = g.links ∧ g'.DirtyBut S := by
  by_cases hpos : 0 < (g.rule r).numInputsReady
  · simp only [onRule, Rule.markInputDirty, hpos, decide_true, assert_true, Lib.except_ok_bind,
      Lib.except_pure, Except.map, Except.ok.injEq] at hrun
    subst g'
    refine ⟨links_setRule rfl rfl rfl rfl rfl, fun n q hn hd ↦ ?_⟩
    rw [proj_setRule Rule.isDirty (by rfl)]
    exact h n q hn hd
  · simp [onRule, Rule.markInputDirty, hpos, assert, Except.map] at hrun

section Marking

variable {L : Links} (hparents : ∀ n, ∀ r ∈ L.parents n, r ∈ L.rules)
  (houtputs : ∀ r ∈ L.rules, ∀ o ∈ L.outputs r, L.child o = some r)
include hparents houtputs

/-- `Node::markDirty` leaves at most the child rule of its own node behind. -/
theorem markDirty_dirtyBut {fuel : ℕ} {g g' : Graph} {n : NodeId} {S : Set RuleId}
    (hl : g.links = L) (h : g.DirtyBut S) (hrun : Node.markDirty fuel g n = .ok g') :
    g'.links = L ∧ g'.DirtyBut (S ∪ {r | L.child n = some r}) := by
  induction fuel generalizing g n S g' with
  | zero => cases hrun
  | succ fuel ih =>
      obtain ⟨g₁, hloop, hpure⟩ := Lib.bind_eq_ok.mp hrun
      have h₁ : g₁.links = L ∧ g₁.DirtyBut S := by
        refine Lib.foldlM_invariant (fun k : Graph ↦ k.links = L ∧ k.DirtyBut S) ?_ hloop ⟨hl, h⟩
        intro r hr k k' hstep ⟨hkl, hk⟩
        have hrules : r ∈ L.rules := hparents n r (hl ▸ hr)
        obtain ⟨k₁, hrule, hcount⟩ := Lib.bind_eq_ok.mp hstep
        obtain ⟨k₂, houts, hset⟩ := Lib.bind_eq_ok.mp hrule
        -- The rule is pending while its outputs are marked one after the other.
        have h₂ : k₂.links = L ∧ k₂.DirtyBut (insert r S) := by
          refine Lib.foldlM_invariant
            (fun k : Graph ↦ k.links = L ∧ k.DirtyBut (insert r S)) ?_ houts
            ⟨hkl, hk.mono (Set.subset_insert r S)⟩
          intro o ho j j' hmark ⟨hjl, hj⟩
          have hchild : L.child o = some r := houtputs r hrules o (hkl ▸ ho)
          obtain ⟨hl', hj'⟩ := ih hjl hj hmark
          refine ⟨hl', hj'.mono ?_⟩
          rintro q (hq | hq)
          · exact hq
          · rw [Set.mem_ofPred_eq, hchild, Option.some.injEq] at hq
            exact Or.inl hq.symm
        rw [← Except.ok.inj hset] at hcount
        have h₃ := (k₂.marked_setRuleState r).links
        split at hcount
        · obtain ⟨hl', hk'⟩ := h₂.2.setRuleState.markInputDirty hcount
          exact ⟨hl'.trans (h₃.trans h₂.1), hk'⟩
        · rw [← Except.ok.inj hcount]
          exact ⟨h₃.trans h₂.1, h₂.2.setRuleState⟩
      rw [← Except.ok.inj hpure]
      have hset := g₁.marked_setNodeState n
      refine ⟨hset.links.trans h₁.1, fun m r hm hd ↦ ?_⟩
      rw [childRule_of_links hset.links] at hm
      rw [hset.node] at hd
      rcases hd with rfl | hd
      · right
        right
        change L.child m = some r
        rw [← h₁.1]
        exact hm
      · exact (h₁.2 m r hm hd).imp id Or.inl

end Marking

/-- `Node::markDirty` never makes a rule up to date. -/
theorem markDirty_ruleDirty {fuel : ℕ} {g g' : Graph} {n : NodeId} {q : RuleId}
    (h : (g.rule q).isDirty = true) (hrun : Node.markDirty fuel g n = .ok g') :
    (g'.rule q).isDirty = true := by
  induction fuel generalizing g n g' with
  | zero => cases hrun
  | succ fuel ih =>
      obtain ⟨g₁, hloop, hpure⟩ := Lib.bind_eq_ok.mp hrun
      rw [← Except.ok.inj hpure, (g₁.marked_setNodeState n).rule]
      right
      refine Lib.foldlM_invariant (fun k : Graph ↦ (k.rule q).isDirty = true) ?_ hloop h
      intro r _ k k' hstep hk
      obtain ⟨k₁, hrule, hcount⟩ := Lib.bind_eq_ok.mp hstep
      obtain ⟨k₂, houts, hset⟩ := Lib.bind_eq_ok.mp hrule
      have h₂ : (k₂.rule q).isDirty = true :=
        Lib.foldlM_invariant (fun k : Graph ↦ (k.rule q).isDirty = true)
          (fun o _ j j' hmark hj ↦ ih hj hmark) houts hk
      have h₁ : (k₁.rule q).isDirty = true := by
        rw [← Except.ok.inj hset, (k₂.marked_setRuleState r).rule]
        exact Or.inr h₂
      split at hcount
      · by_cases hpos : 0 < (k₁.rule r).numInputsReady
        · simp only [onRule, Rule.markInputDirty, hpos, decide_true, assert_true,
            Lib.except_ok_bind, Lib.except_pure, Except.map, Except.ok.injEq] at hcount
          rw [← hcount, proj_setRule Rule.isDirty (by rfl)]
          exact h₁
        · simp [onRule, Rule.markInputDirty, hpos, assert, Except.map] at hcount
      · rw [← Except.ok.inj hcount]
        exact h₁

theorem Anchored.markDirty {fuel : ℕ} {g g' : Graph} {n : NodeId} (h : g.Anchored)
    (hrun : Node.markDirty fuel g n = .ok g') :
    g'.links = g.links ∧ g'.DirtyBut {r | (g.node n).childRule = some r} := by
  have hbut : g.DirtyBut ∅ := fun m r hm hd ↦ Or.inl (h.dirty m r hm hd)
  obtain ⟨hl, hd⟩ := markDirty_dirtyBut h.parents (fun r hr o ho ↦ (h.outputs r hr o ho).1) rfl
    hbut hrun
  exact ⟨hl, hd.mono (Set.empty_union _).subset⟩

end Graph

namespace Depfile

open Graph

variable {ω : Type} {P : Platform ω} {w : ω} {g g' : Graph} {r : RuleId}

/-- The graph is anchored and still has the rules `R`. -/
def Keeps (R : List RuleId) (g : Graph) : Prop := g.Anchored ∧ g.rules = R

variable {R : List RuleId}

theorem linkInput_keeps (h : Keeps R g) (hr : r ∈ R) (n : NodeId) :
    Keeps R (linkInput g r n) := by
  have h₁ : Keeps R (g.updateRule r (·.addImplicitInput n)) := ⟨h.1.setRule rfl rfl, h.2⟩
  rw [linkInput]
  generalize g.updateRule r (·.addImplicitInput n) = g₁ at h₁
  split
  · exact h₁
  · refine ⟨h₁.1.setNode rfl rfl fun q hq ↦ ?_, h₁.2⟩
    rcases List.mem_append.mp hq with hq | hq
    · exact h₁.1.parents n q hq
    · rw [List.mem_singleton.mp hq, h₁.2]
      exact hr

theorem countInput_keeps {n : NodeId} (h : Keeps R g) (hrun : countInput g r n = .ok g') :
    Keeps R g' := by
  rw [countInput] at hrun
  split at hrun
  · obtain ⟨hA, hR⟩ := h.1.markInputDirty hrun
    exact ⟨hA, hR.trans h.2⟩
  · obtain ⟨hA, hR⟩ := h.1.markInputReady hrun
    exact ⟨hA, hR.trans h.2⟩

theorem attach_keeps {n : NodeId} {isNew : Bool} (h : Keeps R g) (hr : r ∈ R)
    (hrun : attach g r n isNew = .ok g') : Keeps R g' := by
  obtain ⟨g₁, hadd, hcount⟩ := Lib.bind_eq_ok.mp hrun
  have hlink := linkInput_keeps h hr n
  have h₁ : Keeps R g₁ := by
    cases isNew with
    | true =>
        obtain ⟨hA, hR⟩ := hlink.1.addNode hadd
        exact ⟨hA, hR.trans hlink.2⟩
    | false => exact Except.ok.inj hadd ▸ hlink
  exact countInput_keeps h₁ hcount

theorem setRuleDependency_keeps {dep : String} {n : NodeId} (h : Keeps R g) (hr : r ∈ R)
    (hrun : setRuleDependency P w g r dep = .ok (n, g')) : Keeps R g' := by
  rcases setRuleDependency_ok hrun with
    ⟨-, rfl, hash, deps, hattach⟩ | ⟨-, -, rfl⟩ | ⟨-, -, hattach⟩
  · have hnew : Keeps R (g.createNode P dep hash deps) :=
      ⟨h.1.newNode (P.newNode_fresh g.allocated) rfl rfl, h.2⟩
    exact attach_keeps hnew hr hattach
  · exact h
  · exact attach_keeps h hr hattach

theorem detachImplicit_keeps (h : Keeps R g) (hrun : detachImplicit g r = .ok g') :
    Keeps R g' := by
  obtain ⟨numReady, rfl⟩ := detachImplicit_eq hrun
  exact ⟨h.1.setRule rfl rfl, h.2⟩

theorem addDependencies_keeps {ins : List String} {before left : List NodeId} (h : Keeps R g)
    (hr : r ∈ R) (hrun : addDependencies P w r ins (g, before) = .ok (g', left)) :
    Keeps R g' := by
  induction ins generalizing g before with
  | nil =>
      simp only [addDependencies, Lib.except_pure, Except.ok.injEq, Prod.mk.injEq] at hrun
      exact hrun.1 ▸ h
  | cons dep ins ih =>
      rw [addDependencies] at hrun
      obtain ⟨⟨n, g₁⟩, hdep, hrest⟩ := Lib.bind_eq_ok.mp hrun
      exact ih (setRuleDependency_keeps h hr hdep) hrest

theorem dropDependency_keeps {n : NodeId} (h : Keeps R g)
    (hrun : dropDependency r g n = .ok g') : Keeps R g' := by
  have h₁ : Keeps R (g.unlink r n) :=
    ⟨h.1.setNode rfl rfl fun q hq ↦ h.1.parents n q (List.mem_of_mem_erase hq), h.2⟩
  obtain ⟨-, ⟨-, hchild, rfl⟩ | ⟨-, rfl⟩⟩ := dropDependency_cases hrun
  · have hsource : ((g.unlink r n).node n).isSource = true := by
      rw [unlink_node_self, Node.isSource, hchild]
      rfl
    exact ⟨h₁.1.deleteNode hsource, h₁.2⟩
  · exact h₁

theorem load_keeps {content : String} {loaded : Bool} (h : Keeps R g) (hr : r ∈ R)
    (hrun : load P w g r content = .ok (loaded, g')) : Keeps R g' := by
  obtain ⟨g₁, hdetach, hcases⟩ := load_ok hrun
  have h₁ := detachImplicit_keeps h hdetach
  obtain ⟨-, rfl, -⟩ | ⟨-, first, ins, g₂, left, -, -, hadd, hdrop⟩ := hcases
  · exact h₁
  · have h₂ := addDependencies_keeps h₁ hr hadd
    exact Lib.foldlM_invariant (Keeps R)
      (fun n _ k k' hstep hk ↦ dropDependency_keeps hk hstep) hdrop h₂

theorem loadFromfile_keeps {loaded : Bool} (h : Keeps R g) (hr : r ∈ R)
    (hrun : loadFromfile P w g r = .ok (loaded, g')) : Keeps R g' := by
  obtain ⟨-, rfl, -⟩ | ⟨content, -, -, hload⟩ := loadFromfile_ok hrun
  · exact h
  · exact load_keeps h hr hload

end Depfile

namespace Hash

open Depfile

variable {ω : Type} {P : Platform ω} {w w' : ω} {g g' : Graph} {R : List RuleId} {a b : Bool}

theorem updateRuleHash_keeps {r : RuleId} (h : Keeps R g)
    (hrun : updateRuleHash P g r a b = .ok g') : Keeps R g' := by
  obtain ⟨hl, hm⟩ := updateRuleHash_links hrun
  exact ⟨h.1.of_links_marks hl hm, (Graph.rules_of_links hl).trans h.2⟩

theorem restoreDepfile_keeps {tmp : String} {r : RuleId} (h : Keeps R g) (hr : r ∈ R)
    (hrun : restoreDepfile P tmp g w r = .ok (g', w')) : Keeps R g' := by
  obtain ⟨rfl, -⟩ | ⟨loaded, k, -, -, -, hload, hupdate⟩ := restoreDepfile_ok hrun
  · exact h
  · exact updateRuleHash_keeps (loadFromfile_keeps h hr hload) hupdate

theorem recomputeRuleHash_keeps {nodeHash : Graph × ω → NodeId → Outcome (Graph × ω)}
    (hnode : ∀ s n s', Keeps R s.1 → nodeHash s n = .ok s' → Keeps R s'.1) {s s' : Graph × ω}
    {r : RuleId} (h : Keeps R s.1) (hr : r ∈ R)
    (hrun : recomputeRuleHash P nodeHash s r = .ok s') : Keeps R s'.1 := by
  obtain ⟨g₁, hupdate, hrun⟩ := Lib.bind_eq_ok.mp hrun
  obtain ⟨s₂, hrestore, hloop⟩ := Lib.bind_eq_ok.mp hrun
  have h₂ : Keeps R s₂.1 := restoreDepfile_keeps (updateRuleHash_keeps h hupdate) hr hrestore
  exact Lib.foldlM_invariant (fun s : Graph × ω ↦ Keeps R s.1)
    (fun n _ k k' hstep hk ↦ hnode k n k' hk hstep) hloop h₂

theorem recomputeNodeHash_keeps {fuel : ℕ} {n : NodeId} {changed : Bool} (h : Keeps R g)
    (hrun : recomputeNodeHash P a b fuel (g, w) n = .ok (changed, g', w')) : Keeps R g' := by
  induction fuel generalizing g w n changed g' w' with
  | zero => cases hrun
  | succ fuel ih =>
      obtain ⟨g₁, hupdate, hcases⟩ := recomputeNodeHash_ok hrun
      obtain ⟨hl, hm⟩ := updateNodeHash_links hupdate
      have h₁ : Keeps R g₁ := ⟨h.1.of_links_marks hl hm, (Graph.rules_of_links hl).trans h.2⟩
      obtain ⟨-, heq⟩ | ⟨-, hloop⟩ := hcases
      · rw [(Prod.mk.inj heq).1]
        exact h₁
      · refine Lib.liveLoop_invariant (fun s : Graph × ω ↦ Keeps R s.1) ?_ hloop h₁
        intro s r hr s' hk hbody
        refine recomputeRuleHash_keeps ?_ hk (hk.2 ▸ hk.1.parents n r hr) hbody
        intro s m s' hk hm
        obtain ⟨⟨ch, g₂, w₂⟩, hm, hpure⟩ := Lib.bind_eq_ok.mp hm
        rw [← Except.ok.inj hpure]
        exact ih hk hm

end Hash

end Falcon
