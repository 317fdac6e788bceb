import Falcon.Graph.DepfileHashes
import Falcon.Graph.Stale

/-!
# The hashes of the scan

The scan is a sequence of small steps, which hash a node only while it has no
hash.  A record of the steps tells what each source file contained when it was
hashed; whatever the order of the steps, the depfile hashes are right in the
end.
-/

namespace Falcon

open Relation Lib

namespace Graph

variable {ω : Type}

/-- The graph, the outside world, and what each source file contained when its
node was hashed last. -/
abbrev Recorded (ω : Type) := Graph × ω × (NodeId → String)

/-- One step of the scan.  The files may change between any two steps. -/
inductive ScanStep (P : Platform ω) : Recorded ω → Recorded ω → Prop
  | relink {g g'} (w κ) (h : Relink P g g') : ScanStep P (g, w, κ) (g', w, κ)
  | hashNode {g g' w n changed} (κ) (hempty : (g.node n).hash = "")
    (hrun : Hash.updateNodeHash P w g n true true = .ok (changed, g')) :
    ScanStep P (g, w, κ) (g', w, Function.update κ n (Hash.contentOf P w (g.node n).path))
  | hashRule {g g' r b} (w κ) (hr : r ∈ g.rules)
    (hrun : Hash.updateRuleHash P g r true b = .ok g') : ScanStep P (g, w, κ) (g', w, κ)
  | work {g g'} (w w' κ) (hl : g'.links = g.links) (hh : g'.hashes = g.hashes) :
    ScanStep P (g, w, κ) (g', w', κ)

abbrev ScanSteps (P : Platform ω) : Recorded ω → Recorded ω → Prop := ReflTransGen (ScanStep P)

variable {P : Platform ω} {κ : NodeId → String} {g₀ g g' : Graph} {w : ω} {x x' : Recorded ω}

/-- The invariant of the steps. -/
structure Hashing (P : Platform ω) (g₀ : Graph) (x : Recorded ω) : Prop where
  grounded : Grounded g₀ x.1
  right : DepsRight P x.2.2 x.1
  both : ∀ n, x.1.Declared n → ((x.1.node n).hash = "" ↔ (x.1.node n).hashDepfile = "")

theorem nodeHash_of_hashes (h : g'.hashes = g.hashes) (n : NodeId) :
    (g'.node n).hash = (g.node n).hash ∧ (g'.node n).hashDepfile = (g.node n).hashDepfile :=
  ⟨congrFun (congrArg Hashes.nodeHash h) n, congrFun (congrArg Hashes.nodeHashDepfile h) n⟩

theorem ruleDeps_of_hashes (h : g'.hashes = g.hashes) (r : RuleId) :
    (g'.rule r).hashDepfile = (g.rule r).hashDepfile :=
  congrFun (congrArg Hashes.ruleHashDepfile h) r

theorem DepsRightBut.of_hashes {N : Set NodeId} {R : Set RuleId} (h : DepsRightBut P κ g N R)
    (hl : g'.links = g.links) (hh : g'.hashes = g.hashes) : DepsRightBut P κ g' N R :=
  h.congr ((Explicit.refl g).of_links hl) (skeleton_of_links hl)
    (fun n _ ↦ (nodeHash_of_hashes hh n).2) (fun n _ _ ↦ (nodeHash_of_hashes hh n).1)
    (ruleDeps_of_hashes hh)

/-- Nothing has been hashed yet. -/
structure Unhashed (g : Graph) : Prop where
  node : ∀ n, (g.node n).hash = "" ∧ (g.node n).hashDepfile = ""
  rule : ∀ r, (g.rule r).hashDepfile = ""

theorem Unhashed.right (h : g.Unhashed) : DepsRight P κ g where
  below := {
    child := fun n _ _ _ hne ↦ absurd (h.node n).2 hne
    inputs := fun r _ hne ↦ absurd (h.rule r) hne
    founded := fun n _ hne ↦ absurd (h.node n).2 hne }
  node n _ _ hne := absurd (h.node n).2 hne
  rule r _ _ hne := absurd (h.rule r) hne
  source n _ _ _ hne := absurd (h.node n).2 hne
  sync n _ _ := by rw [(h.node n).1, (h.node n).2]

theorem ScanStep.wired (hstep : ScanStep P x x') (h : x.1.Wired) : x'.1.Wired := by
  cases hstep with
  | relink _ _ hrelink => exact h.relink hrelink
  | hashNode _ _ hrun => exact h.edit (.hashNode hrun)
  | hashRule _ _ _ hrun => exact h.edit (.hashRule hrun)
  | work _ _ _ hl => exact h.of_links hl

theorem ScanStep.rules (hstep : ScanStep P x x') : x'.1.rules = x.1.rules := by
  cases hstep with
  | relink _ _ hrelink => exact rules_of_relink hrelink
  | hashNode _ _ hrun => exact rules_of_links (Hash.updateNodeHash_links hrun).1
  | hashRule _ _ _ hrun => exact rules_of_links (Hash.updateRuleHash_links hrun).1
  | work _ _ _ hl => exact rules_of_links hl

theorem ScanSteps.wired (hrun : ScanSteps P x x') (h : x.1.Wired) : x'.1.Wired := by
  induction hrun with
  | refl => exact h
  | tail _ hstep ih => exact hstep.wired ih

theorem ScanSteps.rules (hrun : ScanSteps P x x') : x'.1.rules = x.1.rules := by
  induction hrun with
  | refl => rfl
  | tail _ hstep ih => exact hstep.rules.trans ih

section Digest

variable (hdigest : ∀ data, P.digest data ≠ "")
include hdigest

theorem updateNodeHash_hashed {n : NodeId} {changed : Bool}
    (hrun : Hash.updateNodeHash P w g n true true = .ok (changed, g')) :
    (g'.node n).hash ≠ "" ∧ (g'.node n).hashDepfile ≠ "" ∧ ∀ m, m ≠ n → g'.node m = g.node m := by
  have hother : ∀ m, m ≠ n → g'.node m = g.node m := by
    obtain ⟨hash, deps, rfl⟩ := Hash.updateNodeHash_frame hrun
    intro m hm
    rw [setNode_node, if_neg hm]
  cases hc : (g.node n).childRule with
  | none =>
      obtain ⟨-, -, rfl⟩ := (Hash.updateNodeHash_source hc).mp hrun
      refine ⟨?_, ?_, hother⟩
      · rw [setNode_node, if_pos rfl]
        exact hdigest _
      · rw [setNode_node, if_pos rfl]
        exact hdigest _
  | some q =>
      obtain ⟨-, y, hy, rfl⟩ := (Hash.updateNodeHash_target hc).mp hrun
      obtain ⟨-, -, -, rfl⟩ := Hash.updateTargetHash_eq_ok.mp hy
      refine ⟨?_, ?_, hother⟩
      · rw [setNode_node, if_pos rfl]
        exact hdigest _
      · rw [setNode_node, if_pos rfl]
        exact hdigest _

/-- A node that has no hash is not covered by any hash. -/
theorem DepsRight.hashNode_empty {n : NodeId} {changed : Bool} (h : DepsRight P κ g) (hg : g.Wired)
    (hempty : g.Declared n → (g.node n).hashDepfile = "")
    (hrun : Hash.updateNodeHash P w g n true true = .ok (changed, g')) :
    DepsRight P (Function.update κ n (Hash.contentOf P w (g.node n).path)) g' := by
  have hstart := DepsRightBut.forget h n (Hash.contentOf P w (g.node n).path)
  have hend := (hstart.hashNode hdigest hg (fun _ ↦ ⟨rfl, Function.update_self ..⟩) hrun).1
  have hl := (Hash.updateNodeHash_links hrun).1
  have hrule : g'.rule = g.rule := by
    obtain ⟨hash, deps, rfl⟩ := Hash.updateNodeHash_frame hrun
    rfl
  have husers : DepsRightBut P (Function.update κ n (Hash.contentOf P w (g.node n).path)) g' (∅ ∪ ∅)
      (∅ ∪ {r | r ∈ g.rules ∧ n ∈ Hash.explicitInputs (g.rule r)}) := by
    refine hend.mono Set.subset_union_left fun r hr hin ↦ ?_
    rw [rules_of_links hl] at hr
    exact hin.imp id fun hin ↦ ⟨hr, hin⟩
  refine husers.drop_unhashed (fun _ hin ↦ hin.elim) ?_
  rintro r ⟨hr, hin⟩
  rw [hrule]
  by_contra hne
  exact h.below.inputs r hr hne n hin (hempty ⟨r, hr, Or.inl hin⟩)

theorem ScanStep.hashing (hstep : ScanStep P x x') (h : Hashing P g₀ x) : Hashing P g₀ x' := by
  obtain ⟨hg, hright, hboth⟩ := h
  cases hstep with
  | relink w κ hrelink =>
      have he := (Explicit.refl _).edit hg.wired (.relink hrelink)
      refine ⟨hg.edit (.relink hrelink), hright.relink hg.wired hrelink, fun n hn ↦ ?_⟩
      rw [he.declared_iff] at hn
      rcases node_of_relink hrelink n with ⟨parents, hnode⟩ | ⟨hfree, -⟩
      · rw [hnode]
        exact hboth n hn
      · exact absurd (hg.wired.allocated hn) hfree
  | @hashNode g g' w n changed κ hempty hrun =>
      have he := (Explicit.refl g).of_links (Hash.updateNodeHash_links hrun).1
      obtain ⟨hhash, hdeps, hother⟩ := updateNodeHash_hashed hdigest hrun
      refine ⟨hg.edit (.hashNode hrun), ?_, fun m hm ↦ ?_⟩
      · apply DepsRight.hashNode_empty hdigest hright hg.wired _ hrun
        exact fun hn ↦ (hboth n hn).mp hempty
      · rw [he.declared_iff] at hm
        by_cases heq : m = n
        · subst heq
          exact iff_of_false hhash hdeps
        · rw [hother m heq]
          exact hboth m hm
  | @hashRule g g' r b w κ hr hrun =>
      have he := (Explicit.refl g).of_links (Hash.updateRuleHash_links hrun).1
      have hnode : g'.node = g.node := by
        obtain ⟨hash, deps, rfl⟩ := Hash.updateRuleHash_frame hrun
        rfl
      refine ⟨hg.edit (.hashRule hrun), ?_, fun n hn ↦ ?_⟩
      · cases b with
        | true =>
            exact hright.hashRule_right hdigest hg.wired hr (Set.notMem_empty r) hrun
        | false => exact hright.hashRule_true_false hrun
      · rw [he.declared_iff] at hn
        rw [hnode]
        exact hboth n hn
  | @work g g' w w' κ hl hh =>
      have he := (Explicit.refl g).of_links hl
      refine ⟨hg.of_links hl, hright.of_hashes hl hh, fun n hn ↦ ?_⟩
      rw [he.declared_iff] at hn
      rw [(nodeHash_of_hashes hh n).1, (nodeHash_of_hashes hh n).2]
      exact hboth n hn

theorem ScanSteps.hashing (hrun : ScanSteps P x x') (h : Hashing P g₀ x) : Hashing P g₀ x' := by
  induction hrun with
  | refl => exact h
  | tail _ hstep ih => exact hstep.hashing hdigest ih

omit hdigest in
/-- A node keeps the hash it got first. -/
theorem ScanStep.node_hash (hstep : ScanStep P x x') {n : NodeId} (hn : n ∈ x.1.allocated)
    (hhash : (x.1.node n).hash ≠ "") : (x'.1.node n).hash ≠ "" := by
  cases hstep with
  | relink w κ hrelink =>
      rcases node_of_relink hrelink n with ⟨parents, hnode⟩ | ⟨hfree, -⟩
      · rw [hnode]
        exact hhash
      · exact absurd hn hfree
  | @hashNode g g' w m changed κ hempty hrun =>
      have hne : n ≠ m := by
        rintro rfl
        exact hhash hempty
      obtain ⟨hash, deps, rfl⟩ := Hash.updateNodeHash_frame hrun
      rw [setNode_node, if_neg hne]
      exact hhash
  | hashRule w κ hr hrun =>
      obtain ⟨hash, deps, rfl⟩ := Hash.updateRuleHash_frame hrun
      exact hhash
  | work w w' κ hl hh =>
      rw [(nodeHash_of_hashes hh n).1]
      exact hhash

omit hdigest in
theorem ScanSteps.grounded (hrun : ScanSteps P x x') (hg : Grounded g₀ x.1) :
    Grounded g₀ x'.1 := by
  induction hrun with
  | refl => exact hg
  | tail _ hstep ih =>
      cases hstep with
      | relink _ _ hrelink => exact ih.edit (.relink hrelink)
      | hashNode _ _ hrun => exact ih.edit (.hashNode hrun)
      | hashRule _ _ _ hrun => exact ih.edit (.hashRule hrun)
      | work _ _ _ hl => exact ih.of_links hl

omit hdigest in
theorem ScanSteps.node_hash (hrun : ScanSteps P x x') (hg : Grounded g₀ x.1) {n : NodeId}
    (hn : g₀.Declared n) (hhash : (x.1.node n).hash ≠ "") :
    (x'.1.node n).hash ≠ "" := by
  induction hrun with
  | refl => exact hhash
  | tail hrun hstep ih =>
      have hg' : Grounded g₀ _ := ScanSteps.grounded hrun hg
      exact hstep.node_hash (hg'.wired.allocated ((hg'.explicit.declared_iff n).mpr hn)) ih

end Digest

end Graph

/-! ## The scan takes such steps -/

namespace GraphDependencyScan

open Graph

variable {ω : Type} {P : Platform ω}

/-- The way from `s` to `s'` can be recorded. -/
def Traced (P : Platform ω) (s s' : Scan ω) : Prop :=
  ∀ κ, ∃ κ', ScanSteps P (s.graph, s.world, κ) (s'.graph, s'.world, κ')

theorem Traced.refl (s : Scan ω) : Traced P s s := fun κ ↦ ⟨κ, .refl⟩

theorem Traced.trans {s s' s'' : Scan ω} (h : Traced P s s') (h' : Traced P s' s'') :
    Traced P s s'' := by
  intro κ
  obtain ⟨κ', hrun⟩ := h κ
  obtain ⟨κ'', hrun'⟩ := h' κ'
  exact ⟨κ'', hrun.trans hrun'⟩

theorem Traced.single {s s' : Scan ω}
    (h : ∀ κ, ScanStep P (s.graph, s.world, κ) (s'.graph, s'.world, κ)) : Traced P s s' :=
  fun κ ↦ ⟨κ, .single (h κ)⟩

theorem Traced.work {s s' : Scan ω} (hl : s'.graph.links = s.graph.links)
    (hh : s'.graph.hashes = s.graph.hashes) : Traced P s s' :=
  .single fun κ ↦ .work _ _ κ hl hh

theorem Traced.wired {s s' : Scan ω} (h : Traced P s s') (hs : s.graph.Wired) :
    s'.graph.Wired := by
  obtain ⟨κ', hrun⟩ := h fun _ ↦ ""
  exact hrun.wired hs

theorem Traced.rules {s s' : Scan ω} (h : Traced P s s') : s'.graph.rules = s.graph.rules := by
  obtain ⟨κ', hrun⟩ := h fun _ ↦ ""
  exact hrun.rules

theorem Traced.relinks {g g' : Graph} (h : Relinks P g g') (w : ω) (seen : Finset RuleId) :
    Traced P ⟨g, w, seen⟩ ⟨g', w, seen⟩ := by
  induction h with
  | refl => exact .refl _
  | tail _ hstep ih => exact ih.trans (.single fun κ ↦ .relink w κ hstep)

theorem ruleLoadDepfile_traced {g g' : Graph} {w w' : ω} {r : RuleId} {loaded : Bool}
    (seen : Finset RuleId) (hg : g.Wired) (hr : r ∈ g.rules)
    (hrun : ruleLoadDepfile P g w r = .ok (loaded, g', w')) :
    Traced P ⟨g, w, seen⟩ ⟨g', w', seen⟩ := by
  obtain ⟨⟨loaded₁, g₁⟩, hload, hrun⟩ := bind_eq_ok.mp hrun
  have hrelinks := Depfile.loadFromfile_relinks hg hr hload
  have h₁ : Traced P ⟨g, w, seen⟩ ⟨g₁, w, seen⟩ := .relinks hrelinks w seen
  cases loaded₁ with
  | true =>
      simp only [if_true, except_pure, Except.ok.injEq, Prod.mk.injEq] at hrun
      obtain ⟨-, rfl, rfl⟩ := hrun
      exact h₁
  | false =>
      simp only [Bool.false_eq_true, if_false] at hrun
      obtain ⟨⟨restored, w₁⟩, -, hrun⟩ := bind_eq_ok.mp hrun
      have h₂ : Traced P ⟨g, w, seen⟩ ⟨g₁, w₁, seen⟩ := h₁.trans (.work rfl rfl)
      cases restored with
      | false =>
          simp only [Bool.not_false, if_true, except_pure, Except.ok.injEq,
            Prod.mk.injEq] at hrun
          obtain ⟨-, rfl, rfl⟩ := hrun
          exact h₂
      | true =>
          simp only [Bool.not_true, Bool.false_eq_true, if_false] at hrun
          obtain ⟨⟨loaded₂, g₂⟩, hload₂, hpure⟩ := bind_eq_ok.mp hrun
          simp only [except_pure, Except.ok.injEq, Prod.mk.injEq] at hpure
          obtain ⟨-, rfl, rfl⟩ := hpure
          have hr₁ : r ∈ g₁.rules := rules_of_relinks hrelinks ▸ hr
          have hrelinks₂ := Depfile.loadFromfile_relinks (hg.relinks hrelinks) hr₁ hload₂
          exact h₂.trans (.relinks hrelinks₂ w₁ seen)

theorem scanDepfile_traced {g g' : Graph} {w w' : ω} {r : RuleId} {dirty : Bool}
    (seen : Finset RuleId) (hg : g.Wired) (hr : r ∈ g.rules)
    (hrun : scanDepfile P g w r = .ok (dirty, g', w')) :
    Traced P ⟨g, w, seen⟩ ⟨g', w', seen⟩ := by
  rw [scanDepfile] at hrun
  split at hrun
  · obtain ⟨⟨loaded, g₁, w₁⟩, hload, hrun⟩ := bind_eq_ok.mp hrun
    have h₁ := ruleLoadDepfile_traced (P := P) seen hg hr hload
    cases loaded with
    | false =>
        simp only [Bool.not_false, if_true, except_pure, Except.ok.injEq, Prod.mk.injEq] at hrun
        obtain ⟨-, rfl, rfl⟩ := hrun
        exact h₁
    | true =>
        simp only [Bool.not_true, Bool.false_eq_true, if_false] at hrun
        obtain ⟨g₂, hhash, hpure⟩ := bind_eq_ok.mp hrun
        simp only [except_pure, Except.ok.injEq, Prod.mk.injEq] at hpure
        obtain ⟨-, rfl, rfl⟩ := hpure
        have hr₁ : r ∈ g₁.rules := h₁.rules ▸ hr
        exact h₁.trans (.single fun κ ↦ .hashRule w₁ κ hr₁ hhash)
  · simp only [except_pure, Except.ok.injEq, Prod.mk.injEq] at hrun
    obtain ⟨-, rfl, rfl⟩ := hrun
    exact .refl _

theorem scanTimes_work {g g' : Graph} {r : RuleId} {dirty : Bool}
    (hrun : scanTimes g r = .ok (dirty, g')) : g'.links = g.links ∧ g'.hashes = g.hashes := by
  rw [scanTimes] at hrun
  split at hrun
  · simp only [except_pure, Except.ok.injEq, Prod.mk.injEq] at hrun
    obtain ⟨-, rfl⟩ := hrun
    exact ⟨rfl, rfl⟩
  · obtain ⟨o, -, hpure⟩ := bind_eq_ok.mp hrun
    have hloop : ∀ (l : List NodeId) (s : Bool × Graph),
        (l.foldl (compareInput o) s).2.links = s.2.links ∧
          (l.foldl (compareInput o) s).2.hashes = s.2.hashes := by
      intro l
      induction l with
      | nil => exact fun _ ↦ ⟨rfl, rfl⟩
      | cons n l ih =>
          intro s
          obtain ⟨hl, hh⟩ := ih (compareInput o s n)
          rw [List.foldl_cons, hl, hh, compareInput]
          split
          · split
            · exact ⟨links_setNode rfl rfl rfl rfl, hashes_setNode rfl rfl⟩
            · exact ⟨rfl, rfl⟩
          · exact ⟨rfl, rfl⟩
    have hg' : g' = ((g.rule r).inputs.foldl (compareInput o) (false, g)).2 :=
      congrArg Prod.snd (Except.ok.inj hpure).symm
    rw [hg']
    exact hloop _ _

theorem updateRule_traced {node : Scan ω → NodeId → Outcome (Bool × Scan ω)}
    (hnode : ∀ s n b s', s.graph.Wired → node s n = .ok (b, s') → Traced P s s')
    {s s' : Scan ω} {r : RuleId} {dirty : Bool} (hs : s.graph.Wired) (hr : r ∈ s.graph.rules)
    (hrun : updateRule P node s r = .ok (dirty, s')) : Traced P s s' := by
  rw [updateRule] at hrun
  split at hrun
  · simp only [except_pure, Except.ok.injEq, Prod.mk.injEq] at hrun
    obtain ⟨-, rfl⟩ := hrun
    exact .refl s
  obtain ⟨⟨inputDirty, s₁⟩, hloop, hrun⟩ := bind_eq_ok.mp hrun
  obtain ⟨g₂, hhash, hrun⟩ := bind_eq_ok.mp hrun
  obtain ⟨⟨depDirty, g₃, w₃⟩, hdepfile, hrun⟩ := bind_eq_ok.mp hrun
  obtain ⟨⟨timeDirty, g₄⟩, htimes, hpure⟩ := bind_eq_ok.mp hrun
  simp only [except_pure, Except.ok.injEq, Prod.mk.injEq] at hpure
  obtain ⟨-, rfl⟩ := hpure
  have h₁ : Traced P s s₁ := by
    refine foldlM_invariant (fun t : Bool × Scan ω ↦ Traced P s t.2) ?_ hloop (.work rfl rfl)
    rintro n - ⟨b, t⟩ ⟨b', t'⟩ hstep ht
    obtain ⟨⟨dirty, t₁⟩, hchild, hstep⟩ := bind_eq_ok.mp hstep
    have ht₁ := ht.trans (hnode t n dirty t₁ (ht.wired hs) hchild)
    cases dirty with
    | false =>
        obtain ⟨-, rfl⟩ := Prod.mk.inj (Except.ok.inj hstep)
        exact ht₁
    | true =>
        simp only [if_true] at hstep
        split at hstep
        · obtain ⟨-, rfl⟩ := Prod.mk.inj (Except.ok.inj hstep)
          exact ht₁
        · obtain ⟨g, hmark, hpure⟩ := bind_eq_ok.mp hstep
          obtain ⟨-, rfl⟩ := Prod.mk.inj (Except.ok.inj hpure)
          obtain ⟨numReady, rfl⟩ := Depfile.onRule_ready (fun _ _ ↦ Depfile.markInputDirty_eq) hmark
          exact ht₁.trans (.work (links_setRule rfl rfl rfl rfl rfl) (hashes_setRule rfl rfl))
  have hr₁ : r ∈ s₁.graph.rules := h₁.rules ▸ hr
  have h₂ : Traced P s ⟨g₂, s₁.world, s₁.seen⟩ :=
    h₁.trans (.single fun κ ↦ .hashRule s₁.world κ hr₁ hhash)
  have hr₂ : r ∈ g₂.rules := h₂.rules ▸ hr
  have h₃ : Traced P s ⟨g₃, w₃, s₁.seen⟩ :=
    h₂.trans (scanDepfile_traced s₁.seen (h₂.wired hs) hr₂ hdepfile)
  obtain ⟨hl, hh⟩ := scanTimes_work htimes
  apply h₃.trans
  apply Traced.work
  · change (if _ then _ else _ : Graph).links = _
    split
    · exact (darker_setRule g₄ r).links.trans hl
    · exact hl
  · change (if _ then _ else _ : Graph).hashes = _
    split
    · exact (hashes_of_stamps (darker_setRule g₄ r).stamps).trans hh
    · exact hh

theorem updateNode_traced {fuel : ℕ} {s s' : Scan ω} {n : NodeId} {dirty : Bool}
    (hs : s.graph.Wired) (hrun : updateNode P fuel s n = .ok (dirty, s')) : Traced P s s' := by
  induction fuel generalizing s n dirty s' with
  | zero => cases hrun
  | succ fuel ih =>
      obtain ⟨⟨dirty₁, s₁⟩, hchild, hrun⟩ := bind_eq_ok.mp hrun
      obtain ⟨s₂, hhash, hpure⟩ := bind_eq_ok.mp hrun
      obtain ⟨-, rfl⟩ := Prod.mk.inj (Except.ok.inj hpure)
      have h₁ : Traced P s s₁ := by
        rw [updateChild] at hchild
        split at hchild
        · obtain ⟨-, rfl⟩ := Prod.mk.inj (Except.ok.inj hchild)
          exact .refl s
        · rename_i r hr
          obtain ⟨⟨dirty₂, s₃⟩, hrule, hpure⟩ := bind_eq_ok.mp hchild
          obtain ⟨-, rfl⟩ := Prod.mk.inj (Except.ok.inj hpure)
          have hmem : r ∈ s.graph.rules := (hs.child n r hr).1
          refine (updateRule_traced (fun t m b t' ht hm ↦ ih ht hm) hs hmem hrule).trans ?_
          split
          · exact .work (links_setNode rfl rfl rfl rfl) (hashes_setNode rfl rfl)
          · exact .refl s₃
      apply h₁.trans
      rw [hashNode] at hhash
      split at hhash
      · rename_i hempty
        obtain ⟨⟨changed, g⟩, hupdate, hpure⟩ := bind_eq_ok.mp hhash
        rw [← Except.ok.inj hpure]
        exact fun κ ↦ ⟨_, .single (.hashNode κ hempty hupdate)⟩
      · rw [Except.ok.inj hhash]
        exact .refl _

theorem hashes_statNodes (w : ω) (g : Graph) : (statNodes P w g).hashes = g.hashes := by
  have hstat := statNodes_spec P w g
  simp only [Graph.hashes, hstat.node, hstat.rule]

theorem scan_steps {g g' : Graph} {w w' : ω} (hg : g.Wired) (hrun : scan P g w = .ok (g', w'))
    (κ : NodeId → String) : ∃ κ', ScanSteps P (g, w, κ) (g', w', κ') := by
  obtain ⟨s, hloop, hpure⟩ := bind_eq_ok.mp hrun
  obtain ⟨rfl, rfl⟩ := Prod.mk.inj (Except.ok.inj hpure)
  have hstart : Traced P ⟨g, w, ∅⟩ ⟨statNodes P w g, w, ∅⟩ :=
    .work (statNodes_spec P w g).links (hashes_statNodes w g)
  have hend : Traced P ⟨g, w, ∅⟩ s := by
    refine foldlM_invariant (fun t : Scan ω ↦ Traced P ⟨g, w, ∅⟩ t) ?_ hloop hstart
    intro n _ t t' hstep ht
    obtain ⟨⟨dirty, t₁⟩, hnode, hpure⟩ := bind_eq_ok.mp hstep
    rw [← Except.ok.inj hpure]
    exact ht.trans (updateNode_traced (ht.wired hg) hnode)
  exact hend κ

/-! ## What has been hashed in the end -/

section Digest

variable (hdigest : ∀ data, P.digest data ≠ "")
include hdigest

theorem updateNode_hashed {fuel : ℕ} {s s' : Scan ω} {n : NodeId} {dirty : Bool}
    (hrun : updateNode P fuel s n = .ok (dirty, s')) : (s'.graph.node n).hash ≠ "" := by
  cases fuel with
  | zero => cases hrun
  | succ fuel =>
      obtain ⟨⟨dirty₁, s₁⟩, -, hrun⟩ := bind_eq_ok.mp hrun
      obtain ⟨s₂, hhash, hpure⟩ := bind_eq_ok.mp hrun
      obtain ⟨-, rfl⟩ := Prod.mk.inj (Except.ok.inj hpure)
      rw [hashNode] at hhash
      split at hhash
      · obtain ⟨⟨changed, g⟩, hupdate, hpure⟩ := bind_eq_ok.mp hhash
        rw [← Except.ok.inj hpure]
        exact (updateNodeHash_hashed hdigest hupdate).1
      · rename_i hne
        rw [← Except.ok.inj hhash]
        exact hne

/-- The scan reaches every rule from the roots, if every rule has an output. -/
theorem scan_hashed {g₀ g : Graph} {w₀ w : ω} (hg : Grounded g₀ g₀) (hL : g₀.links.TwoWay)
    (hunhashed : g₀.Unhashed) (hroots : ∀ n ∈ g₀.allocated, (g₀.node n).parentRules = [] →
      n ∈ g₀.roots)
    (hac : g₀.links.Acyclic) (hne : ∀ r ∈ g₀.rules, (g₀.rule r).outputs ≠ [])
    (hexplicit : ∀ r, (g₀.rule r).numImplicitDeps = 0)
    (hrun : scan P g₀ w₀ = .ok (g, w)) : ∀ r ∈ g₀.rules, (g.rule r).hashDepfile ≠ "" := by
  obtain ⟨κ, hsteps⟩ := scan_steps hg.wired hrun fun _ ↦ ""
  have hstart : Hashing P g₀ (g₀, w₀, fun _ ↦ "") :=
    ⟨hg, hunhashed.right, fun n _ ↦ by simp [hunhashed.node n]⟩
  have hend : Hashing P g₀ (g, w, κ) := hsteps.hashing hdigest hstart
  obtain ⟨s, hloop, hpure⟩ := bind_eq_ok.mp hrun
  obtain ⟨rfl, rfl⟩ := Prod.mk.inj (Except.ok.inj hpure)
  -- The roots have been hashed, each at the latest when its turn comes.
  have hvisited : Grounded g₀ s.graph ∧ ∀ n ∈ g₀.roots.sort (· ≤ ·), g₀.Declared n →
      (s.graph.node n).hash ≠ "" := by
    have hsame : (statNodes P w₀ g₀).roots = g₀.roots :=
      congrArg Links.roots (statNodes_spec P w₀ g₀).links
    rw [hsame] at hloop
    refine foldlM_prefix (fun pre (t : Scan ω) ↦ Grounded g₀ t.graph ∧ ∀ n ∈ pre, g₀.Declared n →
      (t.graph.node n).hash ≠ "") ?_ ?_ hloop
    · exact ⟨hg.of_links (statNodes_spec P w₀ g₀).links, fun n hn ↦ absurd hn List.not_mem_nil⟩
    · rintro pre n post t t' - ⟨ht, hpre⟩ hstep
      obtain ⟨⟨dirty, t₁⟩, hnode, hpure⟩ := bind_eq_ok.mp hstep
      obtain rfl : t₁ = t' := Except.ok.inj hpure
      obtain ⟨κ', hpart⟩ := updateNode_traced ht.wired hnode fun _ ↦ ""
      refine ⟨hpart.grounded ht, fun m hm hdeclared ↦ ?_⟩
      rcases List.mem_append.mp hm with hm | hm
      · exact hpart.node_hash ht hdeclared (hpre m hm hdeclared)
      · rw [List.mem_singleton.mp hm]
        exact updateNode_hashed hdigest hnode
  have hall : ∀ n, g₀.Declared n → (s.graph.node n).hashDepfile ≠ "" := by
    apply Links.mem_of_roots hL hac hne (A := {n | g₀.Declared n})
      (S := {n | (s.graph.node n).hashDepfile ≠ ""})
    · exact fun r hr o ho ↦ ⟨r, hr, Or.inr ho⟩
    · intro n hn hp hempty
      have hroot := hroots n (hg.wired.allocated hn) hp
      refine hvisited.2 n ((Finset.mem_sort _).mpr hroot) hn ?_
      exact (hend.both n ((hend.grounded.explicit.declared_iff n).mpr hn)).mpr hempty
    · intro r hr o ho hhashed n hn
      have hr' : r ∈ s.graph.rules := hend.grounded.explicit.rules ▸ hr
      have hout : o ∈ (s.graph.rule r).outputs := hend.grounded.explicit.outputs r ▸ ho
      have hrule := hend.right.below.child o r ⟨r, hr', Or.inr hout⟩
        (hend.grounded.wired.outputs r hr' o hout) hhashed
      apply hend.right.below.inputs r hr' hrule
      rw [hend.grounded.explicit.inputs, Hash.explicitInputs_none (hexplicit r)]
      exact hn
  intro r hr
  obtain ⟨o, ho⟩ := List.exists_mem_of_ne_nil _ (hne r hr)
  have hr' : r ∈ s.graph.rules := hend.grounded.explicit.rules ▸ hr
  have hout : o ∈ (s.graph.rule r).outputs := hend.grounded.explicit.outputs r ▸ ho
  exact hend.right.below.child o r ⟨r, hr', Or.inr hout⟩
    (hend.grounded.wired.outputs r hr' o hout) (hall o ⟨r, hr, Or.inr ho⟩)

end Digest

end GraphDependencyScan

end Falcon
