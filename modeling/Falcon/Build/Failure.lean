import Falcon.Build.Scheduling

/-!
# Builds that fail

A failing command stops new work, but the commands that are still running are
reaped and may succeed.  However a build ends, the rules that it has built are
the only ones that became clean, and the graph is ready for the next build.
-/

namespace Falcon

open BuildEvent Relation

namespace Schedulable

variable {g : Graph}

/-- What uses an output of a dirty rule is dirty, at any distance. -/
theorem dirty_above (h : Schedulable g) {r : RuleId} (hr : r ∈ g.rules)
    (hd : (g.rule r).isDirty = true) {o m : NodeId} (ho : o ∈ (g.rule r).outputs)
    (hm : m ∈ g.links.Above o) :
    (g.node m).isDirty = true ∧ ∀ q ∈ (g.node m).parentRules, (g.rule q).isDirty = true := by
  have hparents : ∀ k, (g.node k).isSource = false → (g.node k).isDirty = true →
      ∀ q ∈ (g.node k).parentRules, (g.rule q).isDirty = true := by
    intro k hk hkd q hq
    obtain ⟨hmem, hin⟩ := (h.twoWay.mem_parents k q).mp hq
    exact h.input_dirty q hmem k hin hk hkd
  have hchild : (g.node o).childRule = some r := (h.twoWay.child_eq_some o r).mpr ⟨hr, ho⟩
  have htarget : ∀ k q, (g.node k).childRule = some q → (g.node k).isSource = false := by
    intro k q hk
    rw [Node.isSource, hk]
    rfl
  induction hm with
  | refl =>
      have hod : (g.node o).isDirty = true := (h.node_dirty_iff o r hchild).mpr hd
      exact ⟨hod, hparents o (htarget o r hchild) hod⟩
  | @tail k m _ hfeeds ih =>
      obtain ⟨q, hq, hk⟩ := hfeeds
      have hparent : q ∈ (g.node k).parentRules :=
        (h.twoWay.mem_parents k q).mpr ⟨((h.twoWay.child_eq_some m q).mp hq).1, hk⟩
      have hmd : (g.node m).isDirty = true := (h.node_dirty_iff m q hq).mpr (ih.2 q hparent)
      exact ⟨hmd, hparents m (htarget m q hq) hmd⟩

end Schedulable

namespace Builder

variable {ω : Type} {P : Platform ω} {s s' : Builder ω} {c : Choice ω} {cs : List (Choice ω)}
  {evs evs' : List BuildEvent} {g : Graph} {p : BuildPlan} {w : ω} {n : ℕ}

/-- The source files that are still dirty after the rules `built`. -/
def SourcesKept (g : Graph) (built : List RuleId) (g' : Graph) : Prop :=
  ∀ x, (g.node x).childRule = none → ((g'.node x).isDirty = true ↔
    (g.node x).isDirty = true ∧ ∀ r ∈ built, x ∉ (g.rule r).inputs)

theorem SourcesKept.finish {built : List RuleId} {g₁ g' : Graph} {r : RuleId} {add : RuleId → ℕ}
    (h : SourcesKept g built g₁) (hL : g.links.TwoWay) (hr : r ∈ g.rules)
    (hlinks : g₁.links = g.links)
    (hclean : g₁.Cleaned (Graph.finishedNodes g₁.links r) {r} add g') :
    SourcesKept g (built ++ [r]) g' := by
  intro x hx
  have hsource : g.links.child x = none := hx
  have hnot : x ∉ g.links.outputs r := by
    intro hout
    rw [(hL.child_eq_some x r).mpr ⟨hr, hout⟩] at hsource
    cases hsource
  have hmem : x ∉ Graph.finishedNodes g₁.links r ↔ x ∉ (g.rule r).inputs := by
    rw [hlinks, Graph.finishedNodes, Set.mem_ofPred_eq]
    simp only [hnot, hsource, false_or, and_true]
    rfl
  rw [hclean.node, h x hx, hmem, and_assoc]
  simp only [List.mem_append, List.mem_singleton, or_imp, forall_and, forall_eq]

theorem SourcesKept.setTimestamp {built : List RuleId} {g₁ : Graph} (h : SourcesKept g built g₁)
    (r : RuleId) (t : Timestamp) :
    SourcesKept g built (g₁.updateRule r (·.setTimestamp t)) := h

section Steps

variable (hL : g.links.TwoWay) (hrules : ∀ r ∈ p.rules, r ∈ g.rules)
include hL hrules

theorem onRuleFinished_sourcesKept {found built failed rest : List RuleId} {r : RuleId}
    (hfinish : s.onRuleFinished r = .ok s')
    (h : Ongoing g p found built failed (r :: rest) s.graph s.plan)
    (hs : SourcesKept g built s.graph) : SourcesKept g (built ++ [r]) s'.graph := by
  obtain ⟨g', p', rfl, hclean, -⟩ := onRuleFinished_ok hL hrules h hfinish
  have hr : r ∈ g.rules := hrules r (h.found_planned r (h.mem_found_of_hand List.mem_cons_self))
  exact hs.finish hL hr h.links hclean

theorem waitForNext_sourcesKept {res : BuildResult} (h : Live g p evs s) (hload : s.NoLoad c)
    (hwait : waitForNext P s c = .ok (res, evs', s'))
    (hs : SourcesKept g (builtRules evs) s.graph) :
    SourcesKept g (builtRules (evs ++ evs')) s'.graph := by
  obtain ⟨r, rest, -, hperm, hr⟩ := Reaped.of_waitForNext hload hwait
  have hhand := (h.toOngoing.perm hperm).touch_setTimestamp r (P.now s.world)
  rw [builtRules_append]
  cases hr with
  | failed => simpa using hs.setTimestamp r (P.now s.world)
  | built _ _ _ hfinish =>
      exact onRuleFinished_sourcesKept hL hrules hfinish hhand (hs.setTimestamp _ _)

theorem act_sourcesKept (h : Live g p evs s) (hload : s.NoLoad c) (ha : Act P s c evs' s')
    (hs : SourcesKept g (builtRules evs) s.graph) :
    SourcesKept g (builtRules (evs ++ evs')) s'.graph := by
  cases ha with
  | enter => simpa using hs
  | leave => simpa using hs
  | idle => simpa using hs
  | finish => simpa using hs
  | stay => simpa using hs
  | phony _ _ hwork _ hfinish =>
      obtain ⟨-, -, -, htake⟩ := h.take hwork
      rw [builtRules_append]
      exact onRuleFinished_sourcesKept hL hrules hfinish htake hs
  | restored _ _ hwork _ _ hfinish =>
      obtain ⟨-, -, -, htake⟩ := h.take hwork
      rw [builtRules_append]
      exact onRuleFinished_sourcesKept hL hrules hfinish (htake.touch_setTimestamp _ _)
        (hs.setTimestamp _ _)
  | spawned => simpa using hs
  | reaped _ _ hwait =>
      have hkept := waitForNext_sourcesKept hL hrules h hload hwait hs
      exact hkept
  | flushed _ hwait =>
      have hkept := waitForNext_sourcesKept hL hrules h hload hwait hs
      exact hkept

end Steps

theorem run_sourcesKept (h : Schedulable g) (hplan : Planned g p)
    (hrun : run P cs (create g p w n) = .ok (evs, s)) :
    SourcesKept g (builtRules evs) s.graph := by
  have hrules := hplan.mem_rules h.twoWay
  have hstart : SourcesKept g (builtRules []) (create g p w n).graph :=
    fun x _ ↦ ⟨fun hd ↦ ⟨hd, by simp⟩, And.left⟩
  have hinv := run_invariant_loadFree
    (fun evs s ↦ Live g p evs s ∧ SourcesKept g (builtRules evs) s.graph) ?_
    (loadFree_of_schedulable h hplan w n cs) hrun ⟨live_create h.exact hplan w n, hstart⟩
  · exact hinv.2
  · intro c _ evs evs' s s' ⟨hlive, hs⟩ hload hstep
    refine ⟨hlive.step h.twoWay hrules hload hstep, ?_⟩
    exact act_sourcesKept h.twoWay hrules (hlive.perturb c) hload.perturb (.of_step hstep) hs

/-- A rule that has been handed out has no dirty generated input. -/
theorem Live.input_clean (hlive : Live g p evs s) (hrules : ∀ r ∈ p.rules, r ∈ g.rules)
    (hexact : s.graph.Exact) {r : RuleId} (hr : r ∈ foundRules evs) {x : NodeId}
    (hx : x ∈ (s.graph.rule r).inputs) (hsource : (s.graph.node x).isSource = false) :
    (s.graph.node x).isDirty = false := by
  have hmem : r ∈ s.graph.rules := by
    rw [Graph.rules_of_links hlive.links]
    exact hrules r (hlive.found_planned r hr)
  have hready := (hexact.ready_iff hmem).mp (hlive.found_ready r hr) x hx
  simpa [Graph.inputReady, hsource] using hready

/-- Whatever happens during a build, the next one can be scheduled. -/
theorem schedulable_run (h : Schedulable g) (hplan : Planned g p)
    (hrun : run P cs (create g p w n) = .ok (evs, s)) : Schedulable s.graph := by
  have hfree : LoadFree P cs (create g p w n) := loadFree_of_schedulable h hplan w n cs
  have hlive := (run_controlled h.twoWay h.exact hplan hfree hrun).1
  have hexact := run_exact h.twoWay h.exact hplan (h.not_overrun hplan) hfree hrun
  have hlinks := hlive.links
  refine ⟨hlinks ▸ h.twoWay, hlinks ▸ h.acyclic, hexact, fun x r hx ↦ ?_, fun r hr x hx hs hd ↦ ?_,
    fun r hr ↦ ?_⟩
  · rw [Graph.childRule_of_links hlinks] at hx
    rw [hlive.node x r hx, hlive.rule r, h.node_dirty_iff x r hx]
  · have hr₀ : r ∈ g.rules := Graph.rules_of_links hlinks ▸ hr
    have hx₀ : x ∈ (g.rule r).inputs := Graph.inputs_of_links hlinks r ▸ hx
    have hs₀ : (g.node x).isSource = false := Graph.isSource_of_links hlinks x ▸ hs
    refine (hlive.rule r).mpr ⟨h.input_dirty r hr₀ x hx₀ hs₀ (hlive.source x hd), fun hbuilt ↦ ?_⟩
    have hclean := hlive.input_clean (hplan.mem_rules h.twoWay) hexact
      (hlive.mem_found.mpr (Or.inl hbuilt)) hx hs
    rw [hd] at hclean
    cases hclean
  · rw [Graph.rules_of_links hlinks] at hr
    rw [Graph.hasDepfile_of_links hlinks]
    exact h.noDepfile r hr

/-- What a build has done to the graph `g` once the rules `built` of its plan
have finished successfully. -/
structure Left (g : Graph) (p : BuildPlan) (built : List RuleId) (g' : Graph) : Prop where
  links : g'.links = g.links
  hashes : g'.hashes = g.hashes
  node : ∀ x r, (g.node x).childRule = some r →
    ((g'.node x).isDirty = false ↔ (g.node x).isDirty = false ∨ r ∈ built)
  rule : ∀ r, (g'.rule r).isDirty = false ↔ (g.rule r).isDirty = false ∨ r ∈ built
  source : ∀ x, (g.node x).childRule = none → (g'.node x).state ≠ (g.node x).state →
    (g'.node x).state = .upToDate ∧ ∃ r ∈ built, x ∈ (g.rule r).inputs
  unbuilt : ∀ r ∈ p.rules, r ∉ built → (g'.rule r).isDirty = true ∧
    ∀ o ∈ (g.rule r).outputs, ∀ m ∈ g.links.Above o, (g'.node m).isDirty = true ∧
      ∀ q ∈ (g.node m).parentRules, (g'.rule q).isDirty = true
  schedulable : Schedulable g'

theorem left_run (h : Schedulable g) (hplan : Planned g p)
    (hrun : run P cs (create g p w n) = .ok (evs, s)) : Left g p (builtRules evs) s.graph := by
  have hfree : LoadFree P cs (create g p w n) := loadFree_of_schedulable h hplan w n cs
  have hlive := (run_controlled h.twoWay h.exact hplan hfree hrun).1
  have hnext := schedulable_run h hplan hrun
  have hlinks := hlive.links
  have hclean : ∀ a b : Bool, ∀ q : Prop,
      (a = true ↔ b = true ∧ ¬q) → (a = false ↔ b = false ∨ q) := by
    rintro (_ | _) (_ | _) q hq <;> simp at hq ⊢ <;> tauto
  refine ⟨hlinks, hlive.hashes, fun x r hx ↦ hclean _ _ _ (hlive.node x r hx),
    fun r ↦ hclean _ _ _ (hlive.rule r), fun x hx hne ↦ ?_, fun r hr hnot ↦ ?_, hnext⟩
  · have hkept := run_sourcesKept h hplan hrun x hx
    have hstates : ∀ k : Node, k.isDirty = true ↔ k.state = .outOfDate := fun k ↦ decide_eq_true_iff
    rw [hstates, hstates] at hkept
    cases hstate : (s.graph.node x).state with
    | outOfDate => exact absurd (hstate.trans (hkept.mp hstate).1.symm) hne
    | upToDate =>
        refine ⟨rfl, ?_⟩
        have hold : (g.node x).state = .outOfDate := by
          cases hx₀ : (g.node x).state with
          | outOfDate => rfl
          | upToDate => exact absurd (hstate.trans hx₀.symm) hne
        by_contra hno
        push Not at hno
        rw [hkept.mpr ⟨hold, hno⟩] at hstate
        cases hstate
  · have hd : (s.graph.rule r).isDirty = true := by
      obtain ⟨o, ho, hod⟩ := hplan.output r hr
      exact (hlive.rule r).mpr ⟨(h.node_dirty_iff o r ho).mp hod, hnot⟩
    refine ⟨hd, fun o ho m hm ↦ ?_⟩
    have hmem : r ∈ s.graph.rules := by
      rw [Graph.rules_of_links hlinks]
      exact hplan.mem_rules h.twoWay r hr
    rw [← hlinks] at hm
    rw [← Graph.outputs_of_links hlinks] at ho
    rw [← Graph.parentRules_of_links hlinks]
    exact hnext.dirty_above hmem hd ho hm

/-- A build of any targets ends, whatever the exit statuses, the interrupts and
the cache are.  The rules that it has built and what they generate are clean,
everything else is as it was, and the next build starts from a consistent graph. -/
theorem build_left (h : Schedulable g) (T : Finset NodeId) (P : Platform ω) (w : ω)
    (hthreads : 1 ≤ n) :
    ∃ p, BuildPlan.create g T = .ok p ∧ ∀ cs : List (Choice ω),
      (∀ f, run P cs (create g p w n) = .error f → CacheFault P f) ∧
      ∀ evs s, run P cs (create g p w n) = .ok (evs, s) →
        (8 * p.rules.card + 5 ≤ cs.length → s.phase = .finished) ∧
        Left g p (builtRules evs) s.graph ∧
        (∀ r ∈ failedRules evs, r ∈ p.rules ∧ r ∉ builtRules evs) ∧
        (s.phase = .finished → ∀ r ∈ foundRules evs,
          r ∈ builtRules evs ∨ r ∈ failedRules evs) := by
  obtain ⟨p, hcreate, hplan⟩ := h.exists_planned T
  refine ⟨p, hcreate, fun cs ↦ ?_⟩
  have hfree : LoadFree P cs (create g p w n) := loadFree_of_schedulable h hplan w n cs
  refine ⟨fun f hf ↦ ?_, fun evs s hrun ↦ ?_⟩
  · have hstart : Live g p [] (create g p w n) := live_create h.exact hplan w n
    rcases run_error h.twoWay (hplan.mem_rules h.twoWay) hstart hfree hf with hfault | ⟨-, hover⟩
    · exact hfault
    · exact absurd hover (h.not_overrun hplan)
  · obtain ⟨hlive, hcontrol⟩ := run_controlled h.twoWay h.exact hplan hfree hrun
    refine ⟨?_, left_run h hplan hrun, fun r hr ↦ ?_, fun hphase r hr ↦ ?_⟩
    · exact fun hlen ↦ finished_of_length h.twoWay h.acyclic h.exact hplan hthreads hlen hfree hrun
    · have hnd := hlive.split.nodup_iff.mp hlive.found_nodup
      rw [List.append_assoc] at hnd
      have hfound : r ∈ foundRules evs := hlive.mem_found.mpr (Or.inr (Or.inl hr))
      refine ⟨hlive.found_planned r hfound, fun hbuilt ↦ ?_⟩
      exact List.disjoint_of_nodup_append hnd hbuilt (List.mem_append_left _ hr)
    · have hcase := hlive.mem_found.mp hr
      rw [hcontrol.drained hphase] at hcase
      simpa using hcase

end Builder

/-- The generator has two outputs, and each of the compilers may fail. -/
theorem build_yaccGraph_left : ∃ p, BuildPlan.create (yaccGraph false) {6} = .ok p ∧
    p.rules = {0, 1, 2, 3} ∧ ∀ cs : List (Choice Unit), 37 ≤ cs.length → ∀ evs s,
      Builder.run emptyPlatform cs (Builder.create (yaccGraph false) p () 2) = .ok (evs, s) →
        s.phase = .finished ∧ Schedulable s.graph ∧
          ((s.graph.node 1).isDirty = false ↔ 0 ∈ builtRules evs) ∧
          ((s.graph.node 2).isDirty = false ↔ 0 ∈ builtRules evs) ∧
          ((s.graph.node 4).isDirty = false ↔ 1 ∈ builtRules evs) ∧
          ((s.graph.node 6).isDirty = false ↔ 3 ∈ builtRules evs) := by
  obtain ⟨p, hcreate, hspec⟩ :=
    Builder.build_left schedulable_yaccGraph {6} emptyPlatform () (n := 2) (by decide)
  obtain rfl : ⟨{0, 1, 2, 3}, {0}, 0⟩ = p :=
    Except.ok.inj ((create_yaccPlan false).symm.trans hcreate)
  refine ⟨_, hcreate, rfl, fun cs hlen evs s hrun ↦ ?_⟩
  obtain ⟨hfinished, hleft, -, -⟩ := (hspec cs).2 evs s hrun
  refine ⟨hfinished (show 8 * 4 + 5 ≤ cs.length from hlen), hleft.schedulable, ?_, ?_, ?_, ?_⟩
  · rw [hleft.node 1 0 rfl]
    exact or_iff_right (by decide)
  · rw [hleft.node 2 0 rfl]
    exact or_iff_right (by decide)
  · rw [hleft.node 4 1 rfl]
    exact or_iff_right (by decide)
  · rw [hleft.node 6 3 rfl]
    exact or_iff_right (by decide)

end Falcon
