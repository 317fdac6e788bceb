import Mathlib.Algebra.BigOperators.Group.List.Basic
import Falcon.Build.Ongoing

/-!
# Runs of the builder

Every step of the builder is one of ten actions.  From this the invariant of
a build is carried through whole runs, and a measure that goes down with every
step before the end bounds their length.
-/

namespace Falcon

open BuildEvent

namespace Builder

variable {ω : Type} (P : Platform ω)

/-- What a successful step does once the outside world has acted. -/
inductive Act (s : Builder ω) (c : Choice ω) : List BuildEvent → Builder ω → Prop
  | enter (hphase : s.phase = .main) (hresult : s.result = .succeeded)
      (hdone : s.plan.done = false) : Act s c [] { s with phase := .spawn }
  | leave (hphase : s.phase = .main)
      (hstop : s.result ≠ .succeeded ∨ s.plan.done = true ∨ s.interrupted = true) :
      Act s c [] { s with phase := .flush }
  | phony {r p s'} (hphase : s.phase = .spawn) (hslot : s.running.length < s.numThreads)
      (hwork : s.plan.findWork = (some r, p))
      (hphony : (s.graph.rule r).isPhony = true)
      (hfinish : { s with plan := p }.onRuleFinished r = .ok s') :
      Act s c [.found r, .built r] s'
  | restored {r p w s'} (hphase : s.phase = .spawn) (hslot : s.running.length < s.numThreads)
      (hwork : s.plan.findWork = (some r, p))
      (hphony : (s.graph.rule r).isPhony = false)
      (hrestore : P.restoreRule s.graph r s.world = .ok (true, w))
      (hfinish : { s with
        plan := p
        graph := s.graph.updateRule r (·.setTimestamp (P.now w))
        world := w }.onRuleFinished r = .ok s') :
      Act s c [.found r, .built r] s'
  | spawned {r p w} (hphase : s.phase = .spawn) (hslot : s.running.length < s.numThreads)
      (hwork : s.plan.findWork = (some r, p))
      (hphony : (s.graph.rule r).isPhony = false)
      (hrestore : P.restoreRule s.graph r s.world = .ok (false, w)) :
      Act s c [.found r] { s with plan := p, world := w, running := r :: s.running }
  | reaped {res evs s'} (hphase : s.phase = .spawn)
      (hwork : s.plan.hasWork = false ∨ s.numThreads ≤ s.running.length)
      (hwait : waitForNext P s c = .ok (res, evs, s')) :
      Act s c evs { s' with result := res, phase := .main }
  | idle (hphase : s.phase = .spawn)
      (hwork : s.plan.hasWork = false ∨ s.numThreads ≤ s.running.length) (hrun : s.running = []) :
      Act s c [] { s with phase := .main }
  | flushed {res evs s'} (hphase : s.phase = .flush)
      (hwait : waitForNext P s c = .ok (res, evs, s')) :
      Act s c evs { s' with result := if s'.result = .succeeded then res else s'.result }
  | finish (hphase : s.phase = .flush) (hrun : s.running = []) :
      Act s c [] { s with phase := .finished }
  | stay (hphase : s.phase = .finished) : Act s c [] s

variable {P} {s s' : Builder ω} {c : Choice ω} {evs : List BuildEvent}

theorem Act.of_buildRule {r : RuleId} {p : BuildPlan} (hphase : s.phase = .spawn)
    (hslot : s.running.length < s.numThreads) (hwork : s.plan.findWork = (some r, p))
    (h : buildRule P { s with plan := p } r = .ok (evs, s')) : Act P s c evs s' := by
  cases hphony : (s.graph.rule r).isPhony with
  | true =>
      simp only [buildRule, hphony, if_true, Lib.bind_eq_ok, Lib.except_pure, Except.ok.injEq,
        Prod.mk.injEq] at h
      obtain ⟨s₁, hfinish, rfl, rfl⟩ := h
      exact .phony hphase hslot hwork hphony hfinish
  | false =>
      simp only [buildRule, hphony, Bool.false_eq_true, if_false, Lib.bind_eq_ok] at h
      obtain ⟨⟨hit, w⟩, hrestore, h⟩ := h
      cases hit with
      | true =>
          simp only [if_true, Lib.bind_eq_ok, Lib.except_pure, Except.ok.injEq,
            Prod.mk.injEq] at h
          obtain ⟨s₁, hfinish, rfl, rfl⟩ := h
          exact .restored hphase hslot hwork hphony hrestore hfinish
      | false =>
          simp only [Bool.false_eq_true, if_false, Lib.bind_eq_ok, Lib.except_pure,
            Except.ok.injEq, Prod.mk.injEq] at h
          obtain ⟨-, -, rfl, rfl⟩ := h
          exact .spawned hphase hslot hwork hphony hrestore

theorem Act.of_step (h : step P s c = .ok (evs, s')) : Act P (s.perturb c) c evs s' := by
  simp only [step] at h
  generalize s.perturb c = s₁ at h ⊢
  cases hphase : s₁.phase with
  | main =>
      simp only [hphase] at h
      split at h
      · rename_i hgo
        simp only [Bool.and_eq_true, decide_eq_true_eq, Bool.not_eq_true'] at hgo
        simp only [Lib.except_pure, Except.ok.injEq, Prod.mk.injEq] at h
        obtain ⟨rfl, rfl⟩ := h
        exact .enter hphase hgo.1.1 hgo.1.2
      · rename_i hstop
        simp only [Bool.and_eq_true, decide_eq_true_eq, Bool.not_eq_true'] at hstop
        simp only [Lib.except_pure, Except.ok.injEq, Prod.mk.injEq] at h
        obtain ⟨rfl, rfl⟩ := h
        refine .leave hphase ?_
        by_contra hno
        push Not at hno
        exact hstop ⟨⟨hno.1, by simpa using hno.2.1⟩, by simpa using hno.2.2⟩
  | spawn =>
      simp only [hphase] at h
      split at h
      · rename_i hslot
        simp only [Bool.and_eq_true, decide_eq_true_eq] at hslot
        split at h
        · cases h
        · rename_i r p hwork
          exact .of_buildRule hphase hslot.2 hwork (by simpa only [hphase] using h)
      · rename_i hslot
        simp only [Bool.and_eq_true, decide_eq_true_eq, not_and_or, Bool.not_eq_true,
          not_lt] at hslot
        split at h
        · simp only [Lib.bind_eq_ok, Lib.except_pure, Except.ok.injEq, Prod.mk.injEq] at h
          obtain ⟨⟨res, evs', s₂⟩, hwait, rfl, rfl⟩ := h
          exact .reaped hphase hslot hwait
        · rename_i hrun
          simp only [Lib.except_pure, Except.ok.injEq, Prod.mk.injEq] at h
          obtain ⟨rfl, rfl⟩ := h
          exact .idle hphase hslot (List.eq_nil_of_length_eq_zero (by omega))
  | flush =>
      simp only [hphase] at h
      split at h
      · simp only [Lib.bind_eq_ok, Lib.except_pure, Except.ok.injEq, Prod.mk.injEq] at h
        obtain ⟨⟨res, evs', s₂⟩, hwait, rfl, rfl⟩ := h
        exact .flushed hphase hwait
      · rename_i hrun
        simp only [Lib.except_pure, Except.ok.injEq, Prod.mk.injEq] at h
        obtain ⟨rfl, rfl⟩ := h
        exact .finish hphase (List.eq_nil_of_length_eq_zero (by omega))
  | finished =>
      simp only [hphase, Lib.except_pure, Except.ok.injEq, Prod.mk.injEq] at h
      obtain ⟨rfl, rfl⟩ := h
      exact .stay hphase

/-- What `waitForNext` does for the command of rule `r`, which has no depfile;
`rest` are the rules still in the process manager. -/
inductive Reaped (P : Platform ω) (s : Builder ω) (c : Choice ω) (r : RuleId)
    (rest : List RuleId) : BuildResult → List BuildEvent → Builder ω → Prop
  | failed {res} (hstatus : c.status ≠ .succeeded) (hres : res ≠ .succeeded) :
      Reaped P s c r rest res [.failed r] { s with
        running := rest
        graph := s.graph.updateRule r (·.setTimestamp (P.now s.world)) }
  | built {w s'} (hstatus : c.status = .succeeded)
      (hdep : (s.graph.rule r).hasDepfile = false)
      (hsave : P.saveRule (s.graph.updateRule r (·.setTimestamp (P.now s.world))) r s.world =
        .ok w)
      (hfinish : { s with
        running := rest
        graph := s.graph.updateRule r (·.setTimestamp (P.now s.world))
        world := w }.onRuleFinished r = .ok s') :
      Reaped P s c r rest .succeeded [.built r] s'

theorem perm_eraseIdx {l : List RuleId} {i : ℕ} {r : RuleId} (h : l[i]? = some r) :
    l.Perm (r :: l.eraseIdx i) := by
  obtain ⟨hi, rfl⟩ := List.getElem?_eq_some_iff.mp h
  exact (List.getElem_cons_eraseIdx_perm hi).symm

/-- The step does not reap a command that has written a depfile. -/
def NoLoad (s : Builder ω) (c : Choice ω) : Prop :=
  c.status = .succeeded → ∀ r, s.running[c.next % s.running.length]? = some r →
    (s.graph.rule r).hasDepfile = false

theorem NoLoad.perturb (h : s.NoLoad c) : (s.perturb c).NoLoad c := h

/-- The next step waits for a command, if any is running. -/
def Reaps (s : Builder ω) : Prop :=
  s.phase = .flush ∨ s.phase = .spawn ∧ (s.plan.hasWork = false ∨ s.numThreads ≤ s.running.length)

theorem hasWork_of_findWork {p p' : BuildPlan} {r : RuleId} (h : p.findWork = (some r, p')) :
    p.hasWork = true := by
  obtain ⟨hr, -⟩ := Ongoing.findWork_eq_some h
  simpa [BuildPlan.hasWork] using Finset.ne_empty_of_mem hr

theorem Reaps.not_found (hreaps : s.Reaps) (hspawn : s.phase = .spawn)
    (hslot : s.running.length < s.numThreads) {r : RuleId} {p' : BuildPlan}
    (hwork : s.plan.findWork = (some r, p')) : False := by
  have hsome := hasWork_of_findWork hwork
  rcases hreaps with hflush | ⟨-, hidle | hfull⟩
  · rw [hspawn] at hflush
    cases hflush
  · rw [hsome] at hidle
    cases hidle
  · omega

theorem Act.wait_of_reaps (hreaps : s.Reaps) (hne : s.running ≠ []) (ha : Act P s c evs s') :
    ∃ res s₁, waitForNext P s c = .ok (res, evs, s₁) ∧ s'.graph = s₁.graph := by
  cases ha with
  | reaped _ _ hwait => exact ⟨_, _, hwait, rfl⟩
  | flushed _ hwait => exact ⟨_, _, hwait, rfl⟩
  | phony hspawn hslot hwork => exact (hreaps.not_found hspawn hslot hwork).elim
  | restored hspawn hslot hwork => exact (hreaps.not_found hspawn hslot hwork).elim
  | spawned hspawn hslot hwork => exact (hreaps.not_found hspawn hslot hwork).elim
  | idle _ _ hrun => exact absurd hrun hne
  | finish _ hrun => exact absurd hrun hne
  | enter hmain => rcases hreaps with hflush | ⟨hspawn, -⟩ <;> simp_all
  | leave hmain => rcases hreaps with hflush | ⟨hspawn, -⟩ <;> simp_all
  | stay hfin => rcases hreaps with hflush | ⟨hspawn, -⟩ <;> simp_all

theorem Reaped.of_waitForNext {res : BuildResult} (hload : s.NoLoad c)
    (h : waitForNext P s c = .ok (res, evs, s')) :
    ∃ r rest, s.running[c.next % s.running.length]? = some r ∧ s.running.Perm (r :: rest) ∧
      Reaped P s c r rest res evs s' := by
  rw [waitForNext] at h
  split at h
  · cases h
  · rename_i r hr
    refine ⟨r, _, hr, perm_eraseIdx hr, ?_⟩
    simp only [reap] at h
    split at h
    · rename_i hstatus
      simp only [Lib.except_pure, Except.ok.injEq, Prod.mk.injEq] at h
      obtain ⟨rfl, rfl, rfl⟩ := h
      refine .failed hstatus ?_
      split <;> simp
    · rename_i hstatus
      have hstatus' : c.status = .succeeded := by simpa using hstatus
      have hdep := hload hstatus' r hr
      have hnodep := hdep
      rw [← Graph.hasDepfile_of_links (s.graph.links_setTimestamp r (P.now s.world))] at hnodep
      simp only [loadDepfile, hnodep, Bool.false_eq_true, if_false, Lib.except_pure,
        Lib.except_ok_bind,
        Bool.not_true, Lib.bind_eq_ok, Except.ok.injEq, Prod.mk.injEq] at h
      obtain ⟨w, hsave, s₁, hfinish, rfl, rfl, rfl⟩ := h
      exact .built hstatus' hdep hsave hfinish

/-- An invariant of the events, of the choices that are left and of the state. -/
theorem run_rule {cs : List (Choice ω)} {evs' : List BuildEvent}
    (I : List BuildEvent → List (Choice ω) → Builder ω → Prop)
    (hstep : ∀ c cs evs evs' s s', I evs (c :: cs) s → step P s c = .ok (evs', s') →
      I (evs ++ evs') cs s')
    (hrun : run P cs s = .ok (evs', s')) (h : I evs cs s) : I (evs ++ evs') [] s' := by
  induction cs generalizing s evs evs' with
  | nil =>
      simp only [Builder.run, Lib.except_pure, Except.ok.injEq, Prod.mk.injEq] at hrun
      obtain ⟨rfl, rfl⟩ := hrun
      simpa using h
  | cons c cs ih =>
      simp only [Builder.run, Lib.bind_eq_ok, Lib.except_pure, Except.ok.injEq,
        Prod.mk.injEq] at hrun
      obtain ⟨⟨evs₁, s₁⟩, hfirst, ⟨evs₂, s₂⟩, hrest, rfl, rfl⟩ := hrun
      rw [← List.append_assoc]
      exact ih hrest (hstep c cs evs evs₁ s s₁ h hfirst)

/-- An invariant of the steps is one of the runs. -/
theorem run_invariant {cs : List (Choice ω)} {evs' : List BuildEvent}
    (I : List BuildEvent → Builder ω → Prop)
    (hstep : ∀ c ∈ cs, ∀ evs evs' s s', I evs s → step P s c = .ok (evs', s') → I (evs ++ evs') s')
    (hrun : run P cs s = .ok (evs', s')) (h : I evs s) : I (evs ++ evs') s' := by
  refine (run_rule (fun evs ds s ↦ ds ⊆ cs ∧ I evs s) ?_ hrun ⟨List.Subset.refl cs, h⟩).2
  rintro c ds evs evs' s s' ⟨hsub, hI⟩ hfirst
  obtain ⟨hc, hds⟩ := List.cons_subset.mp hsub
  exact ⟨hds, hstep c hc evs evs' s s' hI hfirst⟩

/-- No step of the run loads a depfile. -/
def LoadFree (P : Platform ω) : List (Choice ω) → Builder ω → Prop
  | [], _ => True
  | c :: cs, s => s.NoLoad c ∧ ∀ evs s', step P s c = .ok (evs, s') → LoadFree P cs s'

/-- An invariant of the steps that load no depfile is one of such runs. -/
theorem run_invariant_loadFree {cs : List (Choice ω)} {evs' : List BuildEvent}
    (I : List BuildEvent → Builder ω → Prop)
    (hstep : ∀ c ∈ cs, ∀ evs evs' s s', I evs s → s.NoLoad c → step P s c = .ok (evs', s') →
      I (evs ++ evs') s')
    (hfree : LoadFree P cs s) (hrun : run P cs s = .ok (evs', s')) (h : I evs s) :
    I (evs ++ evs') s' := by
  refine (run_rule (fun evs ds s ↦ ds ⊆ cs ∧ LoadFree P ds s ∧ I evs s) ?_ hrun
    ⟨List.Subset.refl cs, hfree, h⟩).2.2
  rintro c ds evs evs' s s' ⟨hsub, hload, hI⟩ hfirst
  obtain ⟨hc, hds⟩ := List.cons_subset.mp hsub
  exact ⟨hds, hload.2 evs' s' hfirst, hstep c hc evs evs' s s' hI hload.1 hfirst⟩

/-- The events of a build account for its state. -/
structure Live (g₀ : Graph) (p₀ : BuildPlan) (evs : List BuildEvent) (s : Builder ω) : Prop
    extends Ongoing g₀ p₀ (foundRules evs) (builtRules evs) (failedRules evs) s.running s.graph
      s.plan where
  command : ∀ r ∈ s.running, (g₀.rule r).isPhony = false

theorem Live.perturb {g₀ : Graph} {p₀ : BuildPlan} (h : Live g₀ p₀ evs s) (c : Choice ω) :
    Live g₀ p₀ evs (s.perturb c) :=
  ⟨h.toOngoing, h.command⟩

/-- Some rule of the plan has a clean output that another rule uses. -/
def Overrun (g₀ : Graph) (p₀ : BuildPlan) : Prop :=
  ∃ r ∈ p₀.rules, ∃ q ∈ g₀.rules, 0 < cleanReports g₀ q r

/-- The cache did not answer with a value. -/
def CacheFault (P : Platform ω) (f : Fault) : Prop :=
  (∃ g r w, P.restoreRule g r w = .error f) ∨ ∃ g r w, P.saveRule g r w = .error f

section Spec

variable {g₀ : Graph} {p₀ : BuildPlan} {found built failed rest : List RuleId} {r : RuleId}

theorem overrun_of_excess {l : List RuleId} (hl : ∀ r ∈ l, r ∈ p₀.rules) {q : RuleId}
    (hq : q ∈ g₀.rules) (hpos : 0 < excess g₀ l q) : Overrun g₀ p₀ := by
  by_contra hno
  have hzero : excess g₀ l q = 0 := excess_eq_zero fun r hr ↦ by
    by_contra hne
    exact hno ⟨r, hl r hr, q, hq, Nat.pos_of_ne_zero hne⟩
  omega

/-- If every rule of the plan reports dirty outputs only, the counters stay exact. -/
theorem Live.exact (h : Live g₀ p₀ evs s) (hfresh : ¬ Overrun g₀ p₀) : s.graph.Exact := by
  intro q hq
  rw [Graph.rules_of_links h.links] at hq
  have hzero : excess g₀ (builtRules evs) q = 0 := by
    by_contra hne
    refine hfresh (overrun_of_excess ?_ hq (Nat.pos_of_ne_zero hne))
    exact fun r hr ↦ h.found_planned r (h.mem_found.mpr (Or.inl hr))
  rw [h.numReady q hq, hzero, add_zero]

variable (hL : g₀.links.TwoWay) (hrules : ∀ r ∈ p₀.rules, r ∈ g₀.rules)
include hL hrules

theorem onRuleFinished_spec
    (h : Ongoing g₀ p₀ found built failed (r :: rest) s.graph s.plan) :
    (∃ g' p', s.onRuleFinished r = .ok { s with graph := g', plan := p' } ∧
      s.graph.Cleaned (Graph.finishedNodes s.graph.links r) {r}
        (fun q ↦ (Graph.reportsOf s.graph.links r).count q) g' ∧
      Ongoing g₀ p₀ found (built ++ [r]) failed rest g' p') ∨
    (s.onRuleFinished r = .error (.assertion .inputReadyBound) ∧ Overrun g₀ p₀) := by
  rcases s.graph.finishRule_spec r with ⟨hroom, g', hrun, hclean⟩ | ⟨hroom, hrun⟩
  · obtain ⟨p', hnotify, hongoing⟩ := h.finish hL hrules hroom hclean
    exact Or.inl ⟨g', p', by simp [onRuleFinished, hrun, hnotify], hclean, hongoing⟩
  · obtain ⟨q, hq, hpos⟩ := h.excess_of_not_room hL hrules hroom
    refine Or.inr ⟨by simp [onRuleFinished, hrun], overrun_of_excess ?_ hq hpos⟩
    intro x hx
    apply h.found_planned x
    rw [h.mem_found]
    rcases List.mem_append.mp hx with hx | hx
    · exact Or.inl hx
    · exact Or.inr (Or.inr (by simp_all))

theorem onRuleFinished_ok (h : Ongoing g₀ p₀ found built failed (r :: rest) s.graph s.plan)
    (hrun : s.onRuleFinished r = .ok s') :
    ∃ g' p', s' = { s with graph := g', plan := p' } ∧
      s.graph.Cleaned (Graph.finishedNodes s.graph.links r) {r}
        (fun q ↦ (Graph.reportsOf s.graph.links r).count q) g' ∧
      Ongoing g₀ p₀ found (built ++ [r]) failed rest g' p' := by
  rcases onRuleFinished_spec hL hrules h with ⟨g', p', hok, hclean, hongoing⟩ | ⟨herr, -⟩
  · rw [hrun] at hok
    exact ⟨g', p', Except.ok.inj hok, hclean, hongoing⟩
  · rw [hrun] at herr
    cases herr

theorem Live.reaped {res : BuildResult} {evs' : List BuildEvent} (h : Live g₀ p₀ evs s)
    (hperm : s.running.Perm (r :: rest)) (hr : Reaped P s c r rest res evs' s') :
    Live g₀ p₀ (evs ++ evs') s' := by
  have hhand := (h.toOngoing.perm hperm).touch_setTimestamp r (P.now s.world)
  have hcommand : ∀ q ∈ rest, (g₀.rule q).isPhony = false :=
    fun q hq ↦ h.command q (hperm.mem_iff.mpr (List.mem_cons_of_mem r hq))
  cases hr with
  | failed => exact ⟨by simpa using hhand.fail, hcommand⟩
  | built _ _ _ hfinish =>
      obtain ⟨g', p', rfl, -, hongoing⟩ := onRuleFinished_ok hL hrules hhand hfinish
      exact ⟨by simpa using hongoing, hcommand⟩

theorem Live.act_of_reaps {evs' : List BuildEvent} (h : Live g₀ p₀ evs s)
    (hload : s.Reaps → s.NoLoad c) (ha : Act P s c evs' s') : Live g₀ p₀ (evs ++ evs') s' := by
  cases ha with
  | enter => exact ⟨by simpa using h.toOngoing, h.command⟩
  | leave => exact ⟨by simpa using h.toOngoing, h.command⟩
  | idle => exact ⟨by simpa using h.toOngoing, h.command⟩
  | finish => exact ⟨by simpa using h.toOngoing, h.command⟩
  | stay => exact ⟨by simpa using h.toOngoing, h.command⟩
  | phony _ _ hwork _ hfinish =>
      obtain ⟨-, -, -, htake⟩ := h.take hwork
      obtain ⟨g', p', rfl, -, hongoing⟩ := onRuleFinished_ok hL hrules htake hfinish
      exact ⟨by simpa using hongoing, h.command⟩
  | restored _ _ hwork _ _ hfinish =>
      obtain ⟨-, -, -, htake⟩ := h.take hwork
      obtain ⟨g', p', rfl, -, hongoing⟩ :=
        onRuleFinished_ok hL hrules (htake.touch_setTimestamp _ _) hfinish
      exact ⟨by simpa using hongoing, h.command⟩
  | spawned _ _ hwork hphony =>
      obtain ⟨-, -, -, htake⟩ := h.take hwork
      refine ⟨by simpa using htake, fun q hq ↦ ?_⟩
      rcases List.mem_cons.mp hq with rfl | hq
      · rw [← Graph.isPhony_of_links h.links]
        exact hphony
      · exact h.command q hq
  | reaped hphase hwork hwait =>
      obtain ⟨r, rest, -, hperm, hr⟩ :=
        Reaped.of_waitForNext (hload (Or.inr ⟨hphase, hwork⟩)) hwait
      have hlive := Live.reaped hL hrules h hperm hr
      exact ⟨hlive.toOngoing, hlive.command⟩
  | flushed hphase hwait =>
      obtain ⟨r, rest, -, hperm, hr⟩ := Reaped.of_waitForNext (hload (Or.inl hphase)) hwait
      have hlive := Live.reaped hL hrules h hperm hr
      exact ⟨hlive.toOngoing, hlive.command⟩

theorem Live.act {evs' : List BuildEvent} (h : Live g₀ p₀ evs s) (hload : s.NoLoad c)
    (ha : Act P s c evs' s') : Live g₀ p₀ (evs ++ evs') s' :=
  Live.act_of_reaps hL hrules h (fun _ ↦ hload) ha

theorem Live.step {evs' : List BuildEvent} (h : Live g₀ p₀ evs s) (hload : s.NoLoad c)
    (hstep : step P s c = .ok (evs', s')) : Live g₀ p₀ (evs ++ evs') s' :=
  Live.act hL hrules (h.perturb c) hload (.of_step hstep)

theorem buildRule_error {p : BuildPlan} {f : Fault} (h : Live g₀ p₀ evs s)
    (hwork : s.plan.findWork = (some r, p))
    (herr : buildRule P { s with plan := p } r = .error f) :
    CacheFault P f ∨ f = .assertion .inputReadyBound ∧ Overrun g₀ p₀ := by
  obtain ⟨-, -, -, htake⟩ := h.take hwork
  cases hphony : (s.graph.rule r).isPhony with
  | true =>
      simp only [buildRule, hphony, if_true] at herr
      rcases onRuleFinished_spec (s := { s with plan := p }) hL hrules htake with
        ⟨g', p', hok, -, -⟩ | ⟨hfail, hover⟩
      · simp [hok] at herr
      · simp only [hfail, Lib.except_error_bind, Except.error.injEq] at herr
        exact Or.inr ⟨herr.symm, hover⟩
  | false =>
      simp only [buildRule, hphony, Bool.false_eq_true, if_false] at herr
      rcases Lib.bind_eq_error.mp herr with hrestore | ⟨⟨hit, w⟩, -, herr⟩
      · exact Or.inl (Or.inl ⟨_, _, _, hrestore⟩)
      · cases hit with
        | true =>
            simp only [if_true] at herr
            rcases onRuleFinished_spec (s := { s with
                plan := p
                graph := s.graph.updateRule r (·.setTimestamp (P.now w))
                world := w }) hL hrules (htake.touch_setTimestamp r (P.now w)) with
              ⟨g', p', hok, -, -⟩ | ⟨hfail, hover⟩
            · simp [hok] at herr
            · simp only [hfail, Lib.except_error_bind, Except.error.injEq] at herr
              exact Or.inr ⟨herr.symm, hover⟩
        | false =>
            have hcommand : (s.graph.rule r).command ≠ "" := by simpa [Rule.isPhony] using hphony
            simp [hcommand] at herr

theorem waitForNext_error {f : Fault} (h : Live g₀ p₀ evs s) (hload : s.NoLoad c)
    (hrun : s.running ≠ []) (herr : waitForNext P s c = .error f) :
    CacheFault P f ∨ f = .assertion .inputReadyBound ∧ Overrun g₀ p₀ := by
  have hlt : c.next % s.running.length < s.running.length :=
    Nat.mod_lt _ (List.length_pos_of_ne_nil hrun)
  have hget := List.getElem?_eq_getElem hlt
  generalize hr : s.running[c.next % s.running.length] = r at hget
  have hhand := (h.toOngoing.perm (perm_eraseIdx hget)).touch_setTimestamp r (P.now s.world)
  simp only [waitForNext, hget, reap] at herr
  split at herr
  · cases herr
  · rename_i hstatus
    have hnodep := hload (by simpa using hstatus) r hget
    rw [← Graph.hasDepfile_of_links (s.graph.links_setTimestamp r (P.now s.world))] at hnodep
    simp only [loadDepfile, hnodep, Bool.false_eq_true, if_false, Lib.except_pure,
      Lib.except_ok_bind,
      Bool.not_true] at herr
    rcases Lib.bind_eq_error.mp herr with hsave | ⟨w, -, herr⟩
    · exact Or.inl (Or.inr ⟨_, _, _, hsave⟩)
    · rcases onRuleFinished_spec (s := { s with
          running := s.running.eraseIdx (c.next % s.running.length)
          graph := s.graph.updateRule r (·.setTimestamp (P.now s.world))
          world := w }) hL hrules hhand with ⟨g', p', hok, -, -⟩ | ⟨hfail, hover⟩
      · simp [hok] at herr
      · simp only [hfail, Lib.except_error_bind, Except.error.injEq] at herr
        exact Or.inr ⟨herr.symm, hover⟩

/-- A step of a build fails in the cache, or by counting an input twice. -/
theorem step_error_of_reaps {f : Fault} (h : Live g₀ p₀ evs s) (hload : s.Reaps → s.NoLoad c)
    (herr : step P s c = .error f) :
    CacheFault P f ∨ f = .assertion .inputReadyBound ∧ Overrun g₀ p₀ := by
  have h₁ : Live g₀ p₀ evs (s.perturb c) := h.perturb c
  have hload₁ : (s.perturb c).Reaps → (s.perturb c).NoLoad c := hload
  simp only [Builder.step] at herr
  generalize s.perturb c = s₁ at herr h₁ hload₁
  cases hphase : s₁.phase with
  | main =>
      simp only [hphase] at herr
      split at herr <;> cases herr
  | spawn =>
      simp only [hphase] at herr
      split at herr
      · rename_i hslot
        split at herr
        · rename_i p hwork
          simp only [Bool.and_eq_true, BuildPlan.hasWork, decide_eq_true_eq] at hslot
          obtain ⟨q, hq⟩ := Finset.nonempty_of_ne_empty hslot.1
          have hne : s₁.plan.readyRules.sort (· ≤ ·) ≠ [] :=
            List.ne_nil_of_mem ((Finset.mem_sort _).mpr hq)
          simp only [BuildPlan.findWork, List.head?_eq_some_head hne] at hwork
          cases hwork
        · rename_i r p hwork
          exact buildRule_error hL hrules h₁ hwork (by simpa only [hphase] using herr)
      · rename_i hslot
        simp only [Bool.and_eq_true, decide_eq_true_eq, not_and_or, Bool.not_eq_true,
          not_lt] at hslot
        split at herr
        · rename_i hrun
          rcases Lib.bind_eq_error.mp herr with hwait | ⟨x, -, hpure⟩
          · exact waitForNext_error hL hrules h₁ (hload₁ (Or.inr ⟨hphase, hslot⟩))
              (List.ne_nil_of_length_pos hrun)
              (by simpa only [hphase] using hwait)
          · cases hpure
        · cases herr
  | flush =>
      simp only [hphase] at herr
      split at herr
      · rename_i hrun
        rcases Lib.bind_eq_error.mp herr with hwait | ⟨x, -, hpure⟩
        · exact waitForNext_error hL hrules h₁ (hload₁ (Or.inl hphase))
            (List.ne_nil_of_length_pos hrun)
            (by simpa only [hphase] using hwait)
        · cases hpure
      · cases herr
  | finished =>
      simp only [hphase] at herr
      cases herr

theorem step_error {f : Fault} (h : Live g₀ p₀ evs s) (hload : s.NoLoad c)
    (herr : step P s c = .error f) :
    CacheFault P f ∨ f = .assertion .inputReadyBound ∧ Overrun g₀ p₀ :=
  step_error_of_reaps hL hrules h (fun _ ↦ hload) herr

variable (hdep : ∀ r ∈ p₀.rules, (g₀.rule r).isPhony = false → (g₀.rule r).hasDepfile = false)
include hdep

omit hL hrules in
theorem Live.noLoad (h : Live g₀ p₀ evs s) (c : Choice ω) : s.NoLoad c := by
  intro _ r hr
  have hmem : r ∈ s.running := List.mem_of_getElem? hr
  rw [Graph.hasDepfile_of_links h.links]
  exact hdep r (h.found_planned r (h.mem_found_of_hand hmem)) (h.command r hmem)

/-- A plan without depfiles loads none. -/
theorem Live.loadFree (h : Live g₀ p₀ evs s) (cs : List (Choice ω)) : LoadFree P cs s := by
  induction cs generalizing s evs with
  | nil => trivial
  | cons c cs ih =>
      have hload := h.noLoad hdep c
      exact ⟨hload, fun evs' s' hstep ↦ ih (h.step hL hrules hload hstep)⟩

omit hdep in
theorem run_error {cs : List (Choice ω)} {f : Fault} (h : Live g₀ p₀ evs s)
    (hfree : LoadFree P cs s) (herr : run P cs s = .error f) :
    CacheFault P f ∨ f = .assertion .inputReadyBound ∧ Overrun g₀ p₀ := by
  induction cs generalizing s evs with
  | nil => cases herr
  | cons c cs ih =>
      rw [Builder.run] at herr
      rcases Lib.bind_eq_error.mp herr with hstep | ⟨⟨evs₁, s₁⟩, hstep, herr⟩
      · exact step_error hL hrules h hfree.1 hstep
      · rcases Lib.bind_eq_error.mp herr with hrest | ⟨x, -, hpure⟩
        · exact ih (h.step hL hrules hfree.1 hstep) (hfree.2 evs₁ s₁ hstep) hrest
        · cases hpure

end Spec

end Builder

end Falcon
