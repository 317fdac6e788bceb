import Falcon.Build.Run
import Falcon.Graph.DepfileParser

/-!
# Scheduling

The loops of `buildThread` end, and while no command fails they end with every
rule of the plan built.  Nothing is assumed about the order in which commands
finish or about what the cache answers.
-/

namespace Falcon

open BuildEvent

namespace Builder

variable {ω : Type} {P : Platform ω} {s s' : Builder ω} {c : Choice ω}
  {evs evs' : List BuildEvent} {g₀ : Graph} {p₀ : BuildPlan}

/-- The control state of a build against its events. -/
structure Controlled (evs : List BuildEvent) (s : Builder ω) : Prop where
  result_iff : s.result = .succeeded ↔ failedRules evs = []
  spawn : s.phase = .spawn → s.result = .succeeded
  stopped : s.phase = .flush ∨ s.phase = .finished →
    s.result ≠ .succeeded ∨ s.plan.done = true ∨ s.interrupted = true
  drained : s.phase = .finished → s.running = []

theorem controlled_create (g : Graph) (p : BuildPlan) (w : ω) (n : ℕ) :
    Controlled [] (create g p w n) where
  result_iff := by simp [create]
  spawn := by simp [create]
  stopped := by simp [create]
  drained := by simp [create]

theorem Controlled.perturb (h : Controlled evs s) (c : Choice ω) :
    Controlled evs (s.perturb c) where
  result_iff := h.result_iff
  spawn := h.spawn
  stopped hphase := by
    rcases h.stopped hphase with hr | hd | hi
    · exact Or.inl hr
    · exact Or.inr (Or.inl hd)
    · refine Or.inr (Or.inr ?_)
      simp [Builder.perturb, hi]
  drained := h.drained

theorem Live.done_iff (h : Live g₀ p₀ evs s) :
    s.plan.done = true ↔ (foundRules evs).length = p₀.rules.card := by
  rw [BuildPlan.done, decide_eq_true_eq, h.numStarted, h.rules]

theorem Live.found_le (h : Live g₀ p₀ evs s) : (foundRules evs).length ≤ p₀.rules.card := by
  rw [← List.toFinset_card_of_nodup h.found_nodup]
  apply Finset.card_le_card
  intro r hr
  exact h.found_planned r (List.mem_toFinset.mp hr)

theorem Live.found_of_done (h : Live g₀ p₀ evs s) (hdone : s.plan.done = true) {r : RuleId}
    (hr : r ∈ p₀.rules) : r ∈ foundRules evs := by
  have hsub : (foundRules evs).toFinset ⊆ p₀.rules :=
    fun q hq ↦ h.found_planned q (List.mem_toFinset.mp hq)
  have hcard : p₀.rules.card ≤ (foundRules evs).toFinset.card := by
    rw [List.toFinset_card_of_nodup h.found_nodup, h.done_iff.mp hdone]
  rw [← List.mem_toFinset, Finset.eq_of_subset_of_card_le hsub hcard]
  exact hr

/-- Where nothing failed, the end of the loops means that all is built. -/
theorem Controlled.built_of_finished (hc : Controlled evs s) (h : Live g₀ p₀ evs s)
    (hnone : failedRules evs = []) (hint : s.interrupted = false) (hphase : s.phase = .finished)
    {r : RuleId} (hr : r ∈ p₀.rules) : r ∈ builtRules evs := by
  have hdone : s.plan.done = true := by
    rcases hc.stopped (Or.inr hphase) with hres | hdone | hstop
    · exact absurd (hc.result_iff.mpr hnone) hres
    · exact hdone
    · rw [hint] at hstop
      cases hstop
  have hcase := h.mem_found.mp (h.found_of_done hdone hr)
  rw [hnone, hc.drained hphase] at hcase
  simpa using hcase

section Act

variable (hL : g₀.links.TwoWay) (hrules : ∀ r ∈ p₀.rules, r ∈ g₀.rules)
include hL hrules

/-- Reaping a command changes neither the phase nor the result of the builder,
which are assigned by its caller. -/
theorem Live.waitForNext_frame {res : BuildResult} (hload : s.NoLoad c) (h : Live g₀ p₀ evs s)
    (hwait : waitForNext P s c = .ok (res, evs', s')) :
    s'.phase = s.phase ∧ s'.result = s.result ∧ s'.interrupted = s.interrupted ∧
      s'.numThreads = s.numThreads ∧ s'.running.length + 1 = s.running.length ∧
      foundRules evs' = [] ∧ (res = .succeeded ↔ failedRules evs' = []) ∧
      (c.status = .succeeded → res = .succeeded) := by
  obtain ⟨r, rest, -, hperm, hr⟩ := Reaped.of_waitForNext hload hwait
  have hlen : s.running.length = rest.length + 1 := hperm.length_eq
  cases hr with
  | failed hstatus hres => simp [hlen, hres, hstatus]
  | built _ _ _ hfinish =>
      have hhand := (h.toOngoing.perm hperm).touch_setTimestamp r (P.now s.world)
      obtain ⟨g', p', rfl, -, -⟩ := onRuleFinished_ok hL hrules hhand hfinish
      simp [hlen]

variable (hload : s.Reaps → s.NoLoad c)
include hload

/-- The actions of the builder as far as its control state goes. -/
theorem Live.control_cases (h : Live g₀ p₀ evs s) (ha : Act P s c evs' s') :
    (∃ r, s.phase = .spawn ∧ foundRules evs' = [r] ∧ failedRules evs' = [] ∧
      s'.phase = .spawn ∧ s'.result = s.result ∧ s'.interrupted = s.interrupted ∧
      s'.numThreads = s.numThreads ∧ s'.running.length ≤ s.running.length + 1) ∨
    (∃ res, foundRules evs' = [] ∧ (res = .succeeded ↔ failedRules evs' = []) ∧
      (c.status = .succeeded → res = .succeeded) ∧ s'.interrupted = s.interrupted ∧
      s'.numThreads = s.numThreads ∧ s'.running.length + 1 = s.running.length ∧
      (s.phase = .spawn ∧ (s.plan.hasWork = false ∨ s.numThreads ≤ s.running.length) ∧
          s'.phase = .main ∧ s'.result = res ∨
        s.phase = .flush ∧ s'.phase = .flush ∧
          s'.result = if s.result = .succeeded then res else s.result)) ∨
    evs' = [] ∧ ∃ phase, s' = { s with phase := phase } ∧
      (s.phase = .main ∧ phase = .spawn ∧ s.result = .succeeded ∧ s.plan.done = false ∨
        s.phase = .main ∧ phase = .flush ∧
          (s.result ≠ .succeeded ∨ s.plan.done = true ∨ s.interrupted = true) ∨
        s.phase = .spawn ∧ phase = .main ∧ s.running = [] ∧
          (s.plan.hasWork = false ∨ s.numThreads ≤ s.running.length) ∨
        s.phase = .flush ∧ phase = .finished ∧ s.running = [] ∨
        s.phase = .finished ∧ phase = .finished) := by
  cases ha with
  | phony hphase _ hwork _ hfinish =>
      obtain ⟨-, -, -, htake⟩ := h.take hwork
      obtain ⟨g', p', rfl, -, -⟩ := onRuleFinished_ok hL hrules htake hfinish
      exact Or.inl ⟨_, hphase, rfl, by simp [hphase]⟩
  | restored hphase _ hwork _ _ hfinish =>
      obtain ⟨-, -, -, htake⟩ := h.take hwork
      obtain ⟨g', p', rfl, -, -⟩ :=
        onRuleFinished_ok hL hrules (htake.touch_setTimestamp _ _) hfinish
      exact Or.inl ⟨_, hphase, rfl, by simp [hphase]⟩
  | spawned hphase => exact Or.inl ⟨_, hphase, rfl, by simp [hphase]⟩
  | reaped hphase hwork hwait =>
      obtain ⟨-, -, hint, hthreads, hlen, hfound, hres, hok⟩ :=
        h.waitForNext_frame hL hrules (hload (Or.inr ⟨hphase, hwork⟩)) hwait
      exact Or.inr (Or.inl ⟨_, hfound, hres, hok, hint, hthreads, hlen, 
        Or.inl ⟨hphase, hwork, rfl, rfl⟩⟩)
  | flushed hphase hwait =>
      obtain ⟨hphase', hresult, hint, hthreads, hlen, hfound, hres, hok⟩ :=
        h.waitForNext_frame hL hrules (hload (Or.inl hphase)) hwait
      refine Or.inr (Or.inl ⟨_, hfound, hres, hok, hint, hthreads, hlen, Or.inr ⟨hphase, ?_, ?_⟩⟩)
      · exact hphase'.trans hphase
      · simp only [hresult]
  | enter hphase hresult hdone =>
      exact Or.inr (Or.inr ⟨rfl, _, rfl, Or.inl ⟨hphase, rfl, hresult, hdone⟩⟩)
  | leave hphase hstop =>
      exact Or.inr (Or.inr ⟨rfl, _, rfl, Or.inr (Or.inl ⟨hphase, rfl, hstop⟩)⟩)
  | idle hphase hwork hrun =>
      exact Or.inr (Or.inr ⟨rfl, _, rfl, Or.inr (Or.inr (Or.inl ⟨hphase, rfl, hrun, hwork⟩))⟩)
  | finish hphase hrun =>
      exact Or.inr (Or.inr ⟨rfl, _, rfl,
        Or.inr (Or.inr (Or.inr (Or.inl ⟨hphase, rfl, hrun⟩)))⟩)
  | stay hphase =>
      exact Or.inr (Or.inr ⟨rfl, .finished, by rw [← hphase],
        Or.inr (Or.inr (Or.inr (Or.inr ⟨hphase, rfl⟩)))⟩)

theorem Controlled.act (hc : Controlled evs s) (h : Live g₀ p₀ evs s) (ha : Act P s c evs' s') :
    Controlled (evs ++ evs') s' := by
  have h' : Live g₀ p₀ (evs ++ evs') s' := h.act_of_reaps hL hrules hload ha
  rcases h.control_cases hL hrules hload ha with
    ⟨r, hphase, -, hfailed, hphase', hresult, -⟩ |
    ⟨res, hfound, hres, -, hint, -, -,
      ⟨hphase, -, hphase', hresult⟩ | ⟨hphase, hphase', hresult⟩⟩ |
    ⟨rfl, phase, rfl, hcase⟩
  · refine ⟨?_, fun _ ↦ ?_, ?_, ?_⟩
    · rw [hresult, hc.result_iff]
      simp [hfailed]
    · rw [hresult, hc.spawn hphase]
    · simp [hphase']
    · simp [hphase']
  · have hnone : failedRules evs = [] := hc.result_iff.mp (hc.spawn hphase)
    refine ⟨?_, ?_, ?_, ?_⟩
    · rw [hresult, hres]
      simp [hnone]
    · simp [hphase']
    · simp [hphase']
    · simp [hphase']
  · refine ⟨?_, ?_, fun _ ↦ ?_, ?_⟩
    · rw [hresult]
      split
      · rename_i hsucc
        rw [hres]
        simp [hc.result_iff.mp hsucc]
      · rename_i hsucc
        rw [hc.result_iff] at hsucc
        simp [hc.result_iff, hsucc]
    · simp [hphase']
    · rcases hc.stopped (Or.inl hphase) with hstop | hstop | hstop
      · left
        rw [hresult, if_neg hstop]
        exact hstop
      · refine Or.inr (Or.inl ?_)
        rw [h'.done_iff]
        rw [h.done_iff] at hstop
        simpa [hfound] using hstop
      · exact Or.inr (Or.inr (hint.trans hstop))
    · simp [hphase']
  · rw [List.append_nil]
    rcases hcase with ⟨-, rfl, hsucc, -⟩ | ⟨-, rfl, hstop⟩ | ⟨-, rfl, -, -⟩ | ⟨hphase, rfl, hrun⟩ |
      ⟨hphase, rfl⟩
    · exact ⟨hc.result_iff, fun _ ↦ hsucc, by simp, by simp⟩
    · exact ⟨hc.result_iff, by simp, fun _ ↦ hstop, by simp⟩
    · exact ⟨hc.result_iff, by simp, by simp, by simp⟩
    · exact ⟨hc.result_iff, by simp, fun _ ↦ hc.stopped (Or.inl hphase), fun _ ↦ hrun⟩
    · exact ⟨hc.result_iff, by simp, fun _ ↦ hc.stopped (Or.inr hphase),
        fun _ ↦ hc.drained hphase⟩

end Act

/-- The number of turns of the loops within which the build is over. -/
def remaining (s : Builder ω) : ℕ :=
  8 * (s.plan.rules.card - s.plan.numStarted) + 4 * s.running.length +
    match s.phase, s.plan.done with
    | .finished, _ => 0
    | .flush, _ => 1
    | .main, true => 2
    | .spawn, true => 3
    | .spawn, false => 4
    | .main, false => 5

/-- Every turn of the loops counts, where a build without commands to wait for
is done. -/
theorem remaining_lt_of_idle (hL : g₀.links.TwoWay) (hrules : ∀ r ∈ p₀.rules, r ∈ g₀.rules)
    (h : Live g₀ p₀ evs s) (hload : s.Reaps → s.NoLoad c)
    (hidle : s.phase = .spawn → s.plan.hasWork = false ∨ s.numThreads ≤ s.running.length →
      s.running = [] → s.plan.done = true)
    (ha : Act P s c evs' s') (hphase : s.phase ≠ .finished) : s'.remaining < s.remaining := by
  have h' : Live g₀ p₀ (evs ++ evs') s' := h.act_of_reaps hL hrules hload ha
  have hle := h.found_le
  have hle' := h'.found_le
  have hdone := h.done_iff
  have hdone' := h'.done_iff
  rw [foundRules_append, List.length_append] at hle' hdone'
  have hstarted := h'.numStarted
  rw [foundRules_append, List.length_append] at hstarted
  simp only [remaining, h.rules, h'.rules, h.numStarted, hstarted]
  rcases h.control_cases hL hrules hload ha with
    ⟨r, hspawn, hfound, -, hphase', -, -, -, hlen⟩ |
    ⟨res, hfound, -, -, -, -, hlen, ⟨hspawn, -, hphase', -⟩ | ⟨hflush, hphase', -⟩⟩ |
    ⟨rfl, phase, rfl, hcase⟩
  · rw [hfound, List.length_singleton] at hle' hdone' ⊢
    have hnot : s.plan.done = false := by
      rw [← Bool.not_eq_true, hdone]
      omega
    rw [hspawn, hphase', hnot]
    cases s'.plan.done <;> simp only <;> omega
  · rw [hfound, List.length_nil, add_zero] at hdone' ⊢
    have hsame : s'.plan.done = s.plan.done := by rw [Bool.eq_iff_iff, hdone, hdone']
    rw [hspawn, hphase', hsame]
    cases s.plan.done <;> simp only <;> omega
  · rw [hfound, List.length_nil, add_zero]
    rw [hflush, hphase']
    simp only
    omega
  · rw [foundRules_nil, List.length_nil, add_zero]
    rcases hcase with ⟨hmain, rfl, -, hnot⟩ | ⟨hmain, rfl, -⟩ | ⟨hspawn, rfl, hrun, hwork⟩ |
      ⟨hflush, rfl, -⟩ | ⟨hfin, rfl⟩
    · simp only [hmain, hnot]
      omega
    · rw [hmain]
      cases s.plan.done <;> simp only <;> omega
    · simp only [hspawn, hidle hspawn hwork hrun]
      omega
    · simp only [hflush]
      omega
    · exact absurd hfin hphase

section Termination

variable (hL : g₀.links.TwoWay) (hac : g₀.links.Acyclic) (hplan : Planned g₀ p₀)
include hL hac hplan

theorem remaining_lt (hc : Controlled evs s) (h : Live g₀ p₀ evs s) (hthreads : 1 ≤ s.numThreads)
    (hload : s.NoLoad c) (ha : Act P s c evs' s') (hphase : s.phase ≠ .finished) :
    s'.remaining < s.remaining := by
  refine remaining_lt_of_idle hL (hplan.mem_rules hL) h (fun _ ↦ hload) (fun hspawn hwork hrun ↦ ?_)
    ha hphase
  have hwork' : s.plan.hasWork = false := by
    rcases hwork with hwork | hwork
    · exact hwork
    · rw [hrun] at hwork
      exact absurd (hthreads.trans hwork) (by simp)
  by_contra hnot
  have hnone := hc.result_iff.mp (hc.spawn hspawn)
  have hongoing : Ongoing g₀ p₀ (foundRules evs) (builtRules evs) [] [] s.graph s.plan := by
    have hlive := h.toOngoing
    rw [hnone, hrun] at hlive
    exact hlive
  rw [hongoing.hasWork hL hac hplan (by simpa using hnot)] at hwork'
  cases hwork'

theorem remaining_run {cs : List (Choice ω)} (hc : Controlled evs s) (h : Live g₀ p₀ evs s)
    (hthreads : 1 ≤ s.numThreads) (hfree : LoadFree P cs s) (hrun : run P cs s = .ok (evs', s')) :
    s'.phase = .finished ∨ s'.remaining + cs.length ≤ s.remaining := by
  have hrules := hplan.mem_rules hL
  induction cs generalizing s evs evs' with
  | nil =>
      simp only [run, Lib.except_pure, Except.ok.injEq, Prod.mk.injEq] at hrun
      exact Or.inr (by simp [hrun.2])
  | cons c cs ih =>
      simp only [run, Lib.bind_eq_ok, Lib.except_pure, Except.ok.injEq, Prod.mk.injEq] at hrun
      obtain ⟨⟨evs₁, s₁⟩, hstep, ⟨evs₂, s₂⟩, hrest, rfl, rfl⟩ := hrun
      have ha : Act P (s.perturb c) c evs₁ s₁ := .of_step hstep
      have hload : (s.perturb c).NoLoad c := hfree.1.perturb
      have h₁ : Live g₀ p₀ (evs ++ evs₁) s₁ := h.step hL hrules hfree.1 hstep
      have hc₁ : Controlled (evs ++ evs₁) s₁ :=
        (hc.perturb c).act hL hrules (fun _ ↦ hload) (h.perturb c) ha
      have hthreads₁ : s₁.numThreads = s.numThreads := by
        rcases (h.perturb c).control_cases hL hrules (fun _ ↦ hload) ha with
          ⟨r, -, -, -, -, -, -, heq, -⟩ | ⟨res, -, -, -, -, heq, -⟩ | ⟨-, phase, rfl, -⟩
        · exact heq
        · exact heq
        · rfl
      rcases ih hc₁ h₁ (hthreads₁ ▸ hthreads) (hfree.2 evs₁ s₁ hstep) hrest with hfin | hle
      · exact Or.inl hfin
      · by_cases hphase : s.phase = .finished
        · left
          have hstay : run P cs s₁ = .ok (evs₂, s₂) → s₂.phase = .finished := by
            intro hrun
            apply run_invariant (fun _ s ↦ s.phase = .finished) ?_ hrun ?_
            · exact []
            · intro c _ evs evs' s s' hs hs'
              simp only [step, perturb, hs, Lib.except_pure, Except.ok.injEq, Prod.mk.injEq] at hs'
              rw [← hs'.2]
            · simp only [step, perturb, hphase, Lib.except_pure, Except.ok.injEq,
                Prod.mk.injEq] at hstep
              rw [← hstep.2]
          exact hstay hrest
        · right
          have hlt : s₁.remaining < s.remaining :=
            remaining_lt (s := s.perturb c) hL hac hplan (hc.perturb c) (h.perturb c) hthreads
              hload ha hphase
          have hle' : s₂.remaining + cs.length ≤ s₁.remaining := hle
          simp only [List.length_cons]
          omega

end Termination

end Builder

/-- No command fails and nobody interrupts the build. -/
def Choice.Quiet {ω : Type} (c : Choice ω) : Prop := c.status = .succeeded ∧ c.interrupt = false

namespace Builder

variable {ω : Type} {P : Platform ω} {s : Builder ω} {cs : List (Choice ω)}
  {evs : List BuildEvent} {g₀ : Graph} {p₀ : BuildPlan}

section Quiet

variable (hL : g₀.links.TwoWay) (hac : g₀.links.Acyclic) (hexact : g₀.Exact)
  (hplan : Planned g₀ p₀)
include hexact hplan

theorem live_create (w : ω) (n : ℕ) : Live g₀ p₀ [] (create g₀ p₀ w n) :=
  ⟨Ongoing.create hexact hplan, by simp [create]⟩

include hL

theorem run_controlled {w : ω} {n : ℕ} (hfree : LoadFree P cs (create g₀ p₀ w n))
    (hrun : run P cs (create g₀ p₀ w n) = .ok (evs, s)) :
    Live g₀ p₀ evs s ∧ Controlled evs s := by
  have hrules := hplan.mem_rules hL
  have hinv := run_invariant_loadFree (fun evs s ↦ Live g₀ p₀ evs s ∧ Controlled evs s) ?_ hfree
    hrun ⟨live_create hexact hplan w n, controlled_create g₀ p₀ w n⟩
  · exact hinv
  · intro c _ evs evs' s s' ⟨h, hc⟩ hload hstep
    refine ⟨h.step hL hrules hload hstep, ?_⟩
    exact (hc.perturb c).act hL hrules (fun _ ↦ hload.perturb) (h.perturb c) (.of_step hstep)

/-- Without failing commands and interrupts, the build does not give up. -/
theorem run_quiet {w : ω} {n : ℕ} (hquiet : ∀ c ∈ cs, c.Quiet)
    (hfree : LoadFree P cs (create g₀ p₀ w n))
    (hrun : run P cs (create g₀ p₀ w n) = .ok (evs, s)) :
    failedRules evs = [] ∧ s.interrupted = false := by
  have hrules := hplan.mem_rules hL
  have hinv := run_invariant_loadFree
    (fun evs s ↦ Live g₀ p₀ evs s ∧ failedRules evs = [] ∧ s.interrupted = false) ?_ hfree hrun
    ⟨live_create hexact hplan w n, rfl, rfl⟩
  · exact hinv.2
  · intro c hc evs evs' s s' ⟨h, hnone, hint⟩ hload hstep
    refine ⟨h.step hL hrules hload hstep, ?_⟩
    obtain ⟨hstatus, hcint⟩ := hquiet c hc
    have hint₁ : (s.perturb c).interrupted = false := by simp [perturb, hint, hcint]
    rw [failedRules_append, hnone, List.nil_append]
    rcases (h.perturb c).control_cases hL hrules (fun _ ↦ hload.perturb) (.of_step hstep) with
      ⟨r, -, -, hfailed, -, -, hsame, -⟩ | ⟨res, -, hres, hok, hsame, -⟩ | ⟨rfl, phase, rfl, -⟩
    · exact ⟨hfailed, hsame.trans hint₁⟩
    · exact ⟨hres.mp (hok hstatus), hsame.trans hint₁⟩
    · exact ⟨rfl, hint₁⟩

include hac in
/-- The loops are over after a number of turns that the plan bounds. -/
theorem finished_of_length {w : ω} {n : ℕ} (hthreads : 1 ≤ n)
    (hlen : 8 * p₀.rules.card + 5 ≤ cs.length) (hfree : LoadFree P cs (create g₀ p₀ w n))
    (hrun : run P cs (create g₀ p₀ w n) = .ok (evs, s)) : s.phase = .finished := by
  rcases remaining_run hL hac hplan (controlled_create g₀ p₀ w n)
    (live_create hexact hplan w n) hthreads hfree hrun with hfin | hle
  · exact hfin
  · have hstart : (create g₀ p₀ w n).remaining ≤ 8 * p₀.rules.card + 5 := by
      simp only [remaining, create, hplan.numStarted, List.length_nil]
      split <;> omega
    have hzero : s.remaining = 0 := by omega
    unfold remaining at hzero
    split at hzero
    · assumption
    all_goals omega

theorem run_exact {w : ω} {n : ℕ} (hfresh : ¬ Overrun g₀ p₀)
    (hfree : LoadFree P cs (create g₀ p₀ w n))
    (hrun : run P cs (create g₀ p₀ w n) = .ok (evs, s)) : s.graph.Exact :=
  (run_controlled hL hexact hplan hfree hrun).1.exact hfresh

theorem loadFree_create
    (hdep : ∀ r ∈ p₀.rules, (g₀.rule r).isPhony = false → (g₀.rule r).hasDepfile = false) (w : ω)
    (n : ℕ) (cs : List (Choice ω)) : LoadFree P cs (create g₀ p₀ w n) :=
  (live_create hexact hplan w n).loadFree hL (hplan.mem_rules hL) hdep cs

end Quiet

end Builder

/-- The states of the graph for which a build can be scheduled. -/
structure Schedulable (g : Graph) : Prop where
  twoWay : g.links.TwoWay
  acyclic : g.links.Acyclic
  exact : g.Exact
  node_dirty_iff : ∀ n r, (g.node n).childRule = some r →
    ((g.node n).isDirty = true ↔ (g.rule r).isDirty = true)
  input_dirty : ∀ r ∈ g.rules, ∀ x ∈ (g.rule r).inputs, (g.node x).isSource = false →
    (g.node x).isDirty = true → (g.rule r).isDirty = true
  noDepfile : ∀ r ∈ g.rules, (g.rule r).hasDepfile = false

theorem planned_of_needed {g : Graph} {T : Finset NodeId} {p : BuildPlan}
    (hrules : ∀ r, r ∈ p.rules ↔ g.Needed T r)
    (hready : ∀ r, r ∈ p.readyRules ↔ g.Needed T r ∧ (g.rule r).ready = true)
    (hstarted : p.numStarted = 0) : Planned g p where
  output r hr := ((hrules r).mp hr).exists_dirty_output
  closed r hr hwait x hx hd q hq := (hrules q).mpr (.input ((hrules r).mp hr) hwait hx hd hq)
  ready_iff r := by rw [hready, hrules]
  numStarted := hstarted

namespace Schedulable

variable {g : Graph} {p : BuildPlan} {T : Finset NodeId}

theorem dirtyHasDirtyRule (h : Schedulable g) : g.DirtyHasDirtyRule :=
  fun n r hn hd ↦ (h.node_dirty_iff n r hn).mp hd

theorem exists_planned (h : Schedulable g) (T : Finset NodeId) :
    ∃ p, BuildPlan.create g T = .ok p ∧ Planned g p := by
  obtain ⟨p, hcreate, hrules, hready, hstarted⟩ :=
    BuildPlan.create_spec h.twoWay h.acyclic h.exact h.dirtyHasDirtyRule T
  exact ⟨p, hcreate, planned_of_needed hrules hready hstarted⟩

theorem dirty_of_planned (h : Schedulable g) (hplan : Planned g p) {r : RuleId}
    (hr : r ∈ p.rules) {o : NodeId} (ho : o ∈ (g.rule r).outputs) : (g.node o).isDirty = true := by
  obtain ⟨n, hn, hd⟩ := hplan.output r hr
  have hchild : (g.node o).childRule = some r :=
    (h.twoWay.child_eq_some o r).mpr ⟨hplan.mem_rules h.twoWay r hr, ho⟩
  exact (h.node_dirty_iff o r hchild).mpr ((h.node_dirty_iff n r hn).mp hd)

theorem not_overrun (h : Schedulable g) (hplan : Planned g p) : ¬ Builder.Overrun g p := by
  rintro ⟨r, hr, q, -, hpos⟩
  obtain ⟨n, -, hn⟩ := List.countP_pos_iff.mp hpos
  simp only [Bool.and_eq_true, decide_eq_true_eq, Bool.not_eq_true'] at hn
  rw [h.dirty_of_planned hplan hr hn.1] at hn
  exact Bool.noConfusion hn.2

end Schedulable

namespace Builder

variable {g : Graph} {p : BuildPlan} {T : Finset NodeId} {ω : Type} {P : Platform ω} {w : ω}
  {n : ℕ} {cs : List (Choice ω)} {evs : List BuildEvent} {s : Builder ω}

theorem loadFree_of_schedulable (h : Schedulable g) (hplan : Planned g p) (w : ω) (n : ℕ)
    (cs : List (Choice ω)) : LoadFree P cs (create g p w n) :=
  loadFree_create h.twoWay h.exact hplan
    (fun r hr _ ↦ h.noDepfile r (hplan.mem_rules h.twoWay r hr)) w n cs

/-- The rule that `findWork` would return now has all its inputs. -/
theorem inputs_of_findWork (h : Schedulable g) (hplan : Planned g p)
    (hrun : run P cs (create g p w n) = .ok (evs, s)) {r : RuleId} {p' : BuildPlan}
    (hwork : s.plan.findWork = (some r, p')) {x : NodeId} (hx : x ∈ (s.graph.rule r).inputs) :
    (s.graph.node x).isSource = true ∨ (s.graph.node x).isDirty = false := by
  have hfree : LoadFree P cs (create g p w n) := loadFree_of_schedulable h hplan w n cs
  have hlive := (run_controlled h.twoWay h.exact hplan hfree hrun).1
  have hexact := run_exact h.twoWay h.exact hplan (h.not_overrun hplan) hfree hrun
  obtain ⟨hr, -, hready, -⟩ := hlive.take hwork
  have hmem : r ∈ s.graph.rules := by
    rw [Graph.rules_of_links hlive.links]
    exact hplan.mem_rules h.twoWay r hr
  simpa [Graph.inputReady] using (hexact.ready_iff hmem).mp hready x hx

/-- The state in which a build ends without failures. -/
theorem finished_complete (h : Schedulable g) (hplan : Planned g p) (hquiet : ∀ c ∈ cs, c.Quiet)
    (hrun : run P cs (create g p w n) = .ok (evs, s)) (hphase : s.phase = .finished) {r : RuleId}
    (hr : r ∈ p.rules) :
    (foundRules evs).count r = 1 ∧ r ∈ builtRules evs ∧ (s.graph.rule r).isDirty = false ∧
      ∀ o ∈ (s.graph.rule r).outputs, (s.graph.node o).isDirty = false := by
  have hfree : LoadFree P cs (create g p w n) := loadFree_of_schedulable h hplan w n cs
  obtain ⟨hlive, hcontrol⟩ := run_controlled h.twoWay h.exact hplan hfree hrun
  obtain ⟨hnone, hint⟩ := run_quiet h.twoWay h.exact hplan hquiet hfree hrun
  have hbuilt : r ∈ builtRules evs := hcontrol.built_of_finished hlive hnone hint hphase hr
  have hall : r ∈ foundRules evs := hlive.mem_found.mpr (Or.inl hbuilt)
  refine ⟨List.count_eq_one_of_mem hlive.found_nodup hall, hbuilt, ?_, ?_⟩
  · rw [← Bool.not_eq_true, hlive.rule]
    exact fun hd ↦ hd.2 hbuilt
  · intro o ho
    rw [Graph.outputs_of_links hlive.links] at ho
    have hchild : (g.node o).childRule = some r :=
      (h.twoWay.child_eq_some o r).mpr ⟨hplan.mem_rules h.twoWay r hr, ho⟩
    rw [← Bool.not_eq_true, hlive.node o r hchild]
    exact fun hd ↦ hd.2 hbuilt

/-- A build without failing commands and interrupts starts every planned rule
once, never before its inputs are there, and ends with all of them built. -/
theorem build_scheduled (h : Schedulable g) (T : Finset NodeId) (P : Platform ω) (w : ω)
    (hthreads : 1 ≤ n) :
    ∃ p, BuildPlan.create g T = .ok p ∧ ∀ cs : List (Choice ω), (∀ c ∈ cs, c.Quiet) →
      (∀ f, run P cs (create g p w n) = .error f → CacheFault P f) ∧
      ∀ evs s, run P cs (create g p w n) = .ok (evs, s) →
        (∀ r p', s.plan.findWork = (some r, p') → ∀ x ∈ (s.graph.rule r).inputs,
          (s.graph.node x).isSource = true ∨ (s.graph.node x).isDirty = false) ∧
        (∀ r ∈ foundRules evs, r ∈ p.rules) ∧ (∀ r, (foundRules evs).count r ≤ 1) ∧
        (s.plan.done = false → s.running = [] → s.plan.hasWork = true) ∧
        (8 * p.rules.card + 5 ≤ cs.length → s.phase = .finished) ∧
        (s.phase = .finished → s.result = .succeeded ∧ ∀ r ∈ p.rules,
          (foundRules evs).count r = 1 ∧ r ∈ builtRules evs ∧ (s.graph.rule r).isDirty = false ∧
            ∀ o ∈ (s.graph.rule r).outputs, (s.graph.node o).isDirty = false) := by
  obtain ⟨p, hcreate, hplan⟩ := h.exists_planned T
  refine ⟨p, hcreate, fun cs hquiet ↦ ?_⟩
  have hfree : LoadFree P cs (create g p w n) := loadFree_of_schedulable h hplan w n cs
  refine ⟨fun f hf ↦ ?_, fun evs s hrun ↦ ?_⟩
  · have hstart : Live g p [] (create g p w n) := live_create h.exact hplan w n
    rcases run_error h.twoWay (hplan.mem_rules h.twoWay) hstart hfree hf with hfault | ⟨-, hover⟩
    · exact hfault
    · exact absurd hover (h.not_overrun hplan)
  · obtain ⟨hlive, hcontrol⟩ := run_controlled h.twoWay h.exact hplan hfree hrun
    obtain ⟨hnone, hint⟩ := run_quiet h.twoWay h.exact hplan hquiet hfree hrun
    refine ⟨fun r p' hwork x hx ↦ inputs_of_findWork h hplan hrun hwork hx,
      hlive.found_planned, List.nodup_iff_count_le_one.mp hlive.found_nodup, ?_, ?_, ?_⟩
    · intro hdone hrunning
      have hongoing := hlive.toOngoing
      rw [hnone, hrunning] at hongoing
      exact hongoing.hasWork h.twoWay h.acyclic hplan hdone
    · exact fun hlen ↦ finished_of_length h.twoWay h.acyclic h.exact hplan hthreads hlen hfree hrun
    · intro hphase
      exact ⟨hcontrol.result_iff.mpr hnone,
        fun r hr ↦ finished_complete h hplan hquiet hrun hphase hr⟩

end Builder

/-! ## A source file and an object file -/

/-- The makefile `main.c -> main.o`, whose target has to be built. -/
def compileGraph : Graph where
  node
    | 0 => { Node.create "main.c" true false with parentRules := [0] }
    | 1 => { Node.create "main.o" true false with childRule := some 0, state := .outOfDate }
    | _ => Node.create "" true false
  rule
    | 0 => { Rule.create [0] [1] with
        command := "cc -c main.c", state := .outOfDate, numInputsReady := 1 }
    | _ => Rule.create [] []
  roots := {1}
  sources := {0}
  nodes := [("main.c", 0), ("main.o", 1)]
  rules := [0]
  allocated := {0, 1}

theorem twoWay_compileGraph : compileGraph.links.TwoWay :=
  @Links.twoWay_of_bounded _ 2 (fun _ ↦ ⟨rfl, rfl⟩) (by decide) (by decide)

theorem schedulable_compileGraph : Schedulable compileGraph where
  twoWay := twoWay_compileGraph
  acyclic := twoWay_compileGraph.acyclic_of_rank id (by decide)
  exact := by
    intro r hr
    obtain rfl : r = 0 := by simpa [compileGraph] using hr
    rfl
  node_dirty_iff := by
    rintro (_ | _ | n) r hr
    · simp [compileGraph, Node.create] at hr
    · obtain rfl : r = 0 := by simpa [compileGraph, Node.create, eq_comm] using hr
      decide
    · simp [compileGraph, Node.create] at hr
  input_dirty := by
    intro r hr x hx
    obtain rfl : r = 0 := by simpa [compileGraph] using hr
    simp [compileGraph, Rule.isDirty]
  noDepfile := by
    intro r hr
    obtain rfl : r = 0 := by simpa [compileGraph] using hr
    decide

/-- An outside world without files and with an empty cache. -/
def emptyPlatform : Platform Unit where
  readFile _ _ := none
  mtime _ _ := none
  now _ := 0
  sha256 s := s.toUTF8.toList
  parseDepfile := DepfileParser.parseDepfile
  newNode used := used.sup id + 1
  newNode_fresh := fresh_above
  uninitialised _ := false
  restoreNode _ _ w := .ok (false, w)
  restoreRule _ _ w := .ok (false, w)
  restoreDepfile _ _ w := .ok (false, w)
  saveRule _ _ w := .ok w

/-! ## A generated parser -/

/-- The makefile `parse.y -> parse.c parse.h`, `main.c parse.h -> main.o`,
`parse.c -> parse.o` and `main.o parse.o -> prog`, of which nothing has been
built; the compilation of `main.c` may write a depfile. -/
def yaccGraph (withDepfile : Bool) : Graph where
  node
    | 0 => { Node.create "parse.y" true false with parentRules := [0] }
    | 1 => { Node.create "parse.c" true false with
        childRule := some 0, parentRules := [2], state := .outOfDate }
    | 2 => { Node.create "parse.h" true false with
        childRule := some 0, parentRules := [1], state := .outOfDate }
    | 3 => { Node.create "main.c" true false with parentRules := [1] }
    | 4 => { Node.create "main.o" true false with
        childRule := some 1, parentRules := [3], state := .outOfDate }
    | 5 => { Node.create "parse.o" true false with
        childRule := some 2, parentRules := [3], state := .outOfDate }
    | 6 => { Node.create "prog" true false with childRule := some 3, state := .outOfDate }
    | _ => Node.create "" true false
  rule
    | 0 => { Rule.create [0] [1, 2] with
        command := "yacc -d parse.y", state := .outOfDate, numInputsReady := 1 }
    | 1 => { Rule.create [3, 2] [4] with
        command := "cc -MD -c main.c", state := .outOfDate, numInputsReady := 1
        depfile := if withDepfile then "main.d" else "" }
    | 2 => { Rule.create [1] [5] with command := "cc -c parse.c", state := .outOfDate }
    | 3 => { Rule.create [4, 5] [6] with command := "cc main.o parse.o", state := .outOfDate }
    | _ => Rule.create [] []
  roots := {6}
  sources := {0, 3}
  nodes := [("parse.y", 0), ("parse.c", 1), ("parse.h", 2), ("main.c", 3), ("main.o", 4),
    ("parse.o", 5), ("prog", 6)]
  rules := [0, 1, 2, 3]
  allocated := {0, 1, 2, 3, 4, 5, 6}

section YaccGraph

variable (withDepfile : Bool)

theorem twoWay_yaccGraph : (yaccGraph withDepfile).links.TwoWay := by
  refine @Links.twoWay_of_bounded _ 7 (fun _ ↦ ⟨rfl, rfl⟩) ?_ ?_ <;> cases withDepfile <;> decide

theorem acyclic_yaccGraph : (yaccGraph withDepfile).links.Acyclic := by
  refine (twoWay_yaccGraph withDepfile).acyclic_of_rank id ?_
  cases withDepfile <;> decide

theorem exact_yaccGraph : (yaccGraph withDepfile).Exact := by
  rw [Graph.Exact]
  cases withDepfile <;> decide

theorem create_yaccPlan :
    BuildPlan.create (yaccGraph withDepfile) {6} = .ok ⟨{0, 1, 2, 3}, {0}, 0⟩ := by
  simp [BuildPlan.create, BuildPlan.addTarget, BuildPlan.empty, yaccGraph, Node.isDirty,
    Rule.isDirty, Rule.ready, Rule.create, Node.create, assert]
  decide

end YaccGraph

theorem schedulable_yaccGraph : Schedulable (yaccGraph false) where
  twoWay := twoWay_yaccGraph false
  acyclic := acyclic_yaccGraph false
  exact := exact_yaccGraph false
  node_dirty_iff n r hr := by
    have hall : ∀ n ∈ (yaccGraph false).allocated, ∀ r ∈ ((yaccGraph false).node n).childRule,
        ((yaccGraph false).node n).isDirty = true ↔ ((yaccGraph false).rule r).isDirty = true := by
      decide
    refine hall n ?_ r hr
    have hmem := ((twoWay_yaccGraph false).child_eq_some n r).mp hr
    have hout : ∀ r ∈ (yaccGraph false).rules, ∀ n ∈ ((yaccGraph false).rule r).outputs,
        n ∈ (yaccGraph false).allocated := by
      decide
    exact hout r hmem.1 n hmem.2
  input_dirty := by decide
  noDepfile := by decide

/-- Two commands run at a time. -/
theorem build_yaccGraph_scheduled : ∃ p, BuildPlan.create (yaccGraph false) {6} = .ok p ∧
    p.rules = {0, 1, 2, 3} ∧ ∀ cs : List (Choice Unit), (∀ c ∈ cs, c.Quiet) →
      37 ≤ cs.length → ∀ evs s,
        Builder.run emptyPlatform cs (Builder.create (yaccGraph false) p () 2) = .ok (evs, s) →
        s.phase = .finished ∧ s.result = .succeeded ∧
          ∀ r ∈ p.rules, (foundRules evs).count r = 1 := by
  obtain ⟨p, hcreate, hspec⟩ :=
    Builder.build_scheduled schedulable_yaccGraph {6} emptyPlatform () (n := 2) (by decide)
  obtain rfl : ⟨{0, 1, 2, 3}, {0}, 0⟩ = p :=
    Except.ok.inj ((create_yaccPlan false).symm.trans hcreate)
  refine ⟨_, hcreate, rfl, fun cs hquiet hlen evs s hrun ↦ ?_⟩
  obtain ⟨-, -, -, -, hend, hbuilt⟩ := (hspec cs hquiet).2 evs s hrun
  have hphase := hend (show 8 * 4 + 5 ≤ cs.length from hlen)
  obtain ⟨hresult, hrules⟩ := hbuilt hphase
  exact ⟨hphase, hresult, fun r hr ↦ (hrules r hr).1⟩

end Falcon
