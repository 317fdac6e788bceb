import Falcon.Build.Consistent

/-!
# Progress of the build loop

Each turn of the main loop of `buildThread` starts a rule or reaps a command,
as long as the plan stays consistent and there is a slot for a command, and so
the loop ends.  The number of slots comes from the client; without a slot the
loop turns forever, with the lock on the graph held.
-/

namespace Falcon

open BuildEvent

/-- The conversion of `int32_t` to `std::size_t` in `startBuild`. -/
def sizeOfInt32 (n : Int32) : ℕ := (n.toInt % 2 ^ 64).toNat

theorem sizeOfInt32_eq_zero {n : Int32} : sizeOfInt32 n = 0 ↔ n = 0 := by
  have hle := n.minValue_le_toInt
  have hge := n.toInt_le
  have hbounds : -2147483648 ≤ n.toInt ∧ n.toInt ≤ 2147483647 := ⟨hle, hge⟩
  constructor
  · intro h
    apply Int32.toInt.inj
    rw [Int32.toInt_zero]
    rw [sizeOfInt32] at h
    omega
  · rintro rfl
    rfl

namespace Builder

variable {ω : Type} {P : Platform ω} {s s' : Builder ω} {c : Choice ω}
  {evs evs' : List BuildEvent} {g g₀ : Graph} {p p₀ : BuildPlan}

/-! ## Turns of the main loop -/

/-- The sum of `f` over the steps of a run. -/
def countSteps (P : Platform ω) (f : Builder ω → Builder ω → ℕ) :
    List (Choice ω) → Builder ω → ℕ
  | [], _ => 0
  | c :: cs, s =>
    match step P s c with
    | .error _ => 0
    | .ok (_, s') => f s s' + countSteps P f cs s'

/-- The turns of the main loop that have begun. -/
def iterations (P : Platform ω) : List (Choice ω) → Builder ω → ℕ :=
  countSteps P fun s s' ↦ if s.phase = .main ∧ s'.phase = .spawn then 1 else 0

/-- The commands that have been started. -/
def commands (P : Platform ω) : List (Choice ω) → Builder ω → ℕ :=
  countSteps P fun s s' ↦ s'.running.length - s.running.length

/-- Each turn of the main loop starts a rule or reaps a command: its first step
has an event. -/
def Advances (P : Platform ω) : List (Choice ω) → Builder ω → Prop
  | [], _ => True
  | c :: cs, s =>
    ∀ evs s', step P s c = .ok (evs, s') →
      (s.phase = .main → s'.phase = .spawn →
        ∀ d evs' s'', step P s' d = .ok (evs', s'') → evs' ≠ []) ∧
      Advances P cs s'

/-- Every run with `n` slots whose depfiles fit the plan advances in each turn,
and has no more turns than planned rules and commands. -/
def Progresses (g : Graph) (p : BuildPlan) (n : ℕ) : Prop :=
  ∀ (ω : Type) (P : Platform ω) (w : ω) (cs : List (Choice ω)),
    FittingRun P [] cs (create g p w n) →
      Advances P cs (create g p w n) ∧
        ∀ evs s, run P cs (create g p w n) = .ok (evs, s) →
          iterations P cs (create g p w n) ≤ p.rules.card + commands P cs (create g p w n)

/-- A rule can be started, or a command reaped. -/
def CanAct (s : Builder ω) : Prop :=
  s.plan.hasWork = true ∧ s.running.length < s.numThreads ∨ s.running ≠ []

theorem CanAct.events_ne_nil (h : s.CanAct) (hphase : s.phase = .spawn)
    (ha : Act P s c evs s') : evs ≠ [] := by
  have hother : ∀ {phase}, s.phase = phase → phase = .spawn := fun hp ↦ hp.symm.trans hphase
  cases ha with
  | phony | restored | spawned => simp
  | reaped _ _ hwait =>
      obtain ⟨r, hw⟩ := Waited.of_waitForNext hwait
      rcases hw.outcome with ⟨rfl, -⟩ | ⟨rfl, -⟩ <;> simp
  | idle _ hwork hrun =>
      rcases h with ⟨hsome, hslot⟩ | hrun'
      · rcases hwork with hnone | hfull
        · rw [hnone] at hsome
          cases hsome
        · omega
      · exact absurd hrun hrun'
  | enter hp | leave hp | flushed hp | finish hp | stay hp => cases hother hp

theorem CanAct.of_work (h : s.plan.hasWork = true ∨ s.running ≠ []) (hthreads : s.numThreads ≠ 0) :
    s.CanAct := by
  by_cases hrun : s.running = []
  · refine Or.inl ⟨h.resolve_right (not_not.mpr hrun), ?_⟩
    rw [hrun, List.length_nil]
    exact Nat.pos_of_ne_zero hthreads
  · exact Or.inr hrun

theorem waitForNext_numThreads {res : BuildResult}
    (h : waitForNext P s c = .ok (res, evs, s')) : s'.numThreads = s.numThreads := by
  rw [waitForNext] at h
  split at h
  · cases h
  · simp only [reap] at h
    split at h
    · simp only [Lib.except_pure, Except.ok.injEq, Prod.mk.injEq] at h
      obtain ⟨-, -, rfl⟩ := h
      rfl
    · simp only [Lib.bind_eq_ok] at h
      obtain ⟨⟨loaded, g, w⟩, -, h⟩ := h
      cases loaded with
      | false =>
          simp only [Bool.not_false, if_true, Lib.except_pure, Except.ok.injEq,
            Prod.mk.injEq] at h
          obtain ⟨-, -, rfl⟩ := h
          rfl
      | true =>
          simp only [Bool.not_true, Bool.false_eq_true, if_false, Lib.bind_eq_ok,
            Lib.except_pure, Except.ok.injEq, Prod.mk.injEq] at h
          obtain ⟨w', -, s₁, hfinish, -, -, rfl⟩ := h
          obtain ⟨g', p', rfl, -⟩ := onRuleFinished_keeps hfinish
          rfl

/-- How far `steps` steps can have got: every turn has a first and a last step,
and each other step before the flush starts a rule. -/
def StepsBound (steps turns commands : ℕ) (s : Builder ω) : Prop :=
  match s.phase with
  | .main => steps ≤ 2 * turns + s.plan.numStarted
  | .spawn => steps + 1 ≤ 2 * turns + s.plan.numStarted
  | .flush => steps + s.running.length ≤ 2 * turns + s.plan.numStarted + commands + 1
  | .finished => True

/-- After `steps` steps, `turns` turns and `commands` commands: every turn that
is over has started a rule or reaped a command, and the one that has just begun
can. -/
structure Turning (R : Finset RuleId) (steps turns commands : ℕ) (s : Builder ω) : Prop where
  rules : s.plan.rules = R
  threads : s.numThreads ≠ 0
  started : s.plan.numStarted ≤ R.card
  commands_le : commands ≤ s.plan.numStarted
  running : s.running.length ≤ commands
  bound : turns ≤ R.card + commands
  steps_le : StepsBound steps turns commands s
  advanced : turns + s.running.length ≤ s.plan.numStarted + commands ∨
    s.phase = .spawn ∧ s.CanAct ∧
      turns + s.running.length ≤ s.plan.numStarted + commands + 1

section Turning

variable {R : Finset RuleId} {steps turns cmds : ℕ}

theorem Turning.begun (h : Turning R steps turns cmds s) :
    turns + s.running.length ≤ s.plan.numStarted + cmds + 1 := by
  rcases h.advanced with hle | ⟨-, -, hle⟩ <;> omega

theorem Turning.over (h : Turning R steps turns cmds s) (hphase : s.phase ≠ .spawn) :
    turns + s.running.length ≤ s.plan.numStarted + cmds := by
  rcases h.advanced with hle | ⟨hspawn, -⟩
  · exact hle
  · exact absurd hspawn hphase

/-- A rule has been started. -/
theorem Turning.take {r : RuleId} (h : Turning R steps turns cmds s) (running : List RuleId)
    (hlength : running.length ≤ 1) (hphase : s.phase = .spawn)
    (hwork : s.plan.findWork = (some r, p)) (hroom : s.plan.numStarted < R.card) {p' : BuildPlan}
    (hkeeps : p.Keeps p') (hplan : s'.plan = p') (hthreads : s'.numThreads = s.numThreads)
    (hrunning : s'.running = running ++ s.running) (hphase' : s'.phase = .spawn) :
    Turning R (steps + 1) turns (cmds + running.length) s' := by
  obtain ⟨-, rfl⟩ := Ongoing.findWork_eq_some hwork
  have hstarted : s'.plan.numStarted = s.plan.numStarted + 1 := by
    rw [hplan]
    exact hkeeps.numStarted
  have hle := h.begun
  have hlen := h.running
  have hbound := h.bound
  have hcmds := h.commands_le
  have hsteps := h.steps_le
  simp only [StepsBound, hphase] at hsteps
  refine ⟨?_, hthreads ▸ h.threads, ?_, ?_, ?_, ?_, ?_, Or.inl ?_⟩
  · rw [hplan]
    exact hkeeps.rules.trans h.rules
  · omega
  · omega
  · rw [hrunning, List.length_append]
    omega
  · omega
  · simp only [StepsBound, hphase']
    omega
  · rw [hrunning, List.length_append, hstarted]
    omega

/-- A command has been reaped. -/
theorem Turning.waited {t : Builder ω} {res : BuildResult} (h : Turning R steps turns cmds s)
    (hwait : waitForNext P s c = .ok (res, evs, s')) (hplan : t.plan = s'.plan)
    (hthreads : t.numThreads = s'.numThreads) (hrunning : t.running = s'.running)
    (hphase : s.phase = .spawn ∧ t.phase = .main ∨ s.phase = .flush ∧ t.phase = .flush) :
    Turning R (steps + 1) turns cmds t := by
  obtain ⟨r, hw⟩ := Waited.of_waitForNext hwait
  have hlen : s.running.length = s'.running.length + 1 := hw.perm.length_eq
  have hstarted : t.plan.numStarted = s.plan.numStarted := hplan ▸ hw.plan.numStarted
  have hle := h.begun
  have hrun := h.running
  have hsteps := h.steps_le
  refine ⟨?_, ?_, hstarted ▸ h.started, hstarted ▸ h.commands_le, ?_, h.bound, ?_, Or.inl ?_⟩
  · rw [hplan]
    exact hw.plan.rules.trans h.rules
  · rw [hthreads, waitForNext_numThreads hwait]
    exact h.threads
  · rw [hrunning]
    omega
  · rcases hphase with ⟨hs, ht⟩ | ⟨hs, ht⟩
    · simp only [StepsBound, hs] at hsteps
      simp only [StepsBound, ht]
      omega
    · simp only [StepsBound, hs] at hsteps
      simp only [StepsBound, ht, hrunning]
      omega
  · rw [hrunning]
    omega

section Acts

variable (hL : g₀.links.TwoWay) (hac : g₀.links.Acyclic) (hexact : g₀.Exact)
  (hplan : Planned g₀ p₀)
include hL hac hexact hplan

theorem Turning.act (h : Turning p₀.rules steps turns cmds s) (hsteady : Steady g₀ p₀ evs s)
    (ha : Act P s c evs' s') :
    Turning p₀.rules (steps + 1) (turns + if s.phase = .main ∧ s'.phase = .spawn then 1 else 0)
      (cmds + (s'.running.length - s.running.length)) s' := by
  have hsteps := h.steps_le
  have hsame : ∀ phase, (s.phase = .main → phase ≠ .spawn) →
      StepsBound (steps + 1) turns cmds { s with phase := phase } →
      turns + s.running.length ≤ s.plan.numStarted + cmds →
      Turning p₀.rules (steps + 1) (turns + if s.phase = .main ∧ phase = .spawn then 1 else 0)
        (cmds + (s.running.length - s.running.length)) { s with phase := phase } := by
    intro phase hphase hnext hle
    rw [if_neg fun hboth ↦ hphase hboth.1 hboth.2, Nat.sub_self]
    exact ⟨h.rules, h.threads, h.started, h.commands_le, h.running, h.bound, hnext, Or.inl hle⟩
  have hspawned : ∀ {phase' : Phase}, s.phase = .spawn →
      ¬ (s.phase = .main ∧ phase' = .spawn) := fun hphase hboth ↦ by
    rw [hphase] at hboth
    cases hboth.1
  have hroom : ∀ {r p}, s.phase = .spawn → s.plan.findWork = (some r, p) →
      s.plan.numStarted < p₀.rules.card := by
    intro r p hphase hwork
    have hconsistent := hsteady (Or.inr hphase)
    have htake := (hconsistent.take hwork).2
    have hle := Finset.card_le_card htake.started_subset
    rw [Finset.card_insert_of_notMem (hconsistent.take hwork).1, ← hconsistent.numStarted] at hle
    exact hle
  cases ha with
  | enter hphase hresult hdone =>
      have hconsistent := hsteady (Or.inl ⟨hphase, hresult⟩)
      have hlt := hconsistent.numStarted_lt hdone
      have hle := h.over (by simp [hphase])
      simp only [StepsBound, hphase] at hsteps
      rw [if_pos ⟨hphase, rfl⟩, Nat.sub_self]
      refine ⟨h.rules, h.threads, h.started, h.commands_le, h.running, ?_, ?_,
        Or.inr ⟨rfl, ?_, ?_⟩⟩
      · omega
      · simp only [StepsBound]
        omega
      · exact CanAct.of_work (hconsistent.hasWork_or_running hL hac hexact hplan hdone) h.threads
      · exact Nat.le_of_lt_succ (by simpa [Nat.add_right_comm] using Nat.lt_succ_of_le hle)
  | leave hphase =>
      have hrun := h.running
      simp only [StepsBound, hphase] at hsteps
      refine hsame .flush (by simp) ?_ (h.over (by simp [hphase]))
      simp only [StepsBound]
      omega
  | phony hphase _ hwork _ hfinish =>
      have hlt := hroom hphase hwork
      obtain ⟨g', p', rfl, hkeeps⟩ := onRuleFinished_keeps hfinish
      rw [if_neg (hspawned hphase), Nat.sub_self]
      refine h.take [] (by simp) hphase hwork hlt hkeeps ?_ ?_ ?_ hphase <;> rfl
  | restored hphase _ hwork _ _ hfinish =>
      have hlt := hroom hphase hwork
      obtain ⟨g', p', rfl, hkeeps⟩ := onRuleFinished_keeps hfinish
      rw [if_neg (hspawned hphase), Nat.sub_self]
      refine h.take [] (by simp) hphase hwork hlt hkeeps ?_ ?_ ?_ hphase <;> rfl
  | @spawned r p w hphase _ hwork =>
      have hlt := hroom hphase hwork
      rw [if_neg (hspawned hphase), List.length_cons, Nat.add_sub_cancel_left]
      refine h.take [r] (by simp) hphase hwork hlt (.refl _) ?_ ?_ ?_ hphase <;> rfl
  | reaped hphase _ hwait =>
      obtain ⟨r, hw⟩ := Waited.of_waitForNext hwait
      have hlen := hw.perm.length_eq
      rw [List.length_cons] at hlen
      rw [if_neg (by simp), Nat.sub_eq_zero_of_le (by dsimp only; omega)]
      exact h.waited hwait rfl rfl rfl (Or.inl ⟨hphase, rfl⟩)
  | idle hphase hwork hrun =>
      simp only [StepsBound, hphase] at hsteps
      refine hsame .main (by simp) ?_ ?_
      · simp only [StepsBound]
        omega
      · rcases h.advanced with hle | ⟨-, hact, -⟩
        · exact hle
        · exact absurd rfl (hact.events_ne_nil hphase (.idle (P := P) (c := c) hphase hwork hrun))
  | flushed hphase hwait =>
      obtain ⟨r, hw⟩ := Waited.of_waitForNext hwait
      have hlen := hw.perm.length_eq
      rw [List.length_cons] at hlen
      rw [if_neg (by simp [hphase]), Nat.sub_eq_zero_of_le (by dsimp only; omega)]
      exact h.waited hwait rfl rfl rfl (Or.inr ⟨hphase, hw.phase.trans hphase⟩)
  | finish hphase => exact hsame .finished (by simp) trivial (h.over (by simp [hphase]))
  | stay hphase =>
      have hstay := hsame .finished (by simp) trivial (h.over (by simp [hphase]))
      rw [← hphase] at hstay
      exact hstay

/-- A run whose depfiles fit the plan advances in each of its turns. -/
theorem Turning.run {cs : List (Choice ω)} (h : Turning p₀.rules steps turns cmds s)
    (hsteady : Steady g₀ p₀ evs s) (hfits : FittingRun P evs cs s) : Advances P cs s ∧
      ∀ evs' s', run P cs s = .ok (evs', s') → Turning p₀.rules (steps + cs.length)
        (turns + iterations P cs s) (cmds + commands P cs s) s' := by
  induction cs generalizing s evs steps turns cmds with
  | nil =>
      refine ⟨trivial, fun evs' s' hrun ↦ ?_⟩
      simp only [Builder.run, Lib.except_pure, Except.ok.injEq, Prod.mk.injEq] at hrun
      obtain ⟨-, rfl⟩ := hrun
      exact h
  | cons c cs ih =>
      have hperturb : Turning p₀.rules steps turns cmds (s.perturb c) := { h with }
      have hact : ∀ {evs' s'}, step P s c = .ok (evs', s') → Turning p₀.rules (steps + 1)
          (turns + if s.phase = .main ∧ s'.phase = .spawn then 1 else 0)
            (cmds + (s'.running.length - s.running.length)) s' :=
        fun hstep ↦ Turning.act (s := s.perturb c) hL hac hexact hplan hperturb hsteady
          (.of_step hstep)
      have hnext : ∀ {evs' s'}, step P s c = .ok (evs', s') → Steady g₀ p₀ (evs ++ evs') s' :=
        fun hstep ↦ hsteady.step (hplan.mem_rules hL) hfits.1 hstep
      refine ⟨fun evs' s' hstep ↦ ⟨fun hmain hspawn d evs₁ s'' hlast ↦ ?_, ?_⟩,
        fun evs' s' hrun ↦ ?_⟩
      · have ha : Act P (s.perturb c) c evs' s' := .of_step hstep
        have hact' : s'.CanAct := by
          cases ha with
          | enter _ hresult hdone =>
              have hconsistent := hsteady (Or.inl ⟨hmain, hresult⟩)
              exact CanAct.of_work (hconsistent.hasWork_or_running hL hac hexact hplan hdone)
                h.threads
          | leave => cases hspawn
          | phony hp | restored hp | spawned hp | reaped hp | idle hp | flushed hp | finish hp
          | stay hp => exact absurd (hp.symm.trans hmain) (by simp)
        exact CanAct.events_ne_nil (s := s'.perturb d) hact' hspawn (.of_step hlast)
      · exact (ih (hact hstep) (hnext hstep) (hfits.2 evs' s' hstep)).1
      · simp only [Builder.run, Lib.bind_eq_ok, Lib.except_pure, Except.ok.injEq,
          Prod.mk.injEq] at hrun
        obtain ⟨⟨evs₁, s₁⟩, hstep, ⟨evs₂, s₂⟩, hrest, -, rfl⟩ := hrun
        have hend := (ih (hact hstep) (hnext hstep) (hfits.2 evs₁ s₁ hstep)).2 evs₂ s₂ hrest
        simp only [iterations, commands, countSteps, hstep] at hend ⊢
        rw [List.length_cons, Nat.add_comm cs.length, ← add_assoc, ← add_assoc, ← add_assoc]
        exact hend

end Acts

/-- The loops are over after a number of steps that the plan bounds. -/
theorem Turning.finished (h : Turning R steps turns cmds s) (hlen : 6 * R.card + 2 ≤ steps) :
    s.phase = .finished := by
  have hsteps := h.steps_le
  have hbound := h.bound
  have hcmds := h.commands_le
  have hstarted := h.started
  cases hphase : s.phase with
  | finished => rfl
  | main | spawn | flush =>
      simp only [StepsBound, hphase] at hsteps
      omega

end Turning

/-! ## No slots -/

/-- Nothing is planned. -/
structure Unneeded (s : Builder ω) : Prop where
  rules : s.plan.rules = ∅
  numStarted : s.plan.numStarted = 0
  running : s.running = []
  phase : s.phase ≠ .spawn

theorem Unneeded.act (h : s.Unneeded) (ha : Act P s c evs s') : s'.Unneeded := by
  have hdone : s.plan.done = true := by simp [BuildPlan.done, h.rules, h.numStarted]
  cases ha with
  | enter _ _ hno =>
      rw [hdone] at hno
      cases hno
  | leave => exact ⟨h.rules, h.numStarted, h.running, by simp⟩
  | finish => exact ⟨h.rules, h.numStarted, h.running, by simp⟩
  | stay => exact h
  | flushed _ hwait =>
      obtain ⟨r, hw⟩ := Waited.of_waitForNext hwait
      have hperm := hw.perm
      rw [h.running] at hperm
      exact absurd hperm.length_eq (by simp)
  | phony hp | restored hp | spawned hp | reaped hp | idle hp => exact absurd hp h.phase

theorem Unneeded.run (h : s.Unneeded) (cs : List (Choice ω)) :
    Advances P cs s ∧ iterations P cs s = 0 := by
  induction cs generalizing s with
  | nil => exact ⟨trivial, rfl⟩
  | cons c cs ih =>
      have hperturb : (s.perturb c).Unneeded := { h with }
      have hnext : ∀ {evs s'}, step P s c = .ok (evs, s') → s'.Unneeded :=
        fun hstep ↦ hperturb.act (.of_step hstep)
      refine ⟨fun evs s' hstep ↦ ⟨fun _ hspawn ↦ absurd hspawn (hnext hstep).phase,
        (ih (hnext hstep)).1⟩, ?_⟩
      rw [iterations, countSteps]
      cases hstep : step P s c with
      | error f => rfl
      | ok v =>
          have hrest : countSteps P _ cs v.2 = 0 := (ih (hnext hstep)).2
          simp only [hrest, (hnext hstep).phase, and_false, if_false]

section Slots

variable (hg : g.Tied) (hac : g.links.Acyclic) (hexact : g.Exact) (hplan : Planned g p)
include hg hac hexact hplan

/-- With a slot, every run whose depfiles fit the plan goes on until it ends. -/
theorem turning_of_run {P : Platform ω} {w : ω} {cs : List (Choice ω)} {n : ℕ} (hn : n ≠ 0)
    (hfits : FittingRun P [] cs (create g p w n)) : Advances P cs (create g p w n) ∧
      ∀ evs s, run P cs (create g p w n) = .ok (evs, s) → Turning p.rules cs.length
        (iterations P cs (create g p w n)) (commands P cs (create g p w n)) s := by
  have hstart : Turning p.rules 0 0 0 (create g p w n) := by
    refine ⟨rfl, hn, ?_, Nat.zero_le _, by simp [create], by simp, Nat.zero_le _,
      Or.inl (by simp [create])⟩
    change p.numStarted ≤ _
    rw [hplan.numStarted]
    exact Nat.zero_le _
  obtain ⟨hadvances, hrun⟩ :=
    hstart.run hg.twoWay hac hexact hplan (steady_create hg hexact hplan w n) hfits
  exact ⟨hadvances, fun evs s hs ↦ by simpa using hrun evs s hs⟩

theorem progresses_of_slots {n : ℕ} (hslots : n ≠ 0 ∨ p.rules = ∅) : Progresses g p n := by
  intro ω P w cs hfits
  rcases hslots with hn | hnone
  · obtain ⟨hadvances, hrun⟩ := turning_of_run hg hac hexact hplan hn hfits
    exact ⟨hadvances, fun evs s hs ↦ (hrun evs s hs).bound⟩
  · have hstart : (create g p w n).Unneeded := ⟨hnone, hplan.numStarted, rfl, by simp [create]⟩
    obtain ⟨hadvances, hnone'⟩ := hstart.run (P := P) cs
    exact ⟨hadvances, fun evs s _ ↦ by simp [hnone']⟩

omit hg hac hexact in
/-- Without a slot the loop does nothing, and goes on. -/
theorem not_progresses_zero (hrules : p.rules ≠ ∅) : ¬ Progresses g p 0 := by
  intro h
  let c : Choice Unit := ⟨id, false, 0, .succeeded⟩
  have hdone : p.done = false := by
    simp [BuildPlan.done, hplan.numStarted, eq_comm, hrules]
  have hfits : FittingRun emptyPlatform [] [c] (create g p () 0) :=
    ⟨fun hphase ↦ (by cases hphase), fun _ _ _ ↦ trivial⟩
  have hfirst : step emptyPlatform (create g p () 0) c =
      .ok ([], { create g p () 0 with phase := .spawn }) := by
    simp [step, perturb, create, hdone, c]
  have hsecond : step emptyPlatform { create g p () 0 with phase := .spawn } c =
      .ok ([], create g p () 0) := by
    simp [step, perturb, create, c]
  have hadvances := (h Unit emptyPlatform () [c] hfits).1 [] _ hfirst
  exact hadvances.1 rfl rfl c [] _ hsecond rfl

/-- The build loop makes progress just if the client allows a command, or
nothing is planned; in the first case it ends. -/
theorem progresses_iff (n : Int32) :
    (Progresses g p (sizeOfInt32 n) ↔ n ≠ 0 ∨ p.rules = ∅) ∧
    ∀ (ω : Type) (P : Platform ω) (w : ω) (cs : List (Choice ω)),
      FittingRun P [] cs (create g p w (sizeOfInt32 n)) → n ≠ 0 →
        6 * p.rules.card + 2 ≤ cs.length →
          ∀ evs s, run P cs (create g p w (sizeOfInt32 n)) = .ok (evs, s) →
            s.phase = .finished := by
  have hslots : n ≠ 0 → sizeOfInt32 n ≠ 0 := fun hn hzero ↦ hn (sizeOfInt32_eq_zero.mp hzero)
  refine ⟨⟨fun h ↦ ?_, fun h ↦ ?_⟩, fun ω P w cs hfits hn hlen evs s hrun ↦ ?_⟩
  · by_contra hno
    push Not at hno
    obtain ⟨rfl, hrules⟩ := hno
    exact not_progresses_zero hplan hrules.ne_empty h
  · exact progresses_of_slots hg hac hexact hplan (h.imp_left hslots)
  · exact ((turning_of_run hg hac hexact hplan (hslots hn) hfits).2 evs s hrun).finished hlen

end Slots

end Builder

/-! ## A depfile that names explicit inputs -/

namespace Depfile

variable {ω : Type} {P : Platform ω} {w : ω} {g g' : Graph} {r : RuleId}

theorem addDependencies_of_inputs {ins : List String}
    (hall : ∀ dep ∈ ins, ∃ n ∈ (g.rule r).inputs, g.nodes.lookup dep = some n) :
    addDependencies P w r ins (g, []) = .ok (g, []) := by
  induction ins with
  | nil => rfl
  | cons dep ins ih =>
      obtain ⟨n, hn, hlookup⟩ := hall dep List.mem_cons_self
      have hstep : setRuleDependency P w g r dep = .ok (n, g) := by
        simp [setRuleDependency, hlookup, Rule.isInput, hn]
      rw [addDependencies, hstep]
      exact ih fun p hp ↦ hall p (List.mem_cons_of_mem dep hp)

/-- A load that lists explicit inputs only leaves the links as they are. -/
theorem load_links_of_explicit {content : String} {loaded : Bool}
    (himplicit : (g.rule r).numImplicitDeps = 0)
    (hnames : ∀ ins, Names P g r content ins → ∀ dep ∈ ins, ∃ n ∈ (g.rule r).inputs,
      g.nodes.lookup dep = some n)
    (hrun : load P w g r content = .ok (loaded, g')) : g'.links = g.links := by
  have hnone : implicitDeps (g.rule r) = [] := by
    rw [implicitDeps, himplicit, Nat.sub_zero, List.drop_length]
  obtain ⟨k, hdetach, hcases⟩ := load_ok hrun
  have hk : k.links = g.links := by
    obtain ⟨c, -, rfl⟩ := detachImplicit_counts hdetach
    exact Graph.links_setRule (Hash.explicitInputs_none himplicit) rfl himplicit.symm rfl rfl
  obtain ⟨-, rfl, -⟩ | ⟨-, first, ins, k₁, left, hfirst, hparse, hadd, hdrop⟩ := hcases
  · exact hk
  rw [Graph.outputs_of_links hk] at hfirst
  rw [Graph.path_of_links hk] at hparse
  have hnodes : k.nodes = g.nodes := congrArg Links.nodes hk
  have hall : ∀ dep ∈ ins, ∃ n ∈ (k.rule r).inputs, k.nodes.lookup dep = some n := by
    rw [Graph.inputs_of_links hk, hnodes]
    exact hnames ins ⟨first, hfirst, hparse⟩
  rw [hnone, List.reverse_nil, List.dedup_nil, addDependencies_of_inputs hall] at hadd
  obtain ⟨rfl, rfl⟩ := Prod.mk.inj (Except.ok.inj hadd)
  exact (Except.ok.inj hdrop) ▸ hk

end Depfile

/-- The compiler has found that `main.c` includes `parse.h`, as the makefile says. -/
def yaccPlatform : Platform Unit :=
  { emptyPlatform with
    readFile := fun _ path ↦ if path = "main.d" then some "main.o: main.c parse.h" else none }

namespace Builder

theorem tied_yaccGraph (withDepfile : Bool) : (yaccGraph withDepfile).Tied where
  twoWay := twoWay_yaccGraph withDepfile
  allocated r hr n hn := by
    have hall : ∀ r ∈ (yaccGraph withDepfile).rules, ∀ n ∈
        ((yaccGraph withDepfile).rule r).inputs ++ ((yaccGraph withDepfile).rule r).outputs,
        n ∈ (yaccGraph withDepfile).allocated := by
      cases withDepfile <;> decide
    exact hall r hr n (List.mem_append.mpr hn)
  nodes := by cases withDepfile <;> decide
  implicit := by cases withDepfile <;> decide

variable {g g' : Graph} {w w' : Unit} {r : RuleId}

theorem names_yaccGraph {content : String} (hlinks : g.links = (yaccGraph true).links)
    (hr : r ∈ g.rules) (hdepfile : (g.rule r).hasDepfile = true)
    (hread : yaccPlatform.readFile w (g.rule r).depfile = some content) :
    (g.rule r).numImplicitDeps = 0 ∧ ∀ ins, Depfile.Names yaccPlatform g r content ins →
      ∀ dep ∈ ins, ∃ n ∈ (g.rule r).inputs, g.nodes.lookup dep = some n := by
  have hnodes : g.nodes = (yaccGraph true).nodes := congrArg Links.nodes hlinks
  have hnum : (g.rule r).numImplicitDeps = ((yaccGraph true).rule r).numImplicitDeps :=
    congrFun (congrArg Links.numImplicit hlinks) r
  rw [Graph.rules_of_links hlinks] at hr
  rw [Graph.hasDepfile_of_links hlinks] at hdepfile
  rw [Graph.depfile_of_links hlinks] at hread
  have hcases : ∀ q ∈ (yaccGraph true).rules, ((yaccGraph true).rule q).hasDepfile = true →
      q = 1 := by decide
  obtain rfl := hcases r hr hdepfile
  obtain rfl : "main.o: main.c parse.h" = content := Option.some.inj hread
  refine ⟨hnum, ?_⟩
  rintro ins ⟨first, -, hparse⟩ dep hdep
  have hins : ins = ["main.c", "parse.h"] :=
    (congrArg Prod.snd (Option.some.inj hparse)).symm
  rw [hins] at hdep
  rw [Graph.inputs_of_links hlinks, hnodes]
  simp only [List.mem_cons, List.not_mem_nil, or_false] at hdep
  rcases hdep with rfl | rfl
  · exact ⟨3, by decide, rfl⟩
  · exact ⟨2, by decide, rfl⟩

theorem hashSteps_links {s s' : Graph × Unit}
    (hrun : Relation.ReflTransGen (Hash.HashStep yaccPlatform) s s') : s'.1.links = s.1.links := by
  induction hrun with
  | refl => rfl
  | tail _ hstep ih =>
      refine Eq.trans ?_ ih
      cases hstep with
      | node hupdate => exact (Hash.updateNodeHash_links hupdate).1
      | rule _ hupdate hrestore =>
          obtain ⟨heq, -⟩ | ⟨_, _, -, -, hrestored, -⟩ := Hash.restoreDepfile_ok hrestore
          · rw [heq]
            exact (Hash.updateRuleHash_links hupdate).1
          · cases hrestored

theorem loadDepfile_links {loaded : Bool} (hlinks : g.links = (yaccGraph true).links)
    (hr : r ∈ g.rules) (hrun : loadDepfile yaccPlatform g w r = .ok (loaded, g', w')) :
    g'.links = g.links := by
  have hwired : g.Wired := (tied_yaccGraph true).wired.of_links hlinks
  rw [loadDepfile] at hrun
  split at hrun
  · rename_i hdepfile
    obtain ⟨⟨ok, k⟩, hload, hrun⟩ := Lib.bind_eq_ok.mp hrun
    have hk : k.links = g.links := by
      obtain ⟨-, rfl, -⟩ | ⟨content, hread, -, hcontent⟩ := Depfile.loadFromfile_ok hload
      · rfl
      · obtain ⟨himplicit, hnames⟩ := names_yaccGraph hlinks hr hdepfile hread
        exact Depfile.load_links_of_explicit himplicit hnames hcontent
    cases ok with
    | false =>
        simp only [Bool.false_eq_true, if_false, Lib.except_pure, Except.ok.injEq,
          Prod.mk.injEq] at hrun
        exact hrun.2.1 ▸ hk
    | true =>
        simp only [if_true, Lib.bind_eq_ok, Lib.except_pure, Except.ok.injEq,
          Prod.mk.injEq] at hrun
        obtain ⟨⟨k', u'⟩, hhash, -, rfl, -⟩ := hrun
        have hsteps := Hash.recomputeRuleHash_hashSteps (fun t n t' ht hnode ↦ by
          obtain ⟨⟨changed, t₁⟩, hrec, hpure⟩ := Lib.bind_eq_ok.mp hnode
          rw [← Except.ok.inj hpure]
          exact Hash.recomputeNodeHash_hashSteps ht hrec) (hwired.of_links hk)
          (Graph.rules_of_links hk ▸ hr) hhash
        exact (hashSteps_links hsteps).trans hk
  · simp only [Lib.except_pure, Except.ok.injEq, Prod.mk.injEq] at hrun
    rw [← hrun.2.1]

/-- While the main loop runs, the links are those of the makefile. -/
theorem inLoop_links {s s' : Builder Unit} {c : Choice Unit} {evs : List BuildEvent}
    (h : s.InLoop → s.graph.links = (yaccGraph true).links)
    (hrunning : s.InLoop → ∀ r ∈ s.running, r ∈ (yaccGraph true).rules)
    (ha : Act yaccPlatform s c evs s') (hloop : s'.InLoop) :
    s'.graph.links = (yaccGraph true).links := by
  have hfinished : ∀ {t t' : Builder Unit} {r}, t.onRuleFinished r = .ok t' →
      t'.graph.links = t.graph.links := by
    intro t t' r hfinish
    simp only [onRuleFinished, Lib.bind_eq_ok, Lib.except_pure, Except.ok.injEq] at hfinish
    obtain ⟨g', hg', p', -, rfl⟩ := hfinish
    rcases t.graph.finishRule_spec r with ⟨-, k, hrun, hclean⟩ | ⟨-, hrun⟩
    · obtain rfl : g' = k := Except.ok.inj (hg'.symm.trans hrun)
      exact hclean.links
    · rw [hg'] at hrun
      cases hrun
  cases ha with
  | enter hphase hresult => exact h (Or.inl ⟨hphase, hresult⟩)
  | leave => rcases hloop with ⟨hphase, -⟩ | hphase <;> cases hphase
  | phony hphase _ _ _ hfinish => exact (hfinished hfinish).trans (h (Or.inr hphase))
  | restored _ _ _ _ hrestore => cases hrestore
  | spawned hphase => exact h (Or.inr hphase)
  | reaped hphase _ hwait =>
      rcases hloop with ⟨-, hres⟩ | hspawn
      · obtain rfl : _ = BuildResult.succeeded := hres
        obtain ⟨r, g, w, w', g', p', hr, -, hload, hfinish, -, -, rfl⟩ :=
          waitForNext_succeeded hwait
        have hlinks := (s.graph.links_setTimestamp r (yaccPlatform.now s.world)).trans
          (h (Or.inr hphase))
        have hmem : r ∈ (s.graph.updateRule r
            (·.setTimestamp (yaccPlatform.now s.world))).rules := by
          rw [Graph.rules_of_links hlinks]
          exact hrunning (Or.inr hphase) r (List.mem_of_getElem? hr)
        rcases g.finishRule_spec r with ⟨-, k, hrun, hclean⟩ | ⟨-, hrun⟩
        · obtain rfl : g' = k := Except.ok.inj (hfinish.symm.trans hrun)
          exact (hclean.links.trans (loadDepfile_links hlinks hmem hload)).trans hlinks
        · rw [hfinish] at hrun
          cases hrun
      · cases hspawn
  | idle hphase => exact h (Or.inr hphase)
  | flushed hphase hwait =>
      obtain ⟨r, hw⟩ := Waited.of_waitForNext hwait
      have hflush : _ = Phase.flush := hw.phase.trans hphase
      rcases hloop with ⟨hmain, -⟩ | hspawn
      · cases hflush.symm.trans hmain
      · cases hflush.symm.trans hspawn
  | finish => rcases hloop with ⟨hphase, -⟩ | hphase <;> cases hphase
  | stay hphase =>
      rcases hloop with ⟨hmain, -⟩ | hspawn
      · cases hphase.symm.trans hmain
      · cases hphase.symm.trans hspawn

theorem planned_yaccPlan : Planned (yaccGraph true) ⟨{0, 1, 2, 3}, {0}, 0⟩ := by
  obtain ⟨p, hcreate, hrules, hready, hstarted⟩ := BuildPlan.create_spec (twoWay_yaccGraph true)
    (acyclic_yaccGraph true) (exact_yaccGraph true) (by
      intro n r hr hd
      have hall : ∀ r ∈ (yaccGraph true).rules, ((yaccGraph true).rule r).isDirty = true := by
        decide
      exact hall r (((twoWay_yaccGraph true).child_eq_some n r).mp hr).1) {6}
  obtain rfl : ⟨{0, 1, 2, 3}, {0}, 0⟩ = p :=
    Except.ok.inj ((create_yaccPlan true).symm.trans hcreate)
  exact planned_of_needed hrules hready hstarted

/-- Every run loads depfiles that fit. -/
theorem fittingRun_yaccGraph {s : Builder Unit} {cs : List (Choice Unit)} {evs : List BuildEvent}
    (h : Steady (yaccGraph true) ⟨{0, 1, 2, 3}, {0}, 0⟩ evs s)
    (hlinks : s.InLoop → s.graph.links = (yaccGraph true).links) :
    FittingRun yaccPlatform evs cs s := by
  induction cs generalizing s evs with
  | nil => trivial
  | cons c cs ih =>
      have hrules := planned_yaccPlan.mem_rules (twoWay_yaccGraph true)
      have hrunning : s.InLoop → ∀ r ∈ s.running, r ∈ (yaccGraph true).rules :=
        fun hloop r hr ↦
          hrules r ((h hloop).started_subset ((h hloop).running_started r hr))
      have hfits : Fitting yaccPlatform evs s c := by
        intro hphase _ _ r hr k q content hload
        have hloop : s.InLoop := Or.inr hphase
        cases hload with
        | own hdepfile hread =>
            have hsame := (s.graph.links_setTimestamp r
              (yaccPlatform.now (c.environment s.world))).trans (hlinks hloop)
            have hmem := hrunning hloop r (List.mem_of_getElem? hr)
            rw [← Graph.rules_of_links hsame] at hmem
            obtain ⟨himplicit, hnames⟩ := names_yaccGraph hsame hmem hdepfile hread
            refine ⟨fun _ n hnew ↦ ?_, fun _ _ n hn ↦ ?_⟩
            · obtain ⟨ins, hins, dep, hdep, hlookup, hnot⟩ := hnew
              obtain ⟨m, hm, hlookup'⟩ := hnames ins hins dep hdep
              rw [hlookup, Option.some.injEq] at hlookup'
              rw [Hash.explicitInputs_none himplicit, hlookup'] at hnot
              exact absurd hm hnot
            · rw [Depfile.implicitDeps, himplicit, Nat.sub_zero, List.drop_length] at hn
              cases hn
        | restored _ _ _ _ hrestore => cases hrestore.restored
      refine ⟨hfits, fun evs' s' hstep ↦ ih (h.step hrules hfits hstep) ?_⟩
      exact inLoop_links (s := s.perturb c) hlinks hrunning (.of_step hstep)

end Builder

/-- The compilation of `main.c` writes a depfile; whatever the commands do, a
build with some slot ends. -/
theorem progresses_yaccGraph : (∀ n : Int32,
    Builder.Progresses (yaccGraph true) ⟨{0, 1, 2, 3}, {0}, 0⟩ (sizeOfInt32 n) ↔ n ≠ 0) ∧
      ∀ (n : Int32) (cs : List (Choice Unit)), n ≠ 0 → 26 ≤ cs.length → ∀ evs s,
        Builder.run yaccPlatform cs
          (Builder.create (yaccGraph true) ⟨{0, 1, 2, 3}, {0}, 0⟩ () (sizeOfInt32 n)) =
          .ok (evs, s) → s.phase = .finished := by
  have hiff := Builder.progresses_iff (Builder.tied_yaccGraph true) (acyclic_yaccGraph true)
    (exact_yaccGraph true) Builder.planned_yaccPlan
  refine ⟨fun n ↦ ?_, fun n cs hn hlen evs s hrun ↦ ?_⟩
  · rw [(hiff n).1]
    exact or_iff_left (by decide)
  · have hstart := Builder.steady_create (Builder.tied_yaccGraph true) (exact_yaccGraph true)
      Builder.planned_yaccPlan () (sizeOfInt32 n)
    have hfits : Builder.FittingRun yaccPlatform [] cs (Builder.create (yaccGraph true)
        ⟨{0, 1, 2, 3}, {0}, 0⟩ () (sizeOfInt32 n)) :=
      Builder.fittingRun_yaccGraph hstart fun _ ↦ rfl
    exact (hiff n).2 Unit yaccPlatform () cs hfits hn
      (show 6 * 4 + 2 ≤ cs.length from hlen) evs s hrun

/-- A client asks for a build of `main.o` with no threads. -/
theorem not_progresses_compileGraph : ¬ ∀ (g : Graph) (T : Finset NodeId) (p : BuildPlan)
    (n : Int32), Schedulable g → BuildPlan.create g T = .ok p →
      Builder.Progresses g p (sizeOfInt32 n) := by
  intro h
  have hg := schedulable_compileGraph
  obtain ⟨p, hcreate, hplan⟩ := hg.exists_planned {1}
  obtain rfl : ⟨{0}, {0}, 0⟩ = p := Except.ok.inj (create_compilePlan.symm.trans hcreate)
  exact Builder.not_progresses_zero hplan (by simp) (h compileGraph {1} _ 0 hg hcreate)

end Falcon
