import Falcon.Build.Scheduling

/-!
# Complete builds

A build that ends with `SUCCEEDED` should have built its whole plan.  The main
loop can also be left through the interrupted flag, and then the result is
only as good as the commands that are still running; besides, `done` counts
the rules that were started, so that a rule started twice hides another one.
A run in which neither happens is complete, whatever the graph, the depfiles,
the cache and the exit statuses.
-/

namespace Falcon

open BuildEvent

namespace BuildPlan

/-- `p'` is `p` after some more rules have become ready. -/
structure Keeps (p p' : BuildPlan) : Prop where
  rules : p'.rules = p.rules
  numStarted : p'.numStarted = p.numStarted
  ready : p.readyRules ⊆ p.rules → p'.readyRules ⊆ p'.rules

theorem Keeps.refl (p : BuildPlan) : Keeps p p := ⟨rfl, rfl, id⟩

theorem Keeps.done {p p' : BuildPlan} (h : Keeps p p') : p'.done = p.done := by
  rw [BuildPlan.done, BuildPlan.done, h.rules, h.numStarted]

theorem keeps_notifyRuleBuilt {g : Graph} {p p' : BuildPlan} {r : RuleId}
    (h : p.notifyRuleBuilt g r = .ok p') : Keeps p p' := by
  simp only [notifyRuleBuilt, Lib.bind_eq_ok, Lib.except_pure, Except.ok.injEq] at h
  obtain ⟨-, -, -, -, rfl⟩ := h
  obtain ⟨hrules, hstarted, hready⟩ := Ongoing.notifyParent_foldl g
    ((g.rule r).outputs.flatMap fun o ↦ (g.node o).parentRules) p
  refine ⟨hrules, hstarted, fun hsub q hq ↦ ?_⟩
  rw [hrules]
  rcases (hready q).mp hq with hq | ⟨-, -, hq⟩
  · exact hsub hq
  · exact hq

/-- No rule has been started, and only rules of the plan are ready. -/
structure Fresh (p : BuildPlan) : Prop where
  numStarted : p.numStarted = 0
  ready : p.readyRules ⊆ p.rules

theorem fresh_addTarget {g : Graph} {fuel : ℕ} {p p' : BuildPlan} {t : NodeId}
    (h : addTarget g fuel p t = .ok p') (hp : p.Fresh) : p'.Fresh := by
  induction fuel generalizing p p' t with
  | zero => cases h
  | succ fuel ih =>
      rw [addTarget] at h
      split at h
      · cases h
        exact hp
      · split at h
        · cases h
          exact hp
        · rename_i r hr
          split at h
          · cases h
            exact hp
          · simp only [Lib.bind_eq_ok] at h
            obtain ⟨-, -, h⟩ := h
            have hgrown : Fresh { p with rules := insert r p.rules } :=
              ⟨hp.numStarted, hp.ready.trans (Finset.subset_insert r p.rules)⟩
            split at h
            · simp only [Lib.bind_eq_ok, Lib.except_pure, Except.ok.injEq] at h
              obtain ⟨-, -, rfl⟩ := h
              exact ⟨hp.numStarted, Finset.insert_subset_insert r hp.ready⟩
            · exact Lib.foldlM_invariant Fresh (fun x _ q q' hq ↦ ih hq) h hgrown

theorem fresh_create {g : Graph} {T : Finset NodeId} {p : BuildPlan} (h : create g T = .ok p) :
    p.Fresh := by
  simp only [create, Lib.bind_eq_ok, Lib.except_pure, Except.ok.injEq] at h
  obtain ⟨p', hfold, -, -, rfl⟩ := h
  apply Lib.foldlM_invariant Fresh (fun x _ q q' hq ↦ fresh_addTarget hq) hfold
  exact ⟨rfl, Finset.empty_subset _⟩

end BuildPlan

namespace Builder

variable {ω : Type} {P : Platform ω} {s s' : Builder ω} {c : Choice ω}
  {evs evs' : List BuildEvent} {p₀ : BuildPlan}

theorem onRuleFinished_keeps {r : RuleId} (h : s.onRuleFinished r = .ok s') :
    ∃ g p, s' = { s with graph := g, plan := p } ∧ s.plan.Keeps p := by
  simp only [onRuleFinished, Lib.bind_eq_ok, Lib.except_pure, Except.ok.injEq] at h
  obtain ⟨g, -, p, hnotify, rfl⟩ := h
  exact ⟨g, p, rfl, BuildPlan.keeps_notifyRuleBuilt hnotify⟩

/-- What the caller of `waitForNext` sees of it, with or without a depfile. -/
structure Waited (s : Builder ω) (c : Choice ω) (r : RuleId) (res : BuildResult)
    (evs : List BuildEvent) (s' : Builder ω) : Prop where
  perm : s.running.Perm (r :: s'.running)
  phase : s'.phase = s.phase
  result : s'.result = s.result
  plan : s.plan.Keeps s'.plan
  outcome : evs = [.built r] ∧ res = .succeeded ∧ c.status = .succeeded ∨
    evs = [.failed r] ∧ res ≠ .succeeded

theorem Waited.of_waitForNext {res : BuildResult} (h : waitForNext P s c = .ok (res, evs, s')) :
    ∃ r, Waited s c r res evs s' := by
  rw [waitForNext] at h
  split at h
  · cases h
  · rename_i r hr
    refine ⟨r, ?_⟩
    have hperm := perm_eraseIdx hr
    simp only [reap] at h
    split at h
    · simp only [Lib.except_pure, Except.ok.injEq, Prod.mk.injEq] at h
      obtain ⟨rfl, rfl, rfl⟩ := h
      refine ⟨hperm, rfl, rfl, .refl _, Or.inr ⟨rfl, ?_⟩⟩
      split <;> simp
    · rename_i hstatus
      simp only [Lib.bind_eq_ok] at h
      obtain ⟨⟨loaded, g, w⟩, -, h⟩ := h
      cases loaded with
      | false =>
          simp only [Bool.not_false, if_true, Lib.except_pure, Except.ok.injEq,
            Prod.mk.injEq] at h
          obtain ⟨rfl, rfl, rfl⟩ := h
          exact ⟨hperm, rfl, rfl, .refl _, Or.inr ⟨rfl, by simp⟩⟩
      | true =>
          simp only [Bool.not_true, Bool.false_eq_true, if_false, Lib.bind_eq_ok,
            Lib.except_pure, Except.ok.injEq, Prod.mk.injEq] at h
          obtain ⟨w', -, s₁, hfinish, rfl, rfl, rfl⟩ := h
          obtain ⟨g', p', rfl, hkeeps⟩ := onRuleFinished_keeps hfinish
          exact ⟨hperm, rfl, rfl, hkeeps, Or.inl ⟨rfl, rfl, by simpa using hstatus⟩⟩

/-- The step does not hide an unfinished plan behind the result: an interrupt
that is seen while the plan is not done finds a command to stop, the last
command to be reaped then does not succeed, and no rule is started again. -/
structure Orderly (evs : List BuildEvent) (s : Builder ω) (c : Choice ω) : Prop where
  heard : s.phase = .main → (s.interrupted || c.interrupt) = true → s.result = .succeeded →
    s.plan.done = false → s.running ≠ []
  stopped : s.phase = .flush → s.running.length = 1 → s.result = .succeeded →
    s.plan.done = false → c.status ≠ .succeeded
  once : s.phase = .spawn → s.running.length < s.numThreads → ∀ r ∈ s.plan.findWork.1,
    r ∉ foundRules evs

/-- Every step of the run is orderly; `evs` are the events before it. -/
def OrderlyRun (P : Platform ω) : List BuildEvent → List (Choice ω) → Builder ω → Prop
  | _, [], _ => True
  | evs, c :: cs, s =>
    Orderly evs s c ∧ ∀ evs' s', step P s c = .ok (evs', s') → OrderlyRun P (evs ++ evs') cs s'

/-- The events of a build account for what the plan has handed out. -/
structure Accounted (p₀ : BuildPlan) (evs : List BuildEvent) (s : Builder ω) : Prop where
  rules : s.plan.rules = p₀.rules
  ready : s.plan.readyRules ⊆ s.plan.rules
  numStarted : s.plan.numStarted = (foundRules evs).length
  nodup : (foundRules evs).Nodup
  planned : ∀ r ∈ foundRules evs, r ∈ p₀.rules
  split : ∀ r ∈ foundRules evs, r ∈ builtRules evs ∨ r ∈ failedRules evs ∨ r ∈ s.running
  result : s.result = .succeeded → failedRules evs = []
  spawn : s.phase = .spawn → s.result = .succeeded
  flush : s.phase = .flush → s.result = .succeeded → s.plan.done = false → s.running ≠ []
  drained : s.phase = .finished → s.running = []
  finished : s.phase = .finished → s.result = .succeeded → s.plan.done = true

theorem accounted_create (g : Graph) {p : BuildPlan} (hp : p.Fresh) (w : ω) (n : ℕ) :
    Accounted p [] (create g p w n) where
  rules := rfl
  ready := hp.ready
  numStarted := hp.numStarted
  nodup := List.nodup_nil
  planned := by simp
  split := by simp
  result := by simp
  spawn := by simp [create]
  flush := by simp [create]
  drained := by simp [create]
  finished := by simp [create]

theorem Accounted.perturb (h : Accounted p₀ evs s) (c : Choice ω) :
    Accounted p₀ evs (s.perturb c) :=
  { h with }

/-- A rule leaves the ready set and is started. -/
theorem Accounted.take {r : RuleId} {p : BuildPlan} (h : Accounted p₀ evs s)
    (hphase : s.phase = .spawn) (hwork : s.plan.findWork = (some r, p))
    (hnew : r ∉ foundRules evs) :
    Accounted p₀ (evs ++ [.found r]) { s with plan := p, running := r :: s.running } := by
  obtain ⟨hr, rfl⟩ := Ongoing.findWork_eq_some hwork
  refine ⟨h.rules, (Finset.erase_subset _ _).trans h.ready, ?_, ?_, ?_, ?_, ?_, h.spawn, ?_, ?_,
    ?_⟩
  · simp [h.numStarted]
  · simp only [foundRules_append, foundRules_found, foundRules_nil]
    rw [List.nodup_append_comm, List.singleton_append, List.nodup_cons]
    exact ⟨hnew, h.nodup⟩
  · intro q hq
    simp only [foundRules_append, foundRules_found, foundRules_nil, List.mem_append,
      List.mem_singleton] at hq
    rcases hq with hq | rfl
    · exact h.planned q hq
    · exact h.rules ▸ h.ready hr
  · intro q hq
    simp only [foundRules_append, foundRules_found, foundRules_nil, List.mem_append,
      List.mem_singleton] at hq
    simp only [builtRules_append, builtRules_found, builtRules_nil, List.append_nil,
      failedRules_append, failedRules_found, failedRules_nil, List.mem_cons]
    rcases hq with hq | rfl
    · rcases h.split q hq with hb | hf | hrun
      · exact Or.inl hb
      · exact Or.inr (Or.inl hf)
      · exact Or.inr (Or.inr (Or.inr hrun))
    · exact Or.inr (Or.inr (Or.inl rfl))
  · intro hsucc
    simpa using h.result hsucc
  · simp [hphase]
  · simp [hphase]
  · simp [hphase]

/-- A rule that is in hand has been built, and the plan was told. -/
theorem Accounted.finish {r : RuleId} {rest : List RuleId} {g : Graph} {p : BuildPlan} {w : ω}
    (h : Accounted p₀ evs s) (hphase : s.phase = .spawn) (hperm : s.running.Perm (r :: rest))
    (hkeeps : s.plan.Keeps p) :
    Accounted p₀ (evs ++ [.built r])
      { s with graph := g, plan := p, world := w, running := rest } := by
  refine ⟨hkeeps.rules.trans h.rules, hkeeps.ready h.ready, ?_, ?_, ?_, ?_, ?_, h.spawn, ?_, ?_,
    ?_⟩
  · simp [hkeeps.numStarted, h.numStarted]
  · simpa using h.nodup
  · simpa using h.planned
  · intro q hq
    have hq' : q ∈ foundRules evs := by simpa using hq
    simp only [builtRules_append, builtRules_built, builtRules_nil, List.mem_append,
      List.mem_singleton, failedRules_append, failedRules_built, failedRules_nil, List.append_nil]
    rcases h.split q hq' with hb | hf | hrun
    · exact Or.inl (Or.inl hb)
    · exact Or.inr (Or.inl hf)
    · rcases List.mem_cons.mp (hperm.mem_iff.mp hrun) with rfl | hrest
      · exact Or.inl (Or.inr rfl)
      · exact Or.inr (Or.inr hrest)
  · intro hsucc
    simpa using h.result hsucc
  · simp [hphase]
  · simp [hphase]
  · simp [hphase]

/-- A command has been reaped: what the events say about the rules. -/
theorem Accounted.split_waited {r : RuleId} {res : BuildResult} (h : Accounted p₀ evs s)
    (hw : Waited s c r res evs' s') :
    ∀ q ∈ foundRules (evs ++ evs'),
      q ∈ builtRules (evs ++ evs') ∨ q ∈ failedRules (evs ++ evs') ∨ q ∈ s'.running := by
  intro q hq
  have hfound : foundRules evs' = [] := by
    rcases hw.outcome with ⟨rfl, -⟩ | ⟨rfl, -⟩ <;> rfl
  rw [foundRules_append, hfound, List.append_nil] at hq
  rw [builtRules_append, failedRules_append, List.mem_append, List.mem_append]
  rcases h.split q hq with hb | hf | hrun
  · exact Or.inl (Or.inl hb)
  · exact Or.inr (Or.inl (Or.inl hf))
  · rcases List.mem_cons.mp (hw.perm.mem_iff.mp hrun) with rfl | hrest
    · rcases hw.outcome with ⟨rfl, -⟩ | ⟨rfl, -⟩
      · exact Or.inl (Or.inr (by simp))
      · exact Or.inr (Or.inl (Or.inr (by simp)))
    · exact Or.inr (Or.inr hrest)

/-- The caller of `waitForNext` goes on in the state `t`. -/
theorem Accounted.waited {t : Builder ω} {r : RuleId} {res : BuildResult}
    (h : Accounted p₀ evs s) (hw : Waited s c r res evs' s') (hplan : t.plan = s'.plan)
    (hrunning : t.running = s'.running) (hspawn : t.phase ≠ .spawn)
    (hfinished : t.phase ≠ .finished)
    (hresult : t.result = .succeeded → s.result = .succeeded ∧ res = .succeeded)
    (hflush : t.phase = .flush → t.result = .succeeded → s.plan.done = false → t.running ≠ []) :
    Accounted p₀ (evs ++ evs') t := by
  have hfound : foundRules (evs ++ evs') = foundRules evs := by
    rcases hw.outcome with ⟨rfl, -⟩ | ⟨rfl, -⟩ <;> simp
  have hkeeps := hw.plan
  rw [← hplan] at hkeeps
  refine ⟨hkeeps.rules.trans h.rules, hkeeps.ready h.ready, ?_, ?_, ?_, ?_, ?_,
    fun hp ↦ absurd hp hspawn, ?_, fun hp ↦ absurd hp hfinished, fun hp ↦ absurd hp hfinished⟩
  · rw [hfound]
    exact hkeeps.numStarted.trans h.numStarted
  · rw [hfound]
    exact h.nodup
  · rw [hfound]
    exact h.planned
  · rw [hrunning]
    exact h.split_waited hw
  · intro hsucc
    obtain ⟨hs, hres⟩ := hresult hsucc
    rw [failedRules_append, h.result hs]
    rcases hw.outcome with ⟨rfl, -⟩ | ⟨-, hne⟩
    · rfl
    · exact absurd hres hne
  · intro hp hsucc hdone
    exact hflush hp hsucc (hkeeps.done ▸ hdone)

theorem Accounted.act (h : Accounted p₀ evs s) (hc : Orderly evs s c)
    (hint : s.interrupted = (s.interrupted || c.interrupt)) (ha : Act P s c evs' s') :
    Accounted p₀ (evs ++ evs') s' := by
  cases ha with
  | enter _ hresult =>
      rw [List.append_nil]
      exact { h with
        spawn := fun _ ↦ hresult, flush := by simp, drained := by simp, finished := by simp }
  | leave hphase hstop =>
      rw [List.append_nil]
      refine { h with
        spawn := by simp, flush := fun _ hsucc hdone ↦ ?_, drained := by simp
        finished := by simp }
      rcases hstop with hne | hd | hi
      · exact absurd hsucc hne
      · rw [show s.plan.done = false from hdone] at hd
        cases hd
      · exact hc.heard hphase (hint ▸ hi) hsucc hdone
  | phony hphase hslot hwork _ hfinish =>
      obtain ⟨g, p, rfl, hkeeps⟩ := onRuleFinished_keeps hfinish
      have htake := h.take hphase hwork (hc.once hphase hslot _ (by simp [hwork]))
      simpa using htake.finish hphase (.refl _) hkeeps
  | restored hphase hslot hwork _ _ hfinish =>
      obtain ⟨g, p, rfl, hkeeps⟩ := onRuleFinished_keeps hfinish
      have htake := h.take hphase hwork (hc.once hphase hslot _ (by simp [hwork]))
      simpa using htake.finish hphase (.refl _) hkeeps
  | spawned hphase hslot hwork =>
      have htake := h.take hphase hwork (hc.once hphase hslot _ (by simp [hwork]))
      exact { htake with }
  | reaped hphase _ hwait =>
      obtain ⟨r, hw⟩ := Waited.of_waitForNext hwait
      refine h.waited hw rfl rfl (by simp) (by simp) (fun hres ↦ ⟨h.spawn hphase, hres⟩) ?_
      simp
  | idle =>
      rw [List.append_nil]
      exact { h with spawn := by simp, flush := by simp, drained := by simp, finished := by simp }
  | flushed hphase hwait =>
      obtain ⟨r, hw⟩ := Waited.of_waitForNext hwait
      have hphase' := hw.phase.trans hphase
      refine h.waited hw rfl rfl (by simp [hphase']) (by simp [hphase']) ?_ ?_
      · simp only [hw.result]
        split
        · rename_i hs
          exact fun hres ↦ ⟨hs, hres⟩
        · rename_i hne
          exact fun hs ↦ absurd hs hne
      · simp only [hw.result]
        intro _ hsucc hdone hnone
        have hlen : s.running.length = 1 := by
          rw [hw.perm.length_eq, hnone]
          rfl
        split at hsucc
        · rename_i hs
          rcases hw.outcome with ⟨-, -, hstatus⟩ | ⟨-, hne⟩
          · exact hc.stopped hphase hlen hs hdone hstatus
          · exact hne hsucc
        · rename_i hne
          exact hne hsucc
  | finish hphase hrun =>
      rw [List.append_nil]
      refine { h with
        spawn := by simp, flush := by simp, drained := fun _ ↦ hrun
        finished := fun _ hsucc ↦ ?_ }
      by_contra hdone
      exact h.flush hphase hsucc (by simpa using hdone) hrun
  | stay => simpa using h

theorem Accounted.step (h : Accounted p₀ evs s) (hc : Orderly evs s c)
    (hstep : step P s c = .ok (evs', s')) : Accounted p₀ (evs ++ evs') s' := by
  apply (h.perturb c).act (c := c) _ _ (.of_step hstep)
  · refine ⟨fun hphase hint ↦ ?_, hc.stopped, hc.once⟩
    apply hc.heard hphase
    simpa [Builder.perturb] using hint
  · simp [Builder.perturb]

theorem Accounted.run {cs : List (Choice ω)} (h : Accounted p₀ evs s)
    (hc : OrderlyRun P evs cs s) (hrun : run P cs s = .ok (evs', s')) :
    Accounted p₀ (evs ++ evs') s' := by
  refine (run_rule (fun evs cs s ↦ OrderlyRun P evs cs s ∧ Accounted p₀ evs s) ?_ hrun ⟨hc, h⟩).2
  rintro c cs evs evs' s s' ⟨hc, h⟩ hstep
  exact ⟨hc.2 evs' s' hstep, h.step hc.1 hstep⟩

theorem Accounted.complete (h : Accounted p₀ evs s) (hphase : s.phase = .finished)
    (hresult : s.result = .succeeded) {r : RuleId} (hr : r ∈ p₀.rules) : r ∈ builtRules evs := by
  have hdone : (foundRules evs).length = p₀.rules.card := by
    have hd := h.finished hphase hresult
    rwa [BuildPlan.done, decide_eq_true_eq, h.numStarted, h.rules] at hd
  have hsub : (foundRules evs).toFinset ⊆ p₀.rules :=
    fun q hq ↦ h.planned q (List.mem_toFinset.mp hq)
  have hcard : p₀.rules.card ≤ (foundRules evs).toFinset.card := by
    rw [List.toFinset_card_of_nodup h.nodup, hdone]
  have hfound : r ∈ foundRules evs := by
    rw [← List.mem_toFinset, Finset.eq_of_subset_of_card_le hsub hcard]
    exact hr
  rcases h.split r hfound with hb | hf | hrun
  · exact hb
  · rw [h.result hresult] at hf
    cases hf
  · rw [h.drained hphase] at hrun
    cases hrun

/-- An orderly build that reports success has built its whole plan. -/
theorem complete_of_succeeded {g : Graph} {T : Finset NodeId} {p : BuildPlan} {w : ω} {n : ℕ}
    {cs : List (Choice ω)} (hplan : BuildPlan.create g T = .ok p)
    (horderly : OrderlyRun P [] cs (create g p w n))
    (hrun : run P cs (create g p w n) = .ok (evs, s)) (hphase : s.phase = .finished)
    (hresult : s.result = .succeeded) : ∀ r ∈ p.rules, r ∈ builtRules evs := by
  have hstart := accounted_create g (BuildPlan.fresh_create hplan) w n
  have hend : Accounted p evs s := hstart.run horderly hrun
  exact fun r hr ↦ hend.complete hphase hresult hr

section Scheduled

variable {g₀ : Graph} {cs : List (Choice ω)}

/-- As long as the flag `interrupted_` is set, every rule has been started. -/
def LateInterrupts (P : Platform ω) : List (Choice ω) → Builder ω → Prop
  | [], _ => True
  | c :: cs, s => ((s.perturb c).interrupted = true → s.plan.done = true) ∧
    ∀ evs' s', step P s c = .ok (evs', s') → LateInterrupts P cs s'

theorem Live.orderly (h : Live g₀ p₀ evs s) (hc : Controlled evs s)
    (hlate : (s.perturb c).interrupted = true → s.plan.done = true) : Orderly evs s c where
  heard _ hset _ hdone := by
    rw [hlate hset] at hdone
    cases hdone
  stopped hphase _ hresult hdone := by
    rcases hc.stopped (Or.inl hphase) with hne | hd | hi
    · exact absurd hresult hne
    · rw [hdone] at hd
      cases hd
    · rw [hlate (by simp [Builder.perturb, hi])] at hdone
      cases hdone
  once _ _ r hr := by
    obtain ⟨r', p, hwork⟩ : ∃ r' p, s.plan.findWork = (r', p) := ⟨_, _, rfl⟩
    rw [hwork, Option.mem_def] at hr
    obtain rfl : r' = some r := hr
    exact (h.take hwork).2.1

/-- Where no depfile is loaded and nobody interrupts the build before all its
rules have been started, it is orderly. -/
theorem Live.orderlyRun (hL : g₀.links.TwoWay) (hrules : ∀ r ∈ p₀.rules, r ∈ g₀.rules)
    (h : Live g₀ p₀ evs s) (hc : Controlled evs s) (hfree : LoadFree P cs s)
    (hlate : LateInterrupts P cs s) : OrderlyRun P evs cs s := by
  induction cs generalizing s evs with
  | nil => trivial
  | cons c cs ih =>
      refine ⟨h.orderly hc hlate.1, fun evs' s' hstep ↦ ?_⟩
      have ha : Act P (s.perturb c) c evs' s' := .of_step hstep
      apply ih (h.step hL hrules hfree.1 hstep)
      · exact (hc.perturb c).act hL hrules (fun _ ↦ hfree.1.perturb) (h.perturb c) ha
      · exact hfree.2 evs' s' hstep
      · exact hlate.2 evs' s' hstep

/-- The run ends, its interrupts come late, and `Q` holds at its end. -/
def Ends (P : Platform ω) (cs : List (Choice ω)) (s : Builder ω)
    (Q : List BuildEvent → Builder ω → Prop) : Prop :=
  LateInterrupts P cs s ∧ ∃ evs s', run P cs s = .ok (evs, s') ∧ Q evs s'

theorem ends_cons {Q : List BuildEvent → Builder ω → Prop} {evs₁ : List BuildEvent}
    {s₁ : Builder ω} (hstep : step P s c = .ok (evs₁, s₁))
    (hlate : (s.perturb c).interrupted = true → s.plan.done = true)
    (h : Ends P cs s₁ fun evs s' ↦ Q (evs₁ ++ evs) s') : Ends P (c :: cs) s Q := by
  obtain ⟨hlate', evs, s', hrun, hQ⟩ := h
  refine ⟨⟨hlate, fun evs' t ht ↦ ?_⟩, evs₁ ++ evs, s', by simp [run, hstep, hrun], hQ⟩
  obtain ⟨-, rfl⟩ := Prod.mk.inj (Except.ok.inj (hstep.symm.trans ht))
  exact hlate'

theorem step_found (hphase : s.phase = .spawn) (hthreads : s.running.length < s.numThreads)
    {r : RuleId} (hr : r ∈ s.plan.readyRules) (hmin : ∀ q ∈ s.plan.readyRules, r ≤ q) :
    step P s c = buildRule P { s.perturb c with plan := { s.plan with
      readyRules := s.plan.readyRules.erase r, numStarted := s.plan.numStarted + 1 } } r := by
  have hwork : s.plan.hasWork = true := by
    simpa [BuildPlan.hasWork] using Finset.ne_empty_of_mem hr
  simp [step, perturb, hphase, hwork, hthreads, BuildPlan.findWork_least hr hmin]

end Scheduled

end Builder

/-- Two commands run at a time and all succeed; the interrupt comes while the
last one is running. -/
theorem ends_yaccGraph : Builder.Ends emptyPlatform
    (List.replicate 11 ⟨id, false, 0, .succeeded⟩ ++ [⟨id, true, 0, .succeeded⟩,
      ⟨id, false, 0, .succeeded⟩, ⟨id, false, 0, .succeeded⟩])
    (Builder.create (yaccGraph false) ⟨{0, 1, 2, 3}, {0}, 0⟩ () 2)
    fun _ s ↦ s.interrupted = true ∧ s.phase = .finished ∧ s.result = .succeeded := by
  have hfound {s : Builder Unit} {c : Choice Unit} (r : RuleId) (hphase : s.phase = .spawn)
      (hthreads : s.running.length < s.numThreads) (hr : r ∈ s.plan.readyRules)
      (hmin : ∀ q ∈ s.plan.readyRules, r ≤ q) :=
    Builder.step_found (P := emptyPlatform) (c := c) hphase hthreads hr hmin
  refine Builder.ends_cons rfl (by decide) ?_
  refine Builder.ends_cons ((hfound 0 rfl (by decide) (by decide) (by decide)).trans rfl)
    (by decide) ?_
  refine Builder.ends_cons rfl (by decide) ?_
  refine Builder.ends_cons rfl (by decide) ?_
  refine Builder.ends_cons ((hfound 1 rfl (by decide) (by decide) (by decide)).trans rfl)
    (by decide) ?_
  refine Builder.ends_cons ((hfound 2 rfl (by decide) (by decide) (by decide)).trans rfl)
    (by decide) ?_
  refine Builder.ends_cons rfl (by decide) ?_
  refine Builder.ends_cons rfl (by decide) ?_
  refine Builder.ends_cons rfl (by decide) ?_
  refine Builder.ends_cons rfl (by decide) ?_
  refine Builder.ends_cons ((hfound 3 rfl (by decide) (by decide) (by decide)).trans rfl)
    (by decide) ?_
  refine Builder.ends_cons rfl (by decide) ?_
  refine Builder.ends_cons rfl (by decide) ?_
  refine Builder.ends_cons rfl (by decide) ?_
  exact ⟨trivial, [], _, rfl, rfl, rfl, rfl⟩

theorem complete_yaccGraph_interrupted : ∃ evs s, Builder.run emptyPlatform
      (List.replicate 11 ⟨id, false, 0, .succeeded⟩ ++ [⟨id, true, 0, .succeeded⟩,
        ⟨id, false, 0, .succeeded⟩, ⟨id, false, 0, .succeeded⟩])
      (Builder.create (yaccGraph false) ⟨{0, 1, 2, 3}, {0}, 0⟩ () 2) = .ok (evs, s) ∧
    s.interrupted = true ∧ s.result = .succeeded ∧
      ∀ r ∈ ({0, 1, 2, 3} : Finset RuleId), r ∈ builtRules evs := by
  obtain ⟨hlate, evs, s, hrun, hset, hphase, hresult⟩ := ends_yaccGraph
  have hg := schedulable_yaccGraph
  obtain ⟨p, hcreate, hplan⟩ := hg.exists_planned {6}
  obtain rfl := Except.ok.inj ((create_yaccPlan false).symm.trans hcreate)
  have hlive := Builder.live_create hg.exact hplan () 2
  have hcontrol := Builder.controlled_create (yaccGraph false) ⟨{0, 1, 2, 3}, {0}, 0⟩ () 2
  have horderly := hlive.orderlyRun hg.twoWay (hplan.mem_rules hg.twoWay) hcontrol
    (Builder.loadFree_of_schedulable hg hplan () 2 _) hlate
  exact ⟨evs, s, hrun, hset, hresult,
    Builder.complete_of_succeeded (create_yaccPlan false) horderly hrun hphase hresult⟩

theorem create_compilePlan : BuildPlan.create compileGraph {1} = .ok ⟨{0}, {0}, 0⟩ := by
  simp [BuildPlan.create, BuildPlan.addTarget, BuildPlan.empty, compileGraph,
    Node.isDirty, Rule.isDirty,
    Rule.ready, Rule.create, Node.create, assert]

/-- The user interrupts the build before its first command is started. -/
theorem not_complete_interrupted :
    ¬ ∀ (g : Graph) (T : Finset NodeId) (p : BuildPlan) (cs : List (Choice Unit))
      (evs : List BuildEvent) (s : Builder Unit), BuildPlan.create g T = .ok p →
      Builder.run emptyPlatform cs (Builder.create g p () 1) = .ok (evs, s) →
      s.phase = .finished → s.result = .succeeded → ∀ r ∈ p.rules, r ∈ builtRules evs := by
  intro h
  have hbuilt := h compileGraph {1} ⟨{0}, {0}, 0⟩ [⟨id, true, 0, .succeeded⟩,
    ⟨id, false, 0, .succeeded⟩] [] _ create_compilePlan rfl rfl rfl 0 (Finset.mem_singleton_self 0)
  cases hbuilt

end Falcon
