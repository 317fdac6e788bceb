import Falcon.Build.Scheduling
import Falcon.Build.SubProcesses
import Falcon.Lib.Simulation
import Falcon.Stream.Delivery

/-!
# The build thread on its process manager

`Builder` has a list of running rules of which any may be reaped next.  Here the same
loops run on `PosixSubProcessManager`, which polls the descriptors of the commands, and
they tell the consumer what they do.  Whatever the thread does is something that the
builder may do.
-/

namespace Falcon

open PosixSubProcessManager (BuiltRule Spawned Round addProcess)

open StreamServer (Write)

/-- What a process tells the consumer. -/
def CommandOutput.write (o : CommandOutput) : Write :=
  if o.isStdout then .writeStdout o.cmdId o.buf else .writeStderr o.cmdId o.buf

/-- The rules that run are those of the process manager; `running` of `builder` is not
used.  `writes` are the calls of the consumer so far. -/
structure BuildThread (ω : Type) where
  builder : Builder ω
  manager : PosixSubProcessManager
  writes : List Write

/-- What happens outside the thread until its next step is over: `spawned` is what a new
process gets, `rounds` are those of `poll`, and `status` is what `waitpid` returns. -/
structure ThreadChoice (ω : Type) where
  environment : ω → ω
  interrupt : Bool
  spawned : Spawned
  rounds : List Round
  status : SubProcessExitStatus

/-- The builder is told which of its rules is reaped. -/
def ThreadChoice.toChoice {ω : Type} (c : ThreadChoice ω) (next : ℕ) : Choice ω where
  environment := c.environment
  interrupt := c.interrupt
  next := next
  status := c.status

namespace BuildThread

variable {ω : Type} (P : Platform ω)

/-- The lazy fetch has made the calls `writes`. -/
def create (g : Graph) (p : BuildPlan) (w : ω) (numThreads : ℕ) (writes : List Write) :
    BuildThread ω where
  builder := .create g p w numThreads
  manager := .create
  writes := writes

/-- `tryBuildRuleFromCache` names the outputs that were retrieved. -/
def retrieved (g : Graph) (rule : RuleId) : List Write :=
  (g.rule rule).outputs.map fun output ↦ .cacheRetrieveAction (g.node output).path

def buildRule (t : BuildThread ω) (spawned : Spawned) (rule : RuleId) :
    Outcome (List BuildEvent × BuildThread ω) :=
  let g := t.builder.graph
  if (g.rule rule).isPhony then do
    let b ← t.builder.onRuleFinished rule
    pure ([.found rule, .built rule], { t with builder := b })
  else do
    let (hit, w) ← P.restoreRule g rule t.builder.world
    if hit then do
      let g' := g.updateRule rule (·.setTimestamp (P.now w))
      let b ← { t.builder with graph := g', world := w }.onRuleFinished rule
      pure ([.found rule, .built rule],
        { t with builder := b, writes := t.writes ++ retrieved g rule })
    else do
      let (id, m) ← addProcess (g.rule rule).command rule spawned t.manager
      pure ([.found rule], ⟨{ t.builder with world := w }, m,
        t.writes ++ [.newCommand id (g.rule rule).command]⟩)

/-- The calls up to the end of a command: first the processes make theirs, while
`waitForNext` polls. -/
def ended (t : BuildThread ω) (m : PosixSubProcessManager) (res : BuiltRule) : List Write :=
  t.writes ++ (m.output.drop t.manager.output.length).map CommandOutput.write ++
    [.endCommand res.cmdId res.status]

def waitForNext (t : BuildThread ω) (c : ThreadChoice ω) :
    Outcome (BuildResult × List BuildEvent × BuildThread ω) := do
  let (_, res, m) ← PosixSubProcessManager.waitForNext c.rounds c.status t.manager
  let (result, evs, b) ← Builder.reap P t.builder res.rule res.status
  pure (result, evs, ⟨b, m, t.ended m res⟩)

def perturb (t : BuildThread ω) (c : ThreadChoice ω) : BuildThread ω :=
  { t with builder := t.builder.perturb (c.toChoice 0) }

def setPhase (t : BuildThread ω) (phase : Phase) : BuildThread ω :=
  { t with builder := { t.builder with phase := phase } }

/-- A step of `buildThread`; its loops look at the process manager. -/
def step (t : BuildThread ω) (c : ThreadChoice ω) : Outcome (List BuildEvent × BuildThread ω) :=
  let t := t.perturb c
  match t.builder.phase with
  | .main =>
    if t.builder.result = .succeeded && !t.builder.plan.done && !t.builder.interrupted then
      pure ([], t.setPhase .spawn)
    else pure ([], t.setPhase .flush)
  | .spawn =>
    if t.builder.plan.hasWork && t.manager.nbRunning < t.builder.numThreads then
      match t.builder.plan.findWork with
      | (none, _) => .error (.assertion .foundWork)
      | (some rule, p) =>
        { t with builder := { t.builder with plan := p } }.buildRule P c.spawned rule
    else if 0 < t.manager.nbRunning then do
      let (res, evs, t) ← t.waitForNext P c
      pure (evs, { t with builder := { t.builder with result := res, phase := .main } })
    else pure ([], t.setPhase .main)
  | .flush =>
    if 0 < t.manager.nbRunning then do
      let (tmp, evs, t) ← t.waitForNext P c
      pure (evs, { t with builder := { t.builder with
        result := if t.builder.result = .succeeded then tmp else t.builder.result } })
    else pure ([], t.setPhase .finished)
  | .finished => pure ([], t)

/-- The address and the pipes of a new process are not in use. -/
def Fresh (t : BuildThread ω) (c : ThreadChoice ω) : Prop := t.manager.Fresh c.spawned

end BuildThread

/-! ## The builder does not look at what runs -/

namespace Builder

variable {ω : Type} {P : Platform ω} {b : Builder ω} {l : List RuleId}

def withRunning (l : List RuleId) (b : Builder ω) : Builder ω := { b with running := l }

theorem onRuleFinished_withRunning (rule : RuleId) :
    (b.withRunning l).onRuleFinished rule = (b.onRuleFinished rule).map (withRunning l) := by
  rw [onRuleFinished, onRuleFinished, withRunning]
  cases b.graph.finishRule rule with
  | error f => rfl
  | ok g =>
      simp only [Lib.except_ok_bind]
      cases b.plan.notifyRuleBuilt g rule <;> rfl

theorem reap_withRunning (rule : RuleId) (status : SubProcessExitStatus) :
    reap P (b.withRunning l) rule status =
      (reap P b rule status).map fun x ↦ (x.1, x.2.1, x.2.2.withRunning l) := by
  rw [reap, reap]
  split
  · rfl
  · refine Lib.bind_map fun x ↦ ?_
    obtain ⟨loaded, g, w⟩ := x
    cases loaded with
    | false => rfl
    | true =>
        refine Lib.bind_map fun w' ↦ ?_
        change (Builder.onRuleFinished (withRunning l { b with graph := g, world := w' }) rule
          >>= _) = _
        rw [onRuleFinished_withRunning]
        cases onRuleFinished { b with graph := g, world := w' } rule <;> rfl

end Builder

/-! ## Refinement -/

namespace BuildThread

variable {ω : Type} {P : Platform ω} {t t' : BuildThread ω} {s s' : Builder ω}
  {c : ThreadChoice ω} {evs : List BuildEvent}

/-- The builder runs the rules of the processes, in some order, and all else is the same. -/
structure Refines (t : BuildThread ω) (s : Builder ω) : Prop where
  tidy : t.manager.Tidy
  builder : s = t.builder.withRunning s.running
  running : (s.running.map some).Perm (t.manager.entries.map fun e ↦ e.2.1)

theorem refines_create (g : Graph) (p : BuildPlan) (w : ω) (numThreads : ℕ) (writes : List Write) :
    (create g p w numThreads writes).Refines (.create g p w numThreads) where
  tidy := PosixSubProcessManager.tidy_create
  builder := rfl
  running := List.Perm.refl _

namespace Refines

theorem length_running (h : t.Refines s) : s.running.length = t.manager.nbRunning := by
  have hlength := h.running.length_eq
  rwa [List.length_map, List.length_map, PosixSubProcessManager.length_entries] at hlength

/-- The fields that both have may change alike. -/
theorem congr (h : t.Refines s) (hmanager : t'.manager = t.manager)
    (hbuilder : s' = t'.builder.withRunning s.running) : t'.Refines s' := by
  subst hbuilder
  refine ⟨?_, rfl, ?_⟩
  · rw [hmanager]
    exact h.tidy
  · rw [hmanager]
    exact h.running

theorem perturb (h : t.Refines s) (c : ThreadChoice ω) (next : ℕ) :
    (t.perturb c).Refines (s.perturb (c.toChoice next)) := by
  refine h.congr rfl ?_
  rw [h.builder]
  rfl

theorem setPhase (h : t.Refines s) (phase : Phase) :
    (t.setPhase phase).Refines { s with phase := phase } := by
  refine h.congr rfl ?_
  conv_lhs => rw [h.builder]
  rfl

/-- A process is added for the rule. -/
theorem added (h : t.Refines s) {spawned : Spawned} (hfresh : t.manager.Fresh spawned)
    (rule : RuleId) (b : Builder ω) (writes : List Write) :
    (⟨b, t.manager.added rule spawned, writes⟩ : BuildThread ω).Refines
      (b.withRunning (rule :: s.running)) := by
  refine ⟨h.tidy.added rule hfresh, rfl, ?_⟩
  change (some rule :: s.running.map some).Perm _
  rw [PosixSubProcessManager.entries_added hfresh]
  exact h.running.cons (some rule)

theorem buildRule (h : t.Refines s) {spawned : Spawned} (hfresh : t.manager.Fresh spawned)
    (rule : RuleId) : Lib.Answers Refines (t.buildRule P spawned rule) (s.buildRule P rule) := by
  rw [h.builder, BuildThread.buildRule, Builder.buildRule]
  change Lib.Answers Refines _ (if (t.builder.graph.rule rule).isPhony = true then _ else _)
  split
  · rw [Builder.onRuleFinished_withRunning]
    cases t.builder.onRuleFinished rule with
    | error f => exact .error f
    | ok b => exact .ok (h.congr rfl rfl)
  · change Lib.Answers Refines _ (P.restoreRule t.builder.graph rule t.builder.world >>= _)
    cases P.restoreRule t.builder.graph rule t.builder.world with
    | error f => exact .error f
    | ok x =>
        obtain ⟨hit, w⟩ := x
        cases hit with
        | true =>
            let b : Builder ω := { t.builder with
              graph := t.builder.graph.updateRule rule (·.setTimestamp (P.now w)), world := w }
            change Lib.Answers Refines (b.onRuleFinished rule >>= _)
              ((b.withRunning s.running).onRuleFinished rule >>= _)
            rw [Builder.onRuleFinished_withRunning]
            cases b.onRuleFinished rule with
            | error f => exact .error f
            | ok b' => exact .ok (h.congr rfl rfl)
        | false =>
            change Lib.Answers Refines
              (addProcess (t.builder.graph.rule rule).command rule spawned t.manager >>= _) _
            by_cases hcommand : (t.builder.graph.rule rule).command = ""
            · rw [hcommand]
              change Lib.Answers Refines _
                (assert ((t.builder.graph.rule rule).command ≠ "") _ >>= _)
              rw [hcommand]
              exact .error _
            · rw [h.tidy.addProcess hcommand hfresh]
              change Lib.Answers Refines _
                (assert ((t.builder.graph.rule rule).command ≠ "") _ >>= _)
              rw [decide_eq_true hcommand]
              exact .ok (h.added hfresh rule _ _)

/-- The rule of the process that is handed out is one of those that the builder may reap,
and what is done with it does not depend on the others. -/
theorem waitForNext (h : t.Refines s) (hcall : 0 < t.manager.nbRunning) (c : ThreadChoice ω) :
    t.waitForNext P c = .error .outOfFuel ∨ ∃ rule m writes next running,
      t.waitForNext P c = (Builder.reap P t.builder rule c.status).map
        (fun x ↦ (x.1, x.2.1, ⟨x.2.2, m, writes⟩)) ∧
      s.waitForNext P (c.toChoice next) = (Builder.reap P t.builder rule c.status).map
        (fun x ↦ (x.1, x.2.1, x.2.2.withRunning running)) ∧
      m.Tidy ∧ (running.map some).Perm (m.entries.map fun e ↦ e.2.1) := by
  rcases h.tidy.waitForNext hcall c.rounds c.status with
    ⟨m₁, q, proc, finished, rule, hclosed, hfinished, hrule, hreturns⟩ | ⟨hblocks, -⟩
  · have htidy := h.tidy.closed hclosed
    have hpopped := htidy.entries_popped hfinished hrule
    have hperm : (s.running.map some).Perm (some rule :: _) :=
      h.running.trans ((hclosed.entries.symm.trans hpopped).map fun e ↦ e.2.1)
    have hmem : rule ∈ s.running := by
      obtain ⟨r, hr, heq⟩ := List.mem_map.mp (hperm.mem_iff.mpr List.mem_cons_self)
      exact Option.some.inj heq ▸ hr
    have hindex : s.running.idxOf rule % s.running.length = s.running.idxOf rule :=
      Nat.mod_eq_of_lt (List.idxOf_lt_length_of_mem hmem)
    refine Or.inr ⟨rule, _, t.ended m₁ ⟨rule, c.status, proc.id⟩, s.running.idxOf rule,
      s.running.erase rule, ?_, ?_, htidy.popped hfinished, ?_⟩
    · rw [BuildThread.waitForNext, hreturns]
      change (Builder.reap P t.builder rule c.status >>= _) = _
      cases Builder.reap P t.builder rule c.status <;> rfl
    · rw [Builder.waitForNext, ThreadChoice.toChoice]
      simp only [hindex]
      rw [List.getElem?_idxOf hmem]
      simp only
      have hrest : ({ s with running := s.running.eraseIdx (s.running.idxOf rule) } : Builder ω) =
          t.builder.withRunning (s.running.erase rule) := by
        rw [List.erase_eq_eraseIdx_of_idxOf rfl]
        change s.withRunning _ = (t.builder.withRunning s.running).withRunning _
        rw [← h.builder]
      rw [hrest]
      exact Builder.reap_withRunning rule c.status
    · exact (((List.perm_cons_erase hmem).map some).symm.trans hperm).cons_inv
  · exact Or.inl (by rw [BuildThread.waitForNext, hblocks]; rfl)

/-- What follows when a command has ended. -/
theorem waits (h : t.Refines s) (hcall : 0 < t.manager.nbRunning) (c : ThreadChoice ω)
    {f : BuildResult → Builder ω → Builder ω}
    (hf : ∀ res b l, f res (Builder.withRunning l b) = (f res b).withRunning l) :
    t.waitForNext P c = .error .outOfFuel ∨ ∃ next, Lib.Answers Refines
      (t.waitForNext P c >>= fun x ↦ pure (x.2.1, { x.2.2 with builder := f x.1 x.2.2.builder }))
      (s.waitForNext P (c.toChoice next) >>= fun x ↦ pure (x.2.1, f x.1 x.2.2)) := by
  rcases h.waitForNext hcall c with
    hblocks | ⟨rule, m, writes, next, running, ht, hs, htidy, hrunning⟩
  · exact Or.inl hblocks
  · refine Or.inr ⟨next, ?_⟩
    rw [ht, hs]
    cases Builder.reap P t.builder rule c.status with
    | error e => exact .error e
    | ok x =>
        have hx := hf x.1 x.2.2 running
        refine .ok ⟨htidy, ?_, ?_⟩
        · change f x.1 (x.2.2.withRunning running) = Builder.withRunning
            (f x.1 (x.2.2.withRunning running)).running (f x.1 x.2.2)
          rw [hx]
          rfl
        · change ((f x.1 (x.2.2.withRunning running)).running.map some).Perm _
          rw [hx]
          exact hrunning

/-- A step is one that the builder may make, unless it waits for a command still. -/
theorem step (h : t.Refines s) (hfresh : t.Fresh c) :
    (∃ f, f = .outOfFuel ∧ t.step P c = .error f) ∨
      ∃ d, Lib.Answers Refines (t.step P c) (s.step P d) := by
  have hp : (t.perturb c).Refines (s.perturb (c.toChoice 0)) := h.perturb c 0
  have hs : ∀ next, s.perturb (c.toChoice next) =
      (t.perturb c).builder.withRunning s.running := by
    intro next
    rw [h.builder]
    rfl
  have hnb : s.running.length = (t.perturb c).manager.nbRunning := h.length_running
  have hfresh' : (t.perturb c).manager.Fresh c.spawned := hfresh
  rw [hs] at hp
  have hstep : ∀ next, s.step P (c.toChoice next) = s.step P (c.toChoice next) := fun _ ↦ rfl
  conv at hstep => intro next; rhs; rw [Builder.step, hs]
  rw [BuildThread.step]
  generalize t.perturb c = t₁ at hp hnb hfresh' hstep ⊢
  generalize s.running = l at hp hnb hstep ⊢
  obtain ⟨⟨g, p, w, running, numThreads, result, interrupted, phase⟩, m, writes⟩ := t₁
  cases phase with
  | main =>
      refine Or.inr ⟨c.toChoice 0, ?_⟩
      rw [hstep]
      change Lib.Answers Refines
        (if (decide (result = .succeeded) && !p.done && !interrupted) = true then _ else _)
        (if (decide (result = .succeeded) && !p.done && !interrupted) = true then _ else _)
      by_cases hmain : (decide (result = .succeeded) && !p.done && !interrupted) = true
      · rw [if_pos hmain, if_pos hmain]
        exact .ok (hp.setPhase .spawn)
      · rw [if_neg hmain, if_neg hmain]
        exact .ok (hp.setPhase .flush)
  | spawn =>
      change l.length = m.nbRunning at hnb
      by_cases hwork : (p.hasWork && decide (m.nbRunning < numThreads)) = true
      · refine Or.inr ⟨c.toChoice 0, ?_⟩
        have hwork' : (p.hasWork && decide (l.length < numThreads)) = true := by
          rw [hnb]
          exact hwork
        rw [hstep]
        change Lib.Answers Refines (if _ then _ else _)
          (if (p.hasWork && decide (l.length < numThreads)) = true then _ else _)
        rw [if_pos hwork, if_pos hwork']
        simp only [Builder.withRunning]
        rcases p.findWork with ⟨_ | rule, p'⟩
        · exact .error _
        · have hplan : (⟨⟨g, p', w, running, numThreads, result, interrupted, .spawn⟩, m, writes⟩ :
              BuildThread ω).Refines ⟨g, p', w, l, numThreads, result, interrupted, .spawn⟩ :=
            hp.congr rfl rfl
          exact hplan.buildRule hfresh' rule
      · have hwork' : ¬ (p.hasWork && decide (l.length < numThreads)) = true := by
          rw [hnb]
          exact hwork
        simp only
        rw [if_neg hwork]
        by_cases hcall : 0 < m.nbRunning
        · rw [if_pos hcall]
          rcases hp.waits hcall c (f := fun res b ↦ { b with result := res, phase := .main })
            fun _ _ _ ↦ rfl with hblocks | ⟨next, hanswers⟩
          · exact Or.inl ⟨_, rfl, by rw [hblocks]; rfl⟩
          · refine Or.inr ⟨c.toChoice next, ?_⟩
            rw [hstep]
            change Lib.Answers Refines _
              (if (p.hasWork && decide (l.length < numThreads)) = true then _
                else if 0 < l.length then _ else _)
            rw [if_neg hwork', if_pos (hnb ▸ hcall)]
            exact hanswers
        · refine Or.inr ⟨c.toChoice 0, ?_⟩
          rw [hstep, if_neg hcall]
          change Lib.Answers Refines _
            (if (p.hasWork && decide (l.length < numThreads)) = true then _
              else if 0 < l.length then _ else _)
          rw [if_neg hwork', if_neg (hnb ▸ hcall)]
          exact .ok (hp.setPhase .main)
  | flush =>
      change l.length = m.nbRunning at hnb
      simp only
      by_cases hcall : 0 < m.nbRunning
      · rw [if_pos hcall]
        rcases hp.waits hcall c (f := fun res b ↦
            { b with result := if b.result = .succeeded then res else b.result })
          fun _ _ _ ↦ rfl with hblocks | ⟨next, hanswers⟩
        · exact Or.inl ⟨_, rfl, by rw [hblocks]; rfl⟩
        · refine Or.inr ⟨c.toChoice next, ?_⟩
          rw [hstep]
          change Lib.Answers Refines _ (if 0 < l.length then _ else _)
          rw [if_pos (hnb ▸ hcall)]
          exact hanswers
      · refine Or.inr ⟨c.toChoice 0, ?_⟩
        rw [hstep, if_neg hcall]
        change Lib.Answers Refines _ (if 0 < l.length then _ else _)
        rw [if_neg (hnb ▸ hcall)]
        exact .ok (hp.setPhase .finished)
  | finished =>
      refine Or.inr ⟨c.toChoice 0, ?_⟩
      rw [hstep]
      exact .ok hp

end Refines

theorem runs_eq (P : Platform ω) (cs : List (Choice ω)) (s : Builder ω) :
    Lib.runs (Builder.step P) cs s = Builder.run P cs s := by
  induction cs generalizing s with
  | nil => rfl
  | cons c cs ih =>
      rw [Lib.runs, Builder.run]
      cases Builder.step P s c with
      | error f => rfl
      | ok x =>
          simp only [Lib.except_ok_bind]
          rw [ih]

/-- Whatever the processes write and in whatever order they end: a run of the thread is a
run of the builder, with the same events, and it fails only where the builder may fail or
where a command has not ended yet. -/
theorem run_refines (g : Graph) (p : BuildPlan) (w : ω) (numThreads : ℕ) (writes : List Write)
    {cs : List (ThreadChoice ω)}
    (hfresh : Lib.Guarded Fresh (step P) cs (create g p w numThreads writes)) :
    (∀ evs t, Lib.runs (step P) cs (create g p w numThreads writes) = .ok (evs, t) →
      ∃ ds s, Builder.run P ds (.create g p w numThreads) = .ok (evs, s) ∧ t.Refines s) ∧
    ∀ f, Lib.runs (step P) cs (create g p w numThreads writes) = .error f → f = .outOfFuel ∨
      ∃ ds, Builder.run P ds (.create g p w numThreads) = .error f := by
  rcases Lib.runs_simulated (· = .outOfFuel) (fun _ _ _ h hfresh ↦ h.step hfresh) hfresh
    (refines_create g p w numThreads writes) with ⟨f, rfl, hblocks⟩ | ⟨ds, -, hanswers⟩
  · rw [hblocks]
    exact ⟨(fun _ _ h ↦ by cases h), fun f h ↦ Or.inl (Except.error.inj h).symm⟩
  · rw [runs_eq] at hanswers
    refine ⟨fun evs t hrun ↦ ?_, fun f hrun ↦ Or.inr ⟨ds, hanswers.error_eq hrun⟩⟩
    obtain ⟨s, hs, hrefines⟩ := hanswers.exists_ok hrun
    exact ⟨ds, s, hs, hrefines⟩

end BuildThread

end Falcon
