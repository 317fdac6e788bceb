import Falcon.Build.Finish
import Falcon.Build.Plan
import Falcon.Graph.Depfile

/-!
# The parallel builder

`GraphParallelBuilder::buildThread` as a state machine.  A step is one turn of
one of its loops; before each step the outside world acts, and the choice of
the step says how, which command finishes next and with what status.
-/

namespace Falcon

inductive BuildResult where
  | unknown
  | succeeded
  | interrupted
  | failed
  deriving DecidableEq, Repr

inductive SubProcessExitStatus where
  | unknown
  | succeeded
  | interrupted
  | failed
  deriving DecidableEq, Repr

/-- Where `buildThread` stands: at the head of the main loop, of the loop that
spawns commands or of the one that flushes the process manager, or at its end. -/
inductive Phase where
  | main
  | spawn
  | flush
  | finished
  deriving DecidableEq, Repr

/-- `running` holds the rules of the process manager, newest first, whether
their command is still running or waits to be reaped. -/
structure Builder (ω : Type) where
  graph : Graph
  plan : BuildPlan
  world : ω
  running : List RuleId
  numThreads : ℕ
  result : BuildResult
  interrupted : Bool
  phase : Phase

/-- What happens outside the builder until its next step is over. -/
structure Choice (ω : Type) where
  environment : ω → ω
  interrupt : Bool
  next : ℕ
  status : SubProcessExitStatus

inductive BuildEvent where
  | found (r : RuleId)
  | built (r : RuleId)
  | failed (r : RuleId)
  deriving DecidableEq, Repr

namespace Builder

variable {ω : Type} (P : Platform ω)

def create (g : Graph) (p : BuildPlan) (w : ω) (numThreads : ℕ) : Builder ω where
  graph := g
  plan := p
  world := w
  running := []
  numThreads := numThreads
  result := .succeeded
  interrupted := false
  phase := .main

def onRuleFinished (s : Builder ω) (rule : RuleId) : Outcome (Builder ω) := do
  let g ← s.graph.finishRule rule
  let p ← s.plan.notifyRuleBuilt g rule
  pure { s with graph := g, plan := p }

def buildRule (s : Builder ω) (rule : RuleId) : Outcome (List BuildEvent × Builder ω) :=
  if (s.graph.rule rule).isPhony then do
    let s ← s.onRuleFinished rule
    pure ([.found rule, .built rule], s)
  else do
    let (hit, w) ← P.restoreRule s.graph rule s.world
    if hit then do
      let g := s.graph.updateRule rule (·.setTimestamp (P.now w))
      let s ← { s with graph := g, world := w }.onRuleFinished rule
      pure ([.found rule, .built rule], s)
    else do
      assert ((s.graph.rule rule).command ≠ "") .commandNotEmpty
      pure ([.found rule], { s with world := w, running := rule :: s.running })

/-- The command of `rule` has succeeded: its depfile, if any, is loaded and
the hashes above are brought up to date. -/
def loadDepfile (g : Graph) (w : ω) (rule : RuleId) : Outcome (Bool × Graph × ω) :=
  if (g.rule rule).hasDepfile then do
    let (loaded, g) ← Depfile.loadFromfile P w g rule
    if loaded then do
      let (g, w) ← Hash.recomputeRuleHash P (fun s m ↦ do
        let (_, s) ← Hash.recomputeNodeHash P true false g.depth s m
        pure s) (g, w) rule
      pure (true, g, w)
    else pure (false, g, w)
  else pure (true, g, w)

/-- The part of `waitForNext` after the command of `rule` has been reaped. -/
def reap (s : Builder ω) (rule : RuleId) (status : SubProcessExitStatus) :
    Outcome (BuildResult × List BuildEvent × Builder ω) := do
  let g := s.graph.updateRule rule (·.setTimestamp (P.now s.world))
  if status ≠ .succeeded then
    pure (if status = .interrupted then .interrupted else .failed, [.failed rule],
      { s with graph := g })
  else do
    let (loaded, g, w) ← loadDepfile P g s.world rule
    if !loaded then pure (.failed, [.failed rule], { s with graph := g, world := w })
    else do
      let w ← P.saveRule g rule w
      let s ← { s with graph := g, world := w }.onRuleFinished rule
      pure (.succeeded, [.built rule], s)

def waitForNext (s : Builder ω) (c : Choice ω) :
    Outcome (BuildResult × List BuildEvent × Builder ω) :=
  match s.running[c.next % s.running.length]? with
  | none => .error (.assertion .someProcess)
  | some rule =>
    reap P { s with running := s.running.eraseIdx (c.next % s.running.length) } rule c.status

/-- The outside world acts, and may interrupt the build. -/
def perturb (s : Builder ω) (c : Choice ω) : Builder ω :=
  { s with world := c.environment s.world, interrupted := s.interrupted || c.interrupt }

def step (s : Builder ω) (c : Choice ω) : Outcome (List BuildEvent × Builder ω) :=
  let s := s.perturb c
  match s.phase with
  | .main =>
    if s.result = .succeeded && !s.plan.done && !s.interrupted then
      pure ([], { s with phase := .spawn })
    else pure ([], { s with phase := .flush })
  | .spawn =>
    if s.plan.hasWork && s.running.length < s.numThreads then
      match s.plan.findWork with
      | (none, _) => .error (.assertion .foundWork)
      | (some rule, p) => buildRule P { s with plan := p } rule
    else if 0 < s.running.length then do
      let (res, evs, s) ← waitForNext P s c
      pure (evs, { s with result := res, phase := .main })
    else pure ([], { s with phase := .main })
  | .flush =>
    if 0 < s.running.length then do
      let (tmp, evs, s) ← waitForNext P s c
      pure (evs, { s with result := if s.result = .succeeded then tmp else s.result })
    else pure ([], { s with phase := .finished })
  | .finished => pure ([], s)

def run : List (Choice ω) → Builder ω → Outcome (List BuildEvent × Builder ω)
  | [], s => pure ([], s)
  | c :: cs, s => do
    let (evs, s) ← step P s c
    let (evs', s) ← run cs s
    pure (evs ++ evs', s)

end Builder

namespace BuildEvent

def foundRule : BuildEvent → Option RuleId
  | .found r => some r
  | _ => none

def builtRule : BuildEvent → Option RuleId
  | .built r => some r
  | _ => none

def failedRule : BuildEvent → Option RuleId
  | .failed r => some r
  | _ => none

/-- The rules that `findWork` returned, in order. -/
def foundRules (evs : List BuildEvent) : List RuleId := evs.filterMap foundRule

def builtRules (evs : List BuildEvent) : List RuleId := evs.filterMap builtRule

def failedRules (evs : List BuildEvent) : List RuleId := evs.filterMap failedRule

section

variable (evs evs' : List BuildEvent) (r : RuleId)

@[simp] theorem foundRules_append : foundRules (evs ++ evs') = foundRules evs ++ foundRules evs' :=
  List.filterMap_append

@[simp] theorem builtRules_append : builtRules (evs ++ evs') = builtRules evs ++ builtRules evs' :=
  List.filterMap_append

@[simp] theorem failedRules_append :
    failedRules (evs ++ evs') = failedRules evs ++ failedRules evs' :=
  List.filterMap_append

@[simp] theorem foundRules_nil : foundRules [] = [] := rfl

@[simp] theorem builtRules_nil : builtRules [] = [] := rfl

@[simp] theorem failedRules_nil : failedRules [] = [] := rfl

@[simp] theorem foundRules_found : foundRules (.found r :: evs) = r :: foundRules evs := rfl

@[simp] theorem builtRules_found : builtRules (.found r :: evs) = builtRules evs := rfl

@[simp] theorem failedRules_found : failedRules (.found r :: evs) = failedRules evs := rfl

@[simp] theorem foundRules_built : foundRules (.built r :: evs) = foundRules evs := rfl

@[simp] theorem builtRules_built : builtRules (.built r :: evs) = r :: builtRules evs := rfl

@[simp] theorem failedRules_built : failedRules (.built r :: evs) = failedRules evs := rfl

@[simp] theorem foundRules_failed : foundRules (.failed r :: evs) = foundRules evs := rfl

@[simp] theorem builtRules_failed : builtRules (.failed r :: evs) = builtRules evs := rfl

@[simp] theorem failedRules_failed : failedRules (.failed r :: evs) = r :: failedRules evs := rfl

end

end BuildEvent

end Falcon
