import Mathlib.Algebra.GroupWithZero.Nat
import Mathlib.Data.Finset.Insert
import Mathlib.Data.Finset.Lattice.Fold
import Mathlib.Logic.Function.Basic
import Mathlib.Order.Lattice.Nat
import Falcon.Lib.Loop

/-!
# Nodes, rules and the graph

The heap of `graph.h`: a node or a rule is named by its address, and the graph
maps addresses to the objects stored there.  The setters below are the member
functions of `Node` and `Rule`; the asserting ones return a `Fault` where the
program would abort.
-/

namespace Falcon

/-- The address of a `Node` object.  Sets of `Node*` iterate in this order. -/
abbrev NodeId := ℕ

/-- The address of a `Rule` object. -/
abbrev RuleId := ℕ

/-- The address above all those in use is free. -/
theorem fresh_above (used : Finset ℕ) : used.sup id + 1 ∉ used :=
  fun h ↦ Nat.not_succ_le_self _ (Finset.le_sup (f := id) h)

abbrev Timestamp := ℤ

/-- The assertions of the modelled classes. -/
inductive Assertion where
  -- `Node::removeParentRule`: the rule is one of the parents.
  | parentRulePresent
  -- `Rule::addInput`: explicit inputs come before implicit ones.
  | noImplicitInputYet
  -- `Rule::markInputReady`: `numInputsReady_ <= inputs_.size()`.
  | inputReadyBound
  -- `Rule::markInputDirty`: `numInputsReady_ > 0`.
  | inputDirtyBound
  -- `BuildPlan::BuildPlan`: `rules_.empty() || !readyRules_.empty()`.
  | planHasStart
  -- `BuildPlan::addTarget`: `rule->isDirty()`.
  | planRuleDirty
  -- `BuildPlan::addTarget`: the rule is not ready yet.
  | planRuleNotReady
  -- `BuildPlan::notifyRuleBuilt`: the rule left the ready set.
  | notifiedRuleNotReady
  -- `BuildPlan::notifyRuleBuilt`: the rule belongs to the plan.
  | notifiedRuleInPlan
  -- `GraphParallelBuilder::buildThread`: `findWork` returned a rule.
  | foundWork
  -- `PosixSubProcessManager::addProcess`: `!command.empty()`.
  | commandNotEmpty
  -- `PosixSubProcessManager::waitForNext`: something is running.
  | someProcess
  -- `PosixSubProcessManager::waitForNext`: the process has a rule.
  | processHasRule
  -- `PosixSubProcessManager::readFd`: the file descriptor is monitored.
  | fdMonitored
  -- `PosixSubProcess::onFdReady`: `fd != -1`.
  | fdOpen
  -- `updateNodeHash`: the hash of the child rule has been computed.
  | childHashed
  -- `updateRuleHash`: the hash of every input has been computed.
  | inputHashed
  -- `updateNodeHash`: `recomputeHash || recomputeHashDeps`.
  | someHashRequested
  -- `CacheFS`: `!hash.empty()`.
  | entryHashNotEmpty
  -- `CacheGitDirectory::registerEntryInRefMap`: `isInRef()`.
  | inRef
  -- `CacheGitDirectory::registerEntryInRefMap`: `prevEntry->numGitRefs > 0`.
  | entryReferenced
  -- `Depfile::load`: the rule has an output.
  | depfileRuleOutput
  -- `GraphDependencyScan::getOldestOutput`: the rule has an output.
  | scannedRuleOutput
  -- `StreamServer::newBuild`: the previous build has been completed.
  | previousBuildCompleted
  -- `StreamServer::endBuild`, `flushWaiting`: there is an ongoing build.
  | ongoingBuild
  -- `StreamServer::removeBuild`: the build is completed and nobody reads it.
  | removableBuild
  -- `StreamServer`: the file descriptor is that of a client.
  | clientKnown
  -- `StreamServer`: the client is assigned to a build.
  | clientHasBuild
  -- `StreamServer::processClient`: there is something left to send.
  | clientHasData
  -- `StreamServer::flushWaiting`: the client waits for the current build.
  | waitingForCurrentBuild
  -- `StreamServer::writeBuf`: `!builds_.empty()`.
  | someBuild
  -- `StreamServer::writeCmdOutput`: a command has been announced.
  | notFirstChunk
  -- `GraphReloader::deleteChildRule`: `!node->isSource()`.
  | deletedChild
  -- `GraphReloader::deleteChildRule`: the node is an output of its child rule.
  | deletedOutput
  -- `GraphReloader::deleteChildRule`: the rule belongs to the graph.
  | deletedRule
  -- `GraphReloader::cleanStaleSubgraph`: `parentRules_.empty()`.
  | staleNodeUnused
  deriving DecidableEq, Repr

/-- The ways in which a call does not return a value. -/
inductive Fault where
  /-- The recursion went deeper than the budget of the call. -/
  | outOfFuel
  | assertion (a : Assertion)
  /-- A C++ exception that leaves the function. -/
  | exception (message : String)
  /-- A null pointer was dereferenced. -/
  | nullDereference
  /-- Memory behind a block of the heap was written. -/
  | heapOverflow
  deriving DecidableEq, Repr

abbrev Outcome := Except Fault

/-- `assert(cond)`. -/
def assert (cond : Bool) (a : Assertion) : Outcome Unit :=
  if cond then .ok () else .error (.assertion a)

@[simp] theorem assert_true (a : Assertion) : assert true a = .ok () := rfl

@[simp] theorem assert_eq_ok {cond : Bool} {a : Assertion} {u : Unit} :
    assert cond a = .ok u ↔ cond = true := by
  cases cond <;> simp [assert]

@[simp] theorem assert_eq_error {cond : Bool} {a : Assertion} {f : Fault} :
    assert cond a = .error f ↔ cond = false ∧ f = .assertion a := by
  cases cond <;> simp [assert, eq_comm]

inductive State where
  | upToDate
  | outOfDate
  deriving DecidableEq, Repr

structure Node where
  path : String
  hash : String
  hashDepfile : String
  childRule : Option RuleId
  parentRules : List RuleId
  isExplicitDependency : Bool
  isLazyFetched : Bool
  state : State
  timestamp : Timestamp
  deriving DecidableEq, Repr

structure Rule where
  inputs : List NodeId
  outputs : List NodeId
  numImplicitDeps : ℕ
  command : String
  depfile : String
  state : State
  hash : String
  hashDepfile : String
  timestamp : Timestamp
  numInputsReady : ℕ
  deriving DecidableEq, Repr

namespace Node

/-- The constructor leaves `isLazyFetched_` uninitialised: its first value is
whatever the memory held. -/
def create (path : String) (isExplicitDependency uninitialised : Bool) : Node where
  path := path
  hash := ""
  hashDepfile := ""
  childRule := none
  parentRules := []
  isExplicitDependency := isExplicitDependency
  isLazyFetched := uninitialised
  state := .upToDate
  timestamp := 0

def isSource (n : Node) : Bool := n.childRule.isNone

def isDirty (n : Node) : Bool := n.state = .outOfDate

/-- This restores `isLazyFetched_` to false. -/
def setState (n : Node) (s : State) : Node := { n with state := s, isLazyFetched := false }

def setLazyFetched (n : Node) (val : Bool) : Node := { n with isLazyFetched := val }

def setTimestamp (n : Node) (t : Timestamp) : Node := { n with timestamp := t }

def setHash (n : Node) (h : String) : Node := { n with hash := h }

def setHashDepfile (n : Node) (h : String) : Node := { n with hashDepfile := h }

def hasParent (n : Node) (r : RuleId) : Bool := n.parentRules.contains r

def addParentRule (n : Node) (r : RuleId) : Node :=
  { n with parentRules := n.parentRules ++ [r] }

def removeParentRule (n : Node) (r : RuleId) : Outcome Node := do
  assert (n.hasParent r) .parentRulePresent
  pure { n with parentRules := n.parentRules.erase r }

/-- A node has one child rule at most; a second one is refused. -/
def setChild (n : Node) (r : RuleId) : Outcome Node :=
  if n.childRule.isSome then
    .error (.exception ("Invalid Graph -> Node '" ++ n.path ++ "' already has a child"))
  else .ok { n with childRule := some r }

end Node

namespace Rule

def create (inputs outputs : List NodeId) : Rule where
  inputs := inputs
  outputs := outputs
  numImplicitDeps := 0
  command := ""
  depfile := ""
  state := .upToDate
  hash := ""
  hashDepfile := ""
  timestamp := 0
  numInputsReady := 0

def isPhony (r : Rule) : Bool := r.command = ""

def hasDepfile (r : Rule) : Bool := r.depfile ≠ ""

def isDirty (r : Rule) : Bool := r.state = .outOfDate

def isInput (r : Rule) (n : NodeId) : Bool := r.inputs.contains n

def setState (r : Rule) (s : State) : Rule := { r with state := s }

def setTimestamp (r : Rule) (t : Timestamp) : Rule := { r with timestamp := t }

def setHash (r : Rule) (h : String) : Rule := { r with hash := h }

def setHashDepfile (r : Rule) (h : String) : Rule := { r with hashDepfile := h }

def addImplicitInput (r : Rule) (n : NodeId) : Rule :=
  { r with numImplicitDeps := r.numImplicitDeps + 1, inputs := r.inputs ++ [n] }

/-- All the inputs are up to date: the rule can be run. -/
def ready (r : Rule) : Bool := r.numInputsReady = r.inputs.length

def markInputReady (r : Rule) : Outcome Rule := do
  assert (r.numInputsReady + 1 ≤ r.inputs.length) .inputReadyBound
  pure { r with numInputsReady := r.numInputsReady + 1 }

def markInputDirty (r : Rule) : Outcome Rule := do
  assert (0 < r.numInputsReady) .inputDirtyBound
  pure { r with numInputsReady := r.numInputsReady - 1 }

end Rule

/-- `nodes` is the map from paths to nodes; `allocated` holds the addresses of
the node objects that have not been deleted. -/
structure Graph where
  node : NodeId → Node
  rule : RuleId → Rule
  roots : Finset NodeId
  sources : Finset NodeId
  nodes : List (String × NodeId)
  rules : List RuleId
  allocated : Finset NodeId

namespace Graph

def setNode (g : Graph) (n : NodeId) (x : Node) : Graph :=
  { g with node := Function.update g.node n x }

def setRule (g : Graph) (r : RuleId) (x : Rule) : Graph :=
  { g with rule := Function.update g.rule r x }

def updateNode (g : Graph) (n : NodeId) (f : Node → Node) : Graph := g.setNode n (f (g.node n))

def updateRule (g : Graph) (r : RuleId) (f : Rule → Rule) : Graph := g.setRule r (f (g.rule r))

@[simp] theorem setNode_rule (g : Graph) (n : NodeId) (x : Node) :
    (g.setNode n x).rule = g.rule := rfl

@[simp] theorem setRule_node (g : Graph) (r : RuleId) (x : Rule) :
    (g.setRule r x).node = g.node := rfl

@[simp] theorem setNode_rules (g : Graph) (n : NodeId) (x : Node) :
    (g.setNode n x).rules = g.rules := rfl

@[simp] theorem setRule_rules (g : Graph) (r : RuleId) (x : Rule) :
    (g.setRule r x).rules = g.rules := rfl

theorem setNode_node (g : Graph) (n : NodeId) (x : Node) (m : NodeId) :
    (g.setNode n x).node m = if m = n then x else g.node m := by
  simp [setNode, Function.update_apply]

theorem setRule_rule (g : Graph) (r : RuleId) (x : Rule) (q : RuleId) :
    (g.setRule r x).rule q = if q = r then x else g.rule q := by
  simp [setRule, Function.update_apply]

/-- Call a member function of rule `r` that may assert. -/
def onRule (g : Graph) (r : RuleId) (f : Rule → Outcome Rule) : Outcome Graph :=
  (f (g.rule r)).map (g.setRule r)

def onNode (g : Graph) (n : NodeId) (f : Node → Outcome Node) : Outcome Graph :=
  (f (g.node n)).map (g.setNode n)

/-- An input of a rule is ready when it is a source file, dirty or not, or a
target that is up to date. -/
def inputReady (g : Graph) (n : NodeId) : Bool := (g.node n).isSource || !(g.node n).isDirty

/-- The number of inputs of `r` that are ready, counted afresh. -/
def nbReady (g : Graph) (r : RuleId) : ℕ := (g.rule r).inputs.countP g.inputReady

/-- Every ready counter is what counting the ready inputs would give. -/
def Exact (g : Graph) : Prop := ∀ r ∈ g.rules, (g.rule r).numInputsReady = g.nbReady r

end Graph

end Falcon
