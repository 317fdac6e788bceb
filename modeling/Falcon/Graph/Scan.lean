import Mathlib.Data.Finset.Sort
import Mathlib.Order.Basic
import Falcon.Graph.Rehash

/-!
# The dependency scan

`GraphDependencyScan::scan` looks at the modification times of all files and
decides in one traversal which rules are out of date.  A rule is visited once,
after everything below it; a source file is marked where it is newer than an
output of some rule that uses it.
-/

namespace Falcon

open Relation

namespace GraphDependencyScan

/-- The state of the traversal; `seen` holds the rules that have been entered. -/
structure Scan (ω : Type) where
  graph : Graph
  world : ω
  seen : Finset RuleId

variable {ω : Type} (P : Platform ω)

def statNode (w : ω) (g : Graph) (n : NodeId) : Graph :=
  g.updateNode n (·.setTimestamp ((P.mtime w (g.node n).path).getD 0))

def isPhonyOutput (g : Graph) (n : NodeId) : Bool :=
  match (g.node n).childRule with
  | none => false
  | some rule => (g.rule rule).isPhony

/-- The first loop of `scan`: outputs of phony rules are no files. -/
def statNodes (w : ω) (g : Graph) : Graph :=
  g.nodes.foldl (fun g e ↦ if isPhonyOutput g e.2 then g else statNode P w g e.2) g

def older (g : Graph) (m n : NodeId) : NodeId :=
  if (g.node n).timestamp < (g.node m).timestamp then n else m

def getOldestOutput (g : Graph) (r : RuleId) : Outcome NodeId :=
  match (g.rule r).outputs with
  | [] => .error (.assertion .scannedRuleOutput)
  | o :: outputs => pure (outputs.foldl (older g) o)

/-- One input in the loop of `compareInputsWithOutputs`. -/
def compareInput (oldestOutput : NodeId) (s : Bool × Graph) (n : NodeId) : Bool × Graph :=
  if (s.2.node oldestOutput).timestamp < (s.2.node n).timestamp then
    (true, if (s.2.node n).isSource then s.2.updateNode n (·.setState .outOfDate) else s.2)
  else s

def compareInputsWithOutputs (g : Graph) (r : RuleId) : Outcome (Bool × Graph) := do
  let oldestOutput ← getOldestOutput g r
  pure ((g.rule r).inputs.foldl (compareInput oldestOutput) (false, g))

def ruleLoadDepfile (g : Graph) (w : ω) (r : RuleId) : Outcome (Bool × Graph × ω) := do
  let (loaded, g) ← Depfile.loadFromfile P w g r
  if loaded then pure (true, g, w)
  else do
    let (restored, w) ← P.restoreDepfile g r w
    if !restored then pure (false, g, w)
    else do
      let (loaded, g) ← Depfile.loadFromfile P w g r
      pure (loaded, g, w)

/-- The part of `updateRule` about the depfile; the result says that the rule
is dirty because it has none. -/
def scanDepfile (g : Graph) (w : ω) (r : RuleId) : Outcome (Bool × Graph × ω) :=
  if (g.rule r).hasDepfile then do
    let (loaded, g, w) ← ruleLoadDepfile P g w r
    if !loaded then pure (true, g, w)
    else do
      let g ← Hash.updateRuleHash P g r true false
      pure (false, g, w)
  else pure (false, g, w)

/-- The comparison of the timestamps, which is made unless the rule is phony. -/
def scanTimes (g : Graph) (r : RuleId) : Outcome (Bool × Graph) :=
  if (g.rule r).isPhony then pure (false, g) else compareInputsWithOutputs g r

/-- One input in the loop of `updateRule`, given the recursion of the nodes. -/
def updateInput (node : Scan ω → NodeId → Outcome (Bool × Scan ω)) (r : RuleId)
    (s : Bool × Scan ω) (n : NodeId) : Outcome (Bool × Scan ω) := do
  let (dirty, s') ← node s.2 n
  if dirty then
    if (s'.graph.node n).isSource then pure (true, s')
    else do
      let g ← s'.graph.onRule r Rule.markInputDirty
      pure (true, { s' with graph := g })
  else pure (s.1, s')

def updateRule (node : Scan ω → NodeId → Outcome (Bool × Scan ω)) (s : Scan ω) (r : RuleId) :
    Outcome (Bool × Scan ω) :=
  if r ∈ s.seen then pure ((s.graph.rule r).isDirty, s)
  else do
    let (inputDirty, s) ← (s.graph.rule r).inputs.foldlM (updateInput node r)
      (false, { s with seen := insert r s.seen })
    let g ← Hash.updateRuleHash P s.graph r true true
    let (depDirty, g, w) ← scanDepfile P g s.world r
    let (timeDirty, g) ← scanTimes g r
    let isDirty := inputDirty || depDirty || timeDirty
    pure (isDirty, { s with
      graph := if isDirty then g.updateRule r (·.setState .outOfDate) else g, world := w })

/-- The part of `updateNode` before the hash is computed. -/
def updateChild (rule : Scan ω → RuleId → Outcome (Bool × Scan ω)) (s : Scan ω) (n : NodeId) :
    Outcome (Bool × Scan ω) :=
  match (s.graph.node n).childRule with
  | none => pure (false, s)
  | some r => do
    let (dirty, s) ← rule s r
    pure (dirty, if dirty then
      { s with graph := s.graph.updateNode n (·.setState .outOfDate) } else s)

def hashNode (s : Scan ω) (n : NodeId) : Outcome (Scan ω) :=
  if (s.graph.node n).hash = "" then do
    let (_, g) ← Hash.updateNodeHash P s.world s.graph n true true
    pure { s with graph := g }
  else pure s

def updateNode : ℕ → Scan ω → NodeId → Outcome (Bool × Scan ω)
  | 0, _, _ => .error .outOfFuel
  | fuel + 1, s, n => do
    let (dirty, s) ← updateChild (updateRule P (updateNode fuel)) s n
    let s ← hashNode P s n
    pure (dirty, s)

def scanRoot (fuel : ℕ) (s : Scan ω) (n : NodeId) : Outcome (Scan ω) := do
  let (_, s) ← updateNode P fuel s n
  pure s

def scan (g : Graph) (w : ω) : Outcome (Graph × ω) := do
  let g := statNodes P w g
  let s ← (g.roots.sort (· ≤ ·)).foldlM (scanRoot P g.depth) ⟨g, w, ∅⟩
  pure (s.graph, s.world)

end GraphDependencyScan

end Falcon
