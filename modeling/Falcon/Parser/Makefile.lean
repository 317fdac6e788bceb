import Mathlib.Data.Finset.Sort
import Falcon.Graph.Links

/-!
# Reading the makefile

`GraphParser::processJson` turns the array of rules of the makefile into a
graph.  The paths of a rule pass through a set of `Node*`, so its inputs and
outputs come out in the order of their addresses.
-/

namespace Falcon

/-- `json/parser.h`.  An object keeps the first value of a key. -/
inductive JsonVal where
  | object (entries : List (String × JsonVal))
  | array (elements : List JsonVal)
  | string (data : String)
  -- A number or one of the constants.
  | literal (data : String)

namespace JsonVal

/-- The field `_array`, which is empty unless the value is an array. -/
def elements : JsonVal → List JsonVal
  | .array l => l
  | _ => []

mutual

def getObject (key : String) : JsonVal → Option JsonVal
  | .object entries => entries.lookup key
  | .array l => getObjectOf key l
  | .string _ => none
  | .literal _ => none

/-- The first element of an array that has the key. -/
def getObjectOf (key : String) : List JsonVal → Option JsonVal
  | [] => none
  | v :: l => (v.getObject key).or (getObjectOf key l)

end

end JsonVal

/-- `new Node` and `new Rule`: an address that is not in use, and what the
memory of the node held. -/
structure Allocator where
  newNode : Finset NodeId → NodeId
  newNode_fresh : ∀ used, newNode used ∉ used
  uninitialised : Finset NodeId → Bool
  newRule : List RuleId → RuleId
  newRule_fresh : ∀ used, newRule used ∉ used

def Graph.empty : Graph where
  node _ := Node.create "" true false
  rule _ := Rule.create [] []
  roots := ∅
  sources := ∅
  nodes := []
  rules := []
  allocated := ∅

namespace GraphParser

variable (A : Allocator)

/-- A new node for a path that no node has yet. -/
def addPath (g : Graph) (path : String) : Graph :=
  let n := A.newNode g.allocated
  { g.setNode n (Node.create path true (A.uninitialised g.allocated)) with
    nodes := g.nodes ++ [(path, n)]
    roots := insert n g.roots
    sources := insert n g.sources
    allocated := insert n g.allocated }

/-- One path of a rule. -/
def checkPath (s : Finset NodeId × Graph) (v : JsonVal) : Outcome (Finset NodeId × Graph) :=
  match v with
  | .string data =>
    match s.2.nodes.lookup data with
    | some n => pure (insert n s.1, s.2)
    | none => pure (insert (A.newNode s.2.allocated) s.1, addPath A s.2 data)
  | _ => .error (.exception "invalid JSON entry: expect a STRING")

/-- `checkNode` on the pointer that `getObject` has returned. -/
def checkNode (g : Graph) (json : Option JsonVal) : Outcome (List NodeId × Graph) :=
  match json with
  | none => .error .nullDereference
  | some v => do
    let (nodeSet, g) ← v.elements.foldlM (checkPath A) (∅, g)
    pure (nodeSet.sort (· ≤ ·), g)

/-- An optional field of a rule that has to be a string. -/
def stringField (name : String) : Option JsonVal → Outcome String
  | none => pure ""
  | some (.string data) => pure data
  | some _ => .error (.exception ("Expecting STRING value for " ++ name ++ " field"))

def addInput (rule : RuleId) (g : Graph) (n : NodeId) : Outcome Graph := do
  let g ← (g.updateNode n (·.addParentRule rule)).onRule rule Rule.markInputReady
  pure { g with roots := g.roots.erase n }

def addOutput (rule : RuleId) (g : Graph) (n : NodeId) : Outcome Graph := do
  let g ← g.onNode n (·.setChild rule)
  pure { g with sources := g.sources.erase n }

/-- Link a new rule to its inputs and outputs. -/
def addRule (g : Graph) (inputs outputs : List NodeId) (command depfile : String) :
    Outcome Graph := do
  let rule := A.newRule g.rules
  let g := { g.setRule rule { Rule.create inputs outputs with
    command := command, depfile := depfile } with rules := g.rules ++ [rule] }
  let g ← inputs.foldlM (addInput rule) g
  outputs.foldlM (addOutput rule) g

/-- One element of the array of rules. -/
def processRule (g : Graph) (jsonRule : JsonVal) : Outcome Graph :=
  match jsonRule with
  | .object _ =>
    let ruleInputs := jsonRule.getObject "inputs"
    let ruleOutputs := jsonRule.getObject "outputs"
    if ruleInputs.isNone && ruleOutputs.isNone then pure g
    else do
      let (inputs, g) ← checkNode A g ruleInputs
      let (outputs, g) ← checkNode A g ruleOutputs
      let command ← stringField "cmd" (jsonRule.getObject "cmd")
      let depfile ← stringField "depfile" (jsonRule.getObject "depfile")
      addRule A g inputs outputs command depfile
  | _ => pure g

/-- `nodes_[path] = n`. -/
def assignNode (nodes : List (String × NodeId)) (path : String) (n : NodeId) :
    List (String × NodeId) :=
  nodes.filter (fun e ↦ e.1 ≠ path) ++ [(path, n)]

/-- The makefile itself gets a node, which takes the place of any node of the
same path in the map. -/
def generateMandatoryNodes (graphFilePath : String) (g : Graph) : Graph :=
  { addPath A g graphFilePath with
    nodes := assignNode g.nodes graphFilePath (A.newNode g.allocated) }

def processJson (graphFilePath : String) (rules : List JsonVal) : Outcome Graph := do
  let g ← rules.foldlM (processRule A) Graph.empty
  pure (generateMandatoryNodes A graphFilePath g)

end GraphParser

end Falcon
