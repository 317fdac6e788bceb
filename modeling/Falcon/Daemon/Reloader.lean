import Falcon.Graph.Scan
import Falcon.Parser.Makefile

/-!
# Reloading the graph

`GraphReloader::updateGraph` turns the graph of the daemon into the graph `new`
that has just been parsed, and keeps as much of the old state as it can.  It
walks down both graphs at the same time; nodes are matched by their paths, and
every rule that is reached is taken apart and put together again.
-/

namespace Falcon

namespace GraphReloader

/-- The state of the reloader.  `originalNodes` holds the nodes of the old
graph that have not been met yet. -/
structure Reload where
  graph : Graph
  originalNodes : List (String × NodeId)
  nodesSeen : Finset NodeId

/-- `map.erase(path)`. -/
def eraseKey (nodes : List (String × NodeId)) (path : String) : List (String × NodeId) :=
  nodes.filter fun e ↦ e.1 ≠ path

/-- `map[path] = n`, which keeps the place of an entry that exists. -/
def assignKey (nodes : List (String × NodeId)) (path : String) (n : NodeId) :
    List (String × NodeId) :=
  if (nodes.lookup path).isSome then nodes.map fun e ↦ if e.1 = path then (path, n) else e
  else nodes ++ [(path, n)]

variable {ω : Type} (P : Platform ω) (A : Allocator) (w : ω) (new : Graph)

/-- A node of the graph with the path of `newNode`, made if there is none. -/
def getNodeFromAll (s : Reload) (newNode : NodeId) : NodeId × Reload :=
  let path := (new.node newNode).path
  match s.graph.nodes.lookup path with
  | none =>
    let node := P.newNode s.graph.allocated
    (node, { s with graph :=
      { s.graph.setNode node (Node.create path true (P.uninitialised s.graph.allocated)) with
        nodes := s.graph.nodes ++ [(path, node)]
        allocated := insert node s.graph.allocated } })
  | some node =>
    (node, { s with originalNodes := eraseKey s.originalNodes (s.graph.node node).path })

/-- What `getNode` returns, with `source` after the call. -/
structure Found where
  node : NodeId
  fromSource : Bool
  source : List NodeId
  state : Reload

def getNode (s : Reload) (source : List NodeId) (newNode : NodeId) : Found :=
  match source.find? fun n ↦ (new.node newNode).path = (s.graph.node n).path with
  | some node => ⟨node, true, source.erase node,
      { s with originalNodes := eraseKey s.originalNodes (s.graph.node node).path }⟩
  | none =>
    let (node, s) := getNodeFromAll P new s newNode
    ⟨node, false, source, s⟩

/-! ## Taking the old graph apart -/

/-- The node becomes a source file; a rule without outputs is deleted. -/
def deleteChildRule (g : Graph) (n : NodeId) : Outcome Graph :=
  match (g.node n).childRule with
  | none => .error (.assertion .deletedChild)
  | some rule => do
    let g := g.updateNode n fun x ↦ { x with childRule := none }
    assert (n ∈ (g.rule rule).outputs) .deletedOutput
    let g := g.updateRule rule fun x ↦ { x with outputs := x.outputs.erase n }
    if (g.rule rule).outputs.isEmpty then do
      let g ← (g.rule rule).inputs.foldlM (fun g m ↦ g.onNode m (·.removeParentRule rule)) g
      assert (rule ∈ g.rules) .deletedRule
      pure { g with rules := g.rules.erase rule }
    else pure g

def clearSubGraph : ℕ → Graph → NodeId → Outcome Graph
  | 0, _, _ => .error .outOfFuel
  | fuel + 1, g, n =>
    match (g.node n).childRule with
    | none => pure g
    | some r => do
      let g ← (g.rule r).inputs.foldlM (clearSubGraph fuel) g
      deleteChildRule g n

def createNewRule (g : Graph) (output : NodeId) : Outcome Graph := do
  let rule := A.newRule g.rules
  let g := g.setRule rule (Rule.create [] [output])
  let g ← g.onNode output (·.setChild rule)
  pure { g with rules := g.rules ++ [rule] }

/-! ## Rebuilding a rule -/

/-- `updateSubGraph` on a node and the node of the new graph that it stands
for; the result says that something has changed. -/
abbrev NodeUpdate := Reload → NodeId → NodeId → Outcome (Bool × Reload)

/-- An input is appended to the rule and counted if it is ready. -/
def pushInput (rule : RuleId) (g : Graph) (n : NodeId) : Outcome Graph :=
  let g := g.updateRule rule fun x ↦ { x with inputs := x.inputs ++ [n] }
  if g.inputReady n then g.onRule rule Rule.markInputReady else pure g

/-- The state of the loops of `updateRuleInputs` and `updateRuleOutputs`: has
anything changed, and which of the old inputs or outputs are left. -/
structure RuleLoop where
  changed : Bool
  left : List NodeId
  state : Reload

/-- One input of the new rule.  The hash of the input is computed again as
soon as this or an earlier input has changed. -/
def updateInput (node : NodeUpdate) (rule : RuleId) (s : RuleLoop) (newNode : NodeId) :
    Outcome RuleLoop := do
  let found := getNode P new s.state s.left newNode
  let n := found.node
  let g := found.state.graph
  let g := if found.fromSource then g else g.updateNode n (·.addParentRule rule)
  let (r, t) ← node { found.state with graph := g } n newNode
  let changed := s.changed || !found.fromSource || r
  let g ← (if changed then do
      let (_, g) ← Hash.updateNodeHash P w t.graph n true true
      pure g
    else pure t.graph)
  let g ← pushInput rule g n
  pure ⟨changed, found.source, { t with graph := g }⟩

/-- An input that the rule no longer has. -/
def dropInput (rule : RuleId) (g : Graph) (n : NodeId) : Outcome Graph := do
  let g ← g.onNode n (·.removeParentRule rule)
  clearSubGraph g.depth g n

def updateRuleInputs (node : NodeUpdate) (s : Reload) (rule : RuleId) (inputs : List NodeId)
    (newRule : RuleId) : Outcome (Bool × Reload) := do
  let s ← (new.rule newRule).inputs.foldlM (updateInput P w new node rule) ⟨false, inputs, s⟩
  let g ← s.left.foldlM (dropInput rule) s.state.graph
  pure (s.changed, { s.state with graph := g })

def pushOutput (rule : RuleId) (g : Graph) (n : NodeId) : Graph :=
  g.updateRule rule fun x ↦ { x with outputs := x.outputs ++ [n] }

/-- One output of the new rule. -/
def updateOutput (rule : RuleId) (s : RuleLoop) (newNode : NodeId) : RuleLoop :=
  let found := getNode P new s.state s.left newNode
  if found.fromSource then
    ⟨s.changed, found.source, { found.state with
      graph := pushOutput rule found.state.graph found.node }⟩
  else
    let (n, t) := getNodeFromAll P new found.state newNode
    let g := t.graph.updateNode n fun x ↦ { x with childRule := some rule }
    ⟨true, found.source, { t with graph := pushOutput rule g n }⟩

def updateRuleOutputs (s : Reload) (rule : RuleId) (newRule : RuleId) :
    Outcome (Bool × Reload) := do
  let outputs := (s.graph.rule rule).outputs
  let g := s.graph.updateRule rule fun x ↦ { x with outputs := [] }
  let s := (new.rule newRule).outputs.foldl (updateOutput P new rule)
    ⟨false, outputs, { s with graph := g }⟩
  let g ← s.left.foldlM deleteChildRule s.state.graph
  pure (s.changed, { s.state with graph := g })

/-- One of the implicit inputs that the rule keeps. -/
def keepImplicit (rule : RuleId) (s : Reload) (n : NodeId) : Outcome Reload := do
  let path := (s.graph.node n).path
  let sources := if (s.graph.node n).isSource then insert n s.graph.sources else s.graph.sources
  let g ← pushInput rule
    { s.graph with nodes := assignKey s.graph.nodes path n, sources := sources } n
  pure { s with graph := g, originalNodes := eraseKey s.originalNodes path }

/-- With another depfile the rule loses its implicit inputs, and gets those
that the new depfile lists. -/
def updateRuleDepfiles (s : Reload) (rule : RuleId) (implicitDepsBefore : List NodeId)
    (newRule : RuleId) : Outcome (Bool × Reload) :=
  if (s.graph.rule rule).depfile ≠ (new.rule newRule).depfile then do
    let g ← implicitDepsBefore.foldlM (fun g n ↦ g.onNode n (·.removeParentRule rule)) s.graph
    let g := g.updateRule rule fun x ↦ { x with depfile := (new.rule newRule).depfile }
    let (_, g) ← Depfile.loadFromfile P w g rule
    pure (true, { s with graph := g })
  else do
    let s ← implicitDepsBefore.foldlM (keepImplicit rule) s
    let g := s.graph.updateRule rule fun x ↦
      { x with numImplicitDeps := implicitDepsBefore.length }
    pure (false, { s with graph := g })

def updateRuleCommand (s : Reload) (rule newRule : RuleId) : Bool × Reload :=
  if (s.graph.rule rule).command ≠ (new.rule newRule).command then
    let g := s.graph.updateRule rule fun x ↦ { x with command := (new.rule newRule).command }
    (true, { s with graph := g })
  else (false, s)

/-- `updateSubGraph(Rule*, Rule const*)`, given the recursion of the nodes. -/
def updateSubGraphRule (node : NodeUpdate) (s : Reload) (rule newRule : RuleId) :
    Outcome (Bool × Reload) := do
  let inputs := Hash.explicitInputs (s.graph.rule rule)
  let implicitDepsBefore := Depfile.implicitDeps (s.graph.rule rule)
  let g := s.graph.updateRule rule fun x ↦
    { x with inputs := [], numInputsReady := 0, numImplicitDeps := 0 }
  let (r₁, s) ← updateRuleInputs P w new node { s with graph := g } rule inputs newRule
  let (r₂, s) ← updateRuleOutputs P new s rule newRule
  let (r₃, s) := updateRuleCommand new s rule newRule
  let (r₄, s) ← updateRuleDepfiles P w new s rule implicitDepsBefore newRule
  let r := r₁ || r₂ || r₃ || r₄
  pure (r, if r then { s with graph := s.graph.updateRule rule (·.setState .outOfDate) } else s)

/-! ## The traversal -/

/-- The last branch of `updateSubGraph` on a node, once the node has a child. -/
def updateTarget (node : NodeUpdate) (s : Reload) (n : NodeId) (rule newRule : RuleId) :
    Outcome (Bool × Reload) := do
  let (r, s) ← updateSubGraphRule P w new node s rule newRule
  if r then
    match (s.graph.node n).childRule with
    | none => .error .nullDereference
    | some child => do
      let g ← Hash.updateRuleHash P s.graph child true true
      pure (true, { s with graph := g })
  else pure (false, s)

/-- The four ways in which the node and the new node may be generated or not. -/
def updateChild (node : NodeUpdate) (s : Reload) (n newNode : NodeId) :
    Outcome (Bool × Reload) :=
  match (s.graph.node n).childRule, (new.node newNode).childRule with
  | none, none =>
    pure (false, { s with graph := { s.graph with sources := insert n s.graph.sources } })
  | some _, none => do
    let g ← deleteChildRule s.graph n
    let g := GraphDependencyScan.statNode P w g n
    pure (true, { s with graph := { g with sources := insert n g.sources } })
  | some rule, some newRule => updateTarget P w new node s n rule newRule
  | none, some newRule => do
    let rule := A.newRule s.graph.rules
    let g ← createNewRule A s.graph n
    updateTarget P w new node { s with graph := g } n rule newRule

/-- `updateSubGraph(Node*, Node const*)`.  A node that has been seen before
counts as unchanged. -/
def updateSubGraph : ℕ → NodeUpdate
  | 0, _, _, _ => .error .outOfFuel
  | fuel + 1, s, n, newNode =>
    if n ∈ s.nodesSeen then pure (false, s)
    else do
      let (r, s) ← updateChild P A w new (updateSubGraph fuel)
        { s with nodesSeen := insert n s.nodesSeen } n newNode
      let g := if r then s.graph.updateNode n (·.setState .outOfDate) else s.graph
      pure (r, { s with graph := { g with nodes := assignKey g.nodes (g.node n).path n } })

def updateRoot (s : Reload) (newRoot : NodeId) : Outcome Reload := do
  let (root, s) := getNodeFromAll P new s newRoot
  let (r, s) ← updateSubGraph P A w new new.depth s root newRoot
  let g ← (if r then do
      let (_, g) ← Hash.updateNodeHash P w s.graph root true true
      pure g
    else pure s.graph)
  pure { s with graph := { g with roots := insert root g.roots } }

def updateRoots (original : Graph) : Outcome Reload :=
  (new.roots.sort (· ≤ ·)).foldlM (updateRoot P A w new)
    ⟨{ original with roots := ∅, sources := ∅ }, original.nodes, ∅⟩

/-- A node of the old graph that has not been met. -/
def cleanNode (g : Graph) (e : String × NodeId) : Outcome Graph := do
  assert (g.node e.2).parentRules.isEmpty .staleNodeUnused
  let g ← (if (g.node e.2).isSource then pure g else deleteChildRule g e.2)
  pure { g with nodes := eraseKey g.nodes e.1, allocated := g.allocated.erase e.2 }

/-- `order` is the order in which the unordered map of the nodes that are left
is gone through. -/
def cleanStaleSubgraph (order : List (String × NodeId) → List (String × NodeId)) (s : Reload) :
    Outcome Graph :=
  (order s.originalNodes).foldlM cleanNode s.graph

def updateGraph (order : List (String × NodeId) → List (String × NodeId)) (original : Graph) :
    Outcome Graph := do
  let s ← updateRoots P A w new original
  cleanStaleSubgraph order s

end GraphReloader

end Falcon
