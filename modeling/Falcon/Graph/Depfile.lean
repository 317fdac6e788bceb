import Falcon.Graph.Hash

/-!
# Implicit dependencies

`Depfile::load` replaces the implicit inputs of a rule by the dependencies
that a depfile lists.  A path that no node has yet gets a new node; a former
implicit input that nothing uses any more is deleted.
-/

namespace Falcon

namespace Graph

/-- `Graph::addNode`. -/
def addNode (g : Graph) (n : NodeId) : Outcome Graph :=
  let roots := if (g.node n).parentRules.isEmpty then insert n g.roots else g.roots
  let sources := if (g.node n).isSource then insert n g.sources else g.sources
  if (g.nodes.lookup (g.node n).path).isSome then
    .error (.exception ("Invalid Graph -> Node '" ++ (g.node n).path ++ "' is already present"))
  else
    .ok { g with
      roots := roots, sources := sources, nodes := g.nodes ++ [((g.node n).path, n)] }

/-- Forget a node and delete the object. -/
def deleteNode (g : Graph) (n : NodeId) : Graph :=
  { g with
    nodes := g.nodes.filter fun e ↦ e.1 ≠ (g.node n).path
    roots := g.roots.erase n
    sources := g.sources.erase n
    allocated := g.allocated.erase n }

/-- The node loses the rule as a parent. -/
def unlink (g : Graph) (r : RuleId) (n : NodeId) : Graph :=
  g.updateNode n fun x ↦ { x with parentRules := x.parentRules.erase r }

variable {g g' : Graph}

@[simp] theorem unlink_rule (g : Graph) (r : RuleId) (n : NodeId) :
    (g.unlink r n).rule = g.rule := rfl

theorem unlink_node_ne {r : RuleId} {n m : NodeId} (hm : m ≠ n) :
    (g.unlink r n).node m = g.node m := by
  rw [unlink, updateNode, setNode_node, if_neg hm]

theorem unlink_node_self (r : RuleId) (n : NodeId) :
    (g.unlink r n).node n =
      { g.node n with parentRules := (g.node n).parentRules.erase r } := by
  rw [unlink, updateNode, setNode_node, if_pos rfl]

theorem onNode_removeParentRule {r : RuleId} {n : NodeId} :
    g.onNode n (·.removeParentRule r) = .ok g' ↔
      r ∈ (g.node n).parentRules ∧ g' = g.unlink r n := by
  have hmem : (g.node n).hasParent r = true ↔ r ∈ (g.node n).parentRules := by
    simp [Node.hasParent]
  rw [← hmem, unlink, updateNode]
  cases hp : (g.node n).hasParent r with
  | false => simp [onNode, Node.removeParentRule, hp, assert, Except.map]
  | true => simp [onNode, Node.removeParentRule, hp, Except.map, eq_comm]

end Graph

namespace Depfile

variable {ω : Type} (P : Platform ω)

/-- `target` becomes an implicit input of `rule`, and `rule` one of its parents. -/
def linkInput (g : Graph) (rule : RuleId) (target : NodeId) : Graph :=
  let g := g.updateRule rule (·.addImplicitInput target)
  if (g.node target).hasParent rule then g else g.updateNode target (·.addParentRule rule)

/-- The ready counter moves down for a target that is dirty and up for any other. -/
def countInput (g : Graph) (rule : RuleId) (target : NodeId) : Outcome Graph :=
  if (g.node target).isDirty && !(g.node target).isSource then g.onRule rule Rule.markInputDirty
  else g.onRule rule Rule.markInputReady

/-- The tail of `setRuleDependency`. -/
def attach (g : Graph) (rule : RuleId) (target : NodeId) (isNewNode : Bool) : Outcome Graph := do
  let g := linkInput g rule target
  let g ← (if isNewNode then g.addNode target else pure g)
  countInput g rule target

def setRuleDependency (w : ω) (g : Graph) (rule : RuleId) (dep : String) :
    Outcome (NodeId × Graph) :=
  match g.nodes.lookup dep with
  | none => do
    let target := P.newNode g.allocated
    let g := { g with allocated := insert target g.allocated }.setNode target
      (Node.create dep false (P.uninitialised g.allocated))
    let (_, g) ← Hash.updateNodeHash P w g target true true
    let g ← attach g rule target true
    pure (target, g)
  | some target =>
    if (g.rule rule).isInput target then pure (target, g)
    else do
      let g ← attach g rule target false
      pure (target, g)

/-- The implicit inputs of a rule stand at the end of its inputs. -/
def implicitDeps (x : Rule) : List NodeId := x.inputs.drop (x.inputs.length - x.numImplicitDeps)

/-- The first part of `load`: the ready counter forgets every implicit input
that is ready, and the implicit inputs are cut off. -/
def detachImplicit (g : Graph) (rule : RuleId) : Outcome Graph := do
  let g ← (implicitDeps (g.rule rule)).reverse.foldlM (fun g n ↦
    if g.inputReady n then g.onRule rule Rule.markInputDirty else pure g) g
  pure (g.updateRule rule fun x ↦
    { x with inputs := x.inputs.take (x.inputs.length - x.numImplicitDeps), numImplicitDeps := 0 })

/-- The dependencies of the depfile in turn; `before` holds the former implicit
inputs that have not been named yet. -/
def addDependencies (w : ω) (rule : RuleId) :
    List String → Graph × List NodeId → Outcome (Graph × List NodeId)
  | [], s => pure s
  | dep :: ins, (g, before) => do
    let (n, g) ← setRuleDependency P w g rule dep
    addDependencies w rule ins (g, before.filter (· ≠ n))

/-- A former implicit input loses the rule as a parent, and is deleted when it
has no other parent and no child. -/
def dropDependency (rule : RuleId) (g : Graph) (n : NodeId) : Outcome Graph := do
  let g ← g.onNode n (·.removeParentRule rule)
  if (g.node n).parentRules.isEmpty && (g.node n).isSource then pure (g.deleteNode n)
  else pure g

theorem dropDependency_cases {rule : RuleId} {g g' : Graph} {n : NodeId}
    (hrun : dropDependency rule g n = .ok g') : rule ∈ (g.node n).parentRules ∧
      (((g.node n).parentRules.erase rule = [] ∧ (g.node n).childRule = none ∧
          g' = (g.unlink rule n).deleteNode n) ∨
        (¬ ((g.node n).parentRules.erase rule = [] ∧ (g.node n).childRule = none) ∧
          g' = g.unlink rule n)) := by
  obtain ⟨g₁, hnode, hrest⟩ := Lib.bind_eq_ok.mp hrun
  obtain ⟨hparent, rfl⟩ := Graph.onNode_removeParentRule.mp hnode
  refine ⟨hparent, ?_⟩
  have hunused : (((g.unlink rule n).node n).parentRules.isEmpty &&
      ((g.unlink rule n).node n).isSource) = true ↔
        (g.node n).parentRules.erase rule = [] ∧ (g.node n).childRule = none := by
    rw [Graph.unlink_node_self]
    simp [Node.isSource]
  split at hrest
  · rename_i hgone
    obtain ⟨hparents, hchild⟩ := hunused.mp hgone
    exact Or.inl ⟨hparents, hchild, (Except.ok.inj hrest).symm⟩
  · rename_i hstays
    exact Or.inr ⟨fun h ↦ hstays (hunused.mpr h), (Except.ok.inj hrest).symm⟩

/-- `load` returns false after the implicit inputs have been cut off if the
content does not parse or is about another output. -/
def load (w : ω) (g : Graph) (rule : RuleId) (content : String) : Outcome (Bool × Graph) := do
  let before := (implicitDeps (g.rule rule)).reverse.dedup
  let g ← detachImplicit g rule
  match P.parseDepfile content with
  | none => pure (false, g)
  | some (output, ins) =>
    match (g.rule rule).outputs.head? with
    | none => .error (.assertion .depfileRuleOutput)
    | some first =>
      if output ≠ (g.node first).path then pure (false, g)
      else do
        let (g, left) ← addDependencies P w rule ins (g, before)
        let g ← left.foldlM (dropDependency rule) g
        pure (true, g)

/-- The implicit inputs are cut off in any case. -/
theorem load_ok {P : Platform ω} {w : ω} {g g' : Graph} {rule : RuleId} {content : String}
    {loaded : Bool} (hrun : load P w g rule content = .ok (loaded, g')) :
    ∃ k, detachImplicit g rule = .ok k ∧
      ((loaded = false ∧ g' = k ∧ ∀ first ins, (k.rule rule).outputs.head? = some first →
          P.parseDepfile content ≠ some ((k.node first).path, ins)) ∨
        (loaded = true ∧ ∃ first ins k₁ left, (k.rule rule).outputs.head? = some first ∧
          P.parseDepfile content = some ((k.node first).path, ins) ∧
          addDependencies P w rule ins (k, (implicitDeps (g.rule rule)).reverse.dedup) =
            .ok (k₁, left) ∧
          left.foldlM (dropDependency rule) k₁ = .ok g')) := by
  obtain ⟨k, hdetach, hrest⟩ := Lib.bind_eq_ok.mp hrun
  refine ⟨k, hdetach, ?_⟩
  split at hrest
  · rename_i hparse
    obtain ⟨rfl, rfl⟩ := Prod.mk.inj (Except.ok.inj hrest)
    exact Or.inl ⟨rfl, rfl, fun _ _ _ hnames ↦ by simp [hparse] at hnames⟩
  · rename_i output ins hparse
    split at hrest
    · cases hrest
    · rename_i first hfirst
      split at hrest
      · rename_i hother
        obtain ⟨rfl, rfl⟩ := Prod.mk.inj (Except.ok.inj hrest)
        refine Or.inl ⟨rfl, rfl, fun first' ins' hfirst' hnames ↦ hother ?_⟩
        obtain rfl : first = first' := Option.some.inj (hfirst.symm.trans hfirst')
        exact (Prod.mk.inj (Option.some.inj (hparse.symm.trans hnames))).1
      · rename_i hsame
        obtain ⟨⟨k₁, left⟩, hadd, hrest⟩ := Lib.bind_eq_ok.mp hrest
        obtain ⟨k₂, hdrop, hpure⟩ := Lib.bind_eq_ok.mp hrest
        obtain ⟨rfl, rfl⟩ := Prod.mk.inj (Except.ok.inj hpure)
        obtain rfl := not_not.mp hsame
        exact Or.inr ⟨rfl, first, ins, k₁, left, hfirst, hparse, hadd, hdrop⟩

/-- `loadFromfile`, whose result is `SUCCESS` or one of the two errors. -/
def loadFromfile (w : ω) (g : Graph) (rule : RuleId) : Outcome (Bool × Graph) :=
  match P.readFile w (g.rule rule).depfile with
  | none => pure (false, g)
  | some content => if content = "" then pure (false, g) else load P w g rule content

theorem loadFromfile_ok {P : Platform ω} {w : ω} {g g' : Graph} {rule : RuleId} {loaded : Bool}
    (hrun : loadFromfile P w g rule = .ok (loaded, g')) :
    (loaded = false ∧ g' = g ∧ (P.readFile w (g.rule rule).depfile).getD "" = "") ∨
      ∃ content, P.readFile w (g.rule rule).depfile = some content ∧ content ≠ "" ∧
        load P w g rule content = .ok (loaded, g') := by
  rw [loadFromfile] at hrun
  split at hrun
  · rename_i hread
    obtain ⟨rfl, rfl⟩ := Prod.mk.inj (Except.ok.inj hrun)
    exact Or.inl ⟨rfl, rfl, by rw [hread]; rfl⟩
  · rename_i content hread
    split at hrun
    · rename_i hempty
      obtain ⟨rfl, rfl⟩ := Prod.mk.inj (Except.ok.inj hrun)
      exact Or.inl ⟨rfl, rfl, by rw [hread, hempty]; rfl⟩
    · rename_i hcontent
      exact Or.inr ⟨content, hread, hcontent, hrun⟩

end Depfile

namespace Hash

variable {ω : Type} (P : Platform ω)

/-- The middle of `recomputeRuleHash`: the depfile hash was `tmp` before.  If
it changed, the depfile of the new hash may be in the cache. -/
def restoreDepfile (tmp : String) (g : Graph) (w : ω) (r : RuleId) : Outcome (Graph × ω) :=
  if (g.rule r).hasDepfile && tmp ≠ (g.rule r).hashDepfile then do
    let (restored, w) ← P.restoreDepfile g r w
    if restored then do
      let (_, g) ← Depfile.loadFromfile P w g r
      let g ← updateRuleHash P g r true false
      pure (g, w)
    else pure (g, w)
  else pure (g, w)

/-- The graph stays as it is unless a depfile comes out of the cache. -/
theorem restoreDepfile_ok {P : Platform ω} {tmp : String} {g g' : Graph} {w w' : ω} {r : RuleId}
    (hrun : restoreDepfile P tmp g w r = .ok (g', w')) :
    (g' = g ∧ (w' = w ∨ P.restoreDepfile g r w = .ok (false, w'))) ∨
      ∃ loaded k, (g.rule r).hasDepfile = true ∧ tmp ≠ (g.rule r).hashDepfile ∧
        P.restoreDepfile g r w = .ok (true, w') ∧
        Depfile.loadFromfile P w' g r = .ok (loaded, k) ∧
        updateRuleHash P k r true false = .ok g' := by
  rw [restoreDepfile] at hrun
  split at hrun
  · rename_i hchanged
    simp only [Bool.and_eq_true, decide_eq_true_eq] at hchanged
    obtain ⟨⟨restored, w₁⟩, hcache, hrun⟩ := Lib.bind_eq_ok.mp hrun
    cases restored with
    | true =>
        obtain ⟨⟨loaded, k⟩, hload, hrun⟩ := Lib.bind_eq_ok.mp hrun
        obtain ⟨g₁, hupdate, hpure⟩ := Lib.bind_eq_ok.mp hrun
        obtain ⟨rfl, rfl⟩ := Prod.mk.inj (Except.ok.inj hpure)
        exact Or.inr ⟨loaded, k, hchanged.1, hchanged.2, hcache, hload, hupdate⟩
    | false =>
        obtain ⟨rfl, rfl⟩ := Prod.mk.inj (Except.ok.inj hrun)
        exact Or.inl ⟨rfl, Or.inr hcache⟩
  · obtain ⟨rfl, rfl⟩ := Prod.mk.inj (Except.ok.inj hrun)
    exact Or.inl ⟨rfl, Or.inl rfl⟩

/-- The body of `recomputeRuleHash`, given the recursion of the nodes.  The
hash of the rule itself is computed afresh whatever the flags say. -/
def recomputeRuleHash (nodeHash : Graph × ω → NodeId → Outcome (Graph × ω)) (s : Graph × ω)
    (r : RuleId) : Outcome (Graph × ω) := do
  let g ← updateRuleHash P s.1 r true true
  let s ← restoreDepfile P (s.1.rule r).hashDepfile g s.2 r
  (s.1.rule r).outputs.foldlM nodeHash s

/-- `recomputeNodeHash`; the loop runs over the vector of parent rules itself,
which a depfile loaded on the way may change. -/
def recomputeNodeHash (recomputeHash recomputeHashDeps : Bool) :
    ℕ → Graph × ω → NodeId → Outcome (Bool × Graph × ω)
  | 0, _, _ => .error .outOfFuel
  | fuel + 1, (g, w), n => do
    let (changed, g) ← updateNodeHash P w g n recomputeHash recomputeHashDeps
    if !changed then pure (false, g, w)
    else do
      let s ← Lib.liveLoop .outOfFuel (fun s : Graph × ω ↦ (s.1.node n).parentRules)
        (recomputeRuleHash P fun s m ↦ do
          let (_, s) ← recomputeNodeHash recomputeHash recomputeHashDeps fuel s m
          pure s)
        ((g.node n).parentRules.length + fuel + 1) 0 (g, w)
      pure (true, s)

/-- The loop runs if the hash of the node has changed. -/
theorem recomputeNodeHash_ok {P : Platform ω} {a b : Bool} {fuel : ℕ} {g : Graph} {w : ω}
    {n : NodeId} {changed : Bool} {s' : Graph × ω}
    (hrun : recomputeNodeHash P a b (fuel + 1) (g, w) n = .ok (changed, s')) :
    ∃ g₁, updateNodeHash P w g n a b = .ok (changed, g₁) ∧
      ((changed = false ∧ s' = (g₁, w)) ∨ (changed = true ∧
        Lib.liveLoop .outOfFuel (fun s : Graph × ω ↦ (s.1.node n).parentRules)
          (recomputeRuleHash P fun s m ↦ do
            let (_, s) ← recomputeNodeHash P a b fuel s m
            pure s)
          ((g₁.node n).parentRules.length + fuel + 1) 0 (g₁, w) = .ok s')) := by
  rw [recomputeNodeHash] at hrun
  obtain ⟨⟨ch, g₁⟩, hupdate, hrun⟩ := Lib.bind_eq_ok.mp hrun
  cases ch with
  | false =>
      obtain ⟨rfl, rfl⟩ := Prod.mk.inj (Except.ok.inj hrun)
      exact ⟨g₁, hupdate, Or.inl ⟨rfl, rfl⟩⟩
  | true =>
      obtain ⟨s, hloop, hpure⟩ := Lib.bind_eq_ok.mp hrun
      obtain ⟨rfl, rfl⟩ := Prod.mk.inj (Except.ok.inj hpure)
      exact ⟨g₁, hupdate, Or.inr ⟨rfl, hloop⟩⟩

end Hash

end Falcon
