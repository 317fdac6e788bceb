import Falcon.Graph.Links
import Falcon.Platform

/-!
# Hashes of nodes and rules

`updateNodeHash` and `updateRuleHash` of `graph_hash.cpp`: one node or rule,
whose inputs or child have been hashed before.
-/

namespace Falcon.Hash

variable {ω : Type} (P : Platform ω)

/-- The two halves of `updateNodeHash` for a source file.  The second
comparison looks at the hash again, which the first half has just set. -/
def updateSourceHash (w : ω) (x : Node) (recomputeHash recomputeHashDeps : Bool) : Bool × Node :=
  let hash := P.digest [x.path, (P.readFile w x.path).getD ""]
  let changed := recomputeHash && x.hash != hash
  let x := if recomputeHash then x.setHash hash else x
  let changed := changed || (recomputeHashDeps && x.hash != hash)
  let x := if recomputeHashDeps then x.setHashDepfile hash else x
  (changed, x)

def updateTargetHash (child : Rule) (x : Node) (recomputeHash recomputeHashDeps : Bool) :
    Outcome (Bool × Node) := do
  let (changed, x) ← if recomputeHash then do
      assert (child.hash ≠ "") .childHashed
      let hash := P.digest [x.path, child.hash]
      pure (x.hash != hash, x.setHash hash)
    else pure (false, x)
  if recomputeHashDeps then do
    assert (child.hashDepfile ≠ "") .childHashed
    let hash := P.digest [x.path, child.hashDepfile]
    pure (changed || x.hashDepfile != hash, x.setHashDepfile hash)
  else pure (changed, x)

def updateNodeHash (w : ω) (g : Graph) (n : NodeId) (recomputeHash recomputeHashDeps : Bool) :
    Outcome (Bool × Graph) := do
  assert (recomputeHash || recomputeHashDeps) .someHashRequested
  let (changed, x) ← match (g.node n).childRule with
    | none => pure (updateSourceHash P w (g.node n) recomputeHash recomputeHashDeps)
    | some child => updateTargetHash P (g.rule child) (g.node n) recomputeHash recomputeHashDeps
  pure (changed, g.setNode n x)

/-- The explicit inputs stand before the implicit ones. -/
def explicitInputs (x : Rule) : List NodeId := x.inputs.take (x.inputs.length - x.numImplicitDeps)

theorem explicitInputs_none {x : Rule} (h : x.numImplicitDeps = 0) :
    explicitInputs x = x.inputs := by
  rw [explicitInputs, h, Nat.sub_zero, List.take_length]

/-- The hash of a rule covers every input, the depfile hash the explicit ones. -/
def updateRuleHash (g : Graph) (r : RuleId) (recomputeHash recomputeHashDeps : Bool) :
    Outcome Graph := do
  let x ← if recomputeHash then do
      assert ((g.rule r).inputs.all fun n ↦ (g.node n).hash ≠ "") .inputHashed
      pure ((g.rule r).setHash
        (P.digest ((g.rule r).inputs.map (fun n ↦ (g.node n).hash) ++ [(g.rule r).command])))
    else pure (g.rule r)
  let x ← if recomputeHashDeps then do
      assert ((explicitInputs (g.rule r)).all fun n ↦ (g.node n).hashDepfile ≠ "") .inputHashed
      pure (x.setHashDepfile (P.digest
        ((explicitInputs (g.rule r)).map (fun n ↦ (g.node n).hashDepfile) ++
          [(g.rule r).command])))
    else pure x
  pure (g.setRule r x)

end Falcon.Hash
