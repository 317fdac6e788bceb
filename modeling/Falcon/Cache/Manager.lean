import Mathlib.Logic.Function.Basic
import Falcon.Platform

/-!
# The cache on disk

`CacheFS` keeps a copy of a file under a hash, in one directory.
`CacheManager` stores the outputs of a rule under the hashes of the nodes and
its depfile under the depfile hash of the rule; this is the policy
`CACHE_EVERYTHING`, which does not look at a git repository.
-/

namespace Falcon

/-- The files of the project with their modification times, the directory of
the cache, and the clock. -/
structure Disk where
  files : String → Option String
  mtimes : String → Timestamp
  entries : String → Option String
  clock : Timestamp

namespace Disk

/-- What an `ifstream` on the path reads: nothing if there is no such file. -/
def content (w : Disk) (path : String) : String := (w.files path).getD ""

def write (w : Disk) (path content : String) : Disk :=
  { w with
    files := Function.update w.files path (some content)
    mtimes := Function.update w.mtimes path w.clock }

def addEntry (w : Disk) (hash content : String) : Disk :=
  { w with entries := Function.update w.entries hash (some content) }

def removeEntry (w : Disk) (hash : String) : Disk :=
  { w with entries := Function.update w.entries hash none }

@[simp] theorem write_entries (w : Disk) (path content : String) :
    (w.write path content).entries = w.entries := rfl

theorem write_files (w : Disk) (path content path' : String) :
    (w.write path content).files path' = if path' = path then some content else w.files path' := by
  simp [write, Function.update_apply]

@[simp] theorem addEntry_files (w : Disk) (hash content : String) :
    (w.addEntry hash content).files = w.files := rfl

theorem addEntry_entries (w : Disk) (hash content hash' : String) :
    (w.addEntry hash content).entries hash' =
      if hash' = hash then some content else w.entries hash' := by
  simp [addEntry, Function.update_apply]

end Disk

namespace CacheFS

def hasEntry (hash : String) (w : Disk) : Outcome Bool := do
  assert (hash ≠ "") .entryHashNotEmpty
  pure (w.entries hash).isSome

/-- An entry that is there already is kept.  A file that cannot be read makes an
empty entry. -/
def writeEntry (hash path : String) (w : Disk) : Outcome (Bool × Disk) := do
  assert (hash ≠ "") .entryHashNotEmpty
  match w.entries hash with
  | some _ => pure (true, w)
  | none => pure (true, w.addEntry hash (w.content path))

def readEntry (hash path : String) (w : Disk) : Outcome (Bool × Disk) := do
  assert (hash ≠ "") .entryHashNotEmpty
  match w.entries hash with
  | none => pure (false, w)
  | some content => pure (true, w.write path content)

def delEntry (hash : String) (w : Disk) : Outcome (Bool × Disk) := do
  assert (hash ≠ "") .entryHashNotEmpty
  pure (true, w.removeEntry hash)

end CacheFS

namespace CacheManager

open CacheFS

def saveNode (g : Graph) (n : NodeId) (w : Disk) : Outcome (Bool × Disk) :=
  writeEntry (g.node n).hash (g.node n).path w

def saveOutputs (g : Graph) (l : List NodeId) (w : Disk) : Outcome Disk :=
  l.foldlM (fun w n ↦ do
    let (_, w) ← saveNode g n w
    pure w) w

def saveRule (g : Graph) (r : RuleId) (w : Disk) : Outcome Disk :=
  if (g.rule r).isPhony then pure w
  else do
    let w ← saveOutputs g (g.rule r).outputs w
    if (g.rule r).hasDepfile then do
      let (_, w) ← writeEntry (g.rule r).hashDepfile (g.rule r).depfile w
      pure w
    else pure w

def restoreNode (g : Graph) (n : NodeId) (w : Disk) : Outcome (Bool × Disk) := do
  let found ← hasEntry (g.node n).hash w
  if found then readEntry (g.node n).hash (g.node n).path w else pure (false, w)

/-- The loop that looks for the outputs; it stops at the first one missing. -/
def hasOutputs (g : Graph) (w : Disk) : List NodeId → Outcome Bool
  | [] => pure true
  | n :: l => do
    let found ← hasEntry (g.node n).hash w
    if found then hasOutputs g w l else pure false

/-- The loop that retrieves the outputs. -/
def readOutputs (g : Graph) : List NodeId → Disk → Outcome (Bool × Disk)
  | [], w => pure (true, w)
  | n :: l, w => do
    let (read, w) ← readEntry (g.node n).hash (g.node n).path w
    if read then readOutputs g l w else pure (false, w)

def restoreRule (g : Graph) (r : RuleId) (w : Disk) : Outcome (Bool × Disk) :=
  if (g.rule r).isPhony then pure (false, w)
  else do
    let found ← hasOutputs g w (g.rule r).outputs
    if found then readOutputs g (g.rule r).outputs w else pure (false, w)

def restoreDepfile (g : Graph) (r : RuleId) (w : Disk) : Outcome (Bool × Disk) :=
  readEntry (g.rule r).hashDepfile (g.rule r).depfile w

end CacheManager

/-- The libraries of the daemon: SHA-256, the depfile parser and the allocator. -/
structure Host where
  sha256 : String → List UInt8
  parseDepfile : String → Option (String × List String)
  newNode : Finset NodeId → NodeId
  newNode_fresh : ∀ used, newNode used ∉ used
  uninitialised : Finset NodeId → Bool

/-- The daemon on a disk. -/
def Host.platform (H : Host) : Platform Disk where
  readFile w path := w.files path
  mtime w path := (w.files path).map fun _ ↦ w.mtimes path
  now w := w.clock
  sha256 := H.sha256
  parseDepfile := H.parseDepfile
  newNode := H.newNode
  newNode_fresh := H.newNode_fresh
  uninitialised := H.uninitialised
  restoreNode := CacheManager.restoreNode
  restoreRule := CacheManager.restoreRule
  restoreDepfile := CacheManager.restoreDepfile
  saveRule := CacheManager.saveRule

namespace CacheManager

open CacheFS

variable {g : Graph} {w w' : Disk} {n : NodeId} {r : RuleId}

/-- The node is written from its entry, if it has one. -/
theorem restoreNode_eq (hhash : (g.node n).hash ≠ "") :
    restoreNode g n w = .ok (match w.entries (g.node n).hash with
      | none => (false, w)
      | some c => (true, w.write (g.node n).path c)) := by
  cases hentry : w.entries (g.node n).hash <;>
    simp [restoreNode, hasEntry, readEntry, hhash, hentry]

theorem saveNode_eq (hhash : (g.node n).hash ≠ "") :
    saveNode g n w = .ok (true, match w.entries (g.node n).hash with
      | some _ => w
      | none => w.addEntry (g.node n).hash (w.content (g.node n).path)) := by
  cases hentry : w.entries (g.node n).hash <;> simp [saveNode, writeEntry, hhash, hentry]

/-- A rule with one output is restored like its output. -/
theorem restoreRule_eq {o : NodeId} (hphony : (g.rule r).isPhony = false)
    (hout : (g.rule r).outputs = [o]) (hhash : (g.node o).hash ≠ "") :
    restoreRule g r w = .ok (match w.entries (g.node o).hash with
      | none => (false, w)
      | some c => (true, w.write (g.node o).path c)) := by
  cases hentry : w.entries (g.node o).hash <;>
    simp [restoreRule, hphony, hout, hasOutputs, readOutputs, hasEntry, readEntry, hhash, hentry]

theorem saveRule_eq {o : NodeId} (hphony : (g.rule r).isPhony = false)
    (hdep : (g.rule r).hasDepfile = false) (hout : (g.rule r).outputs = [o])
    (hhash : (g.node o).hash ≠ "") :
    saveRule g r w = .ok (match w.entries (g.node o).hash with
      | some _ => w
      | none => w.addEntry (g.node o).hash (w.content (g.node o).path)) := by
  simp [saveRule, hphony, hdep, hout, saveOutputs, saveNode_eq hhash]

end CacheManager

end Falcon
