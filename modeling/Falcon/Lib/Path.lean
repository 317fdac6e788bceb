import Mathlib.Data.List.Induction

/-!
# File paths

A path is walked component by component, without a look at the file system: an
empty component and `.` stay in the directory, `..` leads to its parent, and
from the root back to the root.
-/

namespace Falcon.Lib.Path

def slash : UInt8 := 47

def dot : UInt8 := 46

abbrev Component := List UInt8

/-- The component `..`. -/
def up : Component := [dot, dot]

/-- A directory is the list of its components, the last one first. -/
def enter (dir : List Component) (c : Component) : List Component :=
  if c = [] ∨ c = [dot] then dir else if c = up then dir.tail else c :: dir

def walk (dir : List Component) (path : List UInt8) : List Component :=
  (path.splitOn slash).foldl enter dir

/-- The directory or file that an absolute path denotes. -/
def resolve (path : List UInt8) : List Component := walk [] path

/-- The one that a path denotes which is taken relative to a directory. -/
def resolveFrom (dir path : List UInt8) : List Component :=
  if path.head? = some slash then resolve path else resolve (dir ++ slash :: path)

variable {dir : List Component} {a b : List UInt8} {c : Component} {cs : List Component}

theorem walk_append (dir : List Component) (a b : List UInt8) :
    walk dir (a ++ slash :: b) = walk (walk dir a) b := by
  rw [walk, List.splitOn_append_cons_self, List.foldl_append]
  rfl

theorem resolve_append (a b : List UInt8) : resolve (a ++ slash :: b) = walk (resolve a) b :=
  walk_append [] a b

/-- A leading `../`. -/
theorem walk_up (dir : List Component) (a : List UInt8) :
    walk dir (up ++ slash :: a) = walk dir.tail a := by
  rw [walk_append]
  rfl

/-- A component that is the name of a file or directory. -/
structure Plain (c : Component) : Prop where
  ne_nil : c ≠ []
  ne_dot : c ≠ [dot]
  ne_up : c ≠ up
  slash_notMem : slash ∉ c

theorem walk_plain (h : Plain c) (dir : List Component) : walk dir c = c :: dir := by
  rw [walk, List.splitOn_eq_singleton h.slash_notMem, List.foldl_cons, List.foldl_nil, enter,
    if_neg (by simp [h.ne_nil, h.ne_dot]), if_neg h.ne_up]

/-! ## Absolute paths in normal form -/

/-- The components, the first one first, each behind a slash. -/
def join (cs : List Component) : List UInt8 := cs.flatMap (slash :: ·)

@[simp] theorem join_nil : join [] = [] := rfl

theorem join_concat (cs : List Component) (c : Component) :
    join (cs ++ [c]) = join cs ++ slash :: c := by
  simp [join]

theorem head_join (h : cs ≠ []) : (join cs).head? = some slash := by
  obtain ⟨c, cs, rfl⟩ := List.exists_cons_of_ne_nil h
  rfl

/-- A normal absolute path: no component is empty, `.` or `..`, and no slash
stands at the end, except that the root is a slash. -/
structure Directory where
  comps : List Component
  plain : ∀ c ∈ comps, Plain c

namespace Directory

def text (d : Directory) : List UInt8 := if d.comps = [] then [slash] else join d.comps

theorem head_text (d : Directory) : d.text.head? = some slash := by
  rw [text]
  split
  · rfl
  · rename_i hne
    exact head_join hne

end Directory

end Falcon.Lib.Path
