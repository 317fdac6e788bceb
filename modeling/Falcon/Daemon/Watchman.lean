import Falcon.Lib.Path
import Falcon.Stream.Server

/-!
# The paths that watchman is given

`WatchmanClient` asks watchman to watch a directory for a name.  It gets the two
from the path of the node and the working directory of the daemon, by cutting
both strings at their last slash.  The position of the slash goes through an
`unsigned`, where a missing slash becomes the largest value.
-/

namespace Falcon

open Lib.Path

namespace Watchman

/-- `std::string::npos` -/
def npos : ℕ := 2 ^ 64 - 1

/-- The last position of a byte. -/
def lastIndex (c : UInt8) : List UInt8 → Option ℕ
  | [] => none
  | a :: s =>
    match lastIndex c s with
    | some i => some (i + 1)
    | none => if a = c then some 0 else none

/-- `std::string::find_last_of` -/
def findLastOf (s : List UInt8) (c : UInt8) : ℕ := (lastIndex c s).getD npos

/-- `std::string::substr`, for a position that is not beyond the end. -/
def substr (s : List UInt8) (pos n : ℕ) : List UInt8 := (s.drop pos).take n

/-- `std::string::resize` -/
def resize (s : List UInt8) (n : ℕ) : List UInt8 := s.take n ++ List.replicate (n - s.length) 0

/-- The body of the loop of `updateTargetPath`, on the directory. -/
def parent (targetDirectory : List UInt8) : List UInt8 :=
  let pos : UInt32 := .ofNat (findLastOf targetDirectory slash)
  resize (substr targetDirectory 0 pos.toNat) pos.toNat

/-- The loop over the leading `../`. -/
def climb (targetDirectory : List UInt8) : List UInt8 → List UInt8 × List UInt8
  | 46 :: 46 :: 47 :: targetPattern => climb (parent targetDirectory) targetPattern
  | targetPattern => (targetDirectory, targetPattern)

def updateTargetPath (targetDirectory targetPattern : List UInt8) : List UInt8 × List UInt8 :=
  if targetPattern.head? = some slash then
    let pos : UInt32 := .ofNat (findLastOf targetPattern slash)
    let targetDirectory := resize (substr targetPattern 0 pos.toNat) pos.toNat
    let size : UInt32 := .ofNat targetPattern.length
    let targetPattern := substr targetPattern (pos + 1).toNat npos
    (targetDirectory, resize targetPattern (size - pos - 1).toNat)
  else climb targetDirectory targetPattern

/-- The directory and the pattern denote the file of the node, and watchman can
be given them. -/
structure Denotes (workingDirectory : Directory) (path : List UInt8)
    (target : List UInt8 × List UInt8) : Prop where
  absolute : target.1.head? = some slash
  length : target.1.length ≤ max workingDirectory.text.length path.length
  pattern : ¬ up ++ [slash] <+: target.2
  resolves : resolve (target.1 ++ slash :: target.2) = resolveFrom workingDirectory.text path

variable {c : UInt8} {s a b path : List UInt8} {cs : List Component} {i : ℕ}

/-! ## The last slash -/

theorem lastIndex_eq_none (h : c ∉ s) : lastIndex c s = none := by
  induction s with
  | nil => rfl
  | cons d s ih =>
      rw [List.mem_cons, not_or] at h
      rw [lastIndex, ih h.2]
      exact if_neg (Ne.symm h.1)

theorem lastIndex_append (h : c ∉ b) (a : List UInt8) :
    lastIndex c (a ++ c :: b) = some a.length := by
  induction a with
  | nil =>
      rw [List.nil_append, lastIndex, lastIndex_eq_none h]
      exact if_pos rfl
  | cons d a ih => rw [List.cons_append, lastIndex, ih, List.length_cons]

/-- A string that has the byte ends with a part that does not. -/
theorem exists_last (h : c ∈ s) : ∃ a b, s = a ++ c :: b ∧ c ∉ b := by
  obtain ⟨b, a, hs, hb⟩ := List.eq_append_cons_of_mem (List.mem_reverse.mpr h)
  refine ⟨a.reverse, b.reverse, ?_, by simpa using hb⟩
  rw [← List.reverse_reverse s, hs]
  simp

theorem toNat_ofNat (h : i < 2 ^ 32) : (UInt32.ofNat i).toNat = i := by
  rw [UInt32.toNat_ofNat']
  exact Nat.mod_eq_of_lt h

theorem resize_length (s : List UInt8) : resize s s.length = s := by
  simp [resize]

/-- The parent of a directory, if the position of the slash fits. -/
theorem parent_append (hb : slash ∉ b) (ha : a.length < 2 ^ 32) : parent (a ++ slash :: b) = a := by
  have hpos : findLastOf (a ++ slash :: b) slash = a.length := by
    rw [findLastOf, lastIndex_append hb]
    rfl
  rw [parent, hpos, toNat_ofNat ha]
  simp [substr, resize_length]

/-- Without a slash the string is filled up with zeros. -/
theorem parent_notMem (h : slash ∉ s) : slash ∉ parent s := by
  rw [parent, resize, List.mem_append, not_or]
  refine ⟨fun hmem ↦ h ?_, fun hmem ↦ ?_⟩
  · exact List.mem_of_mem_take (List.mem_of_mem_take hmem)
  · exact absurd (List.eq_of_mem_replicate hmem) (by decide)

/-! ## The loop -/

/-- The number of leading `../`. -/
def climbs : List UInt8 → ℕ
  | 46 :: 46 :: 47 :: path => climbs path + 1
  | _ => 0

theorem climb_notMem (h : slash ∉ s) (path : List UInt8) : slash ∉ (climb s path).1 := by
  induction path using climbs.induct generalizing s with
  | case1 path ih =>
      rw [climb]
      exact ih (parent_notMem h)
  | case2 path hno =>
      rw [climb]
      · exact h
      · exact hno

theorem length_join_dropLast (cs : List Component) :
    (join cs.dropLast).length ≤ (join cs).length := by
  induction cs using List.reverseRecOn with
  | nil => exact Nat.le_refl 0
  | append_singleton cs c ih =>
      rw [List.dropLast_concat, join_concat, List.length_append]
      exact Nat.le_add_right _ _

/-- One `../` takes the last component away. -/
theorem climb_up {c : Component} (hc : Plain c) (hfits : (join cs).length < 2 ^ 32)
    (path : List UInt8) :
    climb (join (cs ++ [c])) (46 :: 46 :: 47 :: path) = climb (join cs) path := by
  rw [climb, join_concat, parent_append hc.slash_notMem hfits]

/-- As many `../` as there are components leave no directory. -/
theorem slash_notMem_climb (hplain : ∀ c ∈ cs, Plain c) (hfits : (join cs.dropLast).length < 2 ^ 32)
    (hk : cs.length ≤ climbs path) : slash ∉ (climb (join cs) path).1 := by
  induction path using climbs.induct generalizing cs with
  | case1 path ih =>
      rcases List.eq_nil_or_concat' cs with rfl | ⟨cs, c, rfl⟩
      · exact climb_notMem List.not_mem_nil _
      · rw [List.dropLast_concat] at hfits
        rw [List.length_append, climbs] at hk
        rw [climb_up (hplain c (by simp)) hfits]
        exact ih (fun d hd ↦ hplain d (List.mem_append_left _ hd))
          ((length_join_dropLast cs).trans_lt hfits) (Nat.le_of_succ_le_succ hk)
  | case2 path hno =>
      rw [climbs] at hk
      · obtain rfl := List.length_eq_zero_iff.mp (Nat.le_zero.mp hk)
        exact climb_notMem List.not_mem_nil _
      · exact hno

/-- What the loop keeps. -/
structure Climbed (directory path : List UInt8) (target : List UInt8 × List UInt8) : Prop where
  absolute : target.1.head? = some slash
  length : target.1.length ≤ directory.length
  pattern : ¬ up ++ [slash] <+: target.2
  resolves : resolve (target.1 ++ slash :: target.2) = resolve (directory ++ slash :: path)

theorem climb_of_not_up (hno : ∀ path', path = 46 :: 46 :: 47 :: path' → False)
    (h : s.head? = some slash) : Climbed s path (climb s path) := by
  rw [climb]
  · refine ⟨h, Nat.le_refl _, fun hpre ↦ ?_, rfl⟩
    obtain ⟨path', hpath⟩ := hpre
    exact hno path' hpath.symm
  · exact hno

theorem climbed_join (hplain : ∀ c ∈ cs, Plain c) (hfits : (join cs.dropLast).length < 2 ^ 32)
    (hk : climbs path < cs.length) : Climbed (join cs) path (climb (join cs) path) := by
  induction path using climbs.induct generalizing cs with
  | case1 path ih =>
      rcases List.eq_nil_or_concat' cs with rfl | ⟨cs, c, rfl⟩
      · cases hk
      · rw [List.dropLast_concat] at hfits
        rw [List.length_append, climbs] at hk
        have hc := hplain c (by simp)
        have hclimbed := ih (fun d hd ↦ hplain d (List.mem_append_left _ hd))
          ((length_join_dropLast cs).trans_lt hfits) (Nat.lt_of_succ_lt_succ hk)
        rw [climb_up hc hfits]
        refine ⟨hclimbed.absolute, hclimbed.length.trans ?_, hclimbed.pattern,
          hclimbed.resolves.trans ?_⟩
        · rw [join_concat, List.length_append]
          exact Nat.le_add_right _ _
        · rw [join_concat, resolve_append, resolve_append, resolve_append, walk_plain hc]
          exact (walk_up (c :: resolve (join cs)) path).symm
  | case2 path hno =>
      exact climb_of_not_up hno (head_join fun hnil ↦ by rw [hnil] at hk; cases hk)

/-! ## The target -/

/-- An absolute path names something below a directory other than the root; a
relative one leaves a component of the working directory. -/
def Denotable (W : Directory) (path : List UInt8) : Prop :=
  if path.head? = some slash then slash ∈ path.tail
  else climbs path = 0 ∨ climbs path < W.comps.length

/-- The positions at which the strings are cut, and the length of the rest, are
values of an `unsigned`. -/
def Fits (W : Directory) (path : List UInt8) : Prop :=
  if path.head? = some slash then
    ∀ i, lastIndex slash path = some i → i + 1 < 2 ^ 32 ∧ path.length - (i + 1) < 2 ^ 32
  else climbs path = 0 ∨ ∀ i, lastIndex slash W.text = some i → i < 2 ^ 32

/-- An absolute path is cut at its last slash. -/
theorem updateTargetPath_append (directory : List UInt8) (hb : slash ∉ b)
    (hhead : (a ++ slash :: b).head? = some slash) (ha : a.length + 1 < 2 ^ 32)
    (hlength : b.length < 2 ^ 32) : updateTargetPath directory (a ++ slash :: b) = (a, b) := by
  have hpos : findLastOf (a ++ slash :: b) slash = a.length := by
    rw [findLastOf, lastIndex_append hb]
    rfl
  have hnat : (UInt32.ofNat a.length).toNat = a.length := toNat_ofNat (by omega)
  have hnext : (UInt32.ofNat a.length + 1).toNat = a.length + 1 := by
    rw [UInt32.toNat_add, hnat]
    exact Nat.mod_eq_of_lt ha
  have hrest : (UInt32.ofNat (a ++ slash :: b).length - UInt32.ofNat a.length - 1).toNat =
      b.length := by
    rw [UInt32.toNat_sub, UInt32.toNat_sub, hnat, UInt32.toNat_ofNat', List.length_append,
      List.length_cons]
    change (2 ^ 32 - 1 + _) % 2 ^ 32 = _
    omega
  have htake : b.take npos = b :=
    List.take_of_length_le (hlength.le.trans (by decide))
  rw [updateTargetPath, if_pos hhead, hpos]
  simp only [hnat, hnext, hrest]
  simp [substr, htake, resize_length]

variable {W : Directory}

theorem denotes_absolute_iff (hhead : path.head? = some slash)
    (hfits : ∀ i, lastIndex slash path = some i → i + 1 < 2 ^ 32 ∧ path.length - (i + 1) < 2 ^ 32) :
    Denotes W path (updateTargetPath W.text path) ↔ slash ∈ path.tail := by
  obtain ⟨a, b, rfl, hb⟩ := exists_last (List.mem_of_mem_head? (Option.mem_def.mpr hhead))
  obtain ⟨ha, hlength⟩ := hfits _ (lastIndex_append hb a)
  have hrest : (a ++ slash :: b).length - (a.length + 1) = b.length := by
    rw [List.length_append, List.length_cons]
    omega
  rw [hrest] at hlength
  rw [updateTargetPath_append _ hb hhead ha hlength]
  cases a with
  | nil => exact ⟨fun h ↦ absurd h.absolute (by simp), fun h ↦ absurd h hb⟩
  | cons d a =>
      refine ⟨fun _ ↦ by simp, fun _ ↦ ⟨hhead, ?_, fun hpre ↦ hb (hpre.subset (by simp)), ?_⟩⟩
      · exact (by simp : (d :: a).length ≤ (d :: a ++ slash :: b).length).trans (le_max_right _ _)
      · rw [resolveFrom, if_pos hhead]

theorem denotes_of_climbed {target : List UInt8 × List UInt8} (hhead : path.head? ≠ some slash)
    (h : Climbed W.text path target) : Denotes W path target :=
  ⟨h.absolute, h.length.trans (le_max_left _ _), h.pattern, by
    rw [resolveFrom, if_neg hhead]
    exact h.resolves⟩

theorem not_denotes {target : List UInt8 × List UInt8} (h : slash ∉ target.1) :
    ¬ Denotes W path target :=
  fun hdenotes ↦ h (List.mem_of_mem_head? (Option.mem_def.mpr hdenotes.absolute))

theorem denotes_relative_iff (hhead : path.head? ≠ some slash) (hfits : climbs path = 0 ∨
      ∀ i, lastIndex slash W.text = some i → i < 2 ^ 32) :
    Denotes W path (climb W.text path) ↔ climbs path = 0 ∨ climbs path < W.comps.length := by
  by_cases hclimbs : climbs path = 0
  · refine ⟨fun _ ↦ Or.inl hclimbs, fun _ ↦ denotes_of_climbed hhead ?_⟩
    refine climb_of_not_up (fun path' hpath ↦ ?_) W.head_text
    rw [hpath, climbs] at hclimbs
    cases hclimbs
  have hpos := hfits.resolve_left hclimbs
  rcases List.eq_nil_or_concat' W.comps with hnil | ⟨cs, c, hcs⟩
  · -- The root has no parent.
    have htext : W.text = [] ++ slash :: [] := by rw [Directory.text, if_pos hnil]; rfl
    refine ⟨fun h ↦ absurd h (not_denotes ?_), fun h ↦ ?_⟩
    · obtain ⟨path', rfl⟩ : ∃ path', path = 46 :: 46 :: 47 :: path' := by
        by_contra hno
        exact hclimbs (climbs.eq_2 path fun path' hpath ↦ hno ⟨path', hpath⟩)
      rw [htext, climb, parent_append List.not_mem_nil (by decide)]
      exact climb_notMem List.not_mem_nil path'
    · rw [hnil] at h
      exact absurd h (by simpa using hclimbs)
  · have htext : W.text = join W.comps := if_neg (by simp [hcs])
    have hfits : (join W.comps.dropLast).length < 2 ^ 32 := by
      have hc := (W.plain c (by simp [hcs])).slash_notMem
      rw [hcs, List.dropLast_concat]
      refine hpos _ ?_
      rw [htext, hcs, join_concat]
      exact lastIndex_append hc _
    rw [htext]
    rcases Nat.lt_or_ge (climbs path) W.comps.length with hlt | hge
    · refine ⟨fun _ ↦ Or.inr hlt, fun _ ↦ denotes_of_climbed hhead ?_⟩
      rw [htext]
      exact climbed_join W.plain hfits hlt
    · refine ⟨fun h ↦ absurd h (not_denotes (slash_notMem_climb W.plain hfits hge)), fun h ↦ ?_⟩
      exact absurd h (by omega)

/-- Where the cuts fit, the target is right just if the path is denotable. -/
theorem updateTargetPath_denotes (W : Directory) (path : List UInt8) :
    (Fits W path ∧ Denotable W path → Denotes W path (updateTargetPath W.text path)) ∧
      (Fits W path → Denotes W path (updateTargetPath W.text path) → Denotable W path) := by
  have hiff : Fits W path → (Denotes W path (updateTargetPath W.text path) ↔
      Denotable W path) := by
    intro hfits
    rw [Fits] at hfits
    rw [Denotable]
    by_cases hhead : path.head? = some slash
    · rw [if_pos hhead] at hfits ⊢
      exact denotes_absolute_iff hhead hfits
    · rw [if_neg hhead] at hfits ⊢
      rw [updateTargetPath, if_neg hhead]
      exact denotes_relative_iff hhead hfits
  exact ⟨fun h ↦ (hiff h.1).mpr h.2, fun hfits ↦ (hiff hfits).mp⟩

/-- The working directory `/home/falcon`. -/
def homeDirectory : Directory where
  comps := [bytes "home", bytes "falcon"]
  plain c hc := by
    rcases List.mem_cons.mp hc with rfl | hc
    · exact ⟨by decide, by decide, by decide, by decide⟩
    · obtain rfl := List.mem_singleton.mp hc
      exact ⟨by decide, by decide, by decide, by decide⟩

theorem denotes_sibling : Denotes homeDirectory (bytes "../src/main.cpp")
    (updateTargetPath homeDirectory.text (bytes "../src/main.cpp")) := by
  refine (updateTargetPath_denotes homeDirectory (bytes "../src/main.cpp")).1 ⟨?_, ?_⟩
  · rw [Fits, if_neg (by decide)]
    refine Or.inr fun i hi ↦ ?_
    obtain rfl : i = 5 := Option.some.inj (hi.symm.trans (by decide))
    decide
  · rw [Denotable, if_neg (by decide)]
    exact Or.inr (by decide)

/-- The file `/notes.txt` gets an empty directory. -/
theorem not_denotes_notes : ¬ ∀ (W : Directory) (path : List UInt8), path ≠ [] →
    Denotes W path (updateTargetPath W.text path) := by
  intro hclaim
  have hdenotes := hclaim homeDirectory (bytes "/notes.txt") (by decide)
  exact absurd hdenotes.absolute (by decide)

end Watchman

end Falcon
