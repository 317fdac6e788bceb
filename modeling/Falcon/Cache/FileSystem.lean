import Falcon.Cache.Manager
import Falcon.Lib.Trace

/-!
# The files behind the cache

The entries of the cache are files in a directory, and `CacheFS` copies them
through streams.  A stream that could not be opened is not reported: it reads
nothing, and what is written to it is lost.  Nor is a copy that breaks off, on a
full disk for one.
-/

namespace Falcon

inductive Inode where
  | file (content : String)
  | directory
  deriving DecidableEq

/-- What the paths lead to, the paths under which nothing can be made, written or
removed, and how much of the file under one path gets into a file under another
before a read or a write fails. -/
structure FileSystem where
  inode : String → Option Inode
  locked : String → Bool
  carried : String → String → Nat

namespace FileSystem

/-- The part of a path in front of the last slash. -/
def parent (path : String) : Option String :=
  match path.toList.reverse.dropWhile (· ≠ '/') with
  | [] => none
  | _ :: l => some (String.ofList l.reverse)

def stat (fs : FileSystem) (path : String) : Bool := (fs.inode path).isSome

def isDirectory (fs : FileSystem) (path : String) : Bool := fs.inode path = some .directory

/-- A path without a slash is found in the working directory. -/
def parentExists (fs : FileSystem) (path : String) : Bool := (parent path).all fs.isDirectory

/-- What an `ifstream` reads. -/
def content (fs : FileSystem) (path : String) : Option String :=
  match fs.inode path with
  | some (.file c) => some c
  | _ => none

/-- An `ofstream` can be opened on the path. -/
def opens (fs : FileSystem) (path : String) : Bool :=
  !fs.isDirectory path && !fs.locked path && fs.parentExists path

def set (fs : FileSystem) (path : String) (i : Option Inode) : FileSystem :=
  { fs with inode := Function.update fs.inode path i }

/-- `fs::mkdir`. -/
def mkdir (path : String) (fs : FileSystem) : Bool × FileSystem :=
  if fs.stat path then (fs.isDirectory path, fs)
  else if fs.locked path || !fs.parentExists path then (false, fs)
  else (true, fs.set path (some .directory))

/-- The output is cut to nothing when it is opened, before anything is read, and
the rest of an input that is not carried is lost. -/
def copy (input output : String) (fs : FileSystem) : FileSystem :=
  if fs.opens output then
    let fs := fs.set output (some (.file ""))
    let c := (fs.content input).getD ""
    fs.set output (some (.file (String.ofList (c.toList.take (fs.carried input output)))))
  else fs

/-- `unlink` removes no directory. -/
def unlink (path : String) (fs : FileSystem) : Option FileSystem :=
  if (fs.content path).isSome && !fs.locked path && fs.parentExists path then
    some (fs.set path none)
  else none

/-- The path of an entry of the cache in `dir`. -/
def entryPath (dir hash : String) : String := dir ++ "/" ++ hash

def writeEntry (dir hash path : String) (fs : FileSystem) : Outcome (Bool × FileSystem) := do
  assert (hash ≠ "") .entryHashNotEmpty
  let (_, fs) := fs.mkdir dir
  if fs.stat (entryPath dir hash) then pure (true, fs)
  else pure (true, fs.copy path (entryPath dir hash))

def hasEntry (dir hash : String) (fs : FileSystem) : Outcome Bool := do
  assert (hash ≠ "") .entryHashNotEmpty
  pure (fs.stat (entryPath dir hash))

def readEntry (dir hash path : String) (fs : FileSystem) : Outcome (Bool × FileSystem) := do
  assert (hash ≠ "") .entryHashNotEmpty
  if fs.stat (entryPath dir hash) then pure (true, fs.copy (entryPath dir hash) path)
  else pure (false, fs)

def delEntry (dir hash : String) (fs : FileSystem) : Outcome (Bool × FileSystem) := do
  assert (hash ≠ "") .entryHashNotEmpty
  if fs.stat (entryPath dir hash) then
    match fs.unlink (entryPath dir hash) with
    | none => pure (false, fs)
    | some fs => pure (true, fs)
  else pure (true, fs)

/-! ## Paths -/

/-- A hash that names a file in the directory of the cache. -/
def Plain (hash : String) : Prop := hash ≠ "" ∧ '/' ∉ hash.toList ∧ hash ≠ "." ∧ hash ≠ ".."

instance (hash : String) : Decidable (Plain hash) :=
  inferInstanceAs (Decidable (_ ∧ _ ∧ _ ∧ _))

theorem Plain.assert {hash : String} (h : Plain hash) :
    Falcon.assert (decide (hash ≠ "")) .entryHashNotEmpty = .ok () := by
  simp [h.1]

theorem entryPath_injective (dir : String) : Function.Injective (entryPath dir) := by
  intro h h' heq
  have hlist := congrArg String.toList heq
  simp only [entryPath, String.toList_append] at hlist
  exact String.toList_inj.mp (List.append_cancel_left hlist)

theorem entryPath_ne_dir (dir hash : String) : entryPath dir hash ≠ dir := by
  intro heq
  have hlength := congrArg (fun s ↦ s.toList.length) heq
  simp [entryPath] at hlength

theorem parent_entryPath (dir : String) {hash : String} (h : Plain hash) :
    parent (entryPath dir hash) = some dir := by
  have hslash : ∀ c ∈ hash.toList.reverse, decide (c ≠ '/') = true := by
    intro c hc
    rw [decide_eq_true_eq]
    rintro rfl
    exact h.2.1 (List.mem_reverse.mp hc)
  have hlist : (entryPath dir hash).toList.reverse =
      hash.toList.reverse ++ '/' :: dir.toList.reverse := by
    simp [entryPath, String.toList_append]
  rw [parent, hlist, List.dropWhile_append_of_pos hslash]
  simp

variable {fs fs' : FileSystem} {dir hash path : String}

theorem set_inode (fs : FileSystem) (path : String) (i : Option Inode) (path' : String) :
    (fs.set path i).inode path' = if path' = path then i else fs.inode path' := by
  simp [set, Function.update_apply]

theorem content_eq_some {c : String} :
    fs.content path = some c ↔ fs.inode path = some (.file c) := by
  rw [content]
  cases fs.inode path with
  | none => simp
  | some i => cases i <;> simp

theorem content_of_inode (h : fs'.inode path = fs.inode path) :
    fs'.content path = fs.content path := by
  rw [content, content, h]

theorem content_set (fs : FileSystem) (path c path' : String) :
    (fs.set path (some (.file c))).content path' =
      if path' = path then some c else fs.content path' := by
  by_cases heq : path' = path
  · rw [if_pos heq]
    exact content_eq_some.mpr (by rw [set_inode, if_pos heq])
  · rw [if_neg heq]
    exact content_of_inode (by rw [set_inode, if_neg heq])

/-- The whole of the first file gets into the second. -/
def Carries (fs : FileSystem) (input output : String) : Prop :=
  ((fs.content input).getD "").length ≤ fs.carried input output

instance (fs : FileSystem) (input output : String) : Decidable (fs.Carries input output) :=
  inferInstanceAs (Decidable (_ ≤ _))

theorem copy_locked (input output : String) : (fs.copy input output).locked = fs.locked := by
  rw [copy]
  split
  · rfl
  · rfl

/-- A copy of another file, which is not cut short. -/
theorem copy_inode {input output : String} (hopens : fs.opens output = true)
    (hne : input ≠ output) (hcarries : fs.Carries input output) (path' : String) :
    (fs.copy input output).inode path' =
      if path' = output then some (.file ((fs.content input).getD "")) else fs.inode path' := by
  have hwhole : ((fs.content input).getD "").toList.take (fs.carried input output) =
      ((fs.content input).getD "").toList :=
    List.take_of_length_le (by rw [String.length_toList]; exact hcarries)
  have hset : ∀ i, (fs.set output i).carried = fs.carried := fun _ ↦ rfl
  rw [copy, if_pos hopens]
  simp only [content_set, if_neg hne, hset, hwhole, String.ofList_toList, set_inode]
  split
  · rfl
  · rfl

end FileSystem

/-! ## Histories -/

open FileSystem

/-- A call of `CacheFS`, or what others do to the files. -/
inductive CacheEvent where
  | write (hash path : String)
  | read (hash path : String)
  | del (hash : String)
  | modify (fs : FileSystem)

namespace CacheEvent

def run (dir : String) (fs : FileSystem) : CacheEvent → Outcome (Bool × FileSystem)
  | write hash path => writeEntry dir hash path fs
  | read hash path => readEntry dir hash path fs
  | del hash => delEntry dir hash fs
  | modify fs' => pure (true, fs')

/-- The content that the file of the first successful `writeEntry` had, for every
hash that has been written since its last `delEntry`. -/
def save (fs : FileSystem) (result : Bool) (saved : String → Option String) :
    CacheEvent → String → Option String
  | write hash path =>
    if result && (saved hash).isNone then Function.update saved hash (fs.content path) else saved
  | del hash => Function.update saved hash none
  | _ => saved

/-- A call that returns true has done what it says: `fs` is before it, and `fs'`
and `saved'` are after it. -/
def Correct (dir : String) (fs fs' : FileSystem) (saved' : String → Option String) :
    CacheEvent → Prop
  | write hash path => (∃ c, fs.content path = some c) ∧
      ∃ c, fs'.content (entryPath dir hash) = some c ∧ saved' hash = some c
  | read hash path =>
      ∃ c, fs'.content path = some c ∧ fs'.content (entryPath dir hash) = some c
  | _ => True

/-- The calls that `CacheFS` is made for: a file that is saved exists, and one
that is restored can be written and is no entry itself; no copy breaks off; others
leave the directory of the cache alone. -/
def Safe (dir : String) (fs : FileSystem) : CacheEvent → Prop
  | write hash path => Plain hash ∧ (fs.content path).isSome = true ∧
      (fs.stat (entryPath dir hash) = false → fs.Carries path (entryPath dir hash))
  | read hash path => Plain hash ∧ (fs.stat (entryPath dir hash) = true →
      fs.opens path = true ∧ fs.Carries (entryPath dir hash) path ∧
        ∀ hash', Plain hash' → path ≠ entryPath dir hash')
  | del hash => Plain hash
  | modify fs' => (fs'.inode dir = fs.inode dir ∧ fs'.locked dir = fs.locked dir ∧
      fs'.parentExists dir = fs.parentExists dir) ∧
      ∀ hash, Plain hash → fs'.inode (entryPath dir hash) = fs.inode (entryPath dir hash) ∧
        fs'.locked (entryPath dir hash) = fs.locked (entryPath dir hash)

end CacheEvent

/-- The files, and what has been saved under each hash. -/
structure CacheHistory where
  fs : FileSystem
  saved : String → Option String

namespace CacheHistory

/-- A safe event. -/
def Step (dir : String) (t : CacheHistory) (e : CacheEvent) (t' : CacheHistory) : Prop :=
  e.Safe dir t.fs ∧ ∃ result, e.run dir t.fs = .ok (result, t'.fs) ∧
    t'.saved = e.save t.fs result t.saved

/-- The directory of the cache is there and empty, or can be made. -/
structure Start (dir : String) (fs : FileSystem) : Prop where
  directory : fs.inode dir = none ∧ fs.locked dir = false ∧ fs.parentExists dir = true ∨
    fs.inode dir = some .directory
  unlocked : ∀ hash, Plain hash → fs.locked (entryPath dir hash) = false
  empty : ∀ hash, Plain hash → fs.inode (entryPath dir hash) = none

/-- The entries are the files that have been saved. -/
structure Kept (dir : String) (t : CacheHistory) : Prop where
  directory : t.fs.inode dir = none ∧ t.fs.locked dir = false ∧ t.fs.parentExists dir = true ∨
    t.fs.inode dir = some .directory
  unlocked : ∀ hash, Plain hash → t.fs.locked (entryPath dir hash) = false
  entry : ∀ hash, Plain hash →
    t.fs.inode (entryPath dir hash) = (t.saved hash).map Inode.file
  made : ∀ hash, Plain hash → t.saved hash ≠ none → t.fs.inode dir = some .directory

theorem Start.kept {dir : String} {fs : FileSystem} (h : Start dir fs) :
    Kept dir ⟨fs, fun _ ↦ none⟩ :=
  ⟨h.directory, h.unlocked, h.empty, fun _ _ hsaved ↦ absurd rfl hsaved⟩

namespace Kept

variable {dir hash path : String} {t : CacheHistory} (h : Kept dir t)
include h

theorem mkdir : (t.fs.mkdir dir).2.inode dir = some .directory ∧
    (∀ path, path ≠ dir → (t.fs.mkdir dir).2.inode path = t.fs.inode path) ∧
    (t.fs.mkdir dir).2.locked = t.fs.locked ∧ (t.fs.mkdir dir).2.carried = t.fs.carried := by
  rw [FileSystem.mkdir]
  rcases h.directory with ⟨hnone, hunlocked, hparent⟩ | hdir
  · have hstat : t.fs.stat dir = false := by simp [stat, hnone]
    simp only [hstat, hunlocked, hparent, Bool.false_eq_true, if_false, Bool.not_true, Bool.or_self]
    refine ⟨?_, fun path hne ↦ ?_, rfl, rfl⟩
    · rw [set_inode, if_pos rfl]
    · rw [set_inode, if_neg hne]
  · have hstat : t.fs.stat dir = true := by simp [stat, hdir]
    rw [if_pos hstat]
    exact ⟨hdir, fun _ _ ↦ rfl, rfl, rfl⟩

/-- A new entry can be made once the directory is there. -/
theorem opens_entry {fs : FileSystem} (hplain : Plain hash) (hdir : fs.inode dir = some .directory)
    (hlocked : fs.locked = t.fs.locked) (hnone : fs.inode (entryPath dir hash) = none) :
    fs.opens (entryPath dir hash) = true := by
  have hparent : fs.parentExists (entryPath dir hash) = true := by
    rw [parentExists, parent_entryPath dir hplain]
    simp [isDirectory, hdir]
  rw [opens, hparent, hlocked, h.unlocked hash hplain]
  simp [isDirectory, hnone]

theorem write (hplain : Plain hash) (hpath : (t.fs.content path).isSome = true)
    (hcarries : t.fs.stat (entryPath dir hash) = false →
      t.fs.Carries path (entryPath dir hash)) :
    ∃ fs', writeEntry dir hash path t.fs = .ok (true, fs') ∧
      CacheEvent.Correct dir t.fs fs' ((CacheEvent.write hash path).save t.fs true t.saved)
        (.write hash path) ∧
      Kept dir ⟨fs', (CacheEvent.write hash path).save t.fs true t.saved⟩ ∧
      ∀ path', path' ≠ dir → path' ≠ entryPath dir hash →
        fs'.inode path' = t.fs.inode path' := by
  obtain ⟨hdir, hother, hlocked, hcarried⟩ := h.mkdir
  obtain ⟨c, hc⟩ := Option.isSome_iff_exists.mp hpath
  have hinode := content_eq_some.mp hc
  have hne : path ≠ dir := by
    rintro rfl
    rcases h.directory with ⟨hnone, -⟩ | hdirectory
    · rw [hnone] at hinode
      cases hinode
    · rw [hdirectory] at hinode
      cases hinode
  have hentry : ∀ hash, (t.fs.mkdir dir).2.inode (entryPath dir hash) =
      t.fs.inode (entryPath dir hash) := fun hash ↦ hother _ (entryPath_ne_dir dir hash)
  rw [writeEntry, hplain.assert, Lib.except_ok_bind]
  simp only
  cases hsaved : t.saved hash with
  | some c' =>
      have hold : (t.fs.mkdir dir).2.inode (entryPath dir hash) = some (.file c') := by
        rw [hentry, h.entry hash hplain, hsaved]
        rfl
      have hstat : (t.fs.mkdir dir).2.stat (entryPath dir hash) = true := by simp [stat, hold]
      have hsave : (CacheEvent.write hash path).save t.fs true t.saved = t.saved := by
        simp [CacheEvent.save, hsaved]
      rw [if_pos hstat, hsave]
      refine ⟨_, rfl, ⟨⟨c, hc⟩, c', content_eq_some.mpr hold, hsaved⟩, ⟨Or.inr hdir, ?_, ?_,
        fun _ _ _ ↦ hdir⟩, fun path' hpath' _ ↦ hother path' hpath'⟩
      · rw [hlocked]
        exact h.unlocked
      · intro hash' hplain'
        exact (hentry hash').trans (h.entry hash' hplain')
  | none =>
      have hnone : (t.fs.mkdir dir).2.inode (entryPath dir hash) = none := by
        rw [hentry, h.entry hash hplain, hsaved]
        rfl
      have hstat : ¬ (t.fs.mkdir dir).2.stat (entryPath dir hash) = true := by simp [stat, hnone]
      have hcontent : (t.fs.mkdir dir).2.content path = some c :=
        content_eq_some.mpr ((hother path hne).trans hinode)
      have hsource : path ≠ entryPath dir hash := by
        rintro rfl
        rw [content_eq_some, hnone] at hcontent
        cases hcontent
      have hsave : (CacheEvent.write hash path).save t.fs true t.saved =
          Function.update t.saved hash (some c) := by
        simp [CacheEvent.save, hsaved, hc]
      have hopens := h.opens_entry hplain hdir hlocked hnone
      have hwhole : (t.fs.mkdir dir).2.Carries path (entryPath dir hash) := by
        rw [Carries, hcontent, hcarried, ← hc]
        refine hcarries ?_
        rw [stat, ← hentry, hnone]
        rfl
      have hcopy := copy_inode hopens hsource hwhole
      rw [hcontent] at hcopy
      rw [if_neg hstat, hsave]
      have hmade : ((t.fs.mkdir dir).2.copy path (entryPath dir hash)).inode dir =
          some .directory := by
        rw [hcopy, if_neg (entryPath_ne_dir dir hash).symm, hdir]
      refine ⟨_, rfl, ⟨⟨c, hc⟩, c, ?_, by simp⟩, ⟨Or.inr hmade, ?_, ?_, fun _ _ _ ↦ hmade⟩,
        fun path' hpath' hentry' ↦ ?_⟩
      · rw [content_eq_some, hcopy, if_pos rfl]
        rfl
      · rw [copy_locked, hlocked]
        exact h.unlocked
      · intro hash' hplain'
        change ((t.fs.mkdir dir).2.copy path (entryPath dir hash)).inode _ = _
        rw [hcopy]
        by_cases heq : hash' = hash
        · subst heq
          simp
        · have hdiff : entryPath dir hash' ≠ entryPath dir hash :=
            fun hsame ↦ heq (entryPath_injective dir hsame)
          rw [if_neg hdiff, hentry, h.entry hash' hplain']
          simp [heq]
      · rw [hcopy, if_neg hentry', hother path' hpath']

theorem stat_entry (hplain : Plain hash) :
    t.fs.stat (entryPath dir hash) = (t.saved hash).isSome := by
  rw [stat, h.entry hash hplain, Option.isSome_map]

theorem read (hplain : Plain hash) (hpath : t.fs.stat (entryPath dir hash) = true →
      t.fs.opens path = true ∧ t.fs.Carries (entryPath dir hash) path ∧
        ∀ hash', Plain hash' → path ≠ entryPath dir hash') :
    ∃ fs', readEntry dir hash path t.fs = .ok ((t.saved hash).isSome, fs') ∧
      ((t.saved hash).isSome = true →
        CacheEvent.Correct dir t.fs fs' t.saved (.read hash path)) ∧
      Kept dir ⟨fs', t.saved⟩ ∧ ∀ path', fs'.content path' =
        if path' = path then (t.saved hash).or (t.fs.content path) else t.fs.content path' := by
  rw [readEntry, hplain.assert, Lib.except_ok_bind]
  cases hsaved : t.saved hash with
  | none =>
      have hstat : ¬ t.fs.stat (entryPath dir hash) = true := by simp [h.stat_entry hplain, hsaved]
      rw [if_neg hstat]
      refine ⟨t.fs, rfl, by simp, h, fun path' ↦ ?_⟩
      split
      · rename_i heq
        rw [heq, Option.none_or]
      · rfl
  | some c =>
      have hstat : t.fs.stat (entryPath dir hash) = true := by simp [h.stat_entry hplain, hsaved]
      obtain ⟨hopens, hcarries, houtside⟩ := hpath hstat
      have hentry : t.fs.inode (entryPath dir hash) = some (.file c) := by
        rw [h.entry hash hplain, hsaved]
        rfl
      have hcopy := copy_inode hopens (houtside hash hplain).symm hcarries
      rw [content_eq_some.mpr hentry] at hcopy
      have hmade := h.made hash hplain (by simp [hsaved])
      have hne : dir ≠ path := by
        rintro rfl
        simp [opens, isDirectory, hmade] at hopens
      have hmade' : (t.fs.copy (entryPath dir hash) path).inode dir = some .directory := by
        rw [hcopy, if_neg hne, hmade]
      rw [if_pos hstat]
      refine ⟨_, rfl, fun _ ↦ ⟨c, ?_, ?_⟩, ⟨Or.inr hmade', ?_, ?_, fun _ _ _ ↦ hmade'⟩,
        fun path' ↦ ?_⟩
      · rw [content_eq_some, hcopy, if_pos rfl]
        rfl
      · rw [content_eq_some, hcopy, if_neg (houtside hash hplain).symm, hentry]
      · rw [copy_locked]
        exact h.unlocked
      · intro hash' hplain'
        change (t.fs.copy (entryPath dir hash) path).inode _ = _
        rw [hcopy, if_neg (houtside hash' hplain').symm]
        exact h.entry hash' hplain'
      · split
        · rename_i heq
          rw [heq, Option.some_or, content_eq_some, hcopy, if_pos rfl]
          rfl
        · rename_i hother
          exact content_of_inode (by rw [hcopy, if_neg hother])

theorem del (hplain : Plain hash) :
    ∃ fs', delEntry dir hash t.fs = .ok (true, fs') ∧
      Kept dir ⟨fs', Function.update t.saved hash none⟩ ∧
      ∀ path', path' ≠ entryPath dir hash → fs'.inode path' = t.fs.inode path' := by
  rw [delEntry, hplain.assert, Lib.except_ok_bind]
  cases hsaved : t.saved hash with
  | none =>
      have hstat : ¬ t.fs.stat (entryPath dir hash) = true := by simp [h.stat_entry hplain, hsaved]
      have hsame : Function.update t.saved hash none = t.saved := by
        rw [← hsaved, Function.update_eq_self]
      rw [if_neg hstat, hsame]
      exact ⟨t.fs, rfl, h, fun _ _ ↦ rfl⟩
  | some c =>
      have hstat : t.fs.stat (entryPath dir hash) = true := by simp [h.stat_entry hplain, hsaved]
      have hmade := h.made hash hplain (by simp [hsaved])
      have hcontent : t.fs.content (entryPath dir hash) = some c := by
        rw [content_eq_some, h.entry hash hplain, hsaved]
        rfl
      have hparent : t.fs.parentExists (entryPath dir hash) = true := by
        rw [parentExists, parent_entryPath dir hplain]
        simp [isDirectory, hmade]
      have hunlink : t.fs.unlink (entryPath dir hash) =
          some (t.fs.set (entryPath dir hash) none) := by
        rw [unlink, hcontent, h.unlocked hash hplain, hparent]
        rfl
      have hmade' : (t.fs.set (entryPath dir hash) none).inode dir = some .directory := by
        rw [set_inode, if_neg (entryPath_ne_dir dir hash).symm, hmade]
      rw [if_pos hstat, hunlink]
      refine ⟨_, rfl, ⟨Or.inr hmade', h.unlocked, ?_, fun _ _ _ ↦ hmade'⟩, fun path' hpath' ↦ by
        rw [set_inode, if_neg hpath']⟩
      intro hash' hplain'
      change (t.fs.set (entryPath dir hash) none).inode _ = _
      rw [set_inode]
      by_cases heq : hash' = hash
      · subst heq
        simp
      · have hdiff : entryPath dir hash' ≠ entryPath dir hash :=
          fun hsame ↦ heq (entryPath_injective dir hsame)
        rw [if_neg hdiff, h.entry hash' hplain']
        simp [heq]

theorem modify {fs' : FileSystem} (hsafe : (CacheEvent.modify fs').Safe dir t.fs) :
    Kept dir ⟨fs', t.saved⟩ := by
  obtain ⟨⟨hinode, hlocked, hparent⟩, hentries⟩ := hsafe
  refine ⟨?_, fun hash hplain ↦ ?_, fun hash hplain ↦ ?_, fun hash hplain hsaved ↦ ?_⟩
  · change fs'.inode dir = none ∧ fs'.locked dir = false ∧ fs'.parentExists dir = true ∨
      fs'.inode dir = some .directory
    rw [hinode, hlocked, hparent]
    exact h.directory
  · exact (hentries hash hplain).2.trans (h.unlocked hash hplain)
  · exact (hentries hash hplain).1.trans (h.entry hash hplain)
  · exact hinode.trans (h.made hash hplain hsaved)

/-- What a safe event keeps. -/
theorem event {e : CacheEvent} (hsafe : e.Safe dir t.fs) :
    ∃ result fs', e.run dir t.fs = .ok (result, fs') ∧
      (result = true → e.Correct dir t.fs fs' (e.save t.fs result t.saved)) ∧
      Kept dir ⟨fs', e.save t.fs result t.saved⟩ := by
  cases e with
  | write hash path =>
      obtain ⟨fs', hrun, hcorrect, hkept, -⟩ := h.write hsafe.1 hsafe.2.1 hsafe.2.2
      exact ⟨true, fs', hrun, fun _ ↦ hcorrect, hkept⟩
  | read hash path =>
      obtain ⟨fs', hrun, hcorrect, hkept, -⟩ := h.read hsafe.1 hsafe.2
      exact ⟨_, fs', hrun, hcorrect, hkept⟩
  | del hash =>
      obtain ⟨fs', hrun, hkept, -⟩ := h.del hsafe
      exact ⟨true, fs', hrun, fun _ ↦ trivial, hkept⟩
  | modify fs' => exact ⟨true, fs', rfl, fun _ ↦ trivial, h.modify hsafe⟩

end Kept

theorem kept_of_run {dir : String} {fs : FileSystem} (hstart : Start dir fs)
    {events : List CacheEvent} {t : CacheHistory}
    (hrun : Lib.Trace (Step dir) ⟨fs, fun _ ↦ none⟩ events t) : Kept dir t := by
  refine hrun.invariant (fun _ t ↦ Kept dir t) hstart.kept ?_
  rintro _ t e ⟨fs', saved'⟩ hkept ⟨hsafe, result, hevent, hsaved⟩
  obtain ⟨result', fs'', hevent', -, hkept'⟩ := hkept.event hsafe
  obtain ⟨rfl, rfl⟩ := Prod.mk.inj (Except.ok.inj (hevent'.symm.trans hevent))
  obtain rfl : saved' = _ := hsaved
  exact hkept'

/-- After any safe events, a further one returns, and a call that returns true has
done what it says. -/
theorem correct_of_run {dir : String} {fs : FileSystem} (hstart : Start dir fs)
    {events : List CacheEvent} {t : CacheHistory}
    (hrun : Lib.Trace (Step dir) ⟨fs, fun _ ↦ none⟩ events t) {e : CacheEvent}
    (hsafe : e.Safe dir t.fs) :
    ∃ result fs', e.run dir t.fs = .ok (result, fs') ∧
      (result = true → e.Correct dir t.fs fs' (e.save t.fs result t.saved)) := by
  obtain ⟨result, fs', hevent, hcorrect, -⟩ := (kept_of_run hstart hrun).event hsafe
  exact ⟨result, fs', hevent, hcorrect⟩

/-! ## The disk of the daemon -/

/-- The disk `w`, which keeps the entries apart from the files. -/
structure Abstracts (dir : String) (fs : FileSystem) (w : Disk) : Prop where
  entries : ∀ hash, Plain hash → w.entries hash = fs.content (entryPath dir hash)
  files : ∀ path, path ≠ dir → (∀ hash, Plain hash → path ≠ entryPath dir hash) →
    w.files path = fs.content path

namespace Kept

variable {dir hash path : String} {t : CacheHistory} (h : Kept dir t)
include h

theorem content_entry (hplain : Plain hash) :
    t.fs.content (entryPath dir hash) = t.saved hash := by
  have hentry := h.entry hash hplain
  cases hsaved : t.saved hash with
  | none =>
      rw [hsaved] at hentry
      rw [content, hentry]
      rfl
  | some c =>
      rw [hsaved] at hentry
      exact content_eq_some.mpr hentry

theorem content_dir : t.fs.content dir = none := by
  rw [content]
  rcases h.directory with ⟨hnone, -⟩ | hdir
  · rw [hnone]
  · rw [hdir]

variable {w : Disk} (hw : Abstracts dir t.fs w)
include hw

theorem entries_eq (hplain : Plain hash) : w.entries hash = t.saved hash :=
  (hw.entries hash hplain).trans (h.content_entry hplain)

/-- A file that exists is saved on the disk as well. -/
theorem simulates_write (hplain : Plain hash) (hpath : (t.fs.content path).isSome = true)
    (hcarries : t.fs.stat (entryPath dir hash) = false →
      t.fs.Carries path (entryPath dir hash))
    (houtside : ∀ hash', Plain hash' → path ≠ entryPath dir hash') :
    ∃ fs' w', writeEntry dir hash path t.fs = .ok (true, fs') ∧
      CacheFS.writeEntry hash path w = .ok (true, w') ∧ Abstracts dir fs' w' := by
  obtain ⟨fs', hrun, -, hkept, hframe⟩ := h.write hplain hpath hcarries
  obtain ⟨c, hc⟩ := Option.isSome_iff_exists.mp hpath
  have hne : path ≠ dir := by
    rintro rfl
    rw [h.content_dir] at hc
    cases hc
  have hfile : w.content path = c := by
    rw [Disk.content, hw.files path hne houtside, hc]
    rfl
  have hfiles : ∀ path', path' ≠ dir → (∀ hash', Plain hash' → path' ≠ entryPath dir hash') →
      w.files path' = fs'.content path' := by
    intro path' hpath' hout
    rw [content_of_inode (hframe path' hpath' (hout hash hplain))]
    exact hw.files path' hpath' hout
  have hentry := h.entries_eq hw hplain
  cases hsaved : t.saved hash with
  | some c' =>
      rw [hsaved] at hentry
      refine ⟨fs', w, hrun, ?_, fun hash' hplain' ↦ ?_, hfiles⟩
      · rw [CacheFS.writeEntry, hplain.assert, Lib.except_ok_bind, hentry]
        rfl
      · rw [hkept.content_entry hplain', h.entries_eq hw hplain']
        simp [CacheEvent.save, hsaved]
  | none =>
      rw [hsaved] at hentry
      refine ⟨fs', w.addEntry hash c, hrun, ?_, fun hash' hplain' ↦ ?_, hfiles⟩
      · rw [CacheFS.writeEntry, hplain.assert, Lib.except_ok_bind, hentry, hfile]
        rfl
      · rw [hkept.content_entry hplain', Disk.addEntry_entries, h.entries_eq hw hplain']
        simp [CacheEvent.save, hsaved, hc, Function.update_apply]

theorem simulates_read (hplain : Plain hash)
    (hpath : t.fs.stat (entryPath dir hash) = true →
      t.fs.opens path = true ∧ t.fs.Carries (entryPath dir hash) path ∧
        ∀ hash', Plain hash' → path ≠ entryPath dir hash') :
    ∃ result fs' w', readEntry dir hash path t.fs = .ok (result, fs') ∧
      CacheFS.readEntry hash path w = .ok (result, w') ∧ Abstracts dir fs' w' := by
  obtain ⟨fs', hrun, -, hkept, hframe⟩ := h.read hplain hpath
  have hentries : ∀ hash', Plain hash' → w.entries hash' = fs'.content (entryPath dir hash') := by
    intro hash' hplain'
    rw [hkept.content_entry hplain', h.entries_eq hw hplain']
  have hentry := h.entries_eq hw hplain
  cases hsaved : t.saved hash with
  | some c =>
      rw [hsaved] at hentry hframe
      refine ⟨_, fs', w.write path c, hrun, ?_, hentries, fun path' hpath' hout ↦ ?_⟩
      · rw [CacheFS.readEntry, hplain.assert, Lib.except_ok_bind, hentry, hsaved]
        rfl
      · rw [hframe, Option.some_or, Disk.write_files, hw.files path' hpath' hout]
  | none =>
      rw [hsaved] at hentry hframe
      refine ⟨_, fs', w, hrun, ?_, hentries, fun path' hpath' hout ↦ ?_⟩
      · rw [CacheFS.readEntry, hplain.assert, Lib.except_ok_bind, hentry, hsaved]
        rfl
      · rw [hframe, Option.none_or, hw.files path' hpath' hout]
        split
        · rename_i heq
          rw [heq]
        · rfl

theorem simulates_del (hplain : Plain hash) :
    ∃ fs' w', delEntry dir hash t.fs = .ok (true, fs') ∧
      CacheFS.delEntry hash w = .ok (true, w') ∧ Abstracts dir fs' w' := by
  obtain ⟨fs', hrun, hkept, hframe⟩ := h.del hplain
  refine ⟨fs', w.removeEntry hash, hrun, ?_, fun hash' hplain' ↦ ?_, fun path' hpath' hout ↦ ?_⟩
  · rw [CacheFS.delEntry, hplain.assert]
    rfl
  · rw [hkept.content_entry hplain']
    simp only [Disk.removeEntry, Function.update_apply]
    rw [h.entries_eq hw hplain']
  · rw [content_of_inode (hframe path' (hout hash hplain))]
    exact hw.files path' hpath' hout

end Kept

/-- A project with one file, on a disk that has just enough room for its copies. -/
def onlyFile (path content : String) : FileSystem where
  inode path' := if path' = path then some (.file content) else none
  locked _ := false
  carried _ _ := content.length

theorem start_onlyFile : Start "cache" (onlyFile "a.o" "x") where
  directory := Or.inl ⟨by decide, rfl, by decide⟩
  unlocked _ _ := rfl
  empty hash _ := by
    have hne : entryPath "cache" hash ≠ "a.o" := by
      intro heq
      have hlength := congrArg (fun s ↦ s.toList.length) heq
      simp [entryPath] at hlength
    change (if entryPath "cache" hash = "a.o" then some (Inode.file "x") else none) = none
    rw [if_neg hne]

/-- A file is saved, and restored under another name. -/
theorem correct_of_saved_file : ∃ t,
    Lib.Trace (Step "cache") ⟨onlyFile "a.o" "x", fun _ ↦ none⟩ [.write "00ff" "a.o"] t ∧
    ∃ result fs', (CacheEvent.read "00ff" "b.o").run "cache" t.fs = .ok (result, fs') ∧
      (result = true → ∃ c, fs'.content "b.o" = some c ∧
        fs'.content (entryPath "cache" "00ff") = some c) := by
  have hplain : Plain "00ff" := by decide
  have hstep : Step "cache" ⟨onlyFile "a.o" "x", fun _ ↦ none⟩ (.write "00ff" "a.o") ⟨_, _⟩ :=
    ⟨⟨hplain, by decide, fun _ ↦ by decide⟩, true, rfl, rfl⟩
  refine ⟨_, .single hstep, correct_of_run start_onlyFile (.single hstep)
    (e := .read "00ff" "b.o") ⟨hplain, fun _ ↦ ⟨?_, ?_, fun hash' _ heq ↦ ?_⟩⟩⟩
  · decide
  · decide
  · have hlength := congrArg (fun s ↦ s.toList.length) heq
    simp [entryPath] at hlength

/-- A file that does not exist is saved, too. -/
theorem not_correct_missing_file : ¬ ∀ (dir : String) (fs : FileSystem) (e : CacheEvent),
    Start dir fs → ∀ fs', e.run dir fs = .ok (true, fs') →
      e.Correct dir fs fs' (e.save fs true fun _ ↦ none) := by
  intro hclaim
  obtain ⟨⟨c, hc⟩, -⟩ :=
    hclaim "cache" (onlyFile "a.o" "x") (.write "00ff" "b.o") start_onlyFile _ rfl
  cases hc

end CacheHistory

end Falcon
