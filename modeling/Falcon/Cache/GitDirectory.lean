import Falcon.Lib.Fiber
import Falcon.Graph.Core

/-!
# The directory of cache entries of a git repository

`CacheGitDirectory` remembers, for each node and each rule, the entry it had
last under each git reference.  An entry counts the places that point to it and
is deleted with the last of them.
-/

namespace Falcon

/-- The address of a `GitCacheEntry` object. -/
abbrev EntryId := ℕ

structure GitCacheEntry where
  hash : String
  numGitRefs : ℕ
  deriving DecidableEq, Repr

abbrev RefMap := String → Option EntryId

/-- What libgit2 says about `HEAD`. -/
inductive Head where
  | unreadable
  | detached
  | noReference
  | reference (name : String)
  deriving DecidableEq, Repr

/-- A node or a rule that is not in its map has the empty `RefMap`. -/
structure CacheGitDirectory where
  currentGitRef : String
  gitNodeMap : NodeId → RefMap
  gitRuleMap : RuleId → RefMap
  gitHashMap : String → Option EntryId
  allocated : Finset EntryId
  entry : EntryId → GitCacheEntry

/-- `new GitCacheEntry` returns an address not in use. -/
structure EntryAllocator where
  newEntry : Finset EntryId → EntryId
  newEntry_fresh : ∀ used, newEntry used ∉ used

/-- The least address above those in use. -/
def EntryAllocator.nextEntry : EntryAllocator where
  newEntry used := used.sup id + 1
  newEntry_fresh := fresh_above

/-- The keys of `gitNodeMap_` and of `gitRuleMap_`. -/
inductive Owner where
  | node (n : NodeId)
  | rule (r : RuleId)
  deriving DecidableEq, Repr

namespace CacheGitDirectory

def create : CacheGitDirectory :=
  ⟨"", fun _ _ ↦ none, fun _ _ ↦ none, fun _ ↦ none, ∅, fun _ ↦ ⟨"", 0⟩⟩

def updateRef (head : Head) (d : CacheGitDirectory) : CacheGitDirectory :=
  { d with currentGitRef := match head with
      | .reference name => name
      | _ => "" }

def isInRef (d : CacheGitDirectory) : Bool := d.currentGitRef ≠ ""

def setEntry (d : CacheGitDirectory) (e : EntryId) (x : GitCacheEntry) : CacheGitDirectory :=
  { d with entry := Function.update d.entry e x }

/-- The entry of the hash, which is created if there is none. -/
def findEntry (A : EntryAllocator) (hash : String) (d : CacheGitDirectory) :
    EntryId × CacheGitDirectory :=
  match d.gitHashMap hash with
  | some e => (e, d)
  | none =>
    let e := A.newEntry d.allocated
    (e, { d with
      gitHashMap := Function.update d.gitHashMap hash (some e)
      allocated := insert e d.allocated
      entry := Function.update d.entry e ⟨hash, 0⟩ })

/-- `prevEntry` loses a reference to `entry`.  The result holds the hash handed
to `delEntry`, if any. -/
def releaseEntry (prevEntry entry : EntryId) (d : CacheGitDirectory) :
    Outcome (Option String × CacheGitDirectory) := do
  let x := d.entry prevEntry
  assert (0 < x.numGitRefs) .entryReferenced
  let d := d.setEntry prevEntry { x with numGitRefs := x.numGitRefs - 1 }
  if x.numGitRefs - 1 = 0 && prevEntry ≠ entry then
    pure (some x.hash, { d with
      gitHashMap := Function.update d.gitHashMap x.hash none
      allocated := d.allocated.erase prevEntry })
  else pure (none, d)

/-- Drop the entry that was linked to the current reference, if there is one. -/
def releasePrevious (refMap : RefMap) (entry : EntryId) (d : CacheGitDirectory) :
    Outcome (Option String × CacheGitDirectory) :=
  match refMap d.currentGitRef with
  | none => pure (none, d)
  | some prevEntry => d.releaseEntry prevEntry entry

def registerEntryInRefMap (A : EntryAllocator) (hash : String) (refMap : RefMap)
    (d : CacheGitDirectory) : Outcome (Option String × RefMap × CacheGitDirectory) := do
  assert d.isInRef .inRef
  let (entry, d) := d.findEntry A hash
  let (deleted, d) ← d.releasePrevious refMap entry
  let x := d.entry entry
  pure (deleted, Function.update refMap d.currentGitRef (some entry),
    d.setEntry entry { x with numGitRefs := x.numGitRefs + 1 })

def registerNode (A : EntryAllocator) (hash : String) (n : NodeId) (d : CacheGitDirectory) :
    Outcome (Option String × CacheGitDirectory) := do
  let (deleted, refMap, d) ← d.registerEntryInRefMap A hash (d.gitNodeMap n)
  pure (deleted, { d with gitNodeMap := Function.update d.gitNodeMap n refMap })

def registerRule (A : EntryAllocator) (hash : String) (r : RuleId) (d : CacheGitDirectory) :
    Outcome (Option String × CacheGitDirectory) := do
  let (deleted, refMap, d) ← d.registerEntryInRefMap A hash (d.gitRuleMap r)
  pure (deleted, { d with gitRuleMap := Function.update d.gitRuleMap r refMap })

def register (A : EntryAllocator) (hash : String) : Owner → CacheGitDirectory →
    Outcome (Option String × CacheGitDirectory)
  | .node n => registerNode A hash n
  | .rule r => registerRule A hash r

/-- The pointer stored for an owner and a reference. -/
def refAt (d : CacheGitDirectory) : Owner × String → Option EntryId
  | (.node n, ref) => d.gitNodeMap n ref
  | (.rule r, ref) => d.gitRuleMap r ref

/-- The hash last registered for an owner and a reference. -/
def versionAt (d : CacheGitDirectory) (p : Owner × String) : Option String :=
  (d.refAt p).map fun e ↦ (d.entry e).hash

/-! ## The assertions -/

section Assertions

variable {A : EntryAllocator} {d d' : CacheGitDirectory} {hash : String} {x : Owner}

theorem findEntry_currentGitRef : (d.findEntry A hash).2.currentGitRef = d.currentGitRef := by
  rw [findEntry]
  split <;> rfl

theorem releasePrevious_error {refMap : RefMap} {e : EntryId} {fault : Fault}
    (h : d.releasePrevious refMap e = .error fault) : fault = .assertion .entryReferenced := by
  rw [releasePrevious] at h
  split at h
  · cases h
  · rcases Lib.bind_eq_error.mp h with h | ⟨_, -, h⟩
    · exact (assert_eq_error.mp h).2
    · split at h <;> cases h

theorem releasePrevious_currentGitRef {refMap : RefMap} {e : EntryId} {deleted : Option String}
    (h : d.releasePrevious refMap e = .ok (deleted, d')) : d'.currentGitRef = d.currentGitRef := by
  rw [releasePrevious] at h
  split at h
  · obtain ⟨-, rfl⟩ := Prod.mk.inj (Except.ok.inj h)
    rfl
  · obtain ⟨_, -, h⟩ := Lib.bind_eq_ok.mp h
    split at h
    · obtain ⟨-, rfl⟩ := Prod.mk.inj (Except.ok.inj h)
      rfl
    · obtain ⟨-, rfl⟩ := Prod.mk.inj (Except.ok.inj h)
      rfl

theorem registerEntryInRefMap_eq_inRef {refMap : RefMap} :
    d.registerEntryInRefMap A hash refMap = .error (.assertion .inRef) ↔ d.isInRef = false := by
  rw [registerEntryInRefMap, Lib.bind_eq_error, assert_eq_error]
  refine Iff.trans (or_iff_left ?_) (and_iff_left rfl)
  rintro ⟨_, -, h⟩
  rcases Lib.bind_eq_error.mp h with h | ⟨_, -, h⟩
  · cases releasePrevious_error h
  · cases h

theorem registerEntryInRefMap_isInRef {refMap refMap' : RefMap} {deleted : Option String}
    (h : d.registerEntryInRefMap A hash refMap = .ok (deleted, refMap', d')) :
    d.isInRef = true ∧ d'.currentGitRef = d.currentGitRef := by
  obtain ⟨_, hin, h⟩ := Lib.bind_eq_ok.mp h
  refine ⟨assert_eq_ok.mp hin, ?_⟩
  obtain ⟨⟨_, d₁⟩, hrelease, h⟩ := Lib.bind_eq_ok.mp h
  obtain ⟨-, h⟩ := Prod.mk.inj (Except.ok.inj h)
  obtain ⟨-, rfl⟩ := Prod.mk.inj h
  exact (releasePrevious_currentGitRef hrelease).trans findEntry_currentGitRef

theorem register_eq_inRef :
    register A hash x d = .error (.assertion .inRef) ↔ d.isInRef = false := by
  cases x with
  | node n =>
      rw [register, registerNode, Lib.bind_eq_error]
      refine Iff.trans (or_iff_left ?_) registerEntryInRefMap_eq_inRef
      rintro ⟨_, -, h⟩
      cases h
  | rule r =>
      rw [register, registerRule, Lib.bind_eq_error]
      refine Iff.trans (or_iff_left ?_) registerEntryInRefMap_eq_inRef
      rintro ⟨_, -, h⟩
      cases h

theorem register_isInRef {deleted : Option String} (h : register A hash x d = .ok (deleted, d')) :
    d.isInRef = true ∧ d'.currentGitRef = d.currentGitRef := by
  cases x with
  | node n =>
      obtain ⟨⟨_, _, d₁⟩, hrun, h⟩ := Lib.bind_eq_ok.mp h
      obtain ⟨-, rfl⟩ := Prod.mk.inj (Except.ok.inj h)
      have hin := registerEntryInRefMap_isInRef hrun
      exact hin
  | rule r =>
      obtain ⟨⟨_, _, d₁⟩, hrun, h⟩ := Lib.bind_eq_ok.mp h
      obtain ⟨-, rfl⟩ := Prod.mk.inj (Except.ok.inj h)
      have hin := registerEntryInRefMap_isInRef hrun
      exact hin

end Assertions

/-! ## The counters -/

/-- The entries count the references `f`; only the entries in `free` may have
none. -/
structure Counts (f : Owner × String → Option EntryId) (free : Set EntryId)
    (d : CacheGitDirectory) : Prop where
  finite : ∀ e, (Lib.fiber f (some e)).Finite
  hashed : ∀ h e, d.gitHashMap h = some e → e ∈ d.allocated ∧ (d.entry e).hash = h
  registered : ∀ p e, f p = some e → d.gitHashMap (d.entry e).hash = some e
  counted : ∀ h e, d.gitHashMap h = some e → (d.entry e).numGitRefs = (Lib.fiber f (some e)).ncard
  positive : ∀ h e, d.gitHashMap h = some e → e ∉ free → 0 < (d.entry e).numGitRefs

def Exact (d : CacheGitDirectory) : Prop := d.Counts d.refAt ∅

theorem exact_create : create.Exact := by
  refine ⟨fun e ↦ ?_, ?_, ?_, ?_, ?_⟩
  · refine Set.Finite.subset Set.finite_empty ?_
    rintro ⟨x | x, ref⟩ hp <;> cases hp
  · intro h e he
    cases he
  · rintro ⟨x | x, ref⟩ e hp <;> cases hp
  · intro h e he
    cases he
  · intro h e he
    cases he

theorem Exact.updateRef {d : CacheGitDirectory} (h : d.Exact) (head : Head) :
    (d.updateRef head).Exact :=
  ⟨h.finite, h.hashed, h.registered, h.counted, h.positive⟩

/-- The two directories differ in their entries and in the map of hashes. -/
def SameRefs (d d' : CacheGitDirectory) : Prop :=
  d'.currentGitRef = d.currentGitRef ∧ d'.gitNodeMap = d.gitNodeMap ∧ d'.gitRuleMap = d.gitRuleMap

variable {A : EntryAllocator} {d d' : CacheGitDirectory} {f : Owner × String → Option EntryId}
  {free : Set EntryId} {hash : String} {e : EntryId} {p : Owner × String}

namespace Counts

/-- A registered entry is the one of its hash. -/
theorem entry_inj (h : d.Counts f free) {e' : EntryId} {k k' : String}
    (he : d.gitHashMap k = some e) (he' : d.gitHashMap k' = some e') :
    (d.entry e).hash = (d.entry e').hash ↔ e = e' := by
  refine ⟨fun heq ↦ ?_, fun heq ↦ heq ▸ rfl⟩
  rw [(h.hashed k e he).2, (h.hashed k' e' he').2] at heq
  subst heq
  exact Option.some.inj (he.symm.trans he')

theorem findEntry (h : d.Counts f ∅) (hrun : d.findEntry A hash = (e, d')) :
    d'.Counts f {e} ∧ d'.gitHashMap hash = some e ∧ d.SameRefs d' ∧
      ∀ p x, f p = some x → (d'.entry x).hash = (d.entry x).hash := by
  rw [CacheGitDirectory.findEntry] at hrun
  cases hfind : d.gitHashMap hash with
  | some e' =>
      simp only [hfind, Prod.mk.injEq] at hrun
      obtain ⟨rfl, rfl⟩ := hrun
      refine ⟨⟨h.finite, h.hashed, h.registered, h.counted, fun k x hx _ ↦ ?_⟩, hfind,
        ⟨rfl, rfl, rfl⟩, fun _ _ _ ↦ rfl⟩
      exact h.positive k x hx (Set.notMem_empty x)
  | none =>
      simp only [hfind, Prod.mk.injEq] at hrun
      obtain ⟨rfl, rfl⟩ := hrun
      have hfresh := A.newEntry_fresh d.allocated
      have hold : ∀ k x, d.gitHashMap k = some x → x ≠ A.newEntry d.allocated := by
        rintro k x hx rfl
        exact hfresh (h.hashed k _ hx).1
      have href : ∀ p x, f p = some x → x ≠ A.newEntry d.allocated :=
        fun p x hx ↦ hold _ x (h.registered p x hx)
      refine ⟨⟨h.finite, ?_, ?_, ?_, ?_⟩, Function.update_self .., ⟨rfl, rfl, rfl⟩, ?_⟩
      · intro k x hx
        by_cases hk : k = hash
        · subst hk
          simp only [Function.update_self, Option.some.injEq] at hx
          subst hx
          simp
        · simp only [Function.update_of_ne hk] at hx
          have hne := hold k x hx
          simp [hne, h.hashed k x hx]
      · intro p x hx
        have hne := href p x hx
        have hreg := h.registered p x hx
        simp only [Function.update_of_ne hne]
        by_cases hk : (d.entry x).hash = hash
        · rw [hk, hfind] at hreg
          cases hreg
        · simpa [Function.update_of_ne hk] using hreg
      · intro k x hx
        by_cases hk : k = hash
        · subst hk
          simp only [Function.update_self, Option.some.injEq] at hx
          subst hx
          simp only [Function.update_self]
          refine ((Set.ncard_eq_zero (h.finite _)).mpr ?_).symm
          exact Set.eq_empty_iff_forall_notMem.mpr fun p hp ↦ href p _ hp rfl
        · simp only [Function.update_of_ne hk] at hx
          simp only [Function.update_of_ne (hold k x hx)]
          exact h.counted k x hx
      · intro k x hx hne
        by_cases hk : k = hash
        · subst hk
          simp only [Function.update_self, Option.some.injEq] at hx
          exact absurd hx.symm hne
        · simp only [Function.update_of_ne hk] at hx
          simp only [Function.update_of_ne (hold k x hx)]
          exact h.positive k x hx (Set.notMem_empty x)
      · intro p x hx
        simp only [Function.update_of_ne (href p x hx)]

/-- One entry gets another counter, one key another reference. -/
theorem setCounter (h : d.Counts f free) {b : Option EntryId} {c : ℕ}
    (hb : ∀ x, b = some x → d.gitHashMap (d.entry x).hash = some x)
    (hc : c = (Lib.fiber (Function.update f p b) (some e)).ncard)
    (hsame : ∀ x, x ≠ e → Lib.fiber (Function.update f p b) (some x) = Lib.fiber f (some x)) :
    (d.setEntry e { d.entry e with numGitRefs := c }).Counts (Function.update f p b)
      (insert e free) := by
  refine ⟨fun x ↦ Lib.finite_fiber_update (h.finite x) p b, ?_, ?_, ?_, ?_⟩
  · intro k x hx
    refine ⟨(h.hashed k x hx).1, ?_⟩
    by_cases hne : x = e
    · subst hne
      simp only [setEntry, Function.update_self]
      exact (h.hashed k x hx).2
    · simp only [setEntry, Function.update_of_ne hne]
      exact (h.hashed k x hx).2
  · intro q x hq
    have hreg : d.gitHashMap (d.entry x).hash = some x := by
      by_cases hqp : q = p
      · subst hqp
        rw [Function.update_self] at hq
        exact hb x hq
      · rw [Function.update_of_ne hqp] at hq
        exact h.registered q x hq
    by_cases hne : x = e
    · subst hne
      simp only [setEntry, Function.update_self]
      exact hreg
    · simp only [setEntry, Function.update_of_ne hne]
      exact hreg
  · intro k x hx
    by_cases hne : x = e
    · subst hne
      simp only [setEntry, Function.update_self]
      exact hc
    · simp only [setEntry, Function.update_of_ne hne, hsame x hne]
      exact h.counted k x hx
  · intro k x hx hfree
    obtain ⟨hne, hfree⟩ := not_or.mp hfree
    simp only [setEntry, Function.update_of_ne hne]
    exact h.positive k x hx hfree

/-- An entry without references is deleted. -/
theorem erase (h : d.Counts f free) {k : String} (he : d.gitHashMap k = some e)
    (hzero : ∀ q, f q ≠ some e) :
    Counts f (free \ {e}) { d with
      gitHashMap := Function.update d.gitHashMap k none
      allocated := d.allocated.erase e } := by
  have hkey : ∀ k' x, Function.update d.gitHashMap k none k' = some x →
      d.gitHashMap k' = some x ∧ x ≠ e := by
    intro k' x hx
    by_cases hk : k' = k
    · subst hk
      rw [Function.update_self] at hx
      cases hx
    · rw [Function.update_of_ne hk] at hx
      refine ⟨hx, ?_⟩
      rintro rfl
      exact hk ((h.hashed k' x hx).2.symm.trans (h.hashed k x he).2)
  refine ⟨h.finite, ?_, ?_, ?_, ?_⟩
  · intro k' x hx
    obtain ⟨hx, hne⟩ := hkey k' x hx
    exact ⟨Finset.mem_erase.mpr ⟨hne, (h.hashed k' x hx).1⟩, (h.hashed k' x hx).2⟩
  · intro q x hq
    have hreg := h.registered q x hq
    have hne : (d.entry x).hash ≠ k := by
      rintro rfl
      obtain rfl := Option.some.inj (hreg.symm.trans he)
      exact hzero q hq
    simp only [Function.update_of_ne hne]
    exact hreg
  · intro k' x hx
    exact h.counted k' x (hkey k' x hx).1
  · intro k' x hx hfree
    obtain ⟨hx, hne⟩ := hkey k' x hx
    exact h.positive k' x hx fun hmem ↦ hfree ⟨hmem, hne⟩

/-- The reference at `p` is dropped. -/
theorem releaseEntry {prev : EntryId} (h : d.Counts f {e}) (he : d.gitHashMap hash = some e)
    (hp : f p = some prev) : ∃ deleted d', d.releaseEntry prev e = .ok (deleted, d') ∧
      d'.Counts (Function.update f p none) {e} ∧ d'.gitHashMap hash = some e ∧ d.SameRefs d' ∧
      (∀ x, (d'.entry x).hash = (d.entry x).hash) ∧ ∀ g, deleted = some g ↔
        (d.entry prev).hash = g ∧ prev ≠ e ∧ ∀ q, f q = some prev → q = p := by
  have hreg := h.registered p prev hp
  have hcount := h.counted _ prev hreg
  have hpos : 0 < (d.entry prev).numGitRefs := by
    rw [hcount]
    exact (Set.ncard_pos (h.finite prev)).mpr ⟨p, hp⟩
  have hlast := Lib.ncard_fiber_eq_one (h.finite prev) hp
  have haway : (Lib.fiber (Function.update f p none) (some prev)).ncard =
      (Lib.fiber f (some prev)).ncard - 1 := Lib.ncard_fiber_update_away (by simp) hp
  have hdrop := h.setCounter (e := prev) (p := p) (b := none)
    (c := (d.entry prev).numGitRefs - 1) (by simp) (by rw [hcount, haway]) fun x hx ↦
      Lib.fiber_update_other (by simp) (by rw [hp]; exact fun heq ↦ hx (Option.some.inj heq).symm)
  have hhash : ∀ x, ((d.setEntry prev { d.entry prev with
      numGitRefs := (d.entry prev).numGitRefs - 1 }).entry x).hash = (d.entry x).hash := by
    intro x
    by_cases hx : x = prev
    · subst hx
      simp only [setEntry, Function.update_self]
    · simp only [setEntry, Function.update_of_ne hx]
  rw [CacheGitDirectory.releaseEntry]
  simp only [hpos, decide_true, assert_true, Lib.except_ok_bind]
  by_cases hdel : (d.entry prev).numGitRefs - 1 = 0 ∧ prev ≠ e
  · have hone : (Lib.fiber f (some prev)).ncard = 1 := by omega
    rw [if_pos (by simpa using hdel)]
    refine ⟨_, _, rfl, ?_, ?_, ⟨rfl, rfl, rfl⟩, hhash, ?_⟩
    · have hfree : insert prev {e} \ {prev} = ({e} : Set EntryId) := by
        rw [Set.insert_sdiff_of_mem _ (Set.mem_singleton prev)]
        exact Set.sdiff_singleton_eq_self fun heq ↦ hdel.2 heq
      rw [← hfree]
      refine hdrop.erase hreg fun q hq ↦ ?_
      by_cases hqp : q = p
      · rw [hqp, Function.update_self] at hq
        cases hq
      · rw [Function.update_of_ne hqp] at hq
        exact hqp (hlast.mp hone q hq)
    · refine Eq.trans (Function.update_of_ne ?_ _ _) he
      rintro rfl
      exact hdel.2 (Option.some.inj (hreg.symm.trans he))
    · intro g
      rw [Option.some.injEq]
      exact ⟨fun hg ↦ ⟨hg, hdel.2, hlast.mp hone⟩, fun hg ↦ hg.1⟩
  · rw [if_neg (by simpa using hdel)]
    refine ⟨_, _, rfl, ⟨hdrop.finite, hdrop.hashed, hdrop.registered, hdrop.counted, ?_⟩, he,
      ⟨rfl, rfl, rfl⟩, hhash, ?_⟩
    · intro k x hx hfree
      by_cases hne : x = prev
      · subst hne
        simp only [setEntry, Function.update_self]
        exact Nat.pos_of_ne_zero fun hzero ↦ hdel ⟨hzero, hfree⟩
      · exact hdrop.positive k x hx (not_or.mpr ⟨hne, hfree⟩)
    · intro g
      constructor
      · intro hg
        cases hg
      · rintro ⟨-, hne, hall⟩
        refine absurd ⟨?_, hne⟩ hdel
        rw [hcount, hlast.mpr hall]

/-- The free entry gets the reference at `p`. -/
theorem pointTo (h : d.Counts f {e}) (he : d.gitHashMap hash = some e) (hp : f p = none) :
    (d.setEntry e { d.entry e with numGitRefs := (d.entry e).numGitRefs + 1 }).Counts
      (Function.update f p (some e)) ∅ := by
  have hset := h.setCounter (e := e) (p := p) (b := some e) (c := (d.entry e).numGitRefs + 1)
    (by
      rintro x hx
      obtain rfl := Option.some.inj hx
      rw [(h.hashed hash _ he).2]
      exact he)
    (by rw [h.counted hash e he, Lib.ncard_fiber_update_self (h.finite e) (by simp [hp])])
    fun x hx ↦ Lib.fiber_update_other (fun heq ↦ hx (Option.some.inj heq).symm) (by simp [hp])
  refine ⟨hset.finite, hset.hashed, hset.registered, hset.counted, fun k x hx _ ↦ ?_⟩
  by_cases hne : x = e
  · subst hne
    simp only [setEntry, Function.update_self]
    omega
  · exact hset.positive k x hx (by simp [hne])

end Counts

theorem registerEntryInRefMap_spec (A : EntryAllocator) (hash : String) (h : d.Exact)
    (hin : d.isInRef = true) {x : Owner} {refMap : RefMap}
    (hmap : refMap d.currentGitRef = d.refAt (x, d.currentGitRef)) :
    ∃ deleted e d', d.registerEntryInRefMap A hash refMap =
        .ok (deleted, Function.update refMap d.currentGitRef (some e), d') ∧
      d'.Counts (Function.update d.refAt (x, d.currentGitRef) (some e)) ∅ ∧ d.SameRefs d' ∧
      d'.gitHashMap hash = some e ∧
      (∀ q y, d.refAt q = some y → (d'.entry y).hash = (d.entry y).hash) ∧
      ∀ g, deleted = some g ↔ d.versionAt (x, d.currentGitRef) = some g ∧ g ≠ hash ∧
        ∀ q, d.versionAt q = some g → q = (x, d.currentGitRef) := by
  obtain ⟨e, d₁, hfound⟩ : ∃ e d₁, d.findEntry A hash = (e, d₁) := ⟨_, _, rfl⟩
  obtain ⟨hcounts, he, hsame, hhash⟩ := h.findEntry hfound
  obtain ⟨hcur, hnode, hrule⟩ := hsame
  rw [registerEntryInRefMap]
  simp only [hin, assert_true, Lib.except_ok_bind, hfound, releasePrevious, hcur, hmap]
  cases hprev : d.refAt (x, d.currentGitRef) with
  | none =>
      simp only [Lib.except_pure, Lib.except_ok_bind, hcur]
      refine ⟨none, e, _, rfl, hcounts.pointTo he hprev, ⟨hcur, hnode, hrule⟩, he, ?_, ?_⟩
      · intro q y hq
        rw [← hhash q y hq]
        by_cases hy : y = e
        · subst hy
          simp only [setEntry, Function.update_self]
        · simp only [setEntry, Function.update_of_ne hy]
      · intro g
        simp [versionAt, hprev]
  | some prev =>
      obtain ⟨deleted, d₂, hrun, hcounts₂, he₂, ⟨hcur₂, hnode₂, hrule₂⟩, hhash₂, hdel⟩ :=
        hcounts.releaseEntry he hprev
      have hpoint := hcounts₂.pointTo he₂ (Function.update_self ..)
      rw [Function.update_idem] at hpoint
      simp only [hrun, Lib.except_pure, Lib.except_ok_bind, hcur₂, hcur]
      refine ⟨deleted, e, _, rfl, hpoint,
        ⟨hcur₂.trans hcur, hnode₂.trans hnode, hrule₂.trans hrule⟩, he₂, ?_, ?_⟩
      · intro q y hq
        rw [← hhash q y hq, ← hhash₂ y]
        by_cases hy : y = e
        · subst hy
          simp only [setEntry, Function.update_self]
        · simp only [setEntry, Function.update_of_ne hy]
      · intro g
        have hreg := hcounts.registered _ prev hprev
        -- The version is read off the entry the key points to, and entries have different hashes.
        have hversion : ∀ q, d.versionAt q = some (d.entry prev).hash ↔ d.refAt q = some prev := by
          intro q
          rw [versionAt, Option.map_eq_some_iff]
          constructor
          · rintro ⟨y, hy, heq⟩
            rw [hy, (h.entry_inj (h.registered q y hy) (h.registered _ prev hprev)).mp heq]
          · intro hq
            exact ⟨prev, hq, rfl⟩
        have hne : (d.entry prev).hash ≠ hash ↔ prev ≠ e := by
          rw [← hhash _ prev hprev, ← (hcounts.hashed hash e he).2]
          exact not_congr (hcounts.entry_inj hreg he)
        rw [hdel g, hhash _ prev hprev]
        constructor
        · rintro ⟨rfl, hprevne, hall⟩
          exact ⟨(hversion _).mpr hprev, hne.mpr hprevne, fun q hq ↦ hall q ((hversion q).mp hq)⟩
        · rintro ⟨hg, hghash, hall⟩
          have hgeq : (d.entry prev).hash = g := by simpa [versionAt, hprev] using hg
          subst hgeq
          exact ⟨rfl, hne.mp hghash, fun q hq ↦ hall q ((hversion q).mpr hq)⟩

/-- What is left once the `RefMap` of the owner is stored: the pointer of one key
has changed. -/
theorem Counts.stored {x : Owner} {ref hash : String} {e : EntryId} {d₁ d₂ : CacheGitDirectory}
    (h : d₁.Counts (Function.update d.refAt (x, ref) (some e)) ∅)
    (he : d₁.gitHashMap hash = some e)
    (hhash : ∀ q y, d.refAt q = some y → (d₁.entry y).hash = (d.entry y).hash)
    (href : d₂.refAt = Function.update d.refAt (x, ref) (some e))
    (hmap : d₂.gitHashMap = d₁.gitHashMap) (hall : d₂.allocated = d₁.allocated)
    (hentry : d₂.entry = d₁.entry) :
    d₂.Exact ∧ d₂.versionAt = Function.update d.versionAt (x, ref) (some hash) := by
  constructor
  · rw [Exact, href]
    refine ⟨h.finite, ?_, ?_, ?_, ?_⟩
    · rw [hmap, hall, hentry]
      exact h.hashed
    · rw [hmap, hentry]
      exact h.registered
    · rw [hmap, hentry]
      exact h.counted
    · rw [hmap, hentry]
      exact h.positive
  · funext q
    rw [versionAt, href, hentry]
    by_cases hq : q = (x, ref)
    · subst hq
      rw [Function.update_self, Function.update_self, Option.map_some, (h.hashed hash e he).2]
    · rw [Function.update_of_ne hq, Function.update_of_ne hq, versionAt]
      exact Option.map_congr fun y hy ↦ hhash q y hy

section Store

variable {d₁ : CacheGitDirectory} (hnode : d₁.gitNodeMap = d.gitNodeMap)
  (hrule : d₁.gitRuleMap = d.gitRuleMap) (ref : String) (e : EntryId)
include hnode hrule

theorem refAt_storeNode (n : NodeId) :
    refAt { d₁ with
      gitNodeMap := Function.update d₁.gitNodeMap n
        (Function.update (d.gitNodeMap n) ref (some e)) } =
    Function.update d.refAt (.node n, ref) (some e) := by
  funext q
  rcases q with ⟨y | y, ref'⟩
  · by_cases hy : y = n
    · subst hy
      by_cases hr : ref' = ref
      · subst hr
        simp [refAt]
      · simp [refAt, hr]
    · simp [refAt, hy, hnode]
  · simp [refAt, hrule]

theorem refAt_storeRule (r : RuleId) :
    refAt { d₁ with
      gitRuleMap := Function.update d₁.gitRuleMap r
        (Function.update (d.gitRuleMap r) ref (some e)) } =
    Function.update d.refAt (.rule r, ref) (some e) := by
  funext q
  rcases q with ⟨y | y, ref'⟩
  · simp [refAt, hnode]
  · by_cases hy : y = r
    · subst hy
      by_cases hr : ref' = ref
      · subst hr
        simp [refAt]
      · simp [refAt, hr]
    · simp [refAt, hy, hrule]

end Store

/-- The owner has the hash under the current reference, and a version is deleted
with its last owner. -/
theorem register_spec (A : EntryAllocator) (hash : String) (h : d.Exact) (hin : d.isInRef = true)
    (x : Owner) :
    ∃ deleted d', register A hash x d = .ok (deleted, d') ∧ d'.Exact ∧
      d'.currentGitRef = d.currentGitRef ∧
      d'.versionAt = Function.update d.versionAt (x, d.currentGitRef) (some hash) ∧
      ∀ g, deleted = some g ↔ d.versionAt (x, d.currentGitRef) = some g ∧ g ≠ hash ∧
        ∀ q, d.versionAt q = some g → q = (x, d.currentGitRef) := by
  cases x with
  | node n =>
      obtain ⟨deleted, e, d₁, hrun, hcounts, hsame, he, hhash, hdel⟩ :=
        registerEntryInRefMap_spec A hash h hin
          (show d.gitNodeMap n d.currentGitRef = d.refAt (.node n, d.currentGitRef) from rfl)
      obtain ⟨hexact, hversion⟩ := hcounts.stored he hhash
        (refAt_storeNode hsame.2.1 hsame.2.2 d.currentGitRef e n) rfl rfl rfl
      refine ⟨deleted, _, ?_, hexact, hsame.1, hversion, hdel⟩
      simp only [register, registerNode, hrun, Lib.except_ok_bind, Lib.except_pure]
  | rule r =>
      obtain ⟨deleted, e, d₁, hrun, hcounts, hsame, he, hhash, hdel⟩ :=
        registerEntryInRefMap_spec A hash h hin
          (show d.gitRuleMap r d.currentGitRef = d.refAt (.rule r, d.currentGitRef) from rfl)
      obtain ⟨hexact, hversion⟩ := hcounts.stored he hhash
        (refAt_storeRule hsame.2.1 hsame.2.2 d.currentGitRef e r) rfl rfl rfl
      refine ⟨deleted, _, ?_, hexact, hsame.1, hversion, hdel⟩
      simp only [register, registerRule, hrun, Lib.except_ok_bind, Lib.except_pure]

/-! ## Runs -/

/-- The directory after a sequence of calls, with what has been registered, the
last one first. -/
inductive History (A : EntryAllocator) :
    List ((Owner × String) × String) → CacheGitDirectory → Prop
  | create : History A [] create
  | updateRef {t : List ((Owner × String) × String)} {d : CacheGitDirectory} (head : Head)
      (h : History A t d) : History A t (d.updateRef head)
  | register {t : List ((Owner × String) × String)} {d d' : CacheGitDirectory} {x : Owner}
      {hash : String} {deleted : Option String} (h : History A t d) (hin : d.isInRef = true)
      (hrun : register A hash x d = .ok (deleted, d')) :
      History A (((x, d.currentGitRef), hash) :: t) d'

theorem History.exact {t : List ((Owner × String) × String)} (h : History A t d) :
    d.Exact ∧ ∀ q, d.versionAt q = t.lookup q := by
  induction h with
  | create =>
      refine ⟨exact_create, fun q ↦ ?_⟩
      rcases q with ⟨x | x, ref⟩ <;> rfl
  | updateRef head h ih => exact ⟨ih.1.updateRef head, ih.2⟩
  | @register t d d' x hash deleted h hin hrun ih =>
      obtain ⟨_, d₁, hrun₁, hexact, -, hversion, -⟩ := register_spec A hash ih.1 hin x
      obtain ⟨rfl, rfl⟩ := Prod.mk.inj (Except.ok.inj (hrun₁.symm.trans hrun))
      refine ⟨hexact, fun q ↦ ?_⟩
      rw [hversion, List.lookup_cons]
      by_cases hq : q = (x, d.currentGitRef)
      · subst hq
        simp
      · rw [Function.update_of_ne hq, ih.2 q, beq_false_of_ne hq]

/-- In every state: the counters are exact, a pointer leads to the entry
registered under its own hash, and each pair has the version registered last.
The next registration deletes a version exactly when it moves the last pair away
from it, so no version that some pair has registered last. -/
theorem numGitRefs_exact {t : List ((Owner × String) × String)} (h : History A t d) :
    (∀ k e, d.gitHashMap k = some e →
      (d.entry e).numGitRefs = {q | d.refAt q = some e}.ncard ∧ 1 ≤ (d.entry e).numGitRefs) ∧
    (∀ q e, d.refAt q = some e → d.gitHashMap (d.entry e).hash = some e) ∧
    (∀ q, d.versionAt q = t.lookup q) ∧
    (d.isInRef = true → ∀ hash x, ∃ deleted d', register A hash x d = .ok (deleted, d') ∧
      d'.versionAt (x, d.currentGitRef) = some hash ∧
      ∀ g, (deleted = some g ↔ d.versionAt (x, d.currentGitRef) = some g ∧ g ≠ hash ∧
          ∀ q, d.versionAt q = some g → q = (x, d.currentGitRef)) ∧
        (deleted = some g → ∀ q, (((x, d.currentGitRef), hash) :: t).lookup q ≠ some g)) := by
  obtain ⟨hexact, hversion⟩ := h.exact
  refine ⟨fun k e he ↦ ?_, hexact.registered, hversion, fun hin hash x ↦ ?_⟩
  · exact ⟨hexact.counted k e he, hexact.positive k e he (Set.notMem_empty e)⟩
  · obtain ⟨deleted, d', hrun, -, -, hnew, hdel⟩ := register_spec A hash hexact hin x
    refine ⟨deleted, d', hrun, ?_, fun g ↦ ⟨hdel g, fun hg q hq ↦ ?_⟩⟩
    · rw [hnew, Function.update_self]
    · obtain ⟨-, hne, hlast⟩ := (hdel g).mp hg
      have hlatest := (h.register hin hrun).exact.2 q
      rw [hq, hnew] at hlatest
      by_cases hqx : q = (x, d.currentGitRef)
      · rw [hqx, Function.update_self] at hlatest
        exact hne (Option.some.inj hlatest).symm
      · rw [Function.update_of_ne hqx] at hlatest
        exact hqx (hlast q hlatest)

/-- On `master`, two nodes share the version `3b5d`. -/
theorem exists_shared : ∃ d₁ d₂ : CacheGitDirectory,
    register .nextEntry "3b5d" (.node 0) (create.updateRef (.reference "refs/heads/master")) =
        .ok (none, d₁) ∧
      register .nextEntry "3b5d" (.node 1) d₁ = .ok (none, d₂) ∧
      d₂.currentGitRef = "refs/heads/master" ∧ d₂.gitHashMap "3b5d" = some 1 ∧
      (d₂.entry 1).numGitRefs = 2 :=
  ⟨_, _, rfl, rfl, rfl, rfl, rfl⟩

/-- The first of the two to move on leaves the entry behind, the second one
deletes it. -/
theorem numGitRefs_exact_shared : ∃ d₁ d₂ d₃ d₄ : CacheGitDirectory,
    register .nextEntry "3b5d" (.node 0) (create.updateRef (.reference "refs/heads/master")) =
        .ok (none, d₁) ∧
      register .nextEntry "3b5d" (.node 1) d₁ = .ok (none, d₂) ∧
      {q | d₂.refAt q = some 1}.ncard = 2 ∧
      register .nextEntry "77aa" (.node 0) d₂ = .ok (none, d₃) ∧
      register .nextEntry "77aa" (.node 1) d₃ = .ok (some "3b5d", d₄) := by
  obtain ⟨d₁, d₂, h₁, h₂, href, hmap, hnum⟩ := exists_shared
  have hin : d₂.isInRef = true := by simp [isInRef, href]
  obtain ⟨hin₁, href₁⟩ := register_isInRef h₂
  have hist := ((History.updateRef (.reference "refs/heads/master") .create).register rfl h₁).register
    hin₁ h₂
  rw [← href₁, href] at hist
  change History _ [_, ((.node 0, "refs/heads/master"), "3b5d")] d₂ at hist
  obtain ⟨hcount, -, hversion, hnext⟩ := numGitRefs_exact hist
  obtain ⟨deleted, d₃, h₃, -, hdel⟩ := hnext hin "77aa" (.node 0)
  have hnone : deleted = none := by
    refine Option.eq_none_iff_forall_ne_some.mpr fun k hk ↦ ?_
    obtain ⟨hk, -, hlast⟩ := (hdel k).1.mp hk
    rw [href, hversion] at hk
    obtain rfl := Option.some.inj hk
    cases (Prod.mk.inj (hlast (.node 1, "refs/heads/master") (hversion _))).1
  subst hnone
  have hist' := hist.register hin h₃
  rw [href] at hist'
  obtain ⟨-, -, hversion', hnext'⟩ := numGitRefs_exact hist'
  obtain ⟨hin₂, href'⟩ := register_isInRef h₃
  have hin' : d₃.isInRef = true := by simp [isInRef, href', href]
  obtain ⟨deleted, d₄, h₄, -, hdel⟩ := hnext' hin' "77aa" (.node 1)
  have hsome : deleted = some "3b5d" := by
    refine (hdel "3b5d").1.mpr ⟨?_, by decide, fun q hq ↦ ?_⟩
    · rw [href', href, hversion']
      rfl
    · rw [href', href]
      rw [hversion'] at hq
      by_cases hfirst : q = (.node 0, "refs/heads/master")
      · subst hfirst
        exact absurd hq (by decide)
      · by_contra hsecond
        rw [List.lookup_cons, beq_false_of_ne hfirst, List.lookup_cons, beq_false_of_ne hsecond,
          List.lookup_cons, beq_false_of_ne hfirst] at hq
        cases hq
  subst hsome
  exact ⟨d₁, d₂, d₃, d₄, h₁, h₂, hnum ▸ ((hcount _ 1 hmap).1).symm, h₃, h₄⟩

end CacheGitDirectory

end Falcon
