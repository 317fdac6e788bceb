import Falcon.Cache.GitRefs

/-!
# The last version of a target on a branch

A version that was saved or restored last for a path on a branch should stay in
the cache until the path gets another version on that branch.  The directory
that decides what is deleted lives in the memory of the daemon and knows nodes
by their address.  The version stays as long as the two do not drift apart.
-/

namespace Falcon

open CacheManager CacheManager.GitRefs CacheFS

/-- The cache and the repository, with the history that the property is about:
`kept` is the version saved or restored last for a path on a branch, `owner` the
path for which the running daemon has last saved or restored a node under a
reference, and `stale` the pairs that only an earlier daemon has served. -/
structure GitProject where
  cache : GitCache
  head : Head
  kept : String × String → Option String
  owner : NodeId × String → Option String
  stale : Set (String × String)

namespace GitProject

def start (w : Disk) (head : Head) : GitProject :=
  ⟨⟨w, .create⟩, head, fun _ ↦ none, fun _ ↦ none, ∅⟩

def gitRef (s : GitProject) : String := s.cache.directory.currentGitRef

/-- The node has been saved or restored. -/
def record (g : Graph) (ref : String) (s : GitProject) (n : NodeId) : GitProject :=
  { s with
    kept := match s.head with
      | .reference branch =>
        Function.update s.kept ((g.node n).path, branch) (some (g.node n).hash)
      | _ => s.kept
    owner := Function.update s.owner (n, ref) (some (g.node n).path)
    stale := match s.head with
      | .reference branch => s.stale \ {((g.node n).path, branch)}
      | _ => s.stale }

def recordAll (g : Graph) (ref : String) (l : List NodeId) (s : GitProject) : GitProject :=
  l.foldl (record g ref) s

/-- What happens to the project.  Every call of the cache comes with the graph of
that moment, so the makefile may be reloaded between any two. -/
inductive Event where
  | checkout (head : Head)
  | startBuild
  | files (w : Disk)
  | restart
  | saveRule (g : Graph) (r : RuleId)
  | restoreNode (g : Graph) (n : NodeId)
  | restoreRule (g : Graph) (r : RuleId)

def Event.run (A : EntryAllocator) (s : GitProject) : Event → Outcome GitProject
  | .checkout head => pure { s with head := head }
  | .startBuild =>
    pure { s with cache := { s.cache with directory := s.cache.directory.updateRef s.head } }
  | .files w =>
    pure { s with cache := { s.cache with disk := { w with entries := s.cache.disk.entries } } }
  | .restart =>
    pure { s with
      cache := { s.cache with directory := .create }
      owner := fun _ ↦ none
      stale := Set.univ }
  | .saveRule g r => do
    let cache ← GitRefs.saveRule A g r s.cache
    let saved := !(g.rule r).isPhony && s.cache.directory.isInRef
    pure (recordAll g s.gitRef (if saved then (g.rule r).outputs else []) { s with cache := cache })
  | .restoreNode g n => do
    let (restored, cache) ← GitRefs.restoreNode A g n s.cache
    pure (recordAll g s.gitRef (if restored then [n] else []) { s with cache := cache })
  | .restoreRule g r => do
    let (restored, cache) ← GitRefs.restoreRule A g r s.cache
    pure (recordAll g s.gitRef (if restored then (g.rule r).outputs else [])
      { s with cache := cache })

def runEvents (A : EntryAllocator) (events : List Event) (s : GitProject) : Outcome GitProject :=
  events.foldlM (fun s e ↦ e.run A s) s

/-- The last version of every path on every branch is in the cache. -/
def KeepsLast (s : GitProject) : Prop :=
  ∀ q h, s.kept q = some h → (s.cache.disk.entries h).isSome = true

/-! ## When the directory and the history agree -/

/-- No pair but `q` that only an earlier daemon has served has this version. -/
def Unclaimed (s : GitProject) (q : Option (String × String)) (hash : String) : Prop :=
  ∀ q' ∈ s.stale, some q' ≠ q → s.kept q' ≠ some hash

/-- The node may be registered: `HEAD` is still where the build has started, what
the directory holds for the address was for the same path, and no other pair
relies on the version without the directory knowing. -/
structure Fits (g : Graph) (s : GitProject) (n : NodeId) : Prop where
  head : s.head = .reference s.gitRef
  owner : ∀ p, s.owner (n, s.gitRef) = some p → p = (g.node n).path
  unclaimed : s.Unclaimed (some ((g.node n).path, s.gitRef)) (g.node n).hash

/-- All outputs of the rule are in the cache, and registering one of them does
not delete another. -/
structure AllFound (g : Graph) (s : GitProject) (l : List NodeId) : Prop where
  found : ∀ o ∈ l, hasEntry (g.node o).hash s.cache.disk = .ok true
  apart : ∀ o ∈ l, ∀ o' ∈ l, s.cache.directory.versionAt (.node o, s.gitRef) =
    some (g.node o').hash → (g.node o').hash = (g.node o).hash

def Event.Allowed (s : GitProject) : Event → Prop
  | .saveRule g r => (g.rule r).isPhony = true ∨ s.cache.directory.isInRef = false ∨
      (∀ o ∈ (g.rule r).outputs, Fits g s o) ∧ s.Unclaimed none (g.rule r).hashDepfile
  | .restoreNode g n => hasEntry (g.node n).hash s.cache.disk ≠ .ok true ∨ Fits g s n
  | .restoreRule g r => (g.rule r).isPhony = true ∨
      (∃ o ∈ (g.rule r).outputs.head?, hasEntry (g.node o).hash s.cache.disk ≠ .ok true) ∨
      AllFound g s (g.rule r).outputs ∧ (∀ o ∈ (g.rule r).outputs, Fits g s o) ∧
        s.Unclaimed none (g.rule r).hashDepfile
  | _ => True

/-- The states of the runs all of whose events are allowed. -/
inductive Reached (A : EntryAllocator) : GitProject → Prop
  | start (w : Disk) (head : Head) : Reached A (start w head)
  | step {s s' : GitProject} {e : Event} (h : Reached A s) (hallowed : e.Allowed s)
      (hrun : e.run A s = .ok s') : Reached A s'

/-- The directory knows the pairs that this daemon has served, and no version of
the others. -/
structure Retains (s : GitProject) : Prop where
  exact : s.cache.directory.Exact
  present : s.KeepsLast
  tracked : ∀ p b h, s.kept (p, b) = some h → (p, b) ∉ s.stale →
    ∃ n, s.cache.directory.versionAt (.node n, b) = some h ∧ s.owner (n, b) = some p
  untracked : ∀ q h, s.kept q = some h → q ∈ s.stale →
    ∀ x, s.cache.directory.versionAt x ≠ some h

end GitProject

namespace CacheManager.GitRefs

variable {A : EntryAllocator} {hash : String} {x : Owner} {s s' : GitCache}

/-- What `register` does to the directory, and which file it may delete. -/
theorem register_effect (hexact : s.directory.Exact) (h : register A hash x s = .ok s') :
    s'.directory.Exact ∧ s'.directory.currentGitRef = s.directory.currentGitRef ∧
      s'.directory.versionAt = Function.update s.directory.versionAt
        (x, s.directory.currentGitRef) (some hash) ∧
      ∀ k, s'.disk.entries k = s.disk.entries k ∨
        s.directory.versionAt (x, s.directory.currentGitRef) = some k ∧ k ≠ hash ∧
          ∀ q, s.directory.versionAt q = some k → q = (x, s.directory.currentGitRef) := by
  have hin := (register_isInRef h).1
  obtain ⟨⟨deleted, d⟩, hreg, h⟩ := Lib.bind_eq_ok.mp h
  obtain ⟨w, hdelete, h⟩ := Lib.bind_eq_ok.mp h
  obtain rfl := Except.ok.inj h
  obtain ⟨deleted', d', hrun, hexact', href, hversion, hdel⟩ :=
    CacheGitDirectory.register_spec A hash hexact hin x
  obtain ⟨rfl, rfl⟩ := Prod.mk.inj (Except.ok.inj (hrun.symm.trans hreg))
  refine ⟨hexact', href, hversion, fun k ↦ ?_⟩
  cases deleted' with
  | none =>
      obtain rfl := Except.ok.inj hdelete
      exact Or.inl rfl
  | some g =>
      obtain ⟨⟨_, w'⟩, hw', hdelete⟩ := Lib.bind_eq_ok.mp hdelete
      obtain rfl := Except.ok.inj hdelete
      obtain ⟨_, -, hw'⟩ := Lib.bind_eq_ok.mp hw'
      obtain ⟨-, rfl⟩ := Prod.mk.inj (Except.ok.inj hw')
      by_cases hk : k = g
      · subst hk
        exact Or.inr ((hdel k).mp rfl)
      · exact Or.inl (Function.update_of_ne hk _ _)

theorem writeEntry_effect {path : String} {w w' : Disk} {written : Bool}
    (h : writeEntry hash path w = .ok (written, w')) :
    written = true ∧ (w'.entries hash).isSome = true ∧
      ∀ k, (w.entries k).isSome = true → (w'.entries k).isSome = true := by
  obtain ⟨_, -, h⟩ := Lib.bind_eq_ok.mp h
  split at h
  · rename_i c hc
    obtain ⟨rfl, rfl⟩ := Prod.mk.inj (Except.ok.inj h)
    exact ⟨rfl, by simp [hc], fun _ hk ↦ hk⟩
  · obtain ⟨rfl, rfl⟩ := Prod.mk.inj (Except.ok.inj h)
    refine ⟨rfl, by simp [Disk.addEntry_entries], fun k hk ↦ ?_⟩
    rw [Disk.addEntry_entries]
    split
    · rfl
    · exact hk

end CacheManager.GitRefs

namespace GitProject

variable {A : EntryAllocator} {g : Graph} {s s' : GitProject} {n : NodeId} {l : List NodeId}

/-! ## Registering -/

@[simp] theorem record_setCache (ref : String) (c : GitCache) :
    record g ref { s with cache := c } n = { record g ref s n with cache := c } := rfl

theorem recordAll_setCache (ref : String) (c : GitCache) :
    recordAll g ref l { s with cache := c } = { recordAll g ref l s with cache := c } := by
  induction l generalizing s with
  | nil => rfl
  | cons n l ih => exact ih (s := record g ref s n)

@[simp] theorem recordAll_snoc (ref : String) :
    recordAll g ref (l ++ [n]) s = record g ref (recordAll g ref l s) n := by
  rw [recordAll, List.foldl_append]
  rfl

/-- The node gets its new version; all others keep theirs. -/
theorem Retains.registerNode (h : s.Retains) (hfits : Fits g s n)
    (hentry : (s.cache.disk.entries (g.node n).hash).isSome = true) {c : GitCache}
    (hrun : register A (g.node n).hash (.node n) s.cache = .ok c) :
    (record g s.gitRef { s with cache := c } n).Retains := by
  obtain ⟨hexact, -, hversion, hentries⟩ := register_effect h.exact hrun
  have hkept : (record g s.gitRef { s with cache := c } n).kept =
      Function.update s.kept ((g.node n).path, s.gitRef) (some (g.node n).hash) := by
    rw [record]
    simp only [hfits.head]
  have hstale : (record g s.gitRef { s with cache := c } n).stale =
      s.stale \ {((g.node n).path, s.gitRef)} := by
    rw [record]
    simp only [hfits.head]
  -- The pair whose pointer moves is known to stand for this very path.
  have hown : ∀ p b m, s.owner (m, b) = some p →
      ((Owner.node m, b) : Owner × String) = (.node n, s.gitRef) →
      (p, b) = ((g.node n).path, s.gitRef) := by
    rintro p b m howner heq
    obtain ⟨hm, rfl⟩ := Prod.mk.inj heq
    obtain rfl := Owner.node.inj hm
    rw [hfits.owner p howner]
  refine ⟨hexact, ?_, ?_, ?_⟩
  · intro q k hq
    rw [hkept] at hq
    by_cases heq : q = ((g.node n).path, s.gitRef)
    · rw [heq, Function.update_self] at hq
      obtain rfl := Option.some.inj hq
      rcases hentries (g.node n).hash with hsame | ⟨-, hne, -⟩
      · rw [← hsame] at hentry
        exact hentry
      · exact absurd rfl hne
    · rw [Function.update_of_ne heq] at hq
      rcases hentries k with hsame | ⟨hold, -, hlast⟩
      · have hpresent := h.present q k hq
        rw [← hsame] at hpresent
        exact hpresent
      · by_cases hmem : q ∈ s.stale
        · exact absurd hold (h.untracked q k hq hmem _)
        · obtain ⟨m, hm, howner⟩ := h.tracked q.1 q.2 k hq hmem
          exact absurd (hown q.1 q.2 m howner (hlast _ hm)) heq
  · intro p b k hq hmem
    rw [hkept] at hq
    rw [hstale] at hmem
    by_cases heq : (p, b) = ((g.node n).path, s.gitRef)
    · rw [heq, Function.update_self] at hq
      obtain rfl := Option.some.inj hq
      obtain ⟨rfl, rfl⟩ := Prod.mk.inj heq
      refine ⟨n, ?_, Function.update_self ..⟩
      change c.directory.versionAt _ = _
      rw [hversion]
      exact Function.update_self ..
    · rw [Function.update_of_ne heq] at hq
      obtain ⟨m, hm, howner⟩ := h.tracked p b k hq fun hs ↦ hmem ⟨hs, heq⟩
      have hne : ((Owner.node m, b) : Owner × String) ≠ (.node n, s.gitRef) :=
        fun hpair ↦ heq (hown p b m howner hpair)
      refine ⟨m, ?_, ?_⟩
      · change c.directory.versionAt _ = _
        rw [hversion]
        exact (Function.update_of_ne hne _ _).trans hm
      · refine (Function.update_of_ne (fun hpair ↦ hne ?_) _ _).trans howner
        obtain ⟨rfl, rfl⟩ := Prod.mk.inj hpair
        rfl
  · intro q k hq hmem x
    rw [hstale] at hmem
    rw [hkept, Function.update_of_ne hmem.2] at hq
    change c.directory.versionAt x ≠ some k
    rw [hversion]
    by_cases hx : x = (.node n, s.cache.directory.currentGitRef)
    · subst hx
      rw [Function.update_self]
      intro heq
      refine hfits.unclaimed q hmem.1 (fun hsome ↦ hmem.2 (Option.some.inj hsome)) ?_
      rw [hq, heq]
    · rw [Function.update_of_ne hx]
      exact h.untracked q k hq hmem.1 x

/-- The depfile of a rule is no version of a path. -/
theorem Retains.registerRule (h : s.Retains) {hash : String} (hfree : s.Unclaimed none hash)
    {r : RuleId} {c : GitCache} (hrun : register A hash (.rule r) s.cache = .ok c) :
    Retains { s with cache := c } := by
  obtain ⟨hexact, -, hversion, hentries⟩ := register_effect h.exact hrun
  refine ⟨hexact, ?_, ?_, ?_⟩
  · intro q k hq
    have hpresent := h.present q k hq
    rcases hentries k with hsame | ⟨hold, -, hlast⟩
    · rw [← hsame] at hpresent
      exact hpresent
    · by_cases hmem : q ∈ s.stale
      · exact absurd hold (h.untracked q k hq hmem _)
      · obtain ⟨m, hm, -⟩ := h.tracked q.1 q.2 k hq hmem
        cases hlast _ hm
  · intro p b k hq hmem
    obtain ⟨m, hm, howner⟩ := h.tracked p b k hq hmem
    refine ⟨m, ?_, howner⟩
    change c.directory.versionAt _ = _
    rw [hversion]
    exact (Function.update_of_ne (by simp) _ _).trans hm
  · intro q k hq hmem x
    change c.directory.versionAt x ≠ some k
    rw [hversion]
    by_cases hx : x = (.rule r, s.cache.directory.currentGitRef)
    · subst hx
      rw [Function.update_self]
      intro heq
      refine hfree q hmem (by simp) ?_
      rw [hq, heq]
    · rw [Function.update_of_ne hx]
      exact h.untracked q k hq hmem x

/-- Files may come, but no entry may go. -/
theorem Retains.setDisk (h : s.Retains) {w : Disk}
    (hw : ∀ k, (s.cache.disk.entries k).isSome = true → (w.entries k).isSome = true) :
    Retains { s with cache := { s.cache with disk := w } } :=
  ⟨h.exact, fun q k hq ↦ hw k (h.present q k hq), h.tracked, h.untracked⟩

theorem Unclaimed.record {q : Option (String × String)} {hash : String} {c : GitCache}
    (h : s.Unclaimed q hash) (hfits : Fits g s n) :
    (record g s.gitRef { s with cache := c } n).Unclaimed q hash := by
  intro q' hmem hne
  rw [GitProject.record] at hmem ⊢
  simp only [hfits.head] at hmem ⊢
  rw [Function.update_of_ne hmem.2]
  exact h q' hmem.1 hne

theorem Fits.record {o : NodeId} {c : GitCache} (h : Fits g s o) (hfits : Fits g s n)
    (href : c.directory.currentGitRef = s.gitRef) :
    Fits g (record g s.gitRef { s with cache := c } n) o := by
  have hgit : (GitProject.record g s.gitRef { s with cache := c } n).gitRef = s.gitRef := href
  refine ⟨?_, ?_, ?_⟩
  · rw [hgit]
    exact h.head
  · intro p hp
    rw [hgit] at hp
    by_cases ho : o = n
    · subst ho
      change Function.update s.owner (o, s.gitRef) (some (g.node o).path)
        (o, s.gitRef) = some p at hp
      rw [Function.update_self] at hp
      exact (Option.some.inj hp).symm
    · refine h.owner p ?_
      have hne : (o, s.gitRef) ≠ (n, s.gitRef) := fun heq ↦ ho (Prod.mk.inj heq).1
      exact (Function.update_of_ne hne _ _).symm.trans hp
  · rw [hgit]
    exact h.unclaimed.record hfits

/-! ## Rules -/

/-- The nodes of `L` and a depfile with the hash `k` may be registered. -/
structure Ready (g : Graph) (L : List NodeId) (k : String) (s : GitProject) : Prop where
  retains : s.Retains
  fits : ∀ o ∈ L, Fits g s o
  unclaimed : s.Unclaimed none k

variable {L : List NodeId} {k : String} {c : GitCache}

theorem Ready.registerNode (h : Ready g L k s) (hn : n ∈ L)
    (hentry : (s.cache.disk.entries (g.node n).hash).isSome = true)
    (hrun : register A (g.node n).hash (.node n) s.cache = .ok c) :
    Ready g L k (record g s.gitRef { s with cache := c } n) ∧
      (record g s.gitRef { s with cache := c } n).gitRef = s.gitRef := by
  have href := (register_isInRef hrun).2
  refine ⟨⟨h.retains.registerNode (h.fits n hn) hentry hrun, fun o ho ↦ ?_, ?_⟩, href⟩
  · exact (h.fits o ho).record (h.fits n hn) href
  · exact h.unclaimed.record (h.fits n hn)

theorem Ready.setDisk (h : Ready g L k s) {w : Disk}
    (hw : ∀ k, (s.cache.disk.entries k).isSome = true → (w.entries k).isSome = true) :
    Ready g L k { s with cache := { s.cache with disk := w } } := by
  refine ⟨h.retains.setDisk hw, fun o ho ↦ ?_, h.unclaimed⟩
  exact ⟨(h.fits o ho).head, (h.fits o ho).owner, (h.fits o ho).unclaimed⟩

theorem Ready.saveOutputs (h : Ready g L k s) (hsub : l ⊆ L)
    (hrun : saveOutputs A g l s.cache = .ok c) :
    Ready g L k (recordAll g s.gitRef l { s with cache := c }) := by
  induction l generalizing s with
  | nil =>
      obtain rfl := Except.ok.inj hrun
      exact h
  | cons n l ih =>
      rw [GitRefs.saveOutputs, List.foldlM_cons] at hrun
      obtain ⟨c₁, hstep, hrest⟩ := Lib.bind_eq_ok.mp hrun
      obtain ⟨⟨_, c₂⟩, hsave, hstep⟩ := Lib.bind_eq_ok.mp hstep
      obtain rfl := Except.ok.inj hstep
      obtain ⟨⟨written, w⟩, hwrite, hsave⟩ := Lib.bind_eq_ok.mp hsave
      obtain ⟨rfl, hentry, hkeep⟩ := writeEntry_effect hwrite
      obtain ⟨c₃, hreg, hsave⟩ := Lib.bind_eq_ok.mp hsave
      obtain ⟨-, rfl⟩ := Prod.mk.inj (Except.ok.inj hsave)
      have hready := ((h.setDisk hkeep).registerNode (hsub List.mem_cons_self) hentry hreg).1
      have href : c₃.directory.currentGitRef = s.gitRef := (register_isInRef hreg).2
      have hih := ih (s := record g s.gitRef { s with cache := c₃ } n) hready
        (fun o ho ↦ hsub (List.mem_cons_of_mem n ho)) hrest
      rw [gitRef, record, href] at hih
      exact hih

theorem hasEntry_eq_true {hash : String} {w : Disk} :
    hasEntry hash w = .ok true ↔ hash ≠ "" ∧ (w.entries hash).isSome = true := by
  by_cases hhash : hash = ""
  · simp [hasEntry, hhash, assert]
  · simp [hasEntry, hhash]

theorem AllFound.registerNode (h : AllFound g s L) (hexact : s.cache.directory.Exact) (hn : n ∈ L)
    (hrun : register A (g.node n).hash (.node n) s.cache = .ok c) :
    AllFound g (record g s.gitRef { s with cache := c } n) L := by
  obtain ⟨-, href, hversion, hentries⟩ := register_effect hexact hrun
  refine ⟨fun o ho ↦ ?_, fun o ho o' ho' hold ↦ ?_⟩
  · obtain ⟨hne, hsome⟩ := hasEntry_eq_true.mp (h.found o ho)
    refine hasEntry_eq_true.mpr ⟨hne, ?_⟩
    rcases hentries (g.node o).hash with hsame | ⟨hold, hdiff, -⟩
    · rw [← hsame] at hsome
      exact hsome
    · exact absurd (h.apart n hn o ho hold) hdiff
  · change c.directory.versionAt (.node o, c.directory.currentGitRef) = _ at hold
    rw [hversion, href] at hold
    by_cases heq : o = n
    · subst heq
      rw [Function.update_self] at hold
      exact (Option.some.inj hold).symm
    · rw [Function.update_of_ne (by simp [heq])] at hold
      exact h.apart o ho o' ho' hold

/-- All outputs are found and have their new version in the end. -/
theorem Ready.hasOutputs (h : Ready g L k s) (hfound : AllFound g s L) (hsub : l ⊆ L) {found : Bool}
    (hrun : hasOutputs A g l s.cache = .ok (found, c)) :
    found = true ∧ Ready g L k (recordAll g s.gitRef l { s with cache := c }) ∧
      c.directory.currentGitRef = s.gitRef ∧
      (∀ o ∈ L, hasEntry (g.node o).hash c.disk = .ok true) ∧
      ∀ o, o ∈ l ∨ s.cache.directory.versionAt (.node o, s.gitRef) = some (g.node o).hash →
        c.directory.versionAt (.node o, s.gitRef) = some (g.node o).hash := by
  induction l generalizing s with
  | nil =>
      obtain ⟨rfl, rfl⟩ := Prod.mk.inj (Except.ok.inj hrun)
      refine ⟨rfl, h, rfl, hfound.found, fun o ho ↦ ?_⟩
      exact ho.resolve_left List.not_mem_nil
  | cons n l ih =>
      have hn := hsub List.mem_cons_self
      rw [GitRefs.hasOutputs, hfound.found n hn, Lib.except_ok_bind, if_pos rfl] at hrun
      obtain ⟨c₁, hreg, hrest⟩ := Lib.bind_eq_ok.mp hrun
      have hentry := (hasEntry_eq_true.mp (hfound.found n hn)).2
      have href : c₁.directory.currentGitRef = s.gitRef := (register_isInRef hreg).2
      have hversion := (register_effect h.retains.exact hreg).2.2.1
      have hih := ih (s := record g s.gitRef { s with cache := c₁ } n)
        (h.registerNode hn hentry hreg).1 (hfound.registerNode h.retains.exact hn hreg)
        (fun o ho ↦ hsub (List.mem_cons_of_mem n ho)) hrest
      rw [gitRef, record, href] at hih
      obtain ⟨hfound', hready, href', hall, hlast⟩ := hih
      refine ⟨hfound', hready, href', hall, fun o ho ↦ hlast o ?_⟩
      by_cases heq : o = n
      · subst heq
        right
        change c₁.directory.versionAt _ = _
        rw [hversion]
        exact Function.update_self ..
      · refine ho.imp (fun hmem ↦ (List.mem_cons.mp hmem).resolve_left heq) fun hold ↦ ?_
        change c₁.directory.versionAt _ = _
        rw [hversion]
        refine (Function.update_of_ne ?_ _ _).trans hold
        simp [heq]

theorem readEntry_entries {hash path : String} {w w' : Disk} {read : Bool}
    (h : readEntry hash path w = .ok (read, w')) : w'.entries = w.entries ∧
      read = (w.entries hash).isSome := by
  obtain ⟨_, -, h⟩ := Lib.bind_eq_ok.mp h
  split at h
  · rename_i hnone
    obtain ⟨rfl, rfl⟩ := Prod.mk.inj (Except.ok.inj h)
    simp [hnone]
  · rename_i hsome
    obtain ⟨rfl, rfl⟩ := Prod.mk.inj (Except.ok.inj h)
    simp [hsome]

theorem readOutputs_entries {w w' : Disk} {read : Bool}
    (hfound : ∀ o ∈ l, (w.entries (g.node o).hash).isSome = true)
    (h : readOutputs g l w = .ok (read, w')) : w'.entries = w.entries ∧ read = true := by
  induction l generalizing w with
  | nil =>
      obtain ⟨rfl, rfl⟩ := Prod.mk.inj (Except.ok.inj h)
      exact ⟨rfl, rfl⟩
  | cons n l ih =>
      obtain ⟨⟨read', w₁⟩, hread, h⟩ := Lib.bind_eq_ok.mp h
      obtain ⟨hentries, rfl⟩ := readEntry_entries hread
      rw [hfound n List.mem_cons_self] at h
      obtain ⟨hentries', hread'⟩ := ih (w := w₁)
        (fun o ho ↦ by rw [hentries]; exact hfound o (List.mem_cons_of_mem n ho)) h
      exact ⟨hentries'.trans hentries, hread'⟩

theorem Retains.saveRule (h : s.Retains) {r : RuleId} (hallowed : (Event.saveRule g r).Allowed s)
    (hrun : (Event.saveRule g r).run A s = .ok s') : s'.Retains := by
  obtain ⟨c, hsave, hrun⟩ := Lib.bind_eq_ok.mp hrun
  obtain rfl := Except.ok.inj hrun
  rw [GitRefs.saveRule] at hsave
  cases hphony : (g.rule r).isPhony with
  | true =>
      rw [hphony, if_pos rfl] at hsave
      obtain rfl := Except.ok.inj hsave
      exact h
  | false =>
      cases hin : s.cache.directory.isInRef with
      | false =>
          rw [hphony, hin] at hsave
          obtain rfl := Except.ok.inj hsave
          exact h
      | true =>
          rw [hphony, hin] at hsave
          simp only [Event.Allowed, hphony, hin, Bool.false_eq_true, Bool.true_eq_false,
            false_or] at hallowed
          have hready : Ready g (g.rule r).outputs (g.rule r).hashDepfile s :=
            ⟨h, hallowed.1, hallowed.2⟩
          obtain ⟨c₁, houts, hsave⟩ := Lib.bind_eq_ok.mp hsave
          obtain ⟨w, hdep, hreg⟩ := Lib.bind_eq_ok.mp hsave
          have hkeep : ∀ k, (c₁.disk.entries k).isSome = true → (w.entries k).isSome = true := by
            rw [saveDepfile] at hdep
            split at hdep
            · obtain ⟨_, hwrite, hdep⟩ := Lib.bind_eq_ok.mp hdep
              obtain rfl := Except.ok.inj hdep
              exact (writeEntry_effect hwrite).2.2
            · obtain rfl := Except.ok.inj hdep
              exact fun _ hk ↦ hk
          have hsaved := hready.saveOutputs (fun _ ho ↦ ho) houts
          rw [recordAll_setCache] at hsaved ⊢
          exact (hsaved.setDisk hkeep).retains.registerRule (hsaved.setDisk hkeep).unclaimed hreg

theorem Retains.restoreNode (h : s.Retains) (hallowed : (Event.restoreNode g n).Allowed s)
    (hrun : (Event.restoreNode g n).run A s = .ok s') : s'.Retains := by
  obtain ⟨⟨restored, c⟩, hrestore, hrun⟩ := Lib.bind_eq_ok.mp hrun
  obtain rfl := Except.ok.inj hrun
  obtain ⟨found, hfound, hrestore⟩ := Lib.bind_eq_ok.mp hrestore
  cases found with
  | false =>
      obtain ⟨rfl, rfl⟩ := Prod.mk.inj (Except.ok.inj hrestore)
      exact h
  | true =>
      have hfits : Fits g s n := hallowed.resolve_left (not_not_intro hfound)
      have hentry := (hasEntry_eq_true.mp hfound).2
      obtain ⟨c₁, hreg, hrestore⟩ := Lib.bind_eq_ok.mp hrestore
      obtain ⟨⟨read, w⟩, hread, hrestore⟩ := Lib.bind_eq_ok.mp hrestore
      obtain ⟨rfl, rfl⟩ := Prod.mk.inj (Except.ok.inj hrestore)
      obtain ⟨hentries, hread⟩ := readEntry_entries hread
      have hretains := h.registerNode hfits hentry hreg
      -- The version that was found is not the one that is deleted.
      have hstill : (c₁.disk.entries (g.node n).hash).isSome = true := by
        rcases (register_effect h.exact hreg).2.2.2 (g.node n).hash with hsame | ⟨-, hne, -⟩
        · rw [hsame]
          exact hentry
        · exact absurd rfl hne
      rw [hstill] at hread
      subst hread
      exact hretains.setDisk fun k hk ↦ hentries ▸ hk

theorem Retains.restoreRule (h : s.Retains) {r : RuleId}
    (hallowed : (Event.restoreRule g r).Allowed s)
    (hrun : (Event.restoreRule g r).run A s = .ok s') : s'.Retains := by
  obtain ⟨⟨restored, c⟩, hrestore, hrun⟩ := Lib.bind_eq_ok.mp hrun
  obtain rfl := Except.ok.inj hrun
  rw [GitRefs.restoreRule] at hrestore
  rcases hallowed with hphony | ⟨o, ho, hmiss⟩ | ⟨hfound, hfits, hfree⟩
  · rw [if_pos hphony] at hrestore
    obtain ⟨rfl, rfl⟩ := Prod.mk.inj (Except.ok.inj hrestore)
    exact h
  · split at hrestore
    · obtain ⟨rfl, rfl⟩ := Prod.mk.inj (Except.ok.inj hrestore)
      exact h
    · obtain ⟨⟨found, c₁⟩, hlook, hrestore⟩ := Lib.bind_eq_ok.mp hrestore
      obtain ⟨l, hl⟩ : ∃ l, (g.rule r).outputs = o :: l := List.head?_eq_some_iff.mp ho
      rw [hl] at hlook
      obtain ⟨found', hfound', hlook⟩ := Lib.bind_eq_ok.mp hlook
      cases found' with
      | true => exact absurd hfound' hmiss
      | false =>
          obtain ⟨rfl, rfl⟩ := Prod.mk.inj (Except.ok.inj hlook)
          obtain ⟨rfl, rfl⟩ := Prod.mk.inj (Except.ok.inj hrestore)
          exact h
  · split at hrestore
    · obtain ⟨rfl, rfl⟩ := Prod.mk.inj (Except.ok.inj hrestore)
      exact h
    · obtain ⟨⟨found, c₁⟩, hlook, hrestore⟩ := Lib.bind_eq_ok.mp hrestore
      have hready : Ready g (g.rule r).outputs (g.rule r).hashDepfile s := ⟨h, hfits, hfree⟩
      obtain ⟨rfl, hready₁, href, hall, hversion⟩ :=
        hready.hasOutputs hfound (fun _ ho ↦ ho) hlook
      obtain ⟨c₂, hreg, hrestore⟩ := Lib.bind_eq_ok.mp hrestore
      obtain ⟨⟨read, w⟩, hread, hrestore⟩ := Lib.bind_eq_ok.mp hrestore
      obtain ⟨rfl, rfl⟩ := Prod.mk.inj (Except.ok.inj hrestore)
      rw [recordAll_setCache] at hready₁
      have hretains := hready₁.retains.registerRule hready₁.unclaimed hreg
      have hstill : ∀ o ∈ (g.rule r).outputs,
          (c₂.disk.entries (g.node o).hash).isSome = true := by
        intro o ho
        have hentry := (hasEntry_eq_true.mp (hall o ho)).2
        rcases (register_effect hready₁.retains.exact hreg).2.2.2 (g.node o).hash with
          hsame | ⟨-, -, hlast⟩
        · rw [hsame]
          exact hentry
        · have hv := hversion o (Or.inl ho)
          cases hlast _ hv
      obtain ⟨hentries, rfl⟩ := readOutputs_entries hstill hread
      rw [if_pos rfl, recordAll_setCache]
      exact hretains.setDisk fun k hk ↦ hentries ▸ hk

theorem Retains.run {e : Event} (h : s.Retains) (hallowed : e.Allowed s)
    (hrun : e.run A s = .ok s') : s'.Retains := by
  cases e with
  | checkout head =>
      obtain rfl := Except.ok.inj hrun
      exact ⟨h.exact, h.present, h.tracked, h.untracked⟩
  | startBuild =>
      obtain rfl := Except.ok.inj hrun
      exact ⟨h.exact.updateRef s.head, h.present, h.tracked, h.untracked⟩
  | files w =>
      obtain rfl := Except.ok.inj hrun
      exact h.setDisk fun _ hk ↦ hk
  | restart =>
      obtain rfl := Except.ok.inj hrun
      refine ⟨CacheGitDirectory.exact_create, h.present, ?_, ?_⟩
      · intro p b k _ hmem
        exact absurd (Set.mem_univ _) hmem
      · rintro q k - - ⟨x | x, ref⟩ hx <;> cases hx
  | saveRule g r => exact h.saveRule hallowed hrun
  | restoreNode g n => exact h.restoreNode hallowed hrun
  | restoreRule g r => exact h.restoreRule hallowed hrun

theorem Reached.retains (h : Reached A s) : s.Retains := by
  induction h with
  | start w head =>
      refine ⟨CacheGitDirectory.exact_create, ?_, ?_, ?_⟩
      · rintro q k hq
        cases hq
      · rintro p b k hq
        cases hq
      · rintro q k hq
        cases hq
  | step _ hallowed hrun ih => exact ih.run hallowed hrun

/-- In every state of every run whose events are allowed, the version last saved
or restored for a path on a branch is in the cache. -/
theorem keepsLast_of_reached (h : Reached A s) : s.KeepsLast := h.retains.present

/-- `main.o` is built and saved on `master`. -/
theorem keepsLast_master : ∃ s, Reached .nextEntry s ∧ s.kept ("main.o", "refs/heads/master") =
    some "8d263fefc0b3dff320f9d8c8c730317cd5ccca895e0d6204ca7f8711cad6d8d6" ∧ s.KeepsLast := by
  have hstart := Reached.start (A := .nextEntry) emptyDisk (.reference "refs/heads/master")
  have hbuild := hstart.step (e := .startBuild) trivial rfl
  have hsave := hbuild.step (e := .saveRule masterGraph 0) (by
    refine Or.inr (Or.inr ⟨fun o _ ↦ ⟨rfl, ?_, ?_⟩, ?_⟩)
    · intro p hp
      cases hp
    · intro q hq
      cases hq
    · intro q hq
      cases hq) rfl
  exact ⟨_, hsave, rfl, keepsLast_of_reached hsave⟩

/-- The hashes for the source `int y;`. -/
def developGraph : Graph :=
  objectGraph "f6e1c485d6af0612c7788270af3bf330d94a4c2cb7cb64efb0b1965750c0aa51"
    "0481cab54a4cfd28ef21097bf5b1dd51d0905964b88ef251cf3ff61272104554"

/-- `main.o` is saved on `master`.  After a restart it is fetched on a new branch
of the same commit, where the source is then edited and built. -/
theorem not_keepsLast_restart : ¬ ∀ A events w head s,
    runEvents A events (start w head) = .ok s → s.KeepsLast := by
  intro h
  have hkeeps := h .nextEntry [.startBuild, .saveRule masterGraph 0, .restart,
    .checkout (.reference "refs/heads/develop"), .startBuild, .restoreNode masterGraph 1,
    .saveRule developGraph 0] emptyDisk (.reference "refs/heads/master") _ rfl
    ("main.o", "refs/heads/master")
    "8d263fefc0b3dff320f9d8c8c730317cd5ccca895e0d6204ca7f8711cad6d8d6" rfl
  revert hkeeps
  decide +kernel

end GitProject

end Falcon
