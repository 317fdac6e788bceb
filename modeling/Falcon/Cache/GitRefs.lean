import Falcon.Cache.Manager
import Falcon.Cache.GitDirectory

/-!
# The cache of a git repository

`CacheManager` under the policy `CACHE_GIT_REFS`: what is saved or restored is
registered in the directory, which deletes the versions no reference needs.
Only `saveRule` looks whether `HEAD` is on a reference; a hit in the cache of a
detached `HEAD` is registered too, and fails there.
-/

namespace Falcon

structure GitCache where
  disk : Disk
  directory : CacheGitDirectory

namespace CacheManager.GitRefs

open CacheFS

def deleteEntry : Option String → Disk → Outcome Disk
  | none, w => pure w
  | some hash, w => do
    let (_, w) ← delEntry hash w
    pure w

/-- `registerNode` and `registerRule` with the files that they delete. -/
def register (A : EntryAllocator) (hash : String) (x : Owner) (s : GitCache) :
    Outcome GitCache := do
  let (deleted, directory) ← CacheGitDirectory.register A hash x s.directory
  let disk ← deleteEntry deleted s.disk
  pure ⟨disk, directory⟩

def saveNode (A : EntryAllocator) (g : Graph) (n : NodeId) (s : GitCache) :
    Outcome (Bool × GitCache) := do
  let (written, disk) ← writeEntry (g.node n).hash (g.node n).path s.disk
  if written then do
    let s ← register A (g.node n).hash (.node n) { s with disk }
    pure (true, s)
  else pure (false, { s with disk })

def saveOutputs (A : EntryAllocator) (g : Graph) (l : List NodeId) (s : GitCache) :
    Outcome GitCache :=
  l.foldlM (fun s n ↦ do
    let (_, s) ← saveNode A g n s
    pure s) s

def saveDepfile (g : Graph) (r : RuleId) (w : Disk) : Outcome Disk :=
  if (g.rule r).hasDepfile then do
    let (_, w) ← writeEntry (g.rule r).hashDepfile (g.rule r).depfile w
    pure w
  else pure w

def saveRule (A : EntryAllocator) (g : Graph) (r : RuleId) (s : GitCache) : Outcome GitCache :=
  if (g.rule r).isPhony then pure s
  else if !s.directory.isInRef then pure s
  else do
    let s ← saveOutputs A g (g.rule r).outputs s
    let disk ← saveDepfile g r s.disk
    register A (g.rule r).hashDepfile (.rule r) { s with disk }

def restoreNode (A : EntryAllocator) (g : Graph) (n : NodeId) (s : GitCache) :
    Outcome (Bool × GitCache) := do
  let found ← hasEntry (g.node n).hash s.disk
  if found then do
    let s ← register A (g.node n).hash (.node n) s
    let (read, disk) ← readEntry (g.node n).hash (g.node n).path s.disk
    pure (read, { s with disk })
  else pure (false, s)

/-- The loop that looks for the outputs.  Those found before the first one
missing have been registered. -/
def hasOutputs (A : EntryAllocator) (g : Graph) : List NodeId → GitCache →
    Outcome (Bool × GitCache)
  | [], s => pure (true, s)
  | n :: l, s => do
    let found ← hasEntry (g.node n).hash s.disk
    if found then do
      let s ← register A (g.node n).hash (.node n) s
      hasOutputs A g l s
    else pure (false, s)

def restoreRule (A : EntryAllocator) (g : Graph) (r : RuleId) (s : GitCache) :
    Outcome (Bool × GitCache) :=
  if (g.rule r).isPhony then pure (false, s)
  else do
    let (found, s) ← hasOutputs A g (g.rule r).outputs s
    if found then do
      let s ← register A (g.rule r).hashDepfile (.rule r) s
      let (read, disk) ← readOutputs g (g.rule r).outputs s.disk
      pure (read, { s with disk })
    else pure (false, s)

/-! ## Calls in any state of `HEAD` -/

/-- The calls of a build, on the graph as it is then.  Between them the disk may
change in any way. -/
inductive Call where
  | gitUpdateRef (head : Head)
  | saveRule (g : Graph) (r : RuleId)
  | restoreNode (g : Graph) (n : NodeId)
  | restoreRule (g : Graph) (r : RuleId)
  | disk (w : Disk)

def Call.run (A : EntryAllocator) (s : GitCache) : Call → Outcome GitCache
  | .gitUpdateRef head => pure { s with directory := s.directory.updateRef head }
  | .saveRule g r => GitRefs.saveRule A g r s
  | .restoreNode g n => do
    let (_, s) ← GitRefs.restoreNode A g n s
    pure s
  | .restoreRule g r => do
    let (_, s) ← GitRefs.restoreRule A g r s
    pure s
  | .disk w => pure { s with disk := w }

def runCalls (A : EntryAllocator) (calls : List Call) (s : GitCache) : Outcome GitCache :=
  calls.foldlM (fun s c ↦ c.run A s) s

/-- Off a reference, nothing that is looked for is in the cache. -/
def Call.Misses (s : GitCache) : Call → Prop
  | .restoreNode g n => hasEntry (g.node n).hash s.disk ≠ .ok true
  | .restoreRule g r => (g.rule r).isPhony = true ∨
      ∃ o ∈ (g.rule r).outputs.head?, hasEntry (g.node o).hash s.disk ≠ .ok true
  | _ => True

variable {A : EntryAllocator} {g : Graph} {s s' : GitCache} {hash : String} {x : Owner}

theorem hasEntry_ne_inRef (w : Disk) : hasEntry hash w ≠ .error (.assertion .inRef) := by
  intro h
  rcases Lib.bind_eq_error.mp h with h | ⟨_, -, h⟩
  · simp at h
  · cases h

theorem writeEntry_ne_inRef (path : String) (w : Disk) :
    writeEntry hash path w ≠ .error (.assertion .inRef) := by
  intro h
  rcases Lib.bind_eq_error.mp h with h | ⟨_, -, h⟩
  · simp at h
  · split at h <;> cases h

theorem readEntry_ne_inRef (path : String) (w : Disk) :
    readEntry hash path w ≠ .error (.assertion .inRef) := by
  intro h
  rcases Lib.bind_eq_error.mp h with h | ⟨_, -, h⟩
  · simp at h
  · split at h <;> cases h

theorem readOutputs_ne_inRef (l : List NodeId) (w : Disk) :
    readOutputs g l w ≠ .error (.assertion .inRef) := by
  induction l generalizing w with
  | nil =>
      intro h
      cases h
  | cons n l ih =>
      intro h
      rcases Lib.bind_eq_error.mp h with h | ⟨⟨read, w'⟩, -, h⟩
      · exact readEntry_ne_inRef _ _ h
      · cases read with
        | true => exact ih w' h
        | false => cases h

theorem deleteEntry_ne_inRef (deleted : Option String) (w : Disk) :
    deleteEntry deleted w ≠ .error (.assertion .inRef) := by
  cases deleted with
  | none =>
      intro h
      cases h
  | some k =>
      intro h
      rcases Lib.bind_eq_error.mp h with h | ⟨_, -, h⟩
      · rcases Lib.bind_eq_error.mp h with h | ⟨_, -, h⟩
        · simp at h
        · cases h
      · cases h

theorem register_eq_inRef :
    register A hash x s = .error (.assertion .inRef) ↔ s.directory.isInRef = false := by
  rw [register, Lib.bind_eq_error]
  refine Iff.trans (or_iff_left ?_) CacheGitDirectory.register_eq_inRef
  rintro ⟨⟨deleted, d⟩, -, h⟩
  rcases Lib.bind_eq_error.mp h with h | ⟨_, -, h⟩
  · exact deleteEntry_ne_inRef _ _ h
  · cases h

theorem register_isInRef (h : register A hash x s = .ok s') :
    s.directory.isInRef = true ∧ s'.directory.currentGitRef = s.directory.currentGitRef := by
  obtain ⟨⟨deleted, d⟩, hrun, h⟩ := Lib.bind_eq_ok.mp h
  obtain ⟨w, -, h⟩ := Lib.bind_eq_ok.mp h
  obtain rfl := Except.ok.inj h
  exact CacheGitDirectory.register_isInRef hrun

/-- A call that started on a reference does not find itself off it. -/
def StaysInRef (s : GitCache) (o : Outcome GitCache) : Prop :=
  o ≠ .error (.assertion .inRef) ∧
    ∀ s', o = .ok s' → s'.directory.currentGitRef = s.directory.currentGitRef

theorem staysInRef_register (hin : s.directory.isInRef = true) :
    StaysInRef s (register A hash x s) := by
  refine ⟨fun h ↦ ?_, fun s' h ↦ (register_isInRef h).2⟩
  rw [register_eq_inRef, hin] at h
  cases h

theorem isInRef_of_eq (h : s'.directory.currentGitRef = s.directory.currentGitRef) :
    s'.directory.isInRef = s.directory.isInRef := by
  rw [CacheGitDirectory.isInRef, CacheGitDirectory.isInRef, h]

theorem staysInRef_saveOutputs (hin : s.directory.isInRef = true) (l : List NodeId) :
    StaysInRef s (saveOutputs A g l s) := by
  -- One iteration, in a state that has the reference of `s`.
  have hstep : ∀ n t t', t.directory.currentGitRef = s.directory.currentGitRef →
      (do let (_, t) ← saveNode A g n t; pure t : Outcome GitCache) = .ok t' →
      t'.directory.currentGitRef = s.directory.currentGitRef := by
    intro n t t' ht h
    obtain ⟨⟨_, t₁⟩, hsave, h⟩ := Lib.bind_eq_ok.mp h
    obtain rfl := Except.ok.inj h
    obtain ⟨⟨written, w⟩, -, hsave⟩ := Lib.bind_eq_ok.mp hsave
    cases written with
    | true =>
        obtain ⟨t₂, hreg, hsave⟩ := Lib.bind_eq_ok.mp hsave
        obtain ⟨-, rfl⟩ := Prod.mk.inj (Except.ok.inj hsave)
        exact (register_isInRef hreg).2.trans ht
    | false =>
        obtain ⟨-, rfl⟩ := Prod.mk.inj (Except.ok.inj hsave)
        exact ht
  refine ⟨fun h ↦ ?_, fun s' h ↦ ?_⟩
  · obtain ⟨pre, n, post, t, -, hpre, hfail⟩ := Lib.foldlM_eq_error.mp h
    have ht := Lib.foldlM_invariant
      (fun t : GitCache ↦ t.directory.currentGitRef = s.directory.currentGitRef)
      (fun n _ t t' hrun ht ↦ hstep n t t' ht hrun) hpre rfl
    rcases Lib.bind_eq_error.mp hfail with hfail | ⟨_, -, hfail⟩
    · rcases Lib.bind_eq_error.mp hfail with hfail | ⟨⟨written, w⟩, -, hfail⟩
      · exact writeEntry_ne_inRef _ _ hfail
      · cases written with
        | true =>
            rcases Lib.bind_eq_error.mp hfail with hfail | ⟨_, -, hfail⟩
            · refine (staysInRef_register ?_).1 hfail
              exact (isInRef_of_eq ht).trans hin
            · cases hfail
        | false => cases hfail
    · cases hfail
  · exact Lib.foldlM_invariant
      (fun t : GitCache ↦ t.directory.currentGitRef = s.directory.currentGitRef)
      (fun n _ t t' hrun ht ↦ hstep n t t' ht hrun) h rfl

theorem saveRule_ne_inRef {r : RuleId} : saveRule A g r s ≠ .error (.assertion .inRef) := by
  intro h
  rw [saveRule] at h
  split at h
  · cases h
  · split at h
    · cases h
    · rename_i hin
      have hin : s.directory.isInRef = true := by simpa using hin
      rcases Lib.bind_eq_error.mp h with h | ⟨s₁, hsave, h⟩
      · exact (staysInRef_saveOutputs hin _).1 h
      · have hin₁ := (isInRef_of_eq ((staysInRef_saveOutputs hin _).2 s₁ hsave)).trans hin
        rcases Lib.bind_eq_error.mp h with h | ⟨w, -, h⟩
        · rw [saveDepfile] at h
          split at h
          · rcases Lib.bind_eq_error.mp h with h | ⟨_, -, h⟩
            · exact writeEntry_ne_inRef _ _ h
            · cases h
          · cases h
        · exact (staysInRef_register (s := { s₁ with disk := w }) hin₁).1 h

theorem restoreNode_eq_inRef {n : NodeId} : restoreNode A g n s = .error (.assertion .inRef) ↔
    s.directory.isInRef = false ∧ hasEntry (g.node n).hash s.disk = .ok true := by
  rw [restoreNode, Lib.bind_eq_error]
  refine Iff.trans (or_iff_right (hasEntry_ne_inRef _)) ?_
  constructor
  · rintro ⟨found, hfound, h⟩
    cases found with
    | false => cases h
    | true =>
        rcases Lib.bind_eq_error.mp h with h | ⟨_, -, h⟩
        · exact ⟨register_eq_inRef.mp h, hfound⟩
        · rcases Lib.bind_eq_error.mp h with h | ⟨_, -, h⟩
          · exact absurd h (readEntry_ne_inRef _ _)
          · cases h
  · rintro ⟨hin, hfound⟩
    refine ⟨true, hfound, ?_⟩
    rw [if_pos rfl, register_eq_inRef.mpr hin]
    rfl

theorem hasOutputs_eq_inRef {l : List NodeId} :
    hasOutputs A g l s = .error (.assertion .inRef) ↔ s.directory.isInRef = false ∧
      ∃ o ∈ l.head?, hasEntry (g.node o).hash s.disk = .ok true := by
  induction l generalizing s with
  | nil =>
      constructor
      · intro h
        cases h
      · rintro ⟨-, o, ho, -⟩
        cases ho
  | cons n l ih =>
      rw [hasOutputs, Lib.bind_eq_error]
      refine Iff.trans (or_iff_right (hasEntry_ne_inRef _)) ?_
      constructor
      · rintro ⟨found, hfound, h⟩
        cases found with
        | false => cases h
        | true =>
            rcases Lib.bind_eq_error.mp h with h | ⟨s₁, hreg, h⟩
            · exact ⟨register_eq_inRef.mp h, n, rfl, hfound⟩
            · obtain ⟨hin, hsame⟩ := register_isInRef hreg
              rw [← isInRef_of_eq hsame, (ih.mp h).1] at hin
              cases hin
      · rintro ⟨hin, o, ho, hfound⟩
        obtain rfl := Option.some.inj ho
        refine ⟨true, hfound, ?_⟩
        rw [if_pos rfl, register_eq_inRef.mpr hin]
        rfl

theorem hasOutputs_currentGitRef {l : List NodeId} {found : Bool}
    (h : hasOutputs A g l s = .ok (found, s')) :
    s'.directory.currentGitRef = s.directory.currentGitRef := by
  induction l generalizing s with
  | nil =>
      obtain ⟨-, rfl⟩ := Prod.mk.inj (Except.ok.inj h)
      rfl
  | cons n l ih =>
      obtain ⟨found', -, h⟩ := Lib.bind_eq_ok.mp h
      cases found' with
      | false =>
          obtain ⟨-, rfl⟩ := Prod.mk.inj (Except.ok.inj h)
          rfl
      | true =>
          obtain ⟨s₁, hreg, h⟩ := Lib.bind_eq_ok.mp h
          exact (ih h).trans (register_isInRef hreg).2

/-- Off a reference, the loop returns without having registered anything. -/
theorem hasOutputs_off {l : List NodeId} {found : Bool} (hin : s.directory.isInRef = false)
    (h : hasOutputs A g l s = .ok (found, s')) : s' = s ∧ (found = true → l = []) := by
  cases l with
  | nil =>
      obtain ⟨-, rfl⟩ := Prod.mk.inj (Except.ok.inj h)
      exact ⟨rfl, fun _ ↦ rfl⟩
  | cons n l =>
      obtain ⟨found', -, h⟩ := Lib.bind_eq_ok.mp h
      cases found' with
      | false =>
          obtain ⟨rfl, rfl⟩ := Prod.mk.inj (Except.ok.inj h)
          refine ⟨rfl, fun hf ↦ ?_⟩
          cases hf
      | true =>
          obtain ⟨s₁, hreg, -⟩ := Lib.bind_eq_ok.mp h
          rw [(register_isInRef hreg).1] at hin
          cases hin

theorem restoreRule_eq_inRef {r : RuleId} : restoreRule A g r s = .error (.assertion .inRef) ↔
    s.directory.isInRef = false ∧ (g.rule r).isPhony = false ∧
      ∀ o ∈ (g.rule r).outputs.head?, hasEntry (g.node o).hash s.disk = .ok true := by
  rw [restoreRule]
  cases hphony : (g.rule r).isPhony with
  | true => simp
  | false =>
      rw [if_neg Bool.false_ne_true, Lib.bind_eq_error, hasOutputs_eq_inRef]
      constructor
      · rintro (⟨hin, o, ho, hfound⟩ | ⟨⟨found, s₁⟩, hrun, h⟩)
        · refine ⟨hin, rfl, fun o' ho' ↦ ?_⟩
          obtain rfl := Option.some.inj (ho.symm.trans ho')
          exact hfound
        · cases found with
          | false => cases h
          | true =>
              rcases Lib.bind_eq_error.mp h with h | ⟨_, -, h⟩
              · have hin := (isInRef_of_eq (hasOutputs_currentGitRef hrun)).symm.trans
                  (register_eq_inRef.mp h)
                rw [(hasOutputs_off hin hrun).2 rfl]
                refine ⟨hin, rfl, fun o ho ↦ ?_⟩
                cases ho
              · rcases Lib.bind_eq_error.mp h with h | ⟨_, -, h⟩
                · exact absurd h (readOutputs_ne_inRef _ _)
                · cases h
      · rintro ⟨hin, -, hfound⟩
        cases houts : (g.rule r).outputs with
        | nil =>
            refine Or.inr ⟨(true, s), rfl, ?_⟩
            simp only [if_true, register_eq_inRef.mpr hin, Lib.except_error_bind]
        | cons o l => exact Or.inl ⟨hin, o, rfl, hfound o (by rw [houts]; rfl)⟩

/-- A call fails for want of a reference exactly if it hits off a reference. -/
theorem run_eq_inRef {c : Call} : c.run A s = .error (.assertion .inRef) ↔
    s.directory.isInRef = false ∧ ¬ c.Misses s := by
  cases c with
  | gitUpdateRef head => simp [Call.run, Call.Misses]
  | disk w => simp [Call.run, Call.Misses]
  | saveRule g r =>
      simp only [Call.run, Call.Misses, not_true, and_false, iff_false]
      exact saveRule_ne_inRef
  | restoreNode g n =>
      rw [Call.run, Lib.bind_eq_error, restoreNode_eq_inRef, Call.Misses, not_not]
      refine or_iff_left ?_
      rintro ⟨_, -, h⟩
      cases h
  | restoreRule g r =>
      rw [Call.run, Lib.bind_eq_error, restoreRule_eq_inRef, Call.Misses]
      refine Iff.trans (or_iff_left ?_) (and_congr_right fun _ ↦ ?_)
      · rintro ⟨_, -, h⟩
        cases h
      · simp

/-- Off a reference, a call that returns has registered nothing. -/
theorem run_directory {c : Call} (hin : s.directory.isInRef = false)
    (hcall : ∀ head, c ≠ .gitUpdateRef head) (h : c.run A s = .ok s') :
    s'.directory = s.directory := by
  cases c with
  | gitUpdateRef head => exact absurd rfl (hcall head)
  | disk w =>
      obtain rfl := Except.ok.inj h
      rfl
  | saveRule g r =>
      rw [Call.run, saveRule, hin] at h
      obtain rfl : s = s' := by
        split at h
        · exact Except.ok.inj h
        · exact Except.ok.inj h
      rfl
  | restoreNode g n =>
      obtain ⟨⟨read, s₁⟩, hrun, h⟩ := Lib.bind_eq_ok.mp h
      obtain rfl := Except.ok.inj h
      obtain ⟨found, -, hrun⟩ := Lib.bind_eq_ok.mp hrun
      cases found with
      | false =>
          obtain ⟨-, rfl⟩ := Prod.mk.inj (Except.ok.inj hrun)
          rfl
      | true =>
          obtain ⟨s₂, hreg, -⟩ := Lib.bind_eq_ok.mp hrun
          rw [(register_isInRef hreg).1] at hin
          cases hin
  | restoreRule g r =>
      obtain ⟨⟨read, s₁⟩, hrun, h⟩ := Lib.bind_eq_ok.mp h
      obtain rfl := Except.ok.inj h
      rw [restoreRule] at hrun
      split at hrun
      · obtain ⟨-, rfl⟩ := Prod.mk.inj (Except.ok.inj hrun)
        rfl
      · obtain ⟨⟨found, s₂⟩, hlook, hrun⟩ := Lib.bind_eq_ok.mp hrun
        obtain ⟨rfl, -⟩ := hasOutputs_off hin hlook
        cases found with
        | false =>
            obtain ⟨-, rfl⟩ := Prod.mk.inj (Except.ok.inj hrun)
            rfl
        | true =>
            obtain ⟨s₃, hreg, -⟩ := Lib.bind_eq_ok.mp hrun
            rw [(register_isInRef hreg).1] at hin
            cases hin

/-- The calls never fail for want of a reference, and register nothing off a
reference. -/
def WorksOffRef (A : EntryAllocator) (calls : List Call) (s : GitCache) : Prop :=
  runCalls A calls s ≠ .error (.assertion .inRef) ∧
    ∀ pre c post t t', calls = pre ++ c :: post → runCalls A pre s = .ok t →
      t.directory.isInRef = false → (∀ head, c ≠ .gitUpdateRef head) → c.run A t = .ok t' →
      t'.directory = t.directory

/-- Any calls on any cache: they work in every state of `HEAD` exactly if every
call made off a reference misses. -/
theorem worksOffRef_iff (A : EntryAllocator) (calls : List Call) (w : Disk) :
    WorksOffRef A calls ⟨w, .create⟩ ↔
      ∀ pre c post t, calls = pre ++ c :: post → runCalls A pre ⟨w, .create⟩ = .ok t →
        t.directory.isInRef = false → c.Misses t := by
  constructor
  · intro h pre c post t hcalls hpre hin
    by_contra hmiss
    refine h.1 (Lib.foldlM_eq_error.mpr ⟨pre, c, post, t, hcalls, hpre, ?_⟩)
    exact run_eq_inRef.mpr ⟨hin, hmiss⟩
  · intro h
    refine ⟨fun hfail ↦ ?_, fun pre c post t t' _ _ hin hcall hrun ↦ run_directory hin hcall hrun⟩
    obtain ⟨pre, c, post, t, hcalls, hpre, hc⟩ := Lib.foldlM_eq_error.mp hfail
    obtain ⟨hin, hmiss⟩ := run_eq_inRef.mp hc
    exact hmiss (h pre c post t hcalls hpre hin)

/-- `main.c -> main.o` with the given hashes of the target and of its rule. -/
def objectGraph (object rule : String) : Graph where
  node
    | 0 => { Node.create "main.c" true false with parentRules := [0] }
    | 1 => { Node.create "main.o" true false with
        childRule := some 0
        hash := object
        hashDepfile := object }
    | _ => Node.create "" true false
  rule
    | 0 => { Rule.create [0] [1] with
        command := "cc -c main.c"
        numInputsReady := 1
        hash := rule
        hashDepfile := rule }
    | _ => Rule.create [] []
  roots := {1}
  sources := {0}
  nodes := [("main.c", 0), ("main.o", 1)]
  rules := [0]
  allocated := {0, 1}

/-- The hashes for the source `int x;`. -/
def masterGraph : Graph :=
  objectGraph "8d263fefc0b3dff320f9d8c8c730317cd5ccca895e0d6204ca7f8711cad6d8d6"
    "9a948b8447b9ce3f19918938b2fec7acca7b02adf0fbce32b84a571b8f793c93"

def emptyDisk : Disk := ⟨fun _ ↦ none, fun _ ↦ 0, fun _ ↦ none, 0⟩

/-- `main.o` is built and saved on `master`; then `HEAD` is detached at the same
commit, and the target is fetched from the cache. -/
theorem not_worksOffRef_detached :
    ¬ ∀ A calls w, WorksOffRef A calls ⟨w, .create⟩ := by
  intro h
  refine (h .nextEntry [.gitUpdateRef (.reference "refs/heads/master"),
    .saveRule masterGraph 0, .gitUpdateRef .detached, .restoreNode masterGraph 1] emptyDisk).1 ?_
  rfl

end CacheManager.GitRefs

end Falcon
