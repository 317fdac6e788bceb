import Falcon.Lib.Trace
import Falcon.Stream.Chunks

/-!
# Concurrent calls of `startBuild`

The command server has a thread for every client.  `startBuild` tests
`isBuilding_` at its beginning and stores `true` only after its checks, so two
calls may both have passed the test.  There is one build at a time as long as
no call stores `true` where `true` is already stored.
-/

namespace Falcon

namespace Admission

inductive StartBuildResult where
  | ok
  | busy
  | error
  deriving DecidableEq

/-- The last step that a call of `startBuild` has made. -/
inductive Request where
  | called
  | tested
  | checked
  | stored
  | opened
  | returned (result : StartBuildResult)
  deriving DecidableEq

/-- The thread of a builder, before and after `endBuild`. -/
inductive BuilderThread where
  | running
  | ended
  deriving DecidableEq

/-- The fields of `DaemonInstance` that the calls share, and the calls. -/
structure System where
  isBuilding : Bool
  buildId : ℕ
  streamServer : StreamServer
  builder : Option BuilderThread
  requests : ℕ → Request

inductive Label where
  | test (i : ℕ)
  | check (i : ℕ)
  | store (i : ℕ)
  | newBuild (i : ℕ)
  | returns (i : ℕ) (result : StartBuildResult)
  | event (e : StreamServer.Event)
  | endBuild (result : BuildResult)
  | completed

namespace System

def start : System := ⟨false, 0, StreamServer.create, none, fun _ ↦ .called⟩

def goes (σ : System) (i : ℕ) (r : Request) : System :=
  { σ with requests := Function.update σ.requests i r }

/-- One step of a call, of the thread of a builder, or of the stream server. -/
inductive Step : System → Label → System → Prop
  | busy {σ i} (hi : σ.requests i = .called) (hbuilding : σ.isBuilding = true) :
      Step σ (.returns i .busy) (σ.goes i (.returned .busy))
  | test {σ i} (hi : σ.requests i = .called) (hbuilding : σ.isBuilding = false) :
      Step σ (.test i) (σ.goes i .tested)
  -- Git, a missing source file, an unknown target.
  | refuse {σ i} (hi : σ.requests i = .tested) :
      Step σ (.returns i .error) (σ.goes i (.returned .error))
  | check {σ i} (hi : σ.requests i = .tested) : Step σ (.check i) (σ.goes i .checked)
  | store {σ i} (hi : σ.requests i = .checked) :
      Step σ (.store i) { σ.goes i .stored with isBuilding := true }
  | newBuild {σ i s} (hi : σ.requests i = .stored)
      (hrun : StreamServer.newBuild σ.buildId σ.streamServer = .ok s) :
      Step σ (.newBuild i) { σ.goes i .opened with streamServer := s }
  -- An exception after the store leaves `isBuilding_` as it is.
  | fail {σ i} (hi : σ.requests i = .opened) :
      Step σ (.returns i .error) (σ.goes i (.returned .error))
  -- `builder_.reset` waits for the thread of the previous builder.
  | start {σ i} (hi : σ.requests i = .opened) (hjoined : σ.builder = none) :
      Step σ (.returns i .ok) { σ.goes i (.returned .ok) with builder := some .running }
  | event {σ p q s} {e : StreamServer.Event} (hfits : p.Fits σ.streamServer)
      (hpossible : e.Possible σ.streamServer p q)
      (hwithin : ∀ op, e = .write op → op.IsChunk) (hrun : e.run σ.streamServer = .ok s) :
      Step σ (.event e) { σ with streamServer := s }
  | endBuild {σ s result} (hrunning : σ.builder = some .running) (hbuilding : σ.isBuilding = true)
      (hrun : StreamServer.endBuild result σ.streamServer = .ok s) :
      Step σ (.endBuild result) { σ with streamServer := s, builder := some .ended }
  | completed {σ} (hended : σ.builder = some .ended) :
      Step σ .completed { σ with buildId := σ.buildId + 1, isBuilding := false, builder := none }

/-- A step that does not store `true` over `true`. -/
def OrderlyStep (σ : System) (l : Label) (τ : System) : Prop :=
  Step σ l τ ∧ ∀ i, l = .store i → σ.isBuilding = false

end System

/-! ## The sequential machine -/

/-- Who is building, if there is one build at a time.  A build that has failed
to start never ends. -/
inductive Stage where
  | idle
  | stored (i : ℕ)
  | opened (i : ℕ)
  | failed
  | running
  | ended
  deriving DecidableEq

namespace Stage

inductive Step : Stage → Label → Stage → Prop
  | store (i) : Step .idle (.store i) (.stored i)
  | newBuild (i) : Step (.stored i) (.newBuild i) (.opened i)
  | fail (i) : Step (.opened i) (.returns i .error) .failed
  | start (i) : Step (.opened i) (.returns i .ok) .running
  | endBuild (result) : Step .running (.endBuild result) .ended
  | completed : Step .ended .completed .idle
  | test (stage i) : Step stage (.test i) stage
  | check (stage i) : Step stage (.check i) stage
  | busy (stage i) : Step stage (.returns i .busy) stage
  | refuse (stage i) : Step stage (.returns i .error) stage
  | event (stage e) : Step stage (.event e) stage

def isBuilding : Stage → Bool
  | .idle => false
  | _ => true

def builder : Stage → Option BuilderThread
  | .running => some .running
  | .ended => some .ended
  | _ => none

/-- The document of a build is open. -/
def writing : Stage → Bool
  | .opened _ | .failed | .running => true
  | _ => false

/-- The number of calls that have returned `OK` since the last completion. -/
def admitted : Stage → ℕ
  | .running | .ended => 1
  | _ => 0

end Stage

def Label.isOk : Label → Bool
  | .returns _ .ok => true
  | _ => false

def Label.isCompleted : Label → Bool
  | .completed => true
  | _ => false

namespace Stage

variable {stage stage' : Stage} {trace : List Label}

theorem Step.admitted {l : Label} (h : Step stage l stage') (hl : l.isCompleted = false) :
    stage.admitted + (if l.isOk then 1 else 0) = stage'.admitted := by
  cases h with
  | completed => cases hl
  | _ => rfl

/-- Without a completion the machine admits one build. -/
theorem admitted_trace (h : Lib.Trace Step stage trace stage')
    (hl : ∀ l ∈ trace, l.isCompleted = false) :
    stage.admitted + trace.countP Label.isOk = stage'.admitted := by
  induction h with
  | nil => rfl
  | @snoc as a t u _ hstep ih =>
      have hbefore := ih fun l hmem ↦ hl l (List.mem_append_left _ hmem)
      have hlast := hstep.admitted (hl a (List.mem_append_right _ (List.mem_singleton_self a)))
      rw [List.countP_append, List.countP_singleton, ← Nat.add_assoc, hbefore]
      exact hlast

theorem admitted_le_one (stage : Stage) : stage.admitted ≤ 1 := by
  cases stage <;> simp [admitted]

end Stage

/-! ## Refinement -/

namespace System

/-- The calls are where the sequential machine is. -/
structure At (σ : System) (stage : Stage) : Prop where
  isBuilding : σ.isBuilding = stage.isBuilding
  builder : σ.builder = stage.builder
  stored : ∀ i, σ.requests i = .stored ↔ stage = .stored i
  opened : ∀ i, σ.requests i = .opened ↔ stage = .opened i
  kept : σ.streamServer.Kept
  idle : stage.writing = false → StreamServer.Phase.idle.Fits σ.streamServer
  writing : stage.writing = true →
    ∃ announced, (StreamServer.Phase.building announced).Fits σ.streamServer

theorem at_start : At start .idle where
  isBuilding := rfl
  builder := rfl
  stored i := by simp [start]
  opened i := by simp [start]
  kept := StreamServer.kept_create
  idle _ := by
    intro b hb
    cases hb
  writing h := by cases h

variable {σ τ : System} {stage : Stage} {i : ℕ} {l : Label}

/-- A call that is not between its store and its return plays no part. -/
theorem At.goes (h : At σ stage) {r : Request} (hi : σ.requests i ≠ .stored)
    (hi' : σ.requests i ≠ .opened) (hr : r ≠ .stored) (hr' : r ≠ .opened) :
    At (σ.goes i r) stage where
  isBuilding := h.isBuilding
  builder := h.builder
  stored j := by
    by_cases hj : j = i
    · subst hj
      simp [System.goes, hr, ← h.stored, hi]
    · simp [System.goes, hj, ← h.stored]
  opened j := by
    by_cases hj : j = i
    · subst hj
      simp [System.goes, hr', ← h.opened, hi']
    · simp [System.goes, hj, ← h.opened]
  kept := h.kept
  idle := h.idle
  writing := h.writing

theorem At.store (h : At σ stage) (hbuilding : σ.isBuilding = false) (i : ℕ) :
    stage = .idle ∧ At { σ.goes i .stored with isBuilding := true } (.stored i) := by
  have hidle : stage = .idle := by
    have hstage := h.isBuilding.symm.trans hbuilding
    cases stage with
    | idle => rfl
    | _ => cases hstage
  subst hidle
  refine ⟨rfl, rfl, h.builder, ?_, ?_, h.kept, fun _ ↦ h.idle rfl, nofun⟩
  · intro j
    have hj := h.stored j
    by_cases hij : j = i
    · simp [System.goes, hij]
    · simpa [System.goes, hij, Ne.symm hij] using hj
  · intro j
    have hj := h.opened j
    by_cases hij : j = i
    · simp [System.goes, hij]
    · simpa [System.goes, hij] using hj

/-- `newBuild` is called when the previous build is completed. -/
theorem At.newBuild_returns (h : At σ (.stored i)) :
    (∀ front ∈ σ.streamServer.builds.head?, front.buildCompleted = true) ∧
      ∃ s, StreamServer.newBuild σ.buildId σ.streamServer = .ok s ∧ s.Kept ∧
        ∃ announced, (StreamServer.Phase.building announced).Fits s := by
  have hfits := h.idle rfl
  have hnext : StreamServer.Phase.idle.next (.newBuild σ.buildId) = some (.building false) := rfl
  obtain ⟨s, hrun, hkept, hfits', -⟩ := h.kept.write hfits hnext
  exact ⟨hfits, s, hrun, hkept, false, hfits'⟩

theorem At.newBuild (h : At σ stage) (hi : σ.requests i = .stored) {s : StreamServer}
    (hrun : StreamServer.newBuild σ.buildId σ.streamServer = .ok s) :
    stage = .stored i ∧ At { σ.goes i .opened with streamServer := s } (.opened i) := by
  obtain rfl := (h.stored i).mp hi
  obtain ⟨-, s', hrun', hkept, hfits⟩ := h.newBuild_returns
  obtain rfl := Except.ok.inj (hrun'.symm.trans hrun)
  refine ⟨rfl, h.isBuilding, h.builder, ?_, ?_, hkept, nofun, fun _ ↦ hfits⟩
  · intro j
    have hj := h.stored j
    by_cases hij : j = i
    · simp [System.goes, hij]
    · simpa [System.goes, hij, Ne.symm hij] using hj
  · intro j
    have hj := h.opened j
    by_cases hij : j = i
    · simp [System.goes, hij]
    · simpa [System.goes, hij, Ne.symm hij] using hj

/-- The call that has opened the document returns. -/
theorem At.leaves (h : At σ (.opened i)) (r : StartBuildResult) (stage' : Stage)
    (hbuilding : stage'.isBuilding = true) (hwriting : stage'.writing = true)
    (hstored : ∀ j, stage' ≠ .stored j) (hopened : ∀ j, stage' ≠ .opened j) :
    At { σ.goes i (.returned r) with builder := stage'.builder } stage' := by
  refine ⟨h.isBuilding.trans hbuilding.symm, rfl, ?_, ?_, h.kept, ?_, fun _ ↦ h.writing rfl⟩
  · intro j
    have hj := h.stored j
    by_cases hij : j = i
    · simp [System.goes, hij, hstored]
    · simpa [System.goes, hij, hstored] using hj
  · intro j
    have hj := h.opened j
    by_cases hij : j = i
    · simp [System.goes, hij, hopened]
    · simpa [System.goes, hij, Ne.symm hij, hopened] using hj
  · intro hnot
    rw [hwriting] at hnot
    cases hnot

/-- Within a build, and between builds, the phase stays what it is. -/
theorem within_phase {s : StreamServer} {p q : StreamServer.Phase} {e : StreamServer.Event}
    (hpossible : e.Possible s p q) (hwithin : ∀ op, e = .write op → op.IsChunk) :
    q = p ∨ ∃ announced announced', p = .building announced ∧ q = .building announced' := by
  cases e with
  | accept fd => exact Or.inl hpossible.2
  | process fd results => exact Or.inl hpossible.2
  | write op =>
      have hchunk := hwithin op rfl
      cases p with
      | idle =>
          cases op with
          | newBuild buildId => cases hchunk
          | _ => cases hpossible
      | building announced =>
          refine Or.inr ⟨announced, ?_⟩
          cases op with
          | newBuild buildId => cases hchunk
          | endBuild result => cases hchunk
          | newCommand cmdId cmd => exact ⟨true, rfl, (Option.some.inj hpossible).symm⟩
          | cacheRetrieveAction path => exact ⟨true, rfl, (Option.some.inj hpossible).symm⟩
          | endCommand cmdId status =>
              cases announced with
              | true => exact ⟨true, rfl, (Option.some.inj hpossible).symm⟩
              | false => exact ⟨false, rfl, (Option.some.inj hpossible).symm⟩
          | _ =>
              cases announced with
              | true => exact ⟨true, rfl, (Option.some.inj hpossible).symm⟩
              | false => cases hpossible

/-- A build that is going on is not between builds. -/
theorem not_idle_of_building {s : StreamServer} {announced : Bool}
    (h : (StreamServer.Phase.building announced).Fits s) : ¬ StreamServer.Phase.idle.Fits s := by
  obtain ⟨front, hfront, hincomplete, -⟩ := h
  intro hidle
  rw [hidle front hfront] at hincomplete
  cases hincomplete

/-- An event of the stream server other than the calls for a whole build. -/
theorem At.event (h : At σ stage) {p q : StreamServer.Phase} {e : StreamServer.Event}
    {s : StreamServer} (hfits : p.Fits σ.streamServer)
    (hpossible : e.Possible σ.streamServer p q) (hwithin : ∀ op, e = .write op → op.IsChunk)
    (hrun : e.run σ.streamServer = .ok s) : At { σ with streamServer := s } stage := by
  obtain ⟨s', hrun', hkept, hfits', -⟩ := h.kept.run hfits hpossible
  obtain rfl := Except.ok.inj (hrun'.symm.trans hrun)
  refine ⟨h.isBuilding, h.builder, h.stored, h.opened, hkept, ?_, ?_⟩
  · intro hidle
    rcases within_phase hpossible hwithin with rfl | ⟨announced, -, rfl, -⟩
    · cases q with
      | idle => exact hfits'
      | building announced => exact absurd (h.idle hidle) (not_idle_of_building hfits)
    · exact absurd (h.idle hidle) (not_idle_of_building hfits)
  · intro hwriting
    obtain ⟨announced, hopen⟩ := h.writing hwriting
    rcases within_phase hpossible hwithin with rfl | ⟨-, announced', -, rfl⟩
    · cases q with
      | idle => exact absurd hfits (not_idle_of_building hopen)
      | building announced' => exact ⟨announced', hfits'⟩
    · exact ⟨announced', hfits'⟩

theorem At.endBuild (h : At σ stage) (hrunning : σ.builder = some .running) {s : StreamServer}
    {result : BuildResult} (hrun : StreamServer.endBuild result σ.streamServer = .ok s) :
    stage = .running ∧ At { σ with streamServer := s, builder := some .ended } .ended := by
  have hstage : stage = .running := by
    have hbuilder := h.builder.symm.trans hrunning
    cases stage with
    | running => rfl
    | _ => cases hbuilder
  subst hstage
  obtain ⟨announced, hfits⟩ := h.writing rfl
  have hnext : (StreamServer.Phase.building announced).next (.endBuild result) = some .idle := by
    cases announced <;> rfl
  obtain ⟨s', hrun', hkept, hfits', -⟩ := h.kept.write hfits hnext
  obtain rfl := Except.ok.inj (hrun'.symm.trans hrun)
  refine ⟨rfl, h.isBuilding, rfl, ?_, ?_, hkept, fun _ ↦ hfits', nofun⟩
  · intro j
    simpa using h.stored j
  · intro j
    simpa using h.opened j

theorem At.completed (h : At σ stage) (hended : σ.builder = some .ended) : stage = .ended ∧
    At { σ with buildId := σ.buildId + 1, isBuilding := false, builder := none } .idle := by
  have hstage : stage = .ended := by
    have hbuilder := h.builder.symm.trans hended
    cases stage with
    | ended => rfl
    | _ => cases hbuilder
  subst hstage
  refine ⟨rfl, rfl, rfl, ?_, ?_, h.kept, fun _ ↦ h.idle rfl, nofun⟩
  · intro j
    simpa using h.stored j
  · intro j
    simpa using h.opened j

/-- An orderly step is one of the sequential machine. -/
theorem At.step (h : At σ stage) (hstep : OrderlyStep σ l τ) :
    ∃ stage', Stage.Step stage l stage' ∧ At τ stage' := by
  obtain ⟨hstep, horderly⟩ := hstep
  cases hstep with
  | busy hi hbuilding =>
      exact ⟨stage, .busy stage _, h.goes (by simp [hi]) (by simp [hi]) (by simp) (by simp)⟩
  | test hi hbuilding =>
      exact ⟨stage, .test stage _, h.goes (by simp [hi]) (by simp [hi]) (by simp) (by simp)⟩
  | refuse hi =>
      exact ⟨stage, .refuse stage _, h.goes (by simp [hi]) (by simp [hi]) (by simp) (by simp)⟩
  | check hi =>
      exact ⟨stage, .check stage _, h.goes (by simp [hi]) (by simp [hi]) (by simp) (by simp)⟩
  | @store i hi =>
      obtain ⟨rfl, hat⟩ := h.store (horderly i rfl) i
      exact ⟨_, .store i, hat⟩
  | @newBuild i s hi hrun =>
      obtain ⟨rfl, hat⟩ := h.newBuild hi hrun
      exact ⟨_, .newBuild i, hat⟩
  | @fail i hi =>
      obtain rfl := (h.opened i).mp hi
      have hat := h.leaves .error .failed rfl rfl nofun nofun
      have hbuilder : σ.builder = Stage.failed.builder := h.builder
      rw [← hbuilder] at hat
      exact ⟨_, .fail i, hat⟩
  | @start i hi hjoined =>
      obtain rfl := (h.opened i).mp hi
      exact ⟨_, .start i, h.leaves .ok .running rfl rfl nofun nofun⟩
  | event hfits hpossible hwithin hrun =>
      exact ⟨stage, .event stage _, h.event hfits hpossible hwithin hrun⟩
  | endBuild hrunning hbuilding hrun =>
      obtain ⟨rfl, hat⟩ := h.endBuild hrunning hrun
      exact ⟨_, .endBuild _, hat⟩
  | completed hended =>
      obtain ⟨rfl, hat⟩ := h.completed hended
      exact ⟨_, .completed, hat⟩

/-- In a run in which no call stores `true` where `true` is stored already, at
most one call returns `OK` between two completions, and `newBuild` is only
called when the build in front is completed, and returns. -/
theorem one_build_at_a_time {trace : List Label} (hrun : Lib.Trace OrderlyStep start trace σ) :
    (∀ before between rest, trace = before ++ between ++ rest →
      (∀ l ∈ between, l.isCompleted = false) → between.countP Label.isOk ≤ 1) ∧
    ∀ i, σ.requests i = .stored →
      (∀ front ∈ σ.streamServer.builds.head?, front.buildCompleted = true) ∧
        ∃ s, StreamServer.newBuild σ.buildId σ.streamServer = .ok s := by
  obtain ⟨stage, hstages, hat⟩ := hrun.simulate At at_start fun _ _ _ _ hat hstep ↦ hat.step hstep
  constructor
  · rintro before between rest rfl hl
    obtain ⟨stage₂, hprefix, -⟩ := hstages.of_append
    obtain ⟨stage₁, -, hbetween⟩ := hprefix.of_append
    have hcount := Stage.admitted_trace hbetween hl
    have hle := stage₂.admitted_le_one
    omega
  · intro i hi
    obtain rfl := (hat.stored i).mp hi
    obtain ⟨hfront, s, hnew, -⟩ := hat.newBuild_returns
    exact ⟨hfront, s, hnew⟩

/-! ## Two calls -/

/-- Both calls have passed the test before one of them stores `true`. -/
theorem two_calls_stored : ∃ trace σ, Lib.Trace Step start trace σ ∧ σ.requests 1 = .stored ∧
    ∃ front ∈ σ.streamServer.builds.head?, front.buildCompleted = false := by
  have htest : Lib.Trace Step start _ _ :=
    (Lib.Trace.nil.snoc (.test (i := 0) rfl rfl)).snoc (.test (i := 1) rfl rfl)
  have hcheck := (htest.snoc (.check (i := 0) rfl)).snoc (.check (i := 1) rfl)
  have hstore := (hcheck.snoc (.store (i := 0) rfl)).snoc (.store (i := 1) rfl)
  exact ⟨_, _, hstore.snoc (.newBuild (i := 0) rfl rfl), rfl, _, rfl, rfl⟩

theorem not_one_build_at_a_time : ¬ ∀ (trace : List Label) (σ : System),
    Lib.Trace Step start trace σ →
      (∀ before between rest, trace = before ++ between ++ rest →
        (∀ l ∈ between, l.isCompleted = false) → between.countP Label.isOk ≤ 1) ∧
      ∀ i, σ.requests i = .stored →
        ∀ front ∈ σ.streamServer.builds.head?, front.buildCompleted = true := by
  intro h
  obtain ⟨trace, σ, hrun, hstored, front, hfront, hincomplete⟩ := two_calls_stored
  have hcompleted := (h trace σ hrun).2 1 hstored front hfront
  rw [hincomplete] at hcompleted
  cases hcompleted

/-- A second call is refused while the first one is between its store and
`newBuild`. -/
theorem one_build_of_two_calls : ∃ trace σ, Lib.Trace OrderlyStep start trace σ ∧
    σ.requests 1 = .returned .busy ∧
      ∃ s, StreamServer.newBuild σ.buildId σ.streamServer = .ok s := by
  have hchecked : Lib.Trace OrderlyStep start _ _ :=
    (Lib.Trace.nil.snoc ⟨.test (i := 0) rfl rfl, nofun⟩).snoc ⟨.check (i := 0) rfl, nofun⟩
  have hstored := hchecked.snoc ⟨.store (i := 0) rfl, fun _ _ ↦ rfl⟩
  have hbusy := hstored.snoc ⟨.busy (i := 1) rfl rfl, nofun⟩
  exact ⟨_, _, hbusy, rfl, ((one_build_at_a_time hbusy).2 0 rfl).2⟩

end System

end Admission

end Falcon
