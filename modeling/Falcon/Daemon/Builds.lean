import Falcon.Build.ThreadWrites
import Falcon.Build.Topmost
import Falcon.Daemon.SetDirty
import Falcon.Build.Progress
import Falcon.Stream.Archive

/-!
# The builds of a daemon

A daemon makes one build after the other.  The thread of the builder tells the stream server
what it does, the thread of the server deals with the clients in the meantime, and between
builds the daemon is told about changes.  The requests come one after the other, each when the
one before has been dealt with, and raising the event pipe does not block.
-/

namespace Falcon

open Lib.Json StreamServer BuildThread

/-- What a build that is over has told the stream server, and its result. -/
structure CompletedBuild where
  writes : List Write
  result : BuildResult

/-- Where a build is.  The thread of the builder has locked the graph before the next request
comes, and `isBuilding_` is false at `idle` only. -/
inductive BuildStage (ω : Type) where
  | idle
  | building (t : BuildThread ω)
  | ended (build : CompletedBuild)
  | told

/-- `calls` are the calls of the consumer that are to be made before anything else. -/
structure DaemonInstance (ω : Type) where
  daemon : Daemon ω
  buildId : ℕ
  stage : BuildStage ω
  calls : List Write
  streamServer : Polling

namespace DaemonInstance

/-- What happens next: a request of a client, a change of the world, a step of the thread of the
builder, or one of the thread of the stream server. -/
inductive Act (ω : Type) where
  | startBuild (targets : List String) (numThreads : Int32) (lazyFetch : Bool)
  | setDirty (target : String)
  | environment (f : ω → ω)
  | call
  | build (c : ThreadChoice ω)
  | client (poll : PollResult) (accept : AcceptResult) (results : ℕ → SendResult)

/-- The answers to requests, the builds that are over, and what is done for the clients of the
stream server. -/
inductive Event where
  | refused (message : String)
  | busy
  | ok
  | completed (build : CompletedBuild)
  | delivered (d : Delivery)

def Event.build? : Event → Option CompletedBuild
  | .completed build => some build
  | _ => none

/-- The builds that are over, in their order. -/
def completedBuilds (evs : List Event) : List CompletedBuild := evs.filterMap Event.build?

def Event.delivery? : Event → Option Delivery
  | .delivered d => some d
  | _ => none

/-- What has been handed to the socket of each client since it was accepted. -/
def received (evs : List Event) : ℕ → List UInt8 :=
  (evs.filterMap Event.delivery?).foldl Delivery.receive fun _ ↦ []

variable {ω : Type} (P : Platform ω) (C : DaemonConfig ω) (fuel : ℕ)

def create (d : Daemon ω) (serverSocket eventFd : ℕ) : DaemonInstance ω where
  daemon := d
  buildId := 0
  stage := .idle
  calls := []
  streamServer := .create serverSocket eventFd

/-- `startBuild` of an idle daemon up to `isBuilding_`: what it throws leaves the daemon idle. -/
def checkTargets (d : Daemon ω) (targets : List String) : Outcome (Finset NodeId) := do
  d.checkSourcesMissing
  Daemon.targetsToBuild d.graph targets

/-- The rest of `startBuild`. -/
def startBuild (σ : DaemonInstance ω) (T : Finset NodeId) (numThreads : Int32)
    (lazyFetch : Bool) : Outcome (DaemonInstance ω) := do
  let (fetched, g, w) ← (if lazyFetch then
      LazyCache.fetchReporting P σ.daemon.graph σ.daemon.world (T.sort (· ≤ ·))
    else pure ([], σ.daemon.graph, σ.daemon.world))
  let p ← BuildPlan.create g T
  let writes := fetched.map fun n ↦ .cacheRetrieveAction (g.node n).path
  pure { σ with
    daemon := { σ.daemon with graph := g, world := w }
    stage := .building (.create g p w (sizeOfInt32 numThreads) writes)
    calls := .newBuild σ.buildId :: writes }

/-- A call of the consumer. -/
def tell (σ : DaemonInstance ω) (op : Write) : Outcome (DaemonInstance ω) := do
  let (_, s) ← σ.streamServer.step (.write op)
  pure { σ with streamServer := s }

/-- A step of the thread of the builder, with `onBuildCompleted`. -/
def build (σ : DaemonInstance ω) (c : ThreadChoice ω) :
    Outcome (List Event × DaemonInstance ω) :=
  match σ.stage with
  | .idle => pure ([], σ)
  | .building t =>
    if σ.calls ≠ [] then pure ([], σ)
    else if t.builder.phase = .finished then
      pure ([], { σ with
        daemon := { σ.daemon with graph := t.builder.graph, world := t.builder.world }
        stage := .ended ⟨t.writes, t.builder.result⟩ })
    else do
      let (_, t') ← t.step P c
      pure ([], { σ with stage := .building t', calls := t'.writes.drop t.writes.length })
  | .ended build => do
    let σ ← σ.tell (.endBuild build.result)
    pure ([.completed build], { σ with stage := .told })
  | .told => pure ([], { σ with buildId := (σ.buildId + 1) % 2 ^ 32, stage := .idle })

/-- What is asked for while the graph is locked waits. -/
def step (σ : DaemonInstance ω) : Act ω → Outcome (List Event × DaemonInstance ω)
  | .startBuild targets numThreads lazyFetch =>
    match σ.stage with
    | .idle =>
      match checkTargets σ.daemon targets with
      | .error (.exception message) => pure ([.refused message], σ)
      | .error failure => .error failure
      | .ok T => do
        let σ ← σ.startBuild P T numThreads lazyFetch
        pure ([.ok], σ)
    | _ => pure ([.busy], σ)
  | .setDirty target =>
    match σ.stage with
    | .building _ => pure ([], σ)
    | _ =>
      if target ≠ C.jsonGraphFile ∧ σ.daemon.graph.nodes.lookup target = none then
        pure ([.refused "TargetNotFound"], σ)
      else do
        let d ← Daemon.setDirty P C fuel σ.daemon target
        pure ([], { σ with daemon := d })
  | .environment f =>
    match σ.stage with
    | .building _ => pure ([], σ)
    | _ => pure ([], { σ with daemon := { σ.daemon with world := f σ.daemon.world } })
  | .call =>
    match σ.calls with
    | [] => pure ([], σ)
    | op :: calls => do
      let σ ← σ.tell op
      pure ([], { σ with calls := calls })
  | .build c => σ.build P c
  | .client poll accept results => do
    let (treated, s) ← σ.streamServer.step (.thread poll accept results)
    pure ((σ.streamServer.deliveries accept treated).map .delivered, { σ with streamServer := s })

/-- The calls of the build that is going on which the server has carried out, `newBuild` left
out. -/
def told (σ : DaemonInstance ω) : List Write :=
  match σ.stage with
  | .building t => t.writes.take (t.writes.length - σ.calls.length)
  | .ended build => build.writes
  | _ => []

/-- New processes get addresses and pipes that are not in use, a build has at most `2 ^ 32`
commands, and `accept` returns a descriptor that is not in use. -/
def Possible (σ : DaemonInstance ω) : Act ω → Prop
  | .build c => ∀ t, σ.stage = .building t → t.Fresh c ∧ (announcements t.writes).length < 2 ^ 32
  | .client poll accept results => σ.streamServer.Possible (.thread poll accept results)
  | _ => True

end DaemonInstance

/-! ## The documents -/

namespace CompletedBuild

def text (buildId : ℕ) (b : CompletedBuild) : List UInt8 :=
  header buildId ++ chunks b.writes ++ footer b.result

/-- The calls came in the order that the stream server relies on, and every command has ended. -/
structure Whole (b : CompletedBuild) : Prop where
  follows : Lib.Follows (fun pre op ↦ op.Allowed pre) b.writes
  perm : (announcements b.writes).Perm (ends b.writes)

theorem Whole.isChunk {b : CompletedBuild} (h : b.Whole) : ∀ op ∈ b.writes, op.IsChunk := by
  intro op hop
  obtain ⟨pre, post, hsplit⟩ := List.append_of_mem hop
  exact (h.follows pre op post hsplit).isChunk

end CompletedBuild

/-- The documents of the builds of a daemon, whose numbers are kept in an `unsigned int`. -/
def documents (builds : List CompletedBuild) : List (List UInt8) :=
  builds.mapIdx fun i b ↦ b.text (i % 2 ^ 32)

theorem documents_concat (builds : List CompletedBuild) (b : CompletedBuild) :
    documents (builds ++ [b]) = documents builds ++ [b.text (builds.length % 2 ^ 32)] :=
  List.mapIdx_concat

theorem length_documents (builds : List CompletedBuild) :
    (documents builds).length = builds.length := List.length_mapIdx

theorem build_of_document {builds : List CompletedBuild} {i : ℕ} {text : List UInt8}
    (h : (documents builds)[i]? = some text) :
    ∃ b, builds[i]? = some b ∧ text = b.text (i % 2 ^ 32) := by
  rw [documents, List.getElem?_mapIdx, Option.map_eq_some_iff] at h
  obtain ⟨b, hb, htext⟩ := h
  exact ⟨b, hb, htext.symm⟩

/-! ## The invariant -/

namespace BuildThread

variable {ω : Type} {P : Platform ω} {t t' : BuildThread ω} {c : ThreadChoice ω} {n : ℕ}

/-- A step announces one command at most. -/
theorem Moves.length_announcements (h : Moves t c t') :
    (announcements t'.writes).length ≤ (announcements t.writes).length + 1 := by
  cases h with
  | quiet _ hwrites hws _ =>
      rw [hwrites, announcements_append, (quiet_of_retrieved hws).1.announcements, List.append_nil]
      exact Nat.le_succ _
  | spawned _ _ hwrites _ =>
      rw [hwrites, announcements_append, List.length_append]
      exact le_rfl
  | @ended proc res _ _ hwrites _ =>
      have hquiet : Quiet ((t'.manager.output.drop t.manager.output.length).map
          CommandOutput.write) := by
        intro op hop
        obtain ⟨⟨cmdId, isStdout, buf⟩, -, rfl⟩ := List.mem_map.mp hop
        cases isStdout <;> exact ⟨rfl, rfl⟩
      have hend : announcements [.endCommand res.cmdId res.status] = [] := rfl
      rw [hwrites, BuildThread.ended, announcements_append, announcements_append,
        hquiet.announcements, hend, List.append_nil, List.append_nil]
      exact Nat.le_succ _

/-- At the end of the thread every command has ended. -/
theorem Telling.whole (h : t.Telling n) (hphase : t.builder.phase = .finished)
    (result : BuildResult) : CompletedBuild.Whole ⟨t.writes, result⟩ := by
  refine ⟨h.told.follows, ?_⟩
  have hnone := h.finished hphase
  have hperm := h.told.perm
  rw [← PosixSubProcessManager.length_ids] at hnone
  rwa [List.eq_nil_of_length_eq_zero hnone, List.append_nil] at hperm

end BuildThread

namespace DaemonInstance

variable {ω : Type} {P : Platform ω} {C : DaemonConfig ω} {fuel : ℕ} {σ σ' : DaemonInstance ω}
  {builds : List CompletedBuild} {evs : List Event} {act : Act ω}

/-- Where the calls and the stream server are in each stage of a build. -/
inductive Placed (builds : List CompletedBuild) (buildId : ℕ) :
    BuildStage ω → List Write → Polling → Prop
  | idle {s} (hid : buildId = builds.length % 2 ^ 32) (hdaemon : s.daemon = .idle)
      (hfiled : Filed (documents builds) s.server) : Placed builds buildId .idle [] s
  | opening {t n s} (hid : buildId = builds.length % 2 ^ 32) (hdaemon : s.daemon = .idle)
      (hfiled : Filed (documents builds) s.server) (htelling : t.Telling n) :
      Placed builds buildId (.building t) (.newBuild buildId :: t.writes) s
  | building {t n told calls s} (hid : buildId = builds.length % 2 ^ 32)
      (hwrites : t.writes = told ++ calls) (hdaemon : s.daemon = .building !told.isEmpty)
      (hwritten : Written buildId told s.server)
      (hfiling : Filing (documents builds) s.server) (htelling : t.Telling n) :
      Placed builds buildId (.building t) calls s
  | ended {build s} (hid : buildId = builds.length % 2 ^ 32) (hwhole : build.Whole)
      (hdaemon : s.daemon = .building !build.writes.isEmpty)
      (hwritten : Written buildId build.writes s.server)
      (hfiling : Filing (documents builds) s.server) : Placed builds buildId (.ended build) [] s
  | told {s} (hid : (buildId + 1) % 2 ^ 32 = builds.length % 2 ^ 32) (hdaemon : s.daemon = .idle)
      (hfiled : Filed (documents builds) s.server) : Placed builds buildId .told [] s

structure Sound (builds : List CompletedBuild) (σ : DaemonInstance ω) : Prop where
  polling : σ.streamServer.Sound
  whole : ∀ b ∈ builds, b.Whole
  placed : Placed builds σ.buildId σ.stage σ.calls σ.streamServer

theorem sound_create (d : Daemon ω) {serverSocket eventFd : ℕ}
    (hdistinct : serverSocket ≠ eventFd) : Sound [] (create d serverSocket eventFd) :=
  ⟨Polling.sound_create hdistinct, by simp, .idle rfl rfl filed_create⟩

theorem completedBuilds_append (evs evs' : List Event) :
    completedBuilds (evs ++ evs') = completedBuilds evs ++ completedBuilds evs' :=
  List.filterMap_append ..

/-- No build is over. -/
theorem Sound.quiet {evs' : List Event} {σ₁ : DaemonInstance ω} (h : Sound builds σ₁)
    (hevs : completedBuilds evs' = [])
    (hrun : (pure (evs', σ₁) : Outcome (List Event × DaemonInstance ω)) = .ok (evs, σ')) :
    Sound (builds ++ completedBuilds evs) σ' := by
  obtain ⟨rfl, rfl⟩ := Prod.mk.inj (Except.ok.inj hrun)
  rwa [hevs, List.append_nil]

theorem completedBuilds_delivered (ds : List Delivery) :
    completedBuilds (ds.map .delivered) = [] := by
  rw [completedBuilds, List.filterMap_map]
  exact List.filterMap_eq_nil_iff.mpr fun _ _ ↦ rfl

/-- The graph and the world do not matter. -/
theorem Sound.setDaemon (h : Sound builds σ) (d : Daemon ω) :
    Sound builds { σ with daemon := d } := ⟨h.polling, h.whole, h.placed⟩

/-- A step of the thread of the stream server. -/
theorem Sound.client (h : Sound builds σ) {poll : PollResult} {accept : AcceptResult}
    {results : ℕ → SendResult} {treated : List Treated} {s : Polling}
    (hpossible : σ.streamServer.Possible (.thread poll accept results))
    (hrun : σ.streamServer.step (.thread poll accept results) = .ok (treated, s)) :
    Sound builds { σ with streamServer := s } := by
  obtain ⟨hdaemon, hstep⟩ := h.polling.clientStep hpossible hrun
  obtain ⟨hkeeps, hsame⟩ := h.polling.kept.clientStep hstep
  have hsound : s.Sound := by
    rcases h.polling.step hpossible with ⟨message, -, herror⟩ | ⟨evs, s₁, hok, hsound, -⟩
    · cases herror.symm.trans hrun
    · obtain ⟨-, rfl⟩ := Prod.mk.inj (Except.ok.inj (hok.symm.trans hrun))
      exact hsound
  refine ⟨hsound, h.whole, ?_⟩
  have hreachable := hsound.reachable
  rw [hdaemon] at hreachable
  have hplaced := h.placed
  obtain ⟨d, buildId, stage, calls, s₀⟩ := σ
  simp only at hplaced hdaemon hkeeps hsame hreachable ⊢
  cases hplaced with
  | idle hid hidle hfiled => exact .idle hid (hdaemon.trans hidle) (hfiled.keeps hkeeps)
  | opening hid hidle hfiled htelling =>
      exact .opening hid (hdaemon.trans hidle) (hfiled.keeps hkeeps) htelling
  | building hid hwrites hbuilding hwritten hfiling htelling =>
      rw [hbuilding] at hreachable
      exact .building hid hwrites (hdaemon.trans hbuilding) (hwritten.client hsame hreachable)
        (hfiling.onlyFront (hkeeps.onlyFront hsame)) htelling
  | ended hid hwhole hbuilding hwritten hfiling =>
      rw [hbuilding] at hreachable
      exact .ended hid hwhole (hdaemon.trans hbuilding) (hwritten.client hsame hreachable)
        (hfiling.onlyFront (hkeeps.onlyFront hsame))
  | told hid hidle hfiled => exact .told hid (hdaemon.trans hidle) (hfiled.keeps hkeeps)

theorem tell_eq {op : Write} {q : StreamServer.Phase} {server : StreamServer}
    (hnext : σ.streamServer.daemon.next op = some q)
    (hrun : σ.streamServer.server.write op = .ok server) : σ.tell op =
      .ok { σ with streamServer := { σ.streamServer with server := server, daemon := q } } := by
  rw [tell, Polling.step, hrun, hnext]
  rfl

/-- The next call of the consumer is carried out. -/
theorem Sound.call (h : Sound builds σ) {op : Write} {calls : List Write}
    (hcalls : σ.calls = op :: calls) :
    ∃ σ', σ.tell op = .ok σ' ∧ Sound builds { σ' with calls := calls } := by
  obtain ⟨d, buildId, stage, calls', s⟩ := σ
  simp only at hcalls
  subst hcalls
  obtain ⟨hsound, hwhole, hplaced⟩ := h
  simp only at hsound hplaced
  cases hplaced with
  | @opening t n _ hid hidle hfiled htelling =>
      have hnext : s.daemon.next (.newBuild buildId) = some (.building false) := by
        rw [hidle]
        rfl
      obtain ⟨server, hrun, hsound'⟩ := hsound.write hnext
      have hreachable := hsound.reachable
      rw [hidle] at hreachable
      refine ⟨_, tell_eq hnext hrun, hsound', hwhole, ?_⟩
      have hwrites : t.writes = [] ++ t.writes := rfl
      exact .building hid hwrites rfl (written_newBuild hreachable hrun)
        (hfiled.newBuild hrun) htelling
  | @building t n told _ _ hid hwrites hbuilding hwritten hfiling htelling =>
      have hop : op.Allowed told := htelling.told.follows told op calls hwrites
      have hnext : s.daemon.next op = some (.building true) := by
        rw [hbuilding]
        exact hop.next
      obtain ⟨server, hrun, hsound'⟩ := hsound.write hnext
      refine ⟨_, tell_eq hnext hrun, hsound', hwhole, ?_⟩
      have hwrites' : t.writes = (told ++ [op]) ++ calls := by
        rw [hwrites, List.append_assoc]
        rfl
      refine .building hid hwrites' ?_ (hwritten.write hop hrun)
        (hfiling.onlyFront (onlyFront_write hop.isChunk hrun)) htelling
      cases told <;> rfl

/-- `endBuild` is carried out. -/
theorem Sound.endBuild (h : Sound builds σ) {build : CompletedBuild}
    (hstage : σ.stage = .ended build) : ∃ σ', σ.tell (.endBuild build.result) = .ok σ' ∧
      Sound (builds ++ [build]) { σ' with stage := .told } := by
  obtain ⟨d, buildId, stage, calls, s⟩ := σ
  simp only at hstage
  subst hstage
  obtain ⟨hsound, hwhole, hplaced⟩ := h
  simp only at hsound hplaced
  cases hplaced with
  | ended hid hbuild hbuilding hwritten hfiling =>
      have hnext : s.daemon.next (.endBuild build.result) = some .idle := by
        rw [hbuilding]
        cases build.writes.isEmpty <;> rfl
      obtain ⟨server, hrun, hsound'⟩ := hsound.write hnext
      obtain ⟨server', front, bs, hrun', hbuilds, -, hbuf⟩ := hwritten.endBuild build.result
      obtain rfl : server' = server := Except.ok.inj (hrun'.symm.trans hrun)
      have hfiled := hfiling.endBuild hrun hsound'.kept hbuilds
      have htext : front.buf = build.text (builds.length % 2 ^ 32) := by
        rw [hbuf, hid]
        rfl
      rw [htext, ← documents_concat] at hfiled
      refine ⟨_, tell_eq hnext hrun, hsound', ?_, ?_⟩
      · intro b hb
        rcases List.mem_append.mp hb with hb | hb
        · exact hwhole b hb
        · exact List.mem_singleton.mp hb ▸ hbuild
      · refine .told ?_ rfl hfiled
        rw [hid, List.length_append, List.length_singleton, Nat.mod_add_mod]

/-- A step of the thread of the builder. -/
theorem Sound.build (h : Sound builds σ) {c : ThreadChoice ω} (hpossible : σ.Possible (.build c))
    (hrun : σ.build P c = .ok (evs, σ')) : Sound (builds ++ completedBuilds evs) σ' := by
  rw [DaemonInstance.build] at hrun
  cases hstage : σ.stage with
  | idle =>
      simp only [hstage] at hrun
      exact h.quiet rfl hrun
  | ended build =>
      simp only [hstage] at hrun
      obtain ⟨σ₁, htell, hrun⟩ := Lib.bind_eq_ok.mp hrun
      obtain ⟨rfl, rfl⟩ := Prod.mk.inj (Except.ok.inj hrun)
      obtain ⟨σ₂, htell', hsound⟩ := h.endBuild hstage
      obtain rfl := Except.ok.inj (htell'.symm.trans htell)
      exact hsound
  | told =>
      simp only [hstage] at hrun
      have hidle : Sound builds
          { σ with buildId := (σ.buildId + 1) % 2 ^ 32, stage := .idle } := by
        refine ⟨h.polling, h.whole, ?_⟩
        have hplaced := h.placed
        rw [hstage] at hplaced
        obtain ⟨d, buildId, stage, calls, s⟩ := σ
        simp only at hplaced ⊢
        cases hplaced with
        | told hid hdaemon hfiled => exact .idle hid hdaemon hfiled
      exact hidle.quiet rfl hrun
  | building t =>
      simp only [hstage] at hrun
      split at hrun
      · exact h.quiet rfl hrun
      · rename_i hne
        have hcalls : σ.calls = [] := not_not.mp hne
        clear hne
        obtain ⟨hfresh, hcount⟩ := hpossible t hstage
        obtain ⟨hsound, hwhole, hplaced⟩ := h
        obtain ⟨d, buildId, stage, calls, s⟩ := σ
        simp only at hstage hcalls hsound hplaced hrun
        subst hstage
        subst hcalls
        cases hplaced with
        | @building _ n told _ _ hid hwrites hbuilding hwritten hfiling htelling =>
            rw [List.append_nil] at hwrites
            subst hwrites
            split at hrun
            · rename_i hphase
              exact Sound.quiet ⟨hsound, hwhole,
                .ended hid (htelling.whole hphase _) hbuilding hwritten hfiling⟩ rfl hrun
            · obtain ⟨⟨evs', t'⟩, hstep, hrun⟩ := Lib.bind_eq_ok.mp hrun
              have hmoves := (BuildThread.moves_step hstep).2
              have hlength := hmoves.length_announcements
              have htelling' := htelling.step hfresh (by omega) hstep
              have hwrites := List.prefix_iff_eq_append.mp hmoves.prefix_writes
              have hbuild : Sound builds (⟨d, buildId, .building t',
                  t'.writes.drop t.writes.length, s⟩ : DaemonInstance ω) :=
                ⟨hsound, hwhole,
                  .building hid hwrites.symm hbuilding hwritten hfiling htelling'⟩
              exact hbuild.quiet rfl hrun

theorem Sound.startBuild (h : Sound builds σ) (hstage : σ.stage = .idle) {T : Finset NodeId}
    {numThreads : Int32} {lazyFetch : Bool}
    (hrun : σ.startBuild P T numThreads lazyFetch = .ok σ') : Sound builds σ' := by
  obtain ⟨⟨fetched, g, w⟩, -, hrun⟩ := Lib.bind_eq_ok.mp hrun
  obtain ⟨p, -, hrun⟩ := Lib.bind_eq_ok.mp hrun
  obtain rfl := Except.ok.inj hrun
  have htelling : (BuildThread.create g p w (sizeOfInt32 numThreads) (fetched.map fun n ↦
      .cacheRetrieveAction (g.node n).path)).Telling (sizeOfInt32 numThreads) := by
    refine BuildThread.telling_create g p w _ fun op hop ↦ ?_
    obtain ⟨n, -, rfl⟩ := List.mem_map.mp hop
    exact ⟨_, rfl⟩
  refine ⟨h.polling, h.whole, ?_⟩
  have hplaced := h.placed
  rw [hstage] at hplaced
  obtain ⟨d, buildId, stage, calls, s⟩ := σ
  simp only at hplaced ⊢
  cases hplaced with
  | idle hid hidle hfiled => exact .opening hid hidle hfiled htelling

theorem Sound.step (h : Sound builds σ) (hpossible : σ.Possible act)
    (hrun : σ.step P C fuel act = .ok (evs, σ')) : Sound (builds ++ completedBuilds evs) σ' := by
  cases act with
  | startBuild targets numThreads lazyFetch =>
      rw [DaemonInstance.step] at hrun
      split at hrun
      · rename_i hstage
        split at hrun
        · exact h.quiet rfl hrun
        · cases hrun
        · obtain ⟨σ₁, hstart, hrun⟩ := Lib.bind_eq_ok.mp hrun
          exact (h.startBuild hstage hstart).quiet rfl hrun
      · exact h.quiet rfl hrun
  | setDirty target =>
      rw [DaemonInstance.step] at hrun
      split at hrun
      · exact h.quiet rfl hrun
      · split at hrun
        · exact h.quiet rfl hrun
        · obtain ⟨d, -, hrun⟩ := Lib.bind_eq_ok.mp hrun
          exact (h.setDaemon d).quiet rfl hrun
  | environment f =>
      rw [DaemonInstance.step] at hrun
      split at hrun
      · exact h.quiet rfl hrun
      · exact (h.setDaemon _).quiet rfl hrun
  | call =>
      rw [DaemonInstance.step] at hrun
      split at hrun
      · exact h.quiet rfl hrun
      · rename_i op calls hcalls
        obtain ⟨σ₁, htell, hrun⟩ := Lib.bind_eq_ok.mp hrun
        obtain ⟨σ₂, htell', hsound⟩ := h.call hcalls
        obtain rfl := Except.ok.inj (htell'.symm.trans htell)
        exact hsound.quiet rfl hrun
  | build c => exact h.build hpossible hrun
  | client poll accept results =>
      obtain ⟨⟨treated, s⟩, hstep, hrun⟩ := Lib.bind_eq_ok.mp hrun
      exact (h.client hpossible hstep).quiet (completedBuilds_delivered _) hrun

theorem sound_of_run {d : Daemon ω} {serverSocket eventFd : ℕ} (hdistinct : serverSocket ≠ eventFd)
    {acts : List (Act ω)}
    (hpossible : Lib.Guarded Possible (step P C fuel) acts (create d serverSocket eventFd))
    (hrun : Lib.runs (step P C fuel) acts (create d serverSocket eventFd) = .ok (evs, σ)) :
    Sound (completedBuilds evs) σ := by
  refine Lib.runs_invariant (fun evs σ ↦ Sound (completedBuilds evs) σ) ?_ hpossible hrun []
    (sound_create d hdistinct)
  intro evs evs' σ σ' act h hact hstep
  rw [completedBuilds_append]
  exact h.step hact hstep

/-- What the server keeps of a build is its document, or the start of it if it is going on. -/
theorem Sound.text (h : Sound builds σ) {b : BuildInfo}
    (hb : b ∈ σ.streamServer.server.builds) :
    (∃ build, builds[b.address]? = some build ∧ b.buf = build.text (b.address % 2 ^ 32)) ∨
      b.address = builds.length ∧ b.buildCompleted = false ∧
        b.buf = header (builds.length % 2 ^ 32) ++ chunks σ.told := by
  obtain ⟨sent, htracks⟩ := h.polling.kept.tracks
  have hgoing : ∀ {ops : List Write}, σ.buildId = builds.length % 2 ^ 32 →
      Written σ.buildId ops σ.streamServer.server →
      Filing (documents builds) σ.streamServer.server →
      (∃ build, builds[b.address]? = some build ∧ b.buf = build.text (b.address % 2 ^ 32)) ∨
        b.address = builds.length ∧ b.buildCompleted = false ∧
          b.buf = header (builds.length % 2 ^ 32) ++ chunks ops := by
    intro ops hid hwritten hfiling
    by_cases hlast : b.address = (documents builds).length
    · obtain ⟨front, bs, hbuilds, hbuf, -⟩ := hwritten.front
      have hfront : front.address = (documents builds).length := by
        simpa [hbuilds] using hfiling.front
      obtain rfl : b = front :=
        htracks.build_eq hb (by simp [hbuilds]) (hlast.trans hfront.symm)
      have hopen : b.buildCompleted = false := by
        obtain ⟨x, hx, hopen, -⟩ := hwritten.reachable.kept.2
        rw [hbuilds] at hx
        obtain rfl := Option.some.inj hx
        exact hopen
      exact Or.inr ⟨hlast.trans (length_documents builds), hopen, hid ▸ hbuf⟩
    · exact Or.inl (build_of_document (hfiling.texts b hb hlast))
  have hplaced := h.placed
  obtain ⟨d, buildId, stage, calls, s⟩ := σ
  simp only at hb hgoing hplaced
  cases hplaced with
  | idle _ _ hfiled => exact Or.inl (build_of_document (hfiled.texts b hb))
  | opening _ _ hfiled _ => exact Or.inl (build_of_document (hfiled.texts b hb))
  | @building t _ ops _ _ hid hwrites _ hwritten hfiling _ =>
      have htold : told ⟨d, buildId, .building t, calls, s⟩ = ops := by
        simp [told, hwrites]
      rw [htold]
      exact hgoing hid hwritten hfiling
  | ended hid _ _ hwritten hfiling => exact hgoing hid hwritten hfiling
  | told _ _ hfiled => exact Or.inl (build_of_document (hfiled.texts b hb))

theorem Sound.spells (h : Sound builds σ) {build : CompletedBuild} {i : ℕ}
    (hbuild : builds[i]? = some build) (buildId : ℕ) : Spells (build.text buildId)
      (tokens (document buildId build.writes build.result)) :=
  spells_document (h.whole build (List.mem_of_getElem? hbuild)).isChunk buildId build.result

theorem write_of_tell {op : Write} (hrun : σ.tell op = .ok σ') :
    σ.streamServer.server.write op = .ok σ'.streamServer.server := by
  obtain ⟨⟨evs, s⟩, hstep, hpure⟩ := Lib.bind_eq_ok.mp hrun
  obtain rfl := Except.ok.inj hpure
  obtain ⟨server, hwrite, hpure⟩ := Lib.bind_eq_ok.mp hstep
  obtain ⟨-, rfl⟩ := Prod.mk.inj (Except.ok.inj hpure)
  exact hwrite

/-- A step is a call of the stream server, or one of the thread of the server. -/
theorem deliveries_of_step (h : Sound builds σ) (hpossible : σ.Possible act)
    (hrun : σ.step P C fuel act = .ok (evs, σ')) :
    (evs.filterMap Event.delivery? = [] ∧
      (σ'.streamServer.server = σ.streamServer.server ∨
        ∃ op, σ.streamServer.server.write op = .ok σ'.streamServer.server)) ∨
    ∃ poll accept results, act = .client poll accept results ∧
      ClientStep σ.streamServer.server results (evs.filterMap Event.delivery?)
        σ'.streamServer.server := by
  have hquiet : ∀ {evs₁ : List Event} {σ₁ : DaemonInstance ω},
      (pure (evs₁, σ₁) : Outcome (List Event × DaemonInstance ω)) = .ok (evs, σ') →
      evs₁.filterMap Event.delivery? = [] →
      (σ₁.streamServer.server = σ.streamServer.server ∨
        ∃ op, σ.streamServer.server.write op = .ok σ₁.streamServer.server) →
      evs.filterMap Event.delivery? = [] ∧
        (σ'.streamServer.server = σ.streamServer.server ∨
          ∃ op, σ.streamServer.server.write op = .ok σ'.streamServer.server) := by
    intro evs₁ σ₁ hpure hnone hserver
    obtain ⟨rfl, rfl⟩ := Prod.mk.inj (Except.ok.inj hpure)
    exact ⟨hnone, hserver⟩
  cases act with
  | startBuild targets numThreads lazyFetch =>
      rw [DaemonInstance.step] at hrun
      split at hrun
      · split at hrun
        · exact Or.inl (hquiet hrun rfl (Or.inl rfl))
        · cases hrun
        · obtain ⟨σ₁, hstart, hrun⟩ := Lib.bind_eq_ok.mp hrun
          obtain ⟨_, -, hstart⟩ := Lib.bind_eq_ok.mp hstart
          obtain ⟨_, -, hstart⟩ := Lib.bind_eq_ok.mp hstart
          obtain rfl := Except.ok.inj hstart
          exact Or.inl (hquiet hrun rfl (Or.inl rfl))
      · exact Or.inl (hquiet hrun rfl (Or.inl rfl))
  | setDirty target =>
      rw [DaemonInstance.step] at hrun
      split at hrun
      · exact Or.inl (hquiet hrun rfl (Or.inl rfl))
      · split at hrun
        · exact Or.inl (hquiet hrun rfl (Or.inl rfl))
        · obtain ⟨d, -, hrun⟩ := Lib.bind_eq_ok.mp hrun
          exact Or.inl (hquiet hrun rfl (Or.inl rfl))
  | environment f =>
      rw [DaemonInstance.step] at hrun
      split at hrun <;> exact Or.inl (hquiet hrun rfl (Or.inl rfl))
  | call =>
      rw [DaemonInstance.step] at hrun
      split at hrun
      · exact Or.inl (hquiet hrun rfl (Or.inl rfl))
      · rename_i op calls hcalls
        obtain ⟨σ₁, htell, hrun⟩ := Lib.bind_eq_ok.mp hrun
        have hwrite := write_of_tell htell
        exact Or.inl (hquiet hrun rfl (Or.inr ⟨op, hwrite⟩))
  | build c =>
      rw [DaemonInstance.step, DaemonInstance.build] at hrun
      split at hrun
      · exact Or.inl (hquiet hrun rfl (Or.inl rfl))
      · split at hrun
        · exact Or.inl (hquiet hrun rfl (Or.inl rfl))
        · split at hrun
          · exact Or.inl (hquiet hrun rfl (Or.inl rfl))
          · obtain ⟨⟨_, t'⟩, -, hrun⟩ := Lib.bind_eq_ok.mp hrun
            exact Or.inl (hquiet hrun rfl (Or.inl rfl))
      · rename_i build hstage
        obtain ⟨σ₁, htell, hrun⟩ := Lib.bind_eq_ok.mp hrun
        have hwrite := write_of_tell htell
        exact Or.inl (hquiet hrun rfl (Or.inr ⟨_, hwrite⟩))
      · exact Or.inl (hquiet hrun rfl (Or.inl rfl))
  | client poll accept results =>
      obtain ⟨⟨treated, s⟩, hstep, hrun⟩ := Lib.bind_eq_ok.mp hrun
      obtain ⟨rfl, rfl⟩ := Prod.mk.inj (Except.ok.inj hrun)
      have hdeliveries : ∀ ds : List Delivery,
          (ds.map Event.delivered).filterMap Event.delivery? = ds := by
        intro ds
        rw [List.filterMap_map]
        exact List.filterMap_some
      rw [hdeliveries]
      exact Or.inr ⟨poll, accept, results, rfl, (h.polling.clientStep hpossible hstep).2⟩

/-- After a short `send`, the next one of the same call transfers nothing. -/
def MaySend (σ : DaemonInstance ω) : Act ω → Prop
  | .client _ _ results =>
      ∀ fd ∈ σ.streamServer.server.fds, σ.streamServer.server.MaySend fd results
  | _ => True

theorem tracks_step {before : List Event} (h : Sound builds σ)
    (htracks : Tracks (received before) σ.streamServer.server) (hpossible : σ.Possible act)
    (hmay : σ.MaySend act) (hrun : σ.step P C fuel act = .ok (evs, σ')) :
    Tracks (received (before ++ evs)) σ'.streamServer.server := by
  rw [received, List.filterMap_append, List.foldl_append]
  rcases deliveries_of_step h hpossible hrun with
    ⟨hnone, hserver⟩ | ⟨poll, accept, results, rfl, hstep⟩
  · rw [hnone]
    rcases hserver with hsame | ⟨op, hwrite⟩
    · rwa [hsame]
    · exact htracks.write hwrite
  · exact htracks.clientStep hstep hmay

def compileDaemon : DaemonInstance Unit := create ⟨compileGraph, (), ∅⟩ 7 8

def compileOpened : DaemonInstance Unit where
  daemon := ⟨compileGraph, (), ∅⟩
  buildId := 0
  stage := .building (.create compileGraph ⟨{0}, {0}, 0⟩ () 1 [])
  calls := [.newBuild 0]
  streamServer := .create 7 8

theorem startBuild_compile : step emptyPlatform makefileConfig 8 compileDaemon
    (.startBuild [] 1 false) = .ok ([.ok], compileOpened) := by
  have htargets : checkTargets compileDaemon.daemon [] = .ok {1} := rfl
  have hplan : BuildPlan.create compileGraph {1} = .ok ⟨{0}, {0}, 0⟩ := by
    rw [BuildPlan.create, Finset.sort_singleton]
    rfl
  have hstage : compileDaemon.stage = .idle := rfl
  have hgraph : compileDaemon.daemon.graph = compileGraph := rfl
  rw [step]
  simp only [hstage, htargets, startBuild, hgraph, Bool.false_eq_true, if_false,
    Lib.except_pure, Lib.except_ok_bind, hplan]
  rfl

/-- Whoever is polled is ready, and `send` takes what it gets. -/
def goOn : Act Unit :=
  .client (.ready fun fd ↦ if fd = 8 then .zero else .expected) .again
    fun i ↦ if i = 0 then .sent 1000 else .again

/-- A client connects when the build is over. -/
def compileActs : List (Act Unit) :=
  [.startBuild [] 1 false, .call, .build (compileChoice ⟨100, 3, 4⟩),
    .build (compileChoice ⟨100, 3, 4⟩), .call, .build (compileChoice ⟨200, 5, 6⟩), .call, .call,
    .build (compileChoice ⟨200, 5, 6⟩), .build (compileChoice ⟨200, 5, 6⟩),
    .build (compileChoice ⟨200, 5, 6⟩), .build (compileChoice ⟨200, 5, 6⟩), goOn, goOn, goOn,
    .client .interrupted (.client 9) fun _ ↦ .again, goOn, goOn, goOn, goOn, goOn]

/-- The command is running. -/
def compileRunning : DaemonInstance Unit where
  daemon := ⟨compileGraph, (), ∅⟩
  buildId := 0
  stage := .building compileStarted
  calls := [.newCommand 0 "cc -c main.c"]
  streamServer :=
    { Polling.create 7 8 with
      server := { StreamServer.create with
        builds := [⟨0, 0, header 0, 0, false, true⟩], nextAddress := 1 }
      daemon := .building false }

/-- The thread of the builder is about to start it. -/
def compileSpawning : DaemonInstance Unit where
  daemon := ⟨compileGraph, (), ∅⟩
  buildId := 0
  stage := .building ((BuildThread.create compileGraph ⟨{0}, {0}, 0⟩ () 1 []).setPhase .spawn)
  calls := []
  streamServer := compileRunning.streamServer

theorem step_compileRunning : step emptyPlatform makefileConfig 8 compileSpawning
    (.build (compileChoice ⟨100, 3, 4⟩)) = .ok ([], compileRunning) := by
  have hstage : compileSpawning.stage = .building
      ((BuildThread.create compileGraph ⟨{0}, {0}, 0⟩ () 1 []).setPhase .spawn) := rfl
  have hcalls : compileSpawning.calls = [] := rfl
  rw [step, DaemonInstance.build]
  simp only [hstage, hcalls, ne_eq, not_true_eq_false, if_false, step_compileStarted,
    Lib.except_ok_bind]
  rfl

theorem mayFollow_goOn (σ : DaemonInstance Unit) : σ.Possible goOn ∧ σ.MaySend goOn := by
  constructor
  · intro entries fd _ hclient
    cases hclient
  · intro fd _ info b _ more _ _ more' hsecond
    cases hsecond

theorem mayFollow_accept {σ : DaemonInstance Unit} (hmap : σ.streamServer.server.map = [])
    (hserver : σ.streamServer.serverSocket = 7) (hevent : σ.streamServer.eventFd = 8) :
    σ.Possible (.client .interrupted (.client 9) fun _ ↦ .again) ∧
      σ.MaySend (.client .interrupted (.client 9) fun _ ↦ .again) := by
  constructor
  · intro entries fd _ hclient
    obtain rfl : 9 = fd := AcceptResult.client.inj hclient
    rw [hmap, hserver, hevent]
    decide
  · intro fd _ info b _ more hfirst
    cases hfirst

theorem mayFollow_build {σ : DaemonInstance Unit} {t : BuildThread Unit} {c : ThreadChoice Unit}
    (hstage : σ.stage = .building t) (hfresh : t.Fresh c)
    (hcount : (announcements t.writes).length < 2 ^ 32) :
    σ.Possible (.build c) ∧ σ.MaySend (.build c) := by
  refine ⟨fun t' ht' ↦ ?_, trivial⟩
  obtain rfl := BuildStage.building.inj (hstage.symm.trans ht')
  exact ⟨hfresh, hcount⟩

set_option maxRecDepth 4000 in
/-- The build of `main.o`, for a client that has not read it yet. -/
theorem compile_run : ∃ evs σ, Lib.runs (step emptyPlatform makefileConfig 8) compileActs
      compileDaemon = .ok (evs, σ) ∧
    Lib.Guarded (fun σ act ↦ σ.Possible act ∧ σ.MaySend act)
      (step emptyPlatform makefileConfig 8) compileActs compileDaemon ∧
    completedBuilds evs = [⟨[.newCommand 0 "cc -c main.c", .writeStdout 0 [104, 105],
      .endCommand 0 .succeeded], .succeeded⟩] ∧
    σ.streamServer.server.builds.map BuildInfo.address = [0] ∧
    ∃ v σ', σ.step emptyPlatform makefileConfig 8 goOn = .ok ([.delivered (.treated v)], σ') ∧
      v.fd = 9 ∧ v.closed = true := by
  have hopened : step emptyPlatform makefileConfig 8 compileOpened .call =
      .ok ([], { compileSpawning with stage := compileOpened.stage }) := rfl
  have hmain : step emptyPlatform makefileConfig 8
      { compileSpawning with stage := compileOpened.stage }
      (.build (compileChoice ⟨100, 3, 4⟩)) = .ok ([], compileSpawning) := rfl
  have hrest : Lib.runs (step emptyPlatform makefileConfig 8) (compileActs.drop 4) compileRunning =
      .ok (_, _) := rfl
  have hspawn := (Lib.runs_cons_of_ok step_compileRunning).trans (congrArg (· >>= _) hrest)
  have hspawned := (Lib.runs_cons_of_ok hmain).trans (congrArg (· >>= _) hspawn)
  have hcalled := (Lib.runs_cons_of_ok hopened).trans (congrArg (· >>= _) hspawned)
  refine ⟨_, _, (Lib.runs_cons_of_ok startBuild_compile).trans (congrArg (· >>= _) hcalled),
    ?_, rfl, rfl, _, _, rfl, rfl, rfl⟩
  refine Lib.guarded_cons_of_ok ⟨trivial, trivial⟩ startBuild_compile ?_
  refine Lib.guarded_cons_of_ok ⟨trivial, trivial⟩ hopened ?_
  refine Lib.guarded_cons_of_ok (mayFollow_build rfl ?_ ?_) hmain ?_
  · change PosixSubProcessManager.create.Fresh ⟨100, 3, 4⟩
    decide
  · decide
  refine Lib.guarded_cons_of_ok (mayFollow_build rfl ?_ ?_) step_compileRunning ?_
  · change PosixSubProcessManager.create.Fresh ⟨100, 3, 4⟩
    decide
  · decide
  refine Lib.guarded_cons_of_ok ⟨trivial, trivial⟩ rfl ?_
  refine Lib.guarded_cons_of_ok (mayFollow_build rfl ?_ ?_) rfl ?_
  · change (PosixSubProcessManager.create.added 0 ⟨100, 3, 4⟩).Fresh ⟨200, 5, 6⟩
    decide
  · decide
  refine Lib.guarded_cons_of_ok ⟨trivial, trivial⟩ rfl ?_
  refine Lib.guarded_cons_of_ok ⟨trivial, trivial⟩ rfl ?_
  refine Lib.guarded_cons_of_ok (mayFollow_build rfl ?_ ?_) rfl ?_
  · change PosixSubProcessManager.Fresh _ ⟨200, 5, 6⟩
    decide
  · decide
  refine Lib.guarded_cons_of_ok (mayFollow_build rfl ?_ ?_) rfl ?_
  · change PosixSubProcessManager.Fresh _ ⟨200, 5, 6⟩
    decide
  · decide
  refine Lib.guarded_cons_of_ok (mayFollow_build rfl ?_ ?_) rfl ?_
  · change PosixSubProcessManager.Fresh _ ⟨200, 5, 6⟩
    decide
  · decide
  refine Lib.guarded_cons_of_ok ⟨fun t ht ↦ (by cases ht), trivial⟩ rfl ?_
  exact Lib.guarded_cons_of_ok (mayFollow_goOn _) rfl
    (Lib.guarded_cons_of_ok (mayFollow_goOn _) rfl
    (Lib.guarded_cons_of_ok (mayFollow_goOn _) rfl
    (Lib.guarded_cons_of_ok (mayFollow_accept rfl rfl rfl) rfl
    (Lib.guarded_cons_of_ok (mayFollow_goOn _) rfl
    (Lib.guarded_cons_of_ok (mayFollow_goOn _) rfl
    (Lib.guarded_cons_of_ok (mayFollow_goOn _) rfl
    (Lib.guarded_cons_of_ok (mayFollow_goOn _) rfl
    (Lib.guarded_cons_of_ok (mayFollow_goOn _) rfl trivial))))))))

end DaemonInstance

end Falcon
