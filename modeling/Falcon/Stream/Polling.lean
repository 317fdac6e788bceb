import Falcon.Lib.Simulation
import Falcon.Stream.Chunks
import Falcon.Stream.Shutdown

/-!
# The thread of the stream server

The thread polls the clients that have something to read, together with the socket of the
server and the event of the daemon, and deals with those that are ready.  It works on a copy
of `fds_`, and the daemon writes in the meantime.
-/

namespace Falcon

namespace StreamServer

/-- What `poll` says about a descriptor: nothing, what it is polled for, or something else. -/
inductive Revents where
  | zero
  | expected
  | unexpected
  deriving DecidableEq

inductive PollResult where
  | failed
  | interrupted
  | ready (revents : ℕ → Revents)

inductive AcceptResult where
  | client (fd : ℕ)
  | again
  | failed

/-- Where the thread is: at the test of `stopped_`, at `poll`, in the loop over the entries
with some of them still to come, in `acceptClients`, or behind `run`. -/
inductive Loop where
  | test
  | polling (fds : List ℕ)
  | walking (entries : List (ℕ × Revents))
  | accepting (entries : List (ℕ × Revents))
  | returned

/-- A call of `processClient`. -/
structure Treated where
  fd : ℕ
  handed : List UInt8
  closed : Bool
  deriving DecidableEq

/-- `daemon` is where the thread of the daemon is. -/
structure Polling where
  server : StreamServer
  serverSocket : ℕ
  eventFd : ℕ
  stopped : Bool
  daemon : Phase
  loop : Loop

/-- What happens next: the daemon makes a call, or the thread goes on. -/
inductive Turn where
  | write (op : Write)
  | stop
  | thread (poll : PollResult) (accept : AcceptResult) (results : ℕ → SendResult)

namespace Polling

def create (serverSocket eventFd : ℕ) : Polling :=
  ⟨.create, serverSocket, eventFd, false, .idle, .test⟩

/-- An iteration of the loop over the entries.  What is not expected is logged; the event is
flushed, which is no concern of the clients. -/
def visit (t : Polling) (entry : ℕ × Revents) (entries : List (ℕ × Revents))
    (results : ℕ → SendResult) : Outcome (List Treated × Polling) :=
  let (fd, revents) := entry
  if revents = .zero then pure ([], { t with loop := .walking entries })
  else if fd = t.serverSocket then
    if revents = .expected then pure ([], { t with loop := .accepting entries })
    else pure ([], { t with loop := .walking entries })
  else if fd ≠ t.eventFd then
    if revents = .expected then do
      let (handed, server) ← t.server.processClient fd results
      pure ([⟨fd, handed, server.map.all fun c ↦ c.1 ≠ fd⟩],
        { t with server := server, loop := .walking entries })
    else pure ([], { t with loop := .walking entries })
  else pure ([], { t with loop := .walking entries })

def step (t : Polling) : Turn → Outcome (List Treated × Polling)
  | .write op => do
    let server ← t.server.write op
    pure ([], { t with server := server, daemon := (t.daemon.next op).getD t.daemon })
  | .stop => pure ([], { t with stopped := true })
  | .thread poll accept results =>
    match t.loop with
    | .test =>
      if t.stopped then pure ([], { t with loop := .returned })
      else pure ([], { t with loop := .polling (t.server.fds ++ [t.serverSocket, t.eventFd]) })
    | .polling fds =>
      match poll with
      | .failed => .error (.exception "poll failed")
      | .interrupted => pure ([], { t with loop := .test })
      | .ready revents =>
        pure ([], { t with loop := .walking (fds.map fun fd ↦ (fd, revents fd)) })
    | .walking [] => pure ([], { t with loop := .test })
    | .walking (entry :: entries) => t.visit entry entries results
    | .accepting entries =>
      match accept with
      | .client fd => pure ([], { t with server := t.server.createClient fd })
      | .again => pure ([], { t with loop := .walking entries })
      | .failed => .error (.exception "accept")
    | .returned => pure ([], t)

/-- The daemon makes its calls in order, and `accept` returns a descriptor that is not in
use. -/
def Possible (t : Polling) : Turn → Prop
  | .write op => (t.daemon.next op).isSome = true
  | .stop => True
  | .thread _ accept _ => ∀ entries fd, t.loop = .accepting entries → accept = .client fd →
      (∀ c ∈ t.server.map, c.1 ≠ fd) ∧ fd ≠ t.serverSocket ∧ fd ≠ t.eventFd

end Polling

/-- The exception that comes of a system call that fails. -/
def Turn.Throws : Turn → String → Prop
  | .thread poll accept _, message =>
    poll = .failed ∧ message = "poll failed" ∨ accept = .failed ∧ message = "accept"
  | _, _ => False

/-- The thread goes on, and nobody comes. -/
def Turn.Alone : Turn → Prop
  | .thread _ accept _ => ∀ fd, accept ≠ .client fd
  | _ => False

/-! ## The calls of the daemon -/

/-- Nobody leaves, and a client that is polled is polled still. -/
structure Stays (s s' : StreamServer) : Prop where
  keys : s'.map.map Prod.fst = s.map.map Prod.fst
  fds : s.fds ⊆ s'.fds

variable {s s' s'' : StreamServer} {fd : ℕ} {info : ClientInfo}

theorem Stays.of_eq (hmap : s'.map = s.map) (hfds : s'.fds = s.fds) : Stays s s' :=
  ⟨congrArg _ hmap, hfds ▸ List.Subset.refl _⟩

theorem Stays.trans (h : Stays s s') (h' : Stays s' s'') : Stays s s'' :=
  ⟨h'.keys.trans h.keys, fun _ hfd ↦ h'.fds (h.fds hfd)⟩

theorem stays_updateFront {f : BuildInfo → BuildInfo} (h : s.updateFront f = .ok s') :
    Stays s s' := by
  rw [updateFront] at h
  split at h
  · cases h
  · obtain rfl := Except.ok.inj h
    exact .of_eq rfl rfl

theorem stays_flushClient (h : s.flushClient fd = .ok s') : Stays s s' := by
  rw [flushClient] at h
  split at h
  · cases h
  · cases h
  · simp only at h
    split at h
    · obtain rfl := Except.ok.inj h
      exact ⟨by simp, List.subset_cons_self _ _⟩
    · obtain ⟨-, -, h⟩ := Lib.bind_eq_ok.mp h
      obtain rfl := Except.ok.inj h
      exact ⟨by simp, List.subset_cons_self _ _⟩

theorem stays_flushWaiting (h : s.flushWaiting = .ok s') : Stays s s' := by
  rw [flushWaiting] at h
  split at h
  · cases h
  · obtain ⟨-, -, h⟩ := Lib.bind_eq_ok.mp h
    obtain ⟨s₁, hloop, h⟩ := Lib.bind_eq_ok.mp h
    obtain rfl := Except.ok.inj h
    have hstays : Stays s s₁ := Lib.foldlM_preserves Stays (fun _ ↦ .of_eq rfl rfl)
      (fun _ _ _ ↦ .trans) (fun _ _ _ _ hstep ↦ stays_flushClient hstep) hloop
    exact hstays.trans (.of_eq rfl rfl)

theorem stays_dropPrevious (h : s.dropPrevious = .ok s') : Stays s s' := by
  rw [dropPrevious] at h
  split at h
  · obtain rfl := Except.ok.inj h
    exact .of_eq rfl rfl
  · obtain ⟨-, -, h⟩ := Lib.bind_eq_ok.mp h
    split at h
    · obtain ⟨-, -, h⟩ := Lib.bind_eq_ok.mp h
      obtain rfl := Except.ok.inj h
      exact .of_eq rfl rfl
    · obtain rfl := Except.ok.inj h
      exact .of_eq rfl rfl

theorem stays_writeCmdOutput {cmdId : ℕ} {buf : List UInt8} {isStdout : Bool}
    (h : writeCmdOutput cmdId buf isStdout s = .ok s') : Stays s s' := by
  obtain ⟨-, -, h⟩ := Lib.bind_eq_ok.mp h
  obtain ⟨s₁, hwrite, hflush⟩ := Lib.bind_eq_ok.mp h
  exact (stays_updateFront hwrite).trans (stays_flushWaiting hflush)

theorem stays_write {op : Write} (h : write op s = .ok s') : Stays s s' := by
  cases op with
  | newBuild buildId =>
      obtain ⟨s₁, hdrop, h⟩ := Lib.bind_eq_ok.mp h
      obtain ⟨s₂, hwrite, hflush⟩ := Lib.bind_eq_ok.mp h
      have hpush : Stays s₁ (s₁.pushBuild buildId) := .of_eq rfl rfl
      exact (stays_dropPrevious hdrop).trans
        (hpush.trans ((stays_updateFront hwrite).trans (stays_flushWaiting hflush)))
  | newCommand cmdId cmd =>
      obtain ⟨s₁, hchunk, h⟩ := Lib.bind_eq_ok.mp h
      obtain ⟨s₂, hwrite, hflush⟩ := Lib.bind_eq_ok.mp h
      exact (stays_updateFront hchunk).trans
        ((stays_updateFront hwrite).trans (stays_flushWaiting hflush))
  | writeStdout cmdId buf => exact stays_writeCmdOutput h
  | writeStderr cmdId buf => exact stays_writeCmdOutput h
  | endCommand cmdId status =>
      obtain ⟨s₁, hwrite, hflush⟩ := Lib.bind_eq_ok.mp h
      exact (stays_updateFront hwrite).trans (stays_flushWaiting hflush)
  | cacheRetrieveAction path =>
      obtain ⟨s₁, hchunk, h⟩ := Lib.bind_eq_ok.mp h
      obtain ⟨s₂, hwrite, hflush⟩ := Lib.bind_eq_ok.mp h
      exact (stays_updateFront hchunk).trans
        ((stays_updateFront hwrite).trans (stays_flushWaiting hflush))
  | endBuild result =>
      rw [write, endBuild] at h
      split at h
      · cases h
      · obtain ⟨-, -, h⟩ := Lib.bind_eq_ok.mp h
        obtain ⟨s₁, hwrite, h⟩ := Lib.bind_eq_ok.mp h
        obtain ⟨s₂, hflush, hdone⟩ := Lib.bind_eq_ok.mp h
        exact (stays_updateFront hwrite).trans
          ((stays_flushWaiting hflush).trans (stays_updateFront hdone))

/-! ## What a call of `processClient` does -/

/-- The loop moves the position on when it hands something over. -/
theorem sendLoop_moves {buf handed handed' : List UInt8} {start fuel i bufPtr bufSize bufPtr' : ℕ}
    {results : ℕ → SendResult} {last : Option SendResult} (hsize : bufPtr + bufSize = buf.length)
    (hpos : 0 < bufSize)
    (hrun : sendLoop buf start results fuel i bufPtr bufSize handed =
      .ok (bufPtr', handed', last)) :
    bufPtr ≤ bufPtr' ∧ (bufPtr' = bufPtr → handed' = handed) := by
  induction fuel generalizing i bufPtr bufSize handed with
  | zero => cases hrun
  | succ fuel ih =>
      rw [sendLoop] at hrun
      cases hi : results i with
      | again =>
          simp only [hi, Lib.except_pure, Except.ok.injEq, Prod.mk.injEq] at hrun
          obtain ⟨rfl, rfl, -⟩ := hrun
          exact ⟨le_rfl, fun _ ↦ rfl⟩
      | failed =>
          simp only [hi, Lib.except_pure, Except.ok.injEq, Prod.mk.injEq] at hrun
          obtain ⟨rfl, rfl, -⟩ := hrun
          exact ⟨le_rfl, fun _ ↦ rfl⟩
      | sent more =>
          simp only [hi] at hrun
          have hmoved : 0 < min (more + 1) bufSize := by omega
          split at hrun
          · obtain ⟨hle, -⟩ := ih (by omega) (by omega) hrun
            exact ⟨by omega, fun heq ↦ by omega⟩
          · simp only [Lib.except_pure, Except.ok.injEq, Prod.mk.injEq] at hrun
            obtain ⟨rfl, -, -⟩ := hrun
            exact ⟨by omega, fun heq ↦ by omega⟩

/-- The client moves on, by what it is handed at least by one byte, or it leaves. -/
inductive Treats (s : StreamServer) (fd : ℕ) (handed : List UInt8) (s' : StreamServer) : Prop
  | moves {info : ClientInfo} {b : BuildInfo} {f : ClientInfo → ClientInfo}
      (hfd : (fd, info) ∈ s.map) (hb : b ∈ s.builds)
      (hbuild : info.itBuild = some b.address) (hlt : info.bufPtr < b.buf.length)
      (hf : ∀ x, (f x).itBuild = x.itBuild)
      (hmap : s'.map = (s.updateClient fd f).map) (hbuilds : s'.builds = s.builds)
      (hfds : s.fds.erase fd ⊆ s'.fds) (hle : info.bufPtr ≤ (f info).bufPtr)
      (hmoved : handed ≠ [] → info.bufPtr < (f info).bufPtr)
  | leaves {info : ClientInfo} (hfd : (fd, info) ∈ s.map) (hpolled : info.isWaiting = false)
      (hrun : s.closeClient fd = .ok s')

/-- The server is left alone, or a client is dealt with. -/
inductive Deals (s : StreamServer) : List Treated → StreamServer → Prop
  | nothing : Deals s [] s
  | client {fd handed s'} (h : Treats s fd handed s') :
      Deals s [⟨fd, handed, s'.map.all fun c ↦ c.1 ≠ fd⟩] s'

theorem Kept.treats (h : s.Kept) (hfd : fd ∈ s.fds) {results : ℕ → SendResult}
    {handed : List UInt8} (hrun : s.processClient fd results = .ok (handed, s')) :
    Treats s fd handed s' := by
  obtain ⟨sent, htracks⟩ := h.tracks
  obtain ⟨⟨info, b⟩, hdata, hrun⟩ := Lib.bind_eq_ok.mp hrun
  obtain ⟨hc, hb, hbuild, hlt⟩ := clientData_eq_ok hdata
  have hpolled : info.isWaiting = false := ((h.listed.client _ hc).2).mp hfd
  obtain ⟨⟨bufPtr, handed', last⟩, hloop, hrun⟩ := Lib.bind_eq_ok.mp hrun
  obtain ⟨hle, hmoved⟩ := sendLoop_moves (by omega) (by omega) hloop
  have hclose := closeClient_updateClient (f := ({ · with bufPtr := bufPtr }))
    htracks.map_nodup hc fun _ ↦ rfl
  have hadvance : handed' ≠ [] → info.bufPtr < bufPtr :=
    fun hne ↦ lt_of_le_of_ne hle fun heq ↦ hne (hmoved heq.symm)
  cases last with
  | none =>
      obtain ⟨s₂, hdrain, hpure⟩ := Lib.bind_eq_ok.mp hrun
      obtain ⟨rfl, rfl⟩ := Prod.mk.inj (Except.ok.inj hpure)
      rw [drained] at hdrain
      split at hdrain
      · exact .leaves hc hpolled (hclose ▸ hdrain)
      · obtain rfl := Except.ok.inj hdrain
        refine .moves (f := fun x ↦ { x with bufPtr := bufPtr, isWaiting := true }) hc hb hbuild hlt
          (fun _ ↦ rfl) ?_ rfl (List.Subset.refl _) hle hadvance
        simp only [updateClient, List.map_map]
        refine List.map_congr_left fun c _ ↦ ?_
        by_cases hkey : c.1 = fd <;> simp [hkey]
  | some r =>
      have hmoves : Treats s fd handed' (s.updateClient fd ({ · with bufPtr := bufPtr })) :=
        .moves (f := ({ · with bufPtr := bufPtr })) hc hb hbuild hlt (fun _ ↦ rfl) rfl rfl
          List.erase_subset hle hadvance
      cases r with
      | failed =>
          obtain ⟨s₂, hleave, hpure⟩ := Lib.bind_eq_ok.mp hrun
          obtain ⟨rfl, rfl⟩ := Prod.mk.inj (Except.ok.inj hpure)
          exact .leaves hc hpolled (hclose ▸ hleave)
      | again =>
          obtain ⟨rfl, rfl⟩ := Prod.mk.inj (Except.ok.inj hrun)
          exact hmoves
      | sent more =>
          obtain ⟨rfl, rfl⟩ := Prod.mk.inj (Except.ok.inj hrun)
          exact hmoves

/-- Nobody comes, and all others are polled still. -/
theorem Kept.treats_lists (h : s.Kept) {handed : List UInt8} (htreats : Treats s fd handed s') :
    (∀ c' ∈ s'.map, ∃ c ∈ s.map, c.1 = c'.1) ∧ s.fds.erase fd ⊆ s'.fds := by
  cases htreats with
  | @moves info b f hfd hb hbuild hlt hf hmap hbuilds hfds hle hmoved =>
      refine ⟨fun c' hc' ↦ ?_, hfds⟩
      rw [hmap] at hc'
      obtain ⟨c, hc, rfl⟩ := List.mem_map.mp hc'
      exact ⟨c, hc, by split <;> rfl⟩
  | leaves hfd hpolled hrun =>
      obtain ⟨s₁, hrun₁, -, hmap, -⟩ := h.closeClient hfd hpolled
      obtain rfl := Except.ok.inj (hrun₁.symm.trans hrun)
      refine ⟨fun c' hc' ↦ ?_, ?_⟩
      · rw [hmap] at hc'
        exact ⟨c', List.mem_of_mem_filter hc', rfl⟩
      · rw [closeClient_fds hrun]
        exact List.Subset.refl _

theorem createClient_lists (s : StreamServer) (fd : ℕ) :
    (∀ c' ∈ (createClient fd s).map, c'.1 = fd ∨ ∃ c ∈ s.map, c.1 = c'.1) ∧
      s.fds ⊆ (createClient fd s).fds := by
  rw [createClient]
  generalize (s.builds.head?.all fun b ↦ b.buf = []) = isWaiting
  have hmap : ∀ info c', c' ∈ (fd, info) :: (s.map.filter fun c ↦ c.1 ≠ fd) →
      c'.1 = fd ∨ ∃ c ∈ s.map, c.1 = c'.1 := by
    intro info c' hc'
    rcases List.mem_cons.mp hc' with rfl | hc'
    · exact Or.inl rfl
    · exact Or.inr ⟨c', List.mem_of_mem_filter hc', rfl⟩
  cases isWaiting with
  | true => exact ⟨hmap _, List.Subset.refl _⟩
  | false => exact ⟨hmap _, List.subset_cons_self _ _⟩

/-! ## Safety -/

/-- The descriptors that the thread has still to look at. -/
def Loop.left : Loop → List ℕ
  | .test => []
  | .polling fds => fds
  | .walking entries => entries.map Prod.fst
  | .accepting entries => entries.map Prod.fst
  | .returned => []

namespace Polling

/-- The invariant: whom the thread has still to look at is polled still. -/
structure Sound (t : Polling) : Prop where
  reachable : Reachable t.server t.daemon
  distinct : t.serverSocket ≠ t.eventFd
  sockets : ∀ c ∈ t.server.map, c.1 ≠ t.serverSocket ∧ c.1 ≠ t.eventFd
  left_nodup : t.loop.left.Nodup
  left : ∀ fd ∈ t.loop.left, fd ∈ t.server.fds ∨ fd = t.serverSocket ∨ fd = t.eventFd

variable {t t' : Polling} {turn : Turn} {evs : List Treated}

theorem sound_create {serverSocket eventFd : ℕ} (hdistinct : serverSocket ≠ eventFd) :
    (create serverSocket eventFd).Sound where
  reachable := .create
  distinct := hdistinct
  sockets := fun c hc ↦ by cases hc
  left_nodup := List.nodup_nil
  left := fun fd hfd ↦ by cases hfd

namespace Sound

theorem kept (h : t.Sound) : t.server.Kept := h.reachable.kept.1

theorem fits (h : t.Sound) : t.daemon.Fits t.server := h.reachable.kept.2

/-- The thread goes on with a part of the list. -/
theorem setLoop (h : t.Sound) {loop : Loop} (hleft : loop.left.Sublist t.loop.left) :
    Sound { t with loop := loop } :=
  ⟨h.reachable, h.distinct, h.sockets, h.left_nodup.sublist hleft,
    fun fd hfd ↦ h.left fd (hleft.subset hfd)⟩

/-- The copy of `fds_`. -/
theorem poll (h : t.Sound) :
    Sound { t with loop := .polling (t.server.fds ++ [t.serverSocket, t.eventFd]) } := by
  have hother : ∀ fd ∈ t.server.fds, fd ≠ t.serverSocket ∧ fd ≠ t.eventFd := by
    intro fd hfd
    obtain ⟨c, hc, rfl⟩ := h.kept.listed.known fd (Or.inl hfd)
    exact h.sockets c hc
  refine ⟨h.reachable, h.distinct, h.sockets, ?_, fun fd hfd ↦ ?_⟩
  · refine List.nodup_append.mpr ⟨h.kept.listed.fds_nodup, by simp [h.distinct], ?_⟩
    rintro a ha b hb rfl
    obtain ⟨hserver, hevent⟩ := hother a ha
    simp [hserver, hevent] at hb
  · simpa [Loop.left] using hfd

/-- A call of the daemon. -/
theorem write (h : t.Sound) {op : Write} {q : Phase} (hnext : t.daemon.next op = some q) :
    ∃ server, t.server.write op = .ok server ∧
      Sound { t with server := server, daemon := q } := by
  obtain ⟨server, hrun, -⟩ := h.kept.write h.fits hnext
  have hstays := stays_write hrun
  refine ⟨server, hrun, h.reachable.step (e := .write op) hnext hrun, h.distinct,
    fun c' hc' ↦ ?_, h.left_nodup, fun fd hfd ↦ ?_⟩
  · have hkey : c'.1 ∈ t.server.map.map Prod.fst := hstays.keys ▸ List.mem_map_of_mem hc'
    obtain ⟨c, hc, heq⟩ := List.mem_map.mp hkey
    exact heq ▸ h.sockets c hc
  · exact (h.left fd hfd).imp_left fun hmem ↦ hstays.fds hmem

/-- A connection. -/
theorem accept (h : t.Sound) {fd : ℕ} (hfresh : ∀ c ∈ t.server.map, c.1 ≠ fd)
    (hserver : fd ≠ t.serverSocket) (hevent : fd ≠ t.eventFd) :
    Sound { t with server := t.server.createClient fd } := by
  obtain ⟨hkeys, hfds⟩ := createClient_lists t.server fd
  refine ⟨h.reachable.step (e := .accept fd) ⟨hfresh, rfl⟩ rfl, h.distinct, fun c' hc' ↦ ?_,
    h.left_nodup, fun x hx ↦ ?_⟩
  · rcases hkeys c' hc' with heq | ⟨c, hc, heq⟩
    · rw [heq]
      exact ⟨hserver, hevent⟩
    · exact heq ▸ h.sockets c hc
  · exact (h.left x hx).imp_left fun hmem ↦ hfds hmem

/-- A client that is ready. -/
theorem process (h : t.Sound) {fd : ℕ} {entries : List (ℕ × Revents)}
    (hleft : t.loop.left = fd :: entries.map Prod.fst) (hserver : fd ≠ t.serverSocket)
    (hevent : fd ≠ t.eventFd) (results : ℕ → SendResult) :
    ∃ handed server, t.server.processClient fd results = .ok (handed, server) ∧
      Treats t.server fd handed server ∧
      Sound { t with server := server, loop := .walking entries } := by
  have hfd : fd ∈ t.server.fds := by
    have hmem := h.left fd (hleft ▸ List.mem_cons_self)
    rwa [or_iff_left (by simp [hserver, hevent])] at hmem
  obtain ⟨handed, server, hrun, -⟩ := h.kept.processClient hfd results
  have hevent' : (Event.process fd results).run t.server = .ok server := by
    rw [Event.run, hrun]
    rfl
  have htreats := h.kept.treats hfd hrun
  obtain ⟨hkeys, hfds⟩ := h.kept.treats_lists htreats
  have hnodup := h.left_nodup
  rw [hleft] at hnodup
  obtain ⟨hnot, hnodup⟩ := List.nodup_cons.mp hnodup
  refine ⟨handed, server, hrun, htreats,
    h.reachable.step (e := .process fd results) ⟨hfd, rfl⟩ hevent', h.distinct, fun c' hc' ↦ ?_,
    hnodup, fun x hx ↦ ?_⟩
  · obtain ⟨c, hc, heq⟩ := hkeys c' hc'
    exact heq ▸ h.sockets c hc
  · refine (h.left x (hleft ▸ List.mem_cons_of_mem _ hx)).imp_left fun hmem ↦ hfds ?_
    exact (List.mem_erase_of_ne fun heq : x = fd ↦ hnot (heq ▸ hx)).mpr hmem

/-- An iteration of the loop leaves the server alone or deals with a client. -/
theorem visit (h : t.Sound) {entry : ℕ × Revents} {entries : List (ℕ × Revents)}
    (hloop : t.loop = .walking (entry :: entries)) (results : ℕ → SendResult) :
    ∃ evs t', t.visit entry entries results = .ok (evs, t') ∧ t'.Sound ∧ t'.daemon = t.daemon ∧
      Deals t.server evs t'.server := by
  obtain ⟨fd, revents⟩ := entry
  have hleft : t.loop.left = fd :: entries.map Prod.fst := by
    rw [hloop]
    rfl
  have hrest : (Loop.walking entries).left.Sublist t.loop.left :=
    hleft ▸ List.sublist_cons_self _ _
  rw [Polling.visit]
  simp only
  split
  · exact ⟨_, _, rfl, h.setLoop hrest, rfl, .nothing⟩
  · split
    · split
      · have haccepting : Sound { t with loop := .accepting entries } := h.setLoop hrest
        exact ⟨_, _, rfl, haccepting, rfl, .nothing⟩
      · exact ⟨_, _, rfl, h.setLoop hrest, rfl, .nothing⟩
    · rename_i hserver
      split
      · rename_i hevent
        split
        · obtain ⟨handed, server, hrun, htreats, hsound⟩ := h.process hleft hserver hevent results
          refine ⟨_, _, ?_, hsound, rfl, .client htreats⟩
          rw [hrun]
          rfl
        · exact ⟨_, _, rfl, h.setLoop hrest, rfl, .nothing⟩
      · exact ⟨_, _, rfl, h.setLoop hrest, rfl, .nothing⟩

/-- A step fails only where a system call does.  When nobody comes and the daemon is quiet,
it leaves the server alone or deals with a client. -/
theorem step (h : t.Sound) (hpossible : t.Possible turn) :
    (∃ message, turn.Throws message ∧ t.step turn = .error (.exception message)) ∨
    ∃ evs t', t.step turn = .ok (evs, t') ∧ t'.Sound ∧
      (turn.Alone → t'.daemon = t.daemon ∧
        Deals t.server evs t'.server) := by
  cases turn with
  | write op =>
      obtain ⟨q, hnext⟩ := Option.isSome_iff_exists.mp hpossible
      obtain ⟨server, hrun, hsound⟩ := h.write hnext
      refine Or.inr ⟨[], { t with server := server, daemon := q }, ?_, hsound, False.elim⟩
      rw [Polling.step, hrun, hnext]
      rfl
  | stop =>
      exact Or.inr ⟨[], { t with stopped := true }, rfl,
        ⟨h.reachable, h.distinct, h.sockets, h.left_nodup, h.left⟩, False.elim⟩
  | thread poll accept results =>
      rw [Polling.step]
      have hquiet : ∀ {loop : Loop}, Sound { t with loop := loop } →
          ∃ evs t', (pure ([], { t with loop := loop }) : Outcome (List Treated × Polling)) =
              .ok (evs, t') ∧ t'.Sound ∧
            (Turn.Alone (.thread poll accept results) → t'.daemon = t.daemon ∧
              Deals t.server evs t'.server) :=
        fun hsound ↦ ⟨_, _, rfl, hsound, fun _ ↦ ⟨rfl, .nothing⟩⟩
      cases hloop : t.loop with
      | test =>
          simp only
          split
          · exact Or.inr (hquiet (h.setLoop (List.nil_sublist _)))
          · exact Or.inr (hquiet h.poll)
      | polling fds =>
          cases poll with
          | failed => exact Or.inl ⟨_, Or.inl ⟨rfl, rfl⟩, rfl⟩
          | interrupted => exact Or.inr (hquiet (h.setLoop (List.nil_sublist _)))
          | ready revents =>
              refine Or.inr (hquiet (h.setLoop ?_))
              rw [hloop]
              simp [Loop.left, Function.comp_def]
      | walking entries =>
          cases entries with
          | nil => exact Or.inr (hquiet (h.setLoop (List.nil_sublist _)))
          | cons entry entries =>
              obtain ⟨evs, t', hrun, hsound, hdaemon, hserver⟩ := h.visit hloop results
              exact Or.inr ⟨evs, t', hrun, hsound, fun _ ↦ ⟨hdaemon, hserver⟩⟩
      | accepting entries =>
          cases accept with
          | failed => exact Or.inl ⟨_, Or.inr ⟨rfl, rfl⟩, rfl⟩
          | again =>
              refine Or.inr (hquiet (h.setLoop ?_))
              rw [hloop]
              exact List.Sublist.refl _
          | client fd =>
              obtain ⟨hfresh, hserver, hevent⟩ := hpossible entries fd hloop rfl
              exact Or.inr ⟨[], _, rfl, hloop ▸ h.accept hfresh hserver hevent,
                fun halone ↦ absurd rfl (halone fd)⟩
      | returned =>
          refine Or.inr ⟨[], t, rfl, h, fun _ ↦ ⟨rfl, .nothing⟩⟩

/-- Whom the thread has still to look at has something to read. -/
theorem clientData (h : t.Sound) {fd : ℕ} (hfd : fd ∈ t.loop.left) (hserver : fd ≠ t.serverSocket)
    (hevent : fd ≠ t.eventFd) : ∃ info b, t.server.clientData fd = .ok (info, b) := by
  have hmem := h.left fd hfd
  rw [or_iff_left (by simp [hserver, hevent])] at hmem
  obtain ⟨sent, htracks⟩ := h.kept.tracks
  obtain ⟨⟨fd, info⟩, hc, rfl⟩ := h.kept.listed.known fd (Or.inl hmem)
  obtain ⟨b, hb, hbuild, hlt⟩ :=
    h.kept.served.reading _ hc (((h.kept.listed.client _ hc).2).mp hmem)
  exact ⟨info, b, clientData_of_mem htracks.map_nodup hc htracks hb hbuild hlt⟩

end Sound

/-- The two threads, in any order: only a system call can fail, no assertion does, and the
server is always as if a client were dealt with when it is polled.  Whom the thread has still
to look at has something to read, whatever has happened since `fds_` was copied. -/
theorem run_safe {serverSocket eventFd : ℕ} (hdistinct : serverSocket ≠ eventFd)
    {turns : List Turn}
    (hpossible : Lib.Guarded Possible step turns (create serverSocket eventFd)) :
    (∃ turn ∈ turns, ∃ message, turn.Throws message ∧
      Lib.runs step turns (create serverSocket eventFd) = .error (.exception message)) ∨
    ∃ evs t, Lib.runs step turns (create serverSocket eventFd) = .ok (evs, t) ∧
      Reachable t.server t.daemon ∧ t.loop.left.Nodup ∧
      ∀ fd ∈ t.loop.left, fd ≠ t.serverSocket → fd ≠ t.eventFd →
        ∃ info b, t.server.clientData fd = .ok (info, b) := by
  have hstep : ∀ ⦃t : Polling⦄ ⦃turn : Turn⦄, t.Sound → t.Possible turn →
      (∃ f, (∃ message, turn.Throws message ∧ f = .exception message) ∧
        t.step turn = .error f) ∨ ∃ evs t', t.step turn = .ok (evs, t') ∧ t'.Sound := by
    intro t turn h hturn
    rcases h.step hturn with ⟨message, hthrows, hrun⟩ | ⟨evs, t', hrun, hsound, -⟩
    · exact Or.inl ⟨_, ⟨message, hthrows, rfl⟩, hrun⟩
    · exact Or.inr ⟨evs, t', hrun, hsound⟩
  rcases Lib.runs_keep Sound _ hstep hpossible (sound_create hdistinct) with
    ⟨turn, hturn, f, ⟨message, hthrows, rfl⟩, hrun⟩ | ⟨evs, t, hrun, hsound⟩
  · exact Or.inl ⟨turn, hturn, message, hthrows, hrun⟩
  · exact Or.inr ⟨evs, t, hrun, hsound.reachable, hsound.left_nodup, fun fd ↦ hsound.clientData⟩

end Polling

/-! ## The clients leave -/

/-- What there is for a client and has not been sent to it. -/
def unread (s : StreamServer) (info : ClientInfo) : ℕ :=
  match s.builds.find? fun b ↦ info.itBuild = some b.address with
  | none => 0
  | some b => b.buf.length - info.bufPtr

def backlog (s : StreamServer) : ℕ := (s.map.map fun c ↦ s.unread c.2).sum

/-- A call that has handed something over or closed the client. -/
def Treated.productive (v : Treated) : Bool := v.handed ≠ [] || v.closed

theorem unread_eq {sent : ℕ → List UInt8} (h : Tracks sent s) {b : BuildInfo} (hb : b ∈ s.builds)
    (hbuild : info.itBuild = some b.address) : s.unread info = b.buf.length - info.bufPtr := by
  rw [unread]
  split
  · rename_i hnone
    exact absurd (List.find?_eq_none.mp hnone b hb) (by simp [hbuild])
  · rename_i x hsome
    have haddress : info.itBuild = some x.address := by simpa using List.find?_some hsome
    obtain rfl : x = b := h.build_eq (List.mem_of_find?_eq_some hsome) hb
      (Option.some.inj (haddress.symm.trans hbuild))
    rfl

theorem unread_none (h : info.itBuild = none) : s.unread info = 0 := by
  have hnone : (s.builds.find? fun b ↦ info.itBuild = some b.address) = none :=
    List.find?_eq_none.mpr fun b _ ↦ by simp [h]
  rw [unread, hnone]

/-- A client that stays has the same to read when the builds keep their buffers. -/
theorem unread_congr {sent sent' : ℕ → List UInt8} (h : Tracks sent s) (h' : Tracks sent' s')
    (hsame : ∀ x ∈ s'.builds, ∃ y ∈ s.builds, x.address = y.address ∧ x.buf = y.buf)
    {c : ℕ × ClientInfo} (hc : c ∈ s'.map) : s'.unread c.2 = s.unread c.2 := by
  cases hbuild : c.2.itBuild with
  | none => rw [unread_none hbuild, unread_none hbuild]
  | some a =>
      obtain ⟨x, hx, rfl, -⟩ := h'.assigned c hc a hbuild
      obtain ⟨y, hy, haddress, hbuf⟩ := hsame x hx
      rw [unread_eq h' hx hbuild, unread_eq h hy (haddress ▸ hbuild), hbuf]

theorem sum_unread {l : List (ℕ × ClientInfo)} (hnodup : (l.map Prod.fst).Nodup)
    (hmem : (fd, info) ∈ l) (g : ℕ × ClientInfo → ℕ) :
    (l.map g).sum = g (fd, info) + ((l.filter fun c ↦ c.1 ≠ fd).map g).sum := by
  induction l with
  | nil => cases hmem
  | cons c l ih =>
      obtain ⟨hnot, hnodup⟩ := List.nodup_cons.mp hnodup
      rcases List.mem_cons.mp hmem with rfl | hmem
      · have hall : l.filter (fun c ↦ c.1 ≠ fd) = l := by
          refine List.filter_eq_self.mpr fun c hc ↦ ?_
          have hkey : c.1 ∈ l.map Prod.fst := List.mem_map_of_mem hc
          have hne : c.1 ≠ fd := fun heq ↦ hnot (heq ▸ hkey)
          simpa using hne
        rw [List.filter_cons_of_neg (by simp), hall]
        rfl
      · have hne : c.1 ≠ fd := fun heq ↦ hnot (heq ▸ List.mem_map_of_mem (f := Prod.fst) hmem)
        rw [List.filter_cons_of_pos (by simpa using hne), List.map_cons, List.sum_cons,
          List.map_cons, List.sum_cons, ih hnodup hmem]
        omega

theorem filter_updateClient (s : StreamServer) (fd : ℕ) (f : ClientInfo → ClientInfo) :
    (s.updateClient fd f).map.filter (fun c ↦ c.1 ≠ fd) = s.map.filter fun c ↦ c.1 ≠ fd := by
  rw [updateClient]
  induction s.map with
  | nil => rfl
  | cons c l ih =>
      rw [List.map_cons]
      by_cases hkey : c.1 = fd
      · rw [if_pos hkey, List.filter_cons_of_neg (by simpa using hkey),
          List.filter_cons_of_neg (by simpa using hkey), ih]
      · rw [if_neg hkey, List.filter_cons_of_pos (by simpa using hkey),
          List.filter_cons_of_pos (by simpa using hkey), ih]

/-- A client that moves on leaves less to be sent, and one that leaves takes its part along. -/
theorem Kept.backlog_treats (h : s.Kept) {handed : List UInt8} (htreats : Treats s fd handed s') :
    s'.backlog ≤ s.backlog ∧
      ((⟨fd, handed, s'.map.all fun c ↦ c.1 ≠ fd⟩ : Treated).productive = true →
        s'.backlog < s.backlog) := by
  obtain ⟨sent, htracks⟩ := h.tracks
  cases htreats with
  | @moves info b f hfd hb hbuild hlt hf hmap hbuilds hfds hle hmoved =>
      have hmem : (fd, f info) ∈ s'.map := by
        rw [hmap]
        exact List.mem_map.mpr ⟨(fd, info), hfd, by simp⟩
      have hnodup : (s'.map.map Prod.fst).Nodup := by
        rw [hmap, keys_updateClient]
        exact htracks.map_nodup
      have hunread : ∀ x, s'.unread x = s.unread x := fun x ↦ by rw [unread, unread, hbuilds]
      have hfilter : (s'.map.filter fun c ↦ c.1 ≠ fd) = s.map.filter fun c ↦ c.1 ≠ fd := by
        rw [hmap, filter_updateClient]
      have hstays : (s'.map.all fun c ↦ c.1 ≠ fd) = false := by
        rw [← Bool.not_eq_true, List.all_eq_true]
        exact fun hall ↦ by simpa using hall _ hmem
      rw [backlog, backlog, sum_unread htracks.map_nodup hfd, sum_unread hnodup hmem, hfilter]
      simp only [hunread, unread_eq htracks hb hbuild,
        unread_eq htracks hb ((hf info).trans hbuild)]
      refine ⟨by omega, fun hproductive ↦ ?_⟩
      have hhanded : handed ≠ [] := by
        rw [hstays] at hproductive
        simpa [Treated.productive] using hproductive
      have hmore := hmoved hhanded
      omega
  | @leaves info hfd hpolled hrun =>
      obtain ⟨b, hb, hbuild, hlt⟩ := h.served.reading _ hfd hpolled
      obtain ⟨builds, hrelease, hreleased⟩ := h.releaseBuild hb
      have hstate : s' = { s with
          builds := builds
          fds := s.fds.erase fd
          map := s.map.filter fun c ↦ c.1 ≠ fd } := by
        simp only at hbuild
        rw [StreamServer.closeClient, lookup_of_mem htracks.map_nodup hfd] at hrun
        simp only [hbuild, hrelease, Lib.except_ok_bind, Lib.except_pure] at hrun
        exact (Except.ok.inj hrun).symm
      have htracks' := htracks.closeClient hrun
      have hrest : s'.backlog = ((s.map.filter fun c ↦ c.1 ≠ fd).map fun c ↦ s.unread c.2).sum := by
        rw [backlog]
        have hmap : s'.map = s.map.filter fun c ↦ c.1 ≠ fd := congrArg StreamServer.map hstate
        rw [← hmap]
        refine congrArg List.sum (List.map_congr_left fun c hc ↦ ?_)
        refine unread_congr htracks htracks' ?_ hc
        rw [hstate]
        exact hreleased.same
      have hless : s'.backlog < s.backlog := by
        rw [hrest, backlog, sum_unread htracks.map_nodup hfd, unread_eq htracks hb hbuild]
        exact Nat.lt_add_of_pos_left (Nat.sub_pos_of_lt hlt)
      exact ⟨hless.le, fun _ ↦ hless⟩

/-- Nothing is left for the clients just if none is polled. -/
theorem Kept.backlog_eq_zero_iff (h : s.Kept) : s.backlog = 0 ↔ s.fds = [] := by
  obtain ⟨sent, htracks⟩ := h.tracks
  rw [backlog, List.sum_eq_zero_iff_forall_eq_nat]
  constructor
  · intro hzero
    refine List.eq_nil_iff_forall_not_mem.mpr fun fd hfd ↦ ?_
    obtain ⟨⟨fd, info⟩, hc, rfl⟩ := h.listed.known fd (Or.inl hfd)
    obtain ⟨b, hb, hbuild, hlt⟩ := h.served.reading _ hc (((h.listed.client _ hc).2).mp hfd)
    have hnothing := hzero _ (List.mem_map_of_mem hc)
    rw [unread_eq htracks hb hbuild] at hnothing
    omega
  · intro hnone x hx
    obtain ⟨c, hc, rfl⟩ := List.mem_map.mp hx
    have hwait : c.2.isWaiting = true := by
      rw [← Bool.not_eq_false, ← (h.listed.client c hc).2, hnone]
      exact List.not_mem_nil
    rcases h.served.waits c hc hwait with ⟨hbuild, -⟩ | ⟨front, hfront, hbuild, -, hptr⟩
    · exact unread_none hbuild
    · rw [unread_eq htracks (List.mem_of_mem_head? hfront) hbuild, hptr, Nat.sub_self]

theorem sendLoop_prefix {buf handed handed' : List UInt8} {start fuel i bufPtr bufSize bufPtr' : ℕ}
    {results : ℕ → SendResult} {last : Option SendResult}
    (hrun : sendLoop buf start results fuel i bufPtr bufSize handed =
      .ok (bufPtr', handed', last)) : handed <+: handed' := by
  induction fuel generalizing i bufPtr bufSize handed with
  | zero => cases hrun
  | succ fuel ih =>
      rw [sendLoop] at hrun
      cases hi : results i with
      | again =>
          simp only [hi, Lib.except_pure, Except.ok.injEq, Prod.mk.injEq] at hrun
          exact hrun.2.1 ▸ List.prefix_rfl
      | failed =>
          simp only [hi, Lib.except_pure, Except.ok.injEq, Prod.mk.injEq] at hrun
          exact hrun.2.1 ▸ List.prefix_rfl
      | sent more =>
          simp only [hi] at hrun
          split at hrun
          · exact (List.prefix_append _ _).trans (ih hrun)
          · simp only [Lib.except_pure, Except.ok.injEq, Prod.mk.injEq] at hrun
            exact hrun.2.1 ▸ List.prefix_append _ _

/-- Only a first `send` that would block makes a call without effect. -/
theorem sendLoop_first {buf handed : List UInt8} {start fuel bufSize bufPtr : ℕ}
    {results : ℕ → SendResult} {last : Option SendResult} (hstart : start < buf.length)
    (hpos : 0 < bufSize) (hfirst : results 0 ≠ .again)
    (hrun : sendLoop buf start results fuel 0 start bufSize [] = .ok (bufPtr, handed, last)) :
    handed ≠ [] ∨ last = some .failed := by
  cases fuel with
  | zero => cases hrun
  | succ fuel =>
      rw [sendLoop] at hrun
      cases hresult : results 0 with
      | again => exact absurd hresult hfirst
      | failed =>
          simp only [hresult, Lib.except_pure, Except.ok.injEq, Prod.mk.injEq] at hrun
          exact Or.inr hrun.2.2.symm
      | sent more =>
          simp only [hresult, List.nil_append] at hrun
          have hsome : (buf.drop start).take (min (more + 1) bufSize) ≠ [] := by
            rw [← List.length_pos_iff, List.length_take, List.length_drop]
            omega
          refine Or.inl fun hnil ↦ hsome ?_
          split at hrun
          · have hprefix := sendLoop_prefix hrun
            rw [hnil] at hprefix
            exact List.prefix_nil.mp hprefix
          · simp only [Lib.except_pure, Except.ok.injEq, Prod.mk.injEq] at hrun
            exact hrun.2.1.trans hnil

/-- A call whose first `send` does not block hands something over or closes the client. -/
theorem Kept.productive (h : s.Kept) (hfd : fd ∈ s.fds) {results : ℕ → SendResult}
    (hfirst : results 0 ≠ .again) : ∃ handed s', s.processClient fd results = .ok (handed, s') ∧
      (handed ≠ [] ∨ ∀ c ∈ s'.map, c.1 ≠ fd) := by
  obtain ⟨handed, s', hrun, -⟩ := h.processClient hfd results
  refine ⟨handed, s', hrun, ?_⟩
  obtain ⟨sent, htracks⟩ := h.tracks
  obtain ⟨⟨info, b⟩, hdata, hrun⟩ := Lib.bind_eq_ok.mp hrun
  obtain ⟨hc, hb, hbuild, hlt⟩ := clientData_eq_ok hdata
  have hpolled : info.isWaiting = false := ((h.listed.client _ hc).2).mp hfd
  obtain ⟨⟨bufPtr, handed', last⟩, hloop, hrun⟩ := Lib.bind_eq_ok.mp hrun
  rcases sendLoop_first hlt (by omega) hfirst hloop with hhanded | rfl
  · refine Or.inl ?_
    cases last with
    | none =>
        obtain ⟨s₂, -, hpure⟩ := Lib.bind_eq_ok.mp hrun
        exact (Prod.mk.inj (Except.ok.inj hpure)).1 ▸ hhanded
    | some r =>
        cases r with
        | failed =>
            obtain ⟨s₂, -, hpure⟩ := Lib.bind_eq_ok.mp hrun
            exact (Prod.mk.inj (Except.ok.inj hpure)).1 ▸ hhanded
        | again => exact (Prod.mk.inj (Except.ok.inj hrun)).1 ▸ hhanded
        | sent more => exact (Prod.mk.inj (Except.ok.inj hrun)).1 ▸ hhanded
  · obtain ⟨s₂, hleave, hpure⟩ := Lib.bind_eq_ok.mp hrun
    obtain ⟨-, rfl⟩ := Prod.mk.inj (Except.ok.inj hpure)
    have hclose := closeClient_updateClient (f := ({ · with bufPtr := bufPtr }))
      htracks.map_nodup hc fun _ ↦ rfl
    obtain ⟨s₁, hrun₁, -, hmap, -⟩ := h.closeClient hc hpolled
    obtain rfl := Except.ok.inj (hrun₁.symm.trans (hclose.symm.trans hleave))
    refine Or.inr fun c hc' ↦ ?_
    rw [hmap] at hc'
    simpa using (List.mem_filter.mp hc').2

/-- Between builds every client that has seen one is polled. -/
theorem Kept.polled_of_idle (h : s.Kept) (hfits : Phase.idle.Fits s) (hbuilds : s.builds ≠ [])
    {c : ℕ × ClientInfo} (hc : c ∈ s.map) : c.1 ∈ s.fds := by
  rw [(h.listed.client c hc).2, ← Bool.not_eq_true]
  intro hwait
  rcases h.served.waits c hc hwait with ⟨-, hnil⟩ | ⟨front, hfront, -, hincomplete, -⟩
  · exact hbuilds hnil
  · rw [hfits front hfront] at hincomplete
    cases hincomplete

namespace Polling

variable {t t' : Polling} {evs evs' : List Treated}

/-- The state behind a run. -/
theorem sound_of_run {serverSocket eventFd : ℕ} (hdistinct : serverSocket ≠ eventFd)
    {turns : List Turn}
    (hpossible : Lib.Guarded Possible step turns (create serverSocket eventFd))
    (hrun : Lib.runs step turns (create serverSocket eventFd) = .ok (evs, t)) : t.Sound := by
  refine Lib.runs_invariant (fun _ t ↦ t.Sound) ?_ hpossible hrun [] (sound_create hdistinct)
  intro _ _ t t' turn h hturn hstep
  rcases h.step hturn with ⟨message, -, herror⟩ | ⟨evs, t₁, hok, hsound, -⟩
  · cases herror.symm.trans hstep
  · obtain ⟨-, rfl⟩ := Prod.mk.inj (Except.ok.inj (hok.symm.trans hstep))
    exact hsound

theorem possible_of_alone {turn : Turn} (halone : turn.Alone) : t.Possible turn := by
  cases turn with
  | thread poll accept results => exact fun _ fd _ haccept ↦ absurd haccept (halone fd)
  | _ => exact False.elim halone

theorem Sound.stepAlone (h : t.Sound) {turn : Turn} (halone : turn.Alone)
    (hrun : t.step turn = .ok (evs, t')) :
    t'.Sound ∧ t'.daemon = t.daemon ∧
      evs.countP Treated.productive + t'.server.backlog ≤ t.server.backlog := by
  rcases h.step (possible_of_alone halone) with
    ⟨message, -, herror⟩ | ⟨evs₁, t₁, hok, hsound, hdeals⟩
  · cases herror.symm.trans hrun
  · obtain ⟨rfl, rfl⟩ := Prod.mk.inj (Except.ok.inj (hok.symm.trans hrun))
    obtain ⟨hdaemon, hserver⟩ := hdeals halone
    refine ⟨hsound, hdaemon, ?_⟩
    generalize t₁.server = server at hserver ⊢
    cases hserver with
    | nothing => simp
    | @client fd handed _ htreats =>
        obtain ⟨hle, hless⟩ := h.kept.backlog_treats htreats
        rw [List.countP_singleton]
        split
        · rename_i hproductive
          have hlt := hless hproductive
          omega
        · omega

/-- When the daemon is between builds and nobody comes, the thread makes only so many calls
of `processClient` that hand something over or close a client, and then nobody is polled.
Until then every client is polled, unless no build has been started yet, and a call whose
first `send` does not block is one of these. -/
theorem idle_drains {serverSocket eventFd : ℕ} (hdistinct : serverSocket ≠ eventFd)
    {before after : List Turn}
    (hpossible : Lib.Guarded Possible step before (create serverSocket eventFd))
    (hbefore : Lib.runs step before (create serverSocket eventFd) = .ok (evs, t))
    (hidle : t.daemon = .idle) (halone : ∀ turn ∈ after, turn.Alone)
    (hafter : Lib.runs step after t = .ok (evs', t')) :
    evs'.countP Treated.productive + t'.server.backlog ≤ t.server.backlog ∧
    (t'.server.backlog = 0 ↔ t'.server.fds = []) ∧
    (t'.server.builds ≠ [] → ∀ c ∈ t'.server.map, c.1 ∈ t'.server.fds) ∧
    ∀ fd ∈ t'.server.fds, ∀ results : ℕ → SendResult, results 0 ≠ .again →
      ∃ handed server, t'.server.processClient fd results = .ok (handed, server) ∧
        (handed ≠ [] ∨ ∀ c ∈ server.map, c.1 ≠ fd) := by
  have hsound := sound_of_run hdistinct hpossible hbefore
  obtain ⟨hsound', hdaemon, hcount⟩ : t'.Sound ∧ t'.daemon = t.daemon ∧
      evs'.countP Treated.productive + t'.server.backlog ≤ t.server.backlog := by
    refine Lib.runs_invariant (G := fun _ turn ↦ turn.Alone)
      (fun evs u ↦ u.Sound ∧ u.daemon = t.daemon ∧
        evs.countP Treated.productive + u.server.backlog ≤ t.server.backlog) ?_
      (Lib.guarded_of_forall fun turn hturn _ ↦ halone turn hturn) hafter []
      ⟨hsound, rfl, by simp⟩
    rintro evs₁ evs₂ u u' turn ⟨hu, hsame, hcount⟩ hturn hstep
    obtain ⟨hu', hdaemon, hless⟩ := hu.stepAlone hturn hstep
    refine ⟨hu', hdaemon.trans hsame, ?_⟩
    rw [List.countP_append]
    omega
  refine ⟨hcount, hsound'.kept.backlog_eq_zero_iff, fun hbuilds c hc ↦ ?_,
    fun fd hfd results ↦ hsound'.kept.productive hfd⟩
  refine hsound'.kept.polled_of_idle ?_ hbuilds hc
  rw [← hidle, ← hdaemon]
  exact hsound'.fits

/-! ## One client -/

/-- Whoever is polled is ready, and `send` takes what it gets. -/
def goOn : Turn :=
  .thread (.ready fun fd ↦ if fd = 4 then .zero else .expected) .again fun _ ↦ .sent 100

/-- The client connects to a build that ends before the thread is back from `accept`. -/
def connects : List Turn :=
  [.write (.newBuild 7), goOn, goOn, goOn, .thread .interrupted (.client 5) fun _ ↦ .again,
    .write (.endBuild .succeeded), goOn, goOn, goOn]

theorem goOn_alone : goOn.Alone := fun fd h ↦ by cases h

theorem connects_run : ∃ t, Lib.runs step connects (create 3 4) = .ok ([], t) ∧
    Lib.Guarded Possible step connects (create 3 4) ∧ t.daemon = .idle ∧ t.server.fds = [5] ∧
    ∃ evs t', Lib.runs step [goOn, goOn, goOn] t = .ok (evs, t') ∧
      evs.countP Treated.productive = 1 ∧ t'.server.map = [] := by
  have hgoOn : ∀ {t : Polling}, t.Possible goOn := possible_of_alone goOn_alone
  have haccept : ∀ {t : Polling}, t.server.map = [] → t.serverSocket = 3 → t.eventFd = 4 →
      t.Possible (.thread .interrupted (.client 5) fun _ ↦ .again) := by
    intro t hmap hserver hevent entries fd _ hclient
    obtain rfl : 5 = fd := AcceptResult.client.inj hclient
    rw [hmap, hserver, hevent]
    decide
  refine ⟨_, rfl, ?_, rfl, rfl, _, _, rfl, rfl, rfl⟩
  exact Lib.guarded_cons_of_ok rfl rfl (Lib.guarded_cons_of_ok hgoOn rfl
    (Lib.guarded_cons_of_ok hgoOn rfl (Lib.guarded_cons_of_ok hgoOn rfl
    (Lib.guarded_cons_of_ok (haccept rfl rfl rfl) rfl (Lib.guarded_cons_of_ok rfl rfl
    (Lib.guarded_cons_of_ok hgoOn rfl (Lib.guarded_cons_of_ok hgoOn rfl
    (Lib.guarded_cons_of_ok hgoOn rfl trivial))))))))

theorem run_safe_connects : ∃ evs t, Lib.runs step connects (create 3 4) = .ok (evs, t) ∧
    Reachable t.server t.daemon := by
  obtain ⟨t, hrun, hpossible, -⟩ := connects_run
  rcases run_safe (by decide) hpossible with
    ⟨turn, -, message, -, herror⟩ | ⟨evs, t, hrun, hreach, -⟩
  · cases herror.symm.trans hrun
  · exact ⟨evs, t, hrun, hreach⟩

theorem idle_drains_connects : ∃ t evs t', Lib.runs step connects (create 3 4) = .ok ([], t) ∧
    Lib.runs step [goOn, goOn, goOn] t = .ok (evs, t') ∧ 0 < t.server.backlog ∧
    t'.server.map = [] ∧ t'.server.backlog = 0 := by
  obtain ⟨t, hrun, hpossible, hidle, -, evs, t', hafter, hone, hmap⟩ := connects_run
  have halone : ∀ turn ∈ [goOn, goOn, goOn], turn.Alone := by simp [goOn_alone]
  obtain ⟨hcount, -⟩ := idle_drains (by decide) hpossible hrun hidle halone hafter
  refine ⟨t, evs, t', hrun, hafter, by omega, hmap, ?_⟩
  rw [backlog, hmap]
  rfl

end Polling

end StreamServer

end Falcon
