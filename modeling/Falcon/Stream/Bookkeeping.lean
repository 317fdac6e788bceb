import Falcon.Stream.Delivery

/-!
# The bookkeeping of the stream server

Whatever the clients do and `send` returns, and as long as builds follow each
other: every client is polled or waits, as it says itself; the readers of every
build are counted; and no call fails.
-/

namespace Falcon

namespace StreamServer

/-- The lists of file descriptors agree with the clients. -/
structure Listed (s : StreamServer) : Prop where
  fds_nodup : s.fds.Nodup
  waiting_nodup : s.waiting.Nodup
  client : ∀ c ∈ s.map, (c.1 ∈ s.waiting ↔ c.2.isWaiting = true) ∧
    (c.1 ∈ s.fds ↔ c.2.isWaiting = false)
  known : ∀ fd, fd ∈ s.fds ∨ fd ∈ s.waiting → ∃ c ∈ s.map, c.1 = fd

/-- A client that is polled has something to read, and one that waits has read
all there is. -/
structure Served (s : StreamServer) : Prop where
  older : ∀ b ∈ s.builds.tail, b.buildCompleted = true ∧ 0 < b.refcount
  written : ∀ b ∈ s.builds, b.buf ≠ []
  reading : ∀ c ∈ s.map, c.2.isWaiting = false → ∃ b ∈ s.builds,
    c.2.itBuild = some b.address ∧ c.2.bufPtr < b.buf.length
  waits : ∀ c ∈ s.map, c.2.isWaiting = true → c.2.itBuild = none ∧ s.builds = [] ∨
    ∃ front ∈ s.builds.head?, c.2.itBuild = some front.address ∧ front.buildCompleted = false ∧
      c.2.bufPtr = front.buf.length

/-- The invariant; what has been sent plays no part in it. -/
structure Kept (s : StreamServer) : Prop where
  tracks : ∃ sent, Tracks sent s
  listed : s.Listed
  served : s.Served

/-- A client that has a build keeps it. -/
def KeepsBuild (s s' : StreamServer) : Prop :=
  ∀ c ∈ s.map, ∀ a, c.2.itBuild = some a → ∀ c' ∈ s'.map, c'.1 = c.1 → c'.2.itBuild = some a

/-- What the calls of the daemon look at. -/
def frontState (s : StreamServer) : Option (Bool × Bool) :=
  s.builds.head?.map fun b ↦ (b.buildCompleted, b.firstChunk)

/-- A build is going on, and its buffer is being written: the clients that wait
have read up to `n`. -/
structure Open (n : ℕ) (front : BuildInfo) (bs : List BuildInfo) (s : StreamServer) : Prop where
  tracks : ∃ sent, Tracks sent s
  listed : s.Listed
  builds : s.builds = front :: bs
  incomplete : front.buildCompleted = false
  older : ∀ b ∈ bs, b.buildCompleted = true ∧ 0 < b.refcount ∧ b.buf ≠ []
  reading : ∀ c ∈ s.map, c.2.isWaiting = false → ∃ b ∈ s.builds,
    c.2.itBuild = some b.address ∧ c.2.bufPtr < b.buf.length
  waits : ∀ c ∈ s.map, c.2.isWaiting = true → c.2.bufPtr ≤ n ∧
    (c.2.itBuild = none ∨ c.2.itBuild = some front.address)

variable {s s' : StreamServer} {sent : ℕ → List UInt8} {front : BuildInfo} {bs : List BuildInfo}
  {n fd : ℕ} {info : ClientInfo}

theorem lookup_of_mem (hnd : (s.map.map Prod.fst).Nodup) (hfd : (fd, info) ∈ s.map) :
    s.map.lookup fd = some info :=
  (Lib.lookup_eq_some_iff_mem hnd).mpr hfd

/-- What flushing does to a client. -/
def flushed (front : BuildInfo) (c : ℕ × ClientInfo) : ℕ × ClientInfo :=
  (c.1, { c.2 with isWaiting := false, itBuild := some front.address })

/-- The clients of `pre` have been flushed. -/
structure Flushing (s : StreamServer) (front : BuildInfo) (bs : List BuildInfo) (pre : List ℕ)
    (t : StreamServer) : Prop where
  fds : t.fds = pre.reverse ++ s.fds
  waiting : t.waiting = s.waiting
  builds : ∃ refcount, t.builds = { front with refcount := refcount } :: bs
  map : t.map = s.map.map fun c ↦ if c.1 ∈ pre then flushed front c else c

theorem Open.flushClient (h : Open n front bs s) {pre post : List ℕ} {t : StreamServer}
    (hpre : s.waiting = pre ++ fd :: post) (ht : Flushing s front bs pre t) :
    ∃ t', t.flushClient fd = .ok t' ∧ Flushing s front bs (pre ++ [fd]) t' := by
  obtain ⟨sent, htracks⟩ := h.tracks
  have hmem : fd ∈ s.waiting := by simp [hpre]
  obtain ⟨⟨fd', info⟩, hc, rfl⟩ := h.listed.known fd (Or.inr hmem)
  have hfresh : fd' ∉ pre := by
    have hnd := h.listed.waiting_nodup
    rw [hpre, List.nodup_append] at hnd
    exact fun hin ↦ hnd.2.2 fd' hin fd' List.mem_cons_self rfl
  have hcmap : (fd', info) ∈ t.map := by
    rw [ht.map]
    exact List.mem_map.mpr ⟨(fd', info), hc, if_neg hfresh⟩
  have hnd : (t.map.map Prod.fst).Nodup := by
    have hkeys : t.map.map Prod.fst = s.map.map Prod.fst := by
      rw [ht.map, List.map_map]
      refine List.map_congr_left fun c _ ↦ ?_
      simp only [Function.comp_apply]
      split <;> rfl
    rw [hkeys]
    exact htracks.map_nodup
  obtain ⟨refcount, hbuilds⟩ := ht.builds
  -- The new map, whichever way the client has been assigned.
  have hmap : ∀ f : ClientInfo → ClientInfo,
      (fd', f info) = flushed front (fd', info) →
      (t.updateClient fd' f).map = s.map.map fun c ↦
        if c.1 ∈ pre ++ [fd'] then flushed front c else c := by
    intro f hf
    rw [updateClient, ht.map, List.map_map]
    refine List.map_congr_left fun c hcs ↦ ?_
    by_cases hkey : c.1 = fd'
    · obtain rfl : c = (fd', info) := htracks.client_eq hcs hc hkey
      simp [hfresh, hf]
    · by_cases hin : c.1 ∈ pre <;> simp [hin, hkey, flushed]
  have hwaits := (h.waits (fd', info) hc (((h.listed.client _ hc).1).mp hmem)).2
  rw [StreamServer.flushClient, lookup_of_mem hnd hcmap, hbuilds]
  cases hbuild : info.itBuild with
  | none =>
      simp only [hbuild, Lib.except_pure]
      refine ⟨_, rfl, ⟨?_, ht.waiting, ⟨refcount + 1, rfl⟩, ?_⟩⟩
      · simp [ht.fds, updateClient]
      · refine Eq.trans ?_ (hmap (fun x ↦ { x with
          isWaiting := false, itBuild := some front.address }) rfl)
        simp only [updateClient, List.map_map]
        refine List.map_congr_left fun c _ ↦ ?_
        by_cases hkey : c.1 = fd' <;> simp [hkey]
  | some a =>
      simp only [hbuild, reduceCtorEq, false_or, Option.some.injEq] at hwaits
      subst hwaits
      simp only [hbuild, decide_true, assert_true, Lib.except_ok_bind, Lib.except_pure]
      refine ⟨_, rfl, ⟨?_, ht.waiting, ⟨refcount, hbuilds⟩, ?_⟩⟩
      · simp [ht.fds]
      · refine hmap ({ · with isWaiting := false }) ?_
        simp [flushed, hbuild]

theorem Listed.disjoint (h : s.Listed) (hfd : fd ∈ s.fds) : fd ∉ s.waiting := by
  intro hwait
  obtain ⟨c, hc, rfl⟩ := h.known fd (Or.inl hfd)
  have htrue := ((h.client c hc).1).mp hwait
  rw [((h.client c hc).2).mp hfd] at htrue
  cases htrue

section Flushed

variable {t : StreamServer} (h : Open n front bs s) (ht : Flushing s front bs s.waiting t)
include h ht

/-- The clients after the loop. -/
theorem Open.flushed_client {c : ℕ × ClientInfo} (hc : c ∈ t.map) :
    ∃ x ∈ s.map, c.1 = x.1 ∧ c.2.bufPtr = x.2.bufPtr ∧ c.2.isWaiting = false ∧
      (x.2.isWaiting = true → c.2.itBuild = some front.address) ∧
      (x.2.isWaiting = false → c = x) := by
  rw [ht.map] at hc
  obtain ⟨x, hx, rfl⟩ := List.mem_map.mp hc
  refine ⟨x, hx, ?_⟩
  by_cases hmem : x.1 ∈ s.waiting
  · have hwait := ((h.listed.client x hx).1).mp hmem
    simp [hmem, flushed, hwait]
  · have hwait : x.2.isWaiting = false := by
      rw [← Bool.not_eq_true, ← (h.listed.client x hx).1]
      exact hmem
    simp [hmem, hwait]

theorem Open.flushed_listed : Listed { t with waiting := [] } := by
  refine ⟨?_, List.nodup_nil, ?_, ?_⟩
  · change t.fds.Nodup
    rw [ht.fds]
    refine List.Nodup.append (List.nodup_reverse.mpr h.listed.waiting_nodup) h.listed.fds_nodup ?_
    intro fd hwait hfd
    exact h.listed.disjoint hfd (List.mem_reverse.mp hwait)
  · intro c hc
    obtain ⟨x, hx, hkey, -, hwait, -⟩ := h.flushed_client ht hc
    refine ⟨by simp [hwait], ?_⟩
    rw [ht.fds, hkey, List.mem_append, List.mem_reverse, (h.listed.client x hx).1,
      (h.listed.client x hx).2, hwait]
    simp only [iff_true]
    exact (Bool.eq_false_or_eq_true x.2.isWaiting)
  · intro fd hfd
    have hold : fd ∈ s.fds ∨ fd ∈ s.waiting := by
      rcases hfd with hfd | hfd
      · rw [ht.fds, List.mem_append, List.mem_reverse] at hfd
        exact hfd.symm
      · cases hfd
    obtain ⟨x, hx, rfl⟩ := h.listed.known fd hold
    refine ⟨if x.1 ∈ s.waiting then flushed front x else x, ?_, ?_⟩
    · change _ ∈ t.map
      rw [ht.map]
      exact List.mem_map_of_mem hx
    · split <;> rfl

theorem Open.flushed_served (hn : n < front.buf.length) : Served { t with waiting := [] } := by
  obtain ⟨refcount, hbuilds⟩ := ht.builds
  have hfront : { front with refcount := refcount } ∈ t.builds := by simp [hbuilds]
  refine ⟨?_, ?_, ?_, ?_⟩
  · change ∀ b ∈ t.builds.tail, _
    rw [hbuilds]
    exact fun b hb ↦ ⟨(h.older b hb).1, (h.older b hb).2.1⟩
  · change ∀ b ∈ t.builds, _
    rw [hbuilds]
    intro b hb
    rcases List.mem_cons.mp hb with rfl | hb
    · exact List.ne_nil_of_length_pos (Nat.zero_lt_of_lt hn)
    · exact (h.older b hb).2.2
  · intro c hc _
    obtain ⟨x, hx, -, hptr, -, hflushed, hsame⟩ := h.flushed_client ht hc
    cases hwait : x.2.isWaiting with
    | true =>
        refine ⟨_, hfront, hflushed hwait, ?_⟩
        rw [hptr]
        exact lt_of_le_of_lt (h.waits x hx hwait).1 hn
    | false =>
        obtain rfl := hsame hwait
        obtain ⟨b, hb, hbuild, hlt⟩ := h.reading c hx hwait
        rw [h.builds] at hb
        rcases List.mem_cons.mp hb with rfl | hb
        · exact ⟨_, hfront, hbuild, hlt⟩
        · refine ⟨b, ?_, hbuild, hlt⟩
          change b ∈ t.builds
          rw [hbuilds]
          exact List.mem_cons_of_mem _ hb
  · intro c hc hwait
    obtain ⟨x, -, -, -, hfalse, -⟩ := h.flushed_client ht hc
    rw [hfalse] at hwait
    cases hwait

theorem Open.flushed_keepsBuild : KeepsBuild s { t with waiting := [] } := by
  obtain ⟨sent, htracks⟩ := h.tracks
  intro x hx a ha c hc hkey
  obtain ⟨x', hx', hkey', -, -, hflushed, hsame⟩ := h.flushed_client ht hc
  obtain rfl : x' = x := htracks.client_eq hx' hx (hkey'.symm.trans hkey)
  cases hwait : x'.2.isWaiting with
  | true =>
      rcases (h.waits x' hx hwait).2 with hnone | hsome
      · rw [hnone] at ha
        cases ha
      · rw [hflushed hwait, ← hsome, ha]
  | false =>
      rw [hsame hwait]
      exact ha

end Flushed

/-- All clients are polled after a flush. -/
theorem Open.flushWaiting (h : Open n front bs s) (hn : n < front.buf.length) :
    ∃ s' refcount, s.flushWaiting = .ok s' ∧ s'.Kept ∧ s'.waiting = [] ∧
      s'.builds = { front with refcount := refcount } :: bs ∧ KeepsBuild s s' := by
  obtain ⟨sent, htracks⟩ := h.tracks
  have hbuf : front.buf ≠ [] := List.ne_nil_of_length_pos (Nat.zero_lt_of_lt hn)
  obtain ⟨t, hloop, ht⟩ := Lib.foldlM_rule (Flushing s front bs) (l := s.waiting) (s := s)
    ⟨by simp, rfl, ⟨front.refcount, h.builds⟩, by simp⟩
    fun pre fd post t hpre ht ↦ h.flushClient hpre ht
  have hrun : s.flushWaiting = .ok { t with waiting := [] } := by
    rw [StreamServer.flushWaiting, h.builds]
    simp [h.incomplete, hbuf, hloop]
  obtain ⟨refcount, hbuilds⟩ := ht.builds
  exact ⟨_, refcount, hrun,
    ⟨⟨sent, htracks.flushWaiting hrun⟩, h.flushed_listed ht, h.flushed_served ht hn⟩, rfl, hbuilds,
    h.flushed_keepsBuild ht⟩

/-- The buffer of the current build grows. -/
theorem Open.updateFront (h : Open n front bs s) {f : BuildInfo → BuildInfo}
    (haddress : ∀ b, (f b).address = b.address) (hcount : ∀ b, (f b).refcount = b.refcount)
    (hdone : ∀ b, (f b).buildCompleted = b.buildCompleted) (hbuf : ∀ b, b.buf <+: (f b).buf) :
    ∃ s', s.updateFront f = .ok s' ∧ Open n (f front) bs s' ∧ s'.map = s.map := by
  obtain ⟨sent, htracks⟩ := h.tracks
  have hrun : s.updateFront f = .ok { s with builds := f front :: bs } := by
    rw [StreamServer.updateFront, h.builds]
    rfl
  refine ⟨_, hrun, ⟨⟨sent, htracks.updateFront haddress hcount hbuf hrun⟩, ?_, rfl, ?_, h.older, ?_,
    ?_⟩, rfl⟩
  · exact ⟨h.listed.fds_nodup, h.listed.waiting_nodup, h.listed.client, h.listed.known⟩
  · rw [hdone]
    exact h.incomplete
  · intro c hc hwait
    obtain ⟨b, hb, hbuild, hlt⟩ := h.reading c hc hwait
    rw [h.builds] at hb
    rcases List.mem_cons.mp hb with rfl | hb
    · refine ⟨f b, List.mem_cons_self, ?_, lt_of_lt_of_le hlt (hbuf b).length_le⟩
      rw [haddress]
      exact hbuild
    · exact ⟨b, List.mem_cons_of_mem _ hb, hbuild, hlt⟩
  · intro c hc hwait
    rw [haddress]
    exact h.waits c hc hwait

/-- A write to the buffer, and the flush that follows. -/
theorem Open.writeBuf_flush (h : Open n front bs s) (hn : n ≤ front.buf.length) {str : List UInt8}
    (hstr : str ≠ []) :
    ∃ s' refcount, (writeBuf str s >>= StreamServer.flushWaiting) = .ok s' ∧ s'.Kept ∧
      s'.waiting = [] ∧
      s'.builds = { front with buf := front.buf ++ str, refcount := refcount } :: bs ∧
      KeepsBuild s s' := by
  obtain ⟨s₁, hwrite, hopen, hmap⟩ := h.updateFront (f := fun b ↦ { b with buf := b.buf ++ str })
    (fun _ ↦ rfl) (fun _ ↦ rfl) (fun _ ↦ rfl) (fun b ↦ List.prefix_append b.buf str)
  have hlen : n < (front.buf ++ str).length := by
    rw [List.length_append]
    have := List.length_pos_of_ne_nil hstr
    omega
  obtain ⟨s', refcount, hflush, hkept, hwait, hbuilds, hkeeps⟩ := hopen.flushWaiting hlen
  refine ⟨s', refcount, ?_, hkept, hwait, hbuilds, ?_⟩
  · rw [writeBuf, hwrite]
    exact hflush
  · rw [KeepsBuild, ← hmap]
    exact hkeeps

/-! ## The calls of the daemon -/

namespace Kept

theorem isOpen (h : s.Kept) (hbuilds : s.builds = front :: bs)
    (hincomplete : front.buildCompleted = false) : Open front.buf.length front bs s := by
  refine ⟨h.tracks, h.listed, hbuilds, hincomplete, ?_, h.served.reading, ?_⟩
  · intro b hb
    obtain ⟨hdone, hcount⟩ := h.served.older b (by simpa [hbuilds] using hb)
    exact ⟨hdone, hcount, h.served.written b (by simp [hbuilds, hb])⟩
  · intro c hc hwait
    rcases h.served.waits c hc hwait with ⟨-, hnil⟩ | ⟨b, hb, hbuild, -, hptr⟩
    · rw [hbuilds] at hnil
      cases hnil
    · rw [hbuilds] at hb
      obtain rfl := Option.some.inj hb
      exact ⟨hptr.le, Or.inr hbuild⟩

/-- The previous build goes if nobody reads it. -/
theorem dropPrevious (h : s.Kept) (hidle : ∀ b ∈ s.builds.head?, b.buildCompleted = true) :
    ∃ bs', s.dropPrevious = .ok { s with builds := bs' } ∧ bs' ⊆ s.builds ∧
      ∀ b ∈ bs', b.buildCompleted = true ∧ 0 < b.refcount := by
  obtain ⟨sent, htracks⟩ := h.tracks
  cases hbuilds : s.builds with
  | nil =>
      refine ⟨s.builds, ?_, by simp [hbuilds], by simp [hbuilds]⟩
      rw [StreamServer.dropPrevious]
      split
      · rfl
      · rename_i hcons
        rw [hbuilds] at hcons
        cases hcons
  | cons front bs =>
      have hdone : front.buildCompleted = true := hidle front (by simp [hbuilds])
      have holder : ∀ b ∈ bs, b.buildCompleted = true ∧ 0 < b.refcount :=
        fun b hb ↦ h.served.older b (by simpa [hbuilds] using hb)
      rw [StreamServer.dropPrevious, hbuilds]
      simp only [hdone, assert_true, Lib.except_ok_bind]
      by_cases hcount : front.refcount = 0
      · refine ⟨bs, ?_, by simp, holder⟩
        have hfilter : s.builds.filter (fun x ↦ x.address ≠ front.address) = bs := by
          have hnd := htracks.builds_nodup
          rw [hbuilds, List.map_cons, List.nodup_cons] at hnd
          rw [hbuilds, List.filter_cons_of_neg (by simp)]
          refine List.filter_eq_self.mpr fun b hb ↦ decide_eq_true fun heq ↦ hnd.1 ?_
          rw [← heq]
          exact List.mem_map_of_mem hb
        rw [if_pos hcount, removeBuild, hfilter]
        simp [hcount, hdone]
      · refine ⟨front :: bs, ?_, by simp, ?_⟩
        · rw [if_neg hcount, ← hbuilds]
          rfl
        · intro b hb
          rcases List.mem_cons.mp hb with rfl | hb
          · exact ⟨hdone, Nat.pos_of_ne_zero hcount⟩
          · exact holder b hb

theorem newBuild (h : s.Kept) (hidle : ∀ b ∈ s.builds.head?, b.buildCompleted = true)
    (buildId : ℕ) : ∃ s', s.newBuild buildId = .ok s' ∧ s'.Kept ∧ KeepsBuild s s' ∧
      ∃ b ∈ s'.builds.head?, b.buildCompleted = false := by
  obtain ⟨sent, htracks⟩ := h.tracks
  obtain ⟨bs', hdrop, hsub, holder⟩ := h.dropPrevious hidle
  have htracks₁ := htracks.dropPrevious hdrop
  have hopen : Open 0 ⟨s.nextAddress, buildId, [], 0, false, true⟩ bs'
      (pushBuild buildId { s with builds := bs' }) := by
    refine ⟨⟨sent, htracks₁.pushBuild buildId⟩, ?_, rfl, rfl, ?_, ?_, ?_⟩
    · exact ⟨h.listed.fds_nodup, h.listed.waiting_nodup, h.listed.client, h.listed.known⟩
    · intro b hb
      exact ⟨(holder b hb).1, (holder b hb).2, h.served.written b (hsub hb)⟩
    · intro c hc hwait
      obtain ⟨b, hb, hbuild, hlt⟩ := h.served.reading c hc hwait
      obtain ⟨x, hx, haddress, -⟩ := htracks₁.assigned c hc b.address hbuild
      obtain rfl : x = b := htracks.build_eq (hsub hx) hb haddress
      exact ⟨x, List.mem_cons_of_mem _ hx, hbuild, hlt⟩
    · intro c hc hwait
      rcases h.served.waits c hc hwait with ⟨hnone, -⟩ | ⟨b, hb, -, hincomplete, -⟩
      · exact ⟨(htracks.unassigned c hc hnone).1.le, Or.inl hnone⟩
      · rw [hidle b hb] at hincomplete
        cases hincomplete
  have hstr : bytes ("\x7b\n  \"id\": " ++ toString buildId ++ ",\n  \"cmds\": [\n") ≠ [] :=
    bytes_ne_nil (by simp)
  obtain ⟨s', refcount, hrun, hkept, -, hbuilds, hkeeps⟩ :=
    hopen.writeBuf_flush (Nat.zero_le _) hstr
  refine ⟨s', ?_, hkept, hkeeps, ?_⟩
  · rw [StreamServer.newBuild, hdrop, Lib.except_ok_bind]
    exact hrun
  · rw [hbuilds]
    exact ⟨_, rfl, rfl⟩

/-- The calls that go on with a build, after the comma of the chunk. -/
theorem chunk_flush (h : s.Kept) (hbuilds : s.builds = front :: bs)
    (hincomplete : front.buildCompleted = false) {str : List UInt8} (hstr : str ≠ []) :
    ∃ s', (do let s ← s.nextChunk; let s ← writeBuf str s; s.flushWaiting) = .ok s' ∧ s'.Kept ∧
      KeepsBuild s s' ∧ ∃ b ∈ s'.builds.head?, b.buildCompleted = false ∧ b.firstChunk = false := by
  have hopen := h.isOpen hbuilds hincomplete
  obtain ⟨s₁, hchunk, hopen₁, hmap⟩ := hopen.updateFront (f := fun b ↦
      if b.firstChunk then { b with firstChunk := false }
        else { b with buf := b.buf ++ bytes ",\n" })
    (fun b ↦ by split <;> rfl) (fun b ↦ by split <;> rfl) (fun b ↦ by split <;> rfl) fun b ↦ by
      split
      · exact List.prefix_rfl
      · exact List.prefix_append _ _
  have hlen : front.buf.length ≤ (if front.firstChunk then { front with firstChunk := false } else
      { front with buf := front.buf ++ bytes ",\n" } : BuildInfo).buf.length := by
    split
    · exact le_rfl
    · simp
  have hfirst : (if front.firstChunk then { front with firstChunk := false } else
      { front with buf := front.buf ++ bytes ",\n" } : BuildInfo).firstChunk = false := by
    split
    · rfl
    · rename_i hfirst
      simpa using hfirst
  obtain ⟨s', refcount, hrun, hkept, -, hbuilds', hkeeps⟩ := hopen₁.writeBuf_flush hlen hstr
  refine ⟨s', ?_, hkept, ?_, ?_⟩
  · rw [StreamServer.nextChunk, hchunk]
    exact hrun
  · rw [KeepsBuild, ← hmap]
    exact hkeeps
  · rw [hbuilds']
    exact ⟨_, rfl, hopen₁.incomplete, hfirst⟩

theorem newCommand (h : s.Kept) (hbuilds : s.builds = front :: bs)
    (hincomplete : front.buildCompleted = false) (cmdId : ℕ) (cmd : String) :
    ∃ s', s.newCommand cmdId cmd = .ok s' ∧ s'.Kept ∧ KeepsBuild s s' ∧
      ∃ b ∈ s'.builds.head?, b.buildCompleted = false ∧ b.firstChunk = false := by
  apply h.chunk_flush hbuilds hincomplete
  simp [bytes_ne_nil]

theorem cacheRetrieveAction (h : s.Kept) (hbuilds : s.builds = front :: bs)
    (hincomplete : front.buildCompleted = false) (path : String) :
    ∃ s', s.cacheRetrieveAction path = .ok s' ∧ s'.Kept ∧ KeepsBuild s s' ∧
      ∃ b ∈ s'.builds.head?, b.buildCompleted = false ∧ b.firstChunk = false := by
  apply h.chunk_flush hbuilds hincomplete
  exact bytes_ne_nil (by simp)

theorem writeCmdOutput (h : s.Kept) (hbuilds : s.builds = front :: bs)
    (hincomplete : front.buildCompleted = false) (hfirst : front.firstChunk = false) (cmdId : ℕ)
    (buf : List UInt8) (isStdout : Bool) :
    ∃ s', s.writeCmdOutput cmdId buf isStdout = .ok s' ∧ s'.Kept ∧ KeepsBuild s s' ∧
      ∃ b ∈ s'.builds.head?, b.buildCompleted = false ∧ b.firstChunk = false := by
  have hstr : bytes (",\n    \x7b \"id\": " ++ toString cmdId ++
      (if isStdout then ", \"stdout\": \"" else ", \"stderr\": \"")) ++
      escapeJson buf ++ bytes "\" \x7d" ≠ [] := by
    simp [bytes_ne_nil]
  obtain ⟨s', refcount, hrun, hkept, -, hbuilds', hkeeps⟩ :=
    (h.isOpen hbuilds hincomplete).writeBuf_flush le_rfl hstr
  refine ⟨s', ?_, hkept, hkeeps, ?_⟩
  · rw [StreamServer.writeCmdOutput, hbuilds]
    simp only [List.head?_cons, Option.any_some, hfirst, Bool.not_false, assert_true,
      Lib.except_ok_bind]
    exact hrun
  · rw [hbuilds']
    exact ⟨_, rfl, hincomplete, hfirst⟩

theorem endCommand (h : s.Kept) (hbuilds : s.builds = front :: bs)
    (hincomplete : front.buildCompleted = false) (cmdId : ℕ) (status : SubProcessExitStatus) :
    ∃ s', s.endCommand cmdId status = .ok s' ∧ s'.Kept ∧ KeepsBuild s s' ∧
      ∃ b ∈ s'.builds.head?, b.buildCompleted = false ∧ b.firstChunk = front.firstChunk := by
  have hstr : bytes (",\n    \x7b \"id\": " ++ toString cmdId ++ ", \"status\": \"" ++
      status.toString ++ "\" \x7d") ≠ [] := bytes_ne_nil (by simp)
  obtain ⟨s', refcount, hrun, hkept, -, hbuilds', hkeeps⟩ :=
    (h.isOpen hbuilds hincomplete).writeBuf_flush le_rfl hstr
  refine ⟨s', hrun, hkept, hkeeps, ?_⟩
  rw [hbuilds']
  exact ⟨_, rfl, hincomplete, rfl⟩

theorem endBuild (h : s.Kept) (hbuilds : s.builds = front :: bs)
    (hincomplete : front.buildCompleted = false) (result : BuildResult) :
    ∃ s', s.endBuild result = .ok s' ∧ s'.Kept ∧ KeepsBuild s s' ∧
      ∃ b ∈ s'.builds.head?, b.buildCompleted = true := by
  have hstr : bytes ("\n  ],\n  \"result\": \"" ++ result.toString ++ "\"\n\x7d\n") ≠ [] :=
    bytes_ne_nil (by simp)
  obtain ⟨s₁, refcount, hrun, hkept, hwait, hbuilds₁, hkeeps⟩ :=
    (h.isOpen hbuilds hincomplete).writeBuf_flush le_rfl hstr
  generalize hfront : ({ front with buf := front.buf ++ bytes ("\n  ],\n  \"result\": \"" ++
    result.toString ++ "\"\n\x7d\n"), refcount := refcount } : BuildInfo) = front₁ at hbuilds₁
  have hdone : s₁.updateFront ({ · with buildCompleted := true }) =
      .ok { s₁ with builds := { front₁ with buildCompleted := true } :: bs } := by
    rw [StreamServer.updateFront, hbuilds₁]
    rfl
  refine ⟨{ s₁ with builds := { front₁ with buildCompleted := true } :: bs }, ?_, ⟨?_, ?_, ?_⟩,
    hkeeps, ⟨_, rfl, rfl⟩⟩
  · rw [StreamServer.endBuild, hbuilds]
    simp only [hincomplete, Bool.not_false, assert_true, Lib.except_ok_bind]
    obtain ⟨s₂, hwrite, hflush⟩ := Lib.bind_eq_ok.mp hrun
    rw [hwrite, Lib.except_ok_bind, hflush, Lib.except_ok_bind]
    exact hdone
  · obtain ⟨sent, htracks⟩ := hkept.tracks
    refine ⟨sent, htracks.updateFront ?_ ?_ ?_ hdone⟩
    · exact fun _ ↦ rfl
    · exact fun _ ↦ rfl
    · exact fun _ ↦ List.prefix_rfl
  · exact ⟨hkept.listed.fds_nodup, hkept.listed.waiting_nodup, hkept.listed.client,
      hkept.listed.known⟩
  · have hserved := hkept.served
    have hmem : ∀ b ∈ s₁.builds, ∃ b' ∈ ({ front₁ with buildCompleted := true } :: bs : List _),
        b'.address = b.address ∧ b'.buf = b.buf := by
      intro b hb
      rw [hbuilds₁] at hb
      rcases List.mem_cons.mp hb with rfl | hb
      · exact ⟨_, List.mem_cons_self, rfl, rfl⟩
      · exact ⟨b, List.mem_cons_of_mem _ hb, rfl, rfl⟩
    refine ⟨?_, ?_, ?_, ?_⟩
    · intro b hb
      exact hserved.older b (by rw [hbuilds₁]; exact hb)
    · intro b hb
      rcases List.mem_cons.mp hb with rfl | hb
      · exact hserved.written front₁ (by simp [hbuilds₁])
      · exact hserved.written b (by simp [hbuilds₁, hb])
    · intro c hc hw
      obtain ⟨b, hb, hbuild, hlt⟩ := hserved.reading c hc hw
      obtain ⟨b', hb', haddress, hbuf⟩ := hmem b hb
      exact ⟨b', hb', by rw [haddress]; exact hbuild, by rw [hbuf]; exact hlt⟩
    · intro c hc hw
      have hin := ((hkept.listed.client c hc).1).mpr hw
      rw [hwait] at hin
      cases hin

/-! ## The calls of the clients -/

theorem createClient_nil (hfd : ∀ c ∈ s.map, c.1 ≠ fd) (hbuilds : s.builds = []) :
    s.createClient fd = { s with
      waiting := fd :: s.waiting
      map := (fd, ⟨none, 0, true⟩) :: s.map } := by
  rw [StreamServer.createClient]
  simpa [hbuilds] using fun a b hmem ↦ hfd (a, b) hmem

theorem createClient_cons (hfd : ∀ c ∈ s.map, c.1 ≠ fd) (hbuilds : s.builds = front :: bs)
    (hbuf : front.buf ≠ []) : s.createClient fd = { s with
      fds := fd :: s.fds
      builds := { front with refcount := front.refcount + 1 } :: bs
      map := (fd, ⟨some front.address, 0, false⟩) :: s.map } := by
  rw [StreamServer.createClient]
  simpa [hbuilds, hbuf] using fun a b hmem ↦ hfd (a, b) hmem

section NewClient

variable (h : s.Kept) (hfd : ∀ c ∈ s.map, c.1 ≠ fd)
include h hfd

/-- The file descriptor of a new client is on neither list. -/
theorem not_listed : fd ∉ s.fds ∧ fd ∉ s.waiting := by
  constructor
  · intro hmem
    obtain ⟨c, hc, heq⟩ := h.listed.known fd (Or.inl hmem)
    exact hfd c hc heq
  · intro hmem
    obtain ⟨c, hc, heq⟩ := h.listed.known fd (Or.inr hmem)
    exact hfd c hc heq

omit hfd in
theorem known_cons (x : ClientInfo) (fd' : ℕ)
    (hmem : fd' = fd ∨ fd' ∈ s.fds ∨ fd' ∈ s.waiting) : ∃ c ∈ (fd, x) :: s.map, c.1 = fd' := by
  rcases hmem with rfl | hmem
  · exact ⟨_, List.mem_cons_self, rfl⟩
  · obtain ⟨c, hc, heq⟩ := h.listed.known fd' hmem
    exact ⟨c, List.mem_cons_of_mem _ hc, heq⟩

theorem keepsBuild_cons {x : ClientInfo} {t : StreamServer} (ht : t.map = (fd, x) :: s.map) :
    KeepsBuild s t := by
  obtain ⟨sent, htracks⟩ := h.tracks
  intro c hc a ha c' hc' hkey
  rw [ht] at hc'
  rcases List.mem_cons.mp hc' with rfl | hc'
  · exact absurd hkey.symm (hfd c hc)
  · rw [htracks.client_eq hc' hc hkey]
    exact ha

/-- A client that connects before the first build waits for it. -/
theorem createClient_waits (hbuilds : s.builds = []) : (s.createClient fd).Kept := by
  obtain ⟨sent, htracks⟩ := h.tracks
  obtain ⟨hfds, hwaiting⟩ := h.not_listed hfd
  have htracks' := htracks.createClient hfd
  rw [createClient_nil hfd hbuilds] at htracks' ⊢
  refine ⟨⟨_, htracks'⟩, ⟨h.listed.fds_nodup,
    List.nodup_cons.mpr ⟨hwaiting, h.listed.waiting_nodup⟩, ?_, ?_⟩,
    ⟨h.served.older, h.served.written, ?_, ?_⟩⟩
  · intro c hc
    rcases List.mem_cons.mp hc with rfl | hc
    · simp [hfds]
    · simpa [hfd c hc] using h.listed.client c hc
  · intro fd' hmem
    refine h.known_cons _ fd' ?_
    rcases hmem with hmem | hmem
    · exact Or.inr (Or.inl hmem)
    · exact (List.mem_cons.mp hmem).imp id Or.inr
  · intro c hc hwait
    rcases List.mem_cons.mp hc with rfl | hc
    · cases hwait
    · exact h.served.reading c hc hwait
  · intro c hc hwait
    rcases List.mem_cons.mp hc with rfl | hc
    · exact Or.inl ⟨rfl, hbuilds⟩
    · exact h.served.waits c hc hwait

/-- Any other client reads the current build from the start. -/
theorem createClient_reads (hbuilds : s.builds = front :: bs) :
    (s.createClient fd).Kept := by
  obtain ⟨sent, htracks⟩ := h.tracks
  obtain ⟨hfds, hwaiting⟩ := h.not_listed hfd
  have htracks' := htracks.createClient hfd
  have hbuf : front.buf ≠ [] := h.served.written front (by simp [hbuilds])
  rw [createClient_cons hfd hbuilds hbuf] at htracks' ⊢
  refine ⟨⟨_, htracks'⟩, ⟨List.nodup_cons.mpr ⟨hfds, h.listed.fds_nodup⟩,
    h.listed.waiting_nodup, ?_, ?_⟩, ⟨?_, ?_, ?_, ?_⟩⟩
  · intro c hc
    rcases List.mem_cons.mp hc with rfl | hc
    · simp [hwaiting]
    · simpa [hfd c hc] using h.listed.client c hc
  · intro fd' hmem
    refine h.known_cons _ fd' ?_
    rcases hmem with hmem | hmem
    · exact (List.mem_cons.mp hmem).imp id Or.inl
    · exact Or.inr (Or.inr hmem)
  · intro b hb
    exact h.served.older b (by simpa [hbuilds] using hb)
  · intro b hb
    rcases List.mem_cons.mp hb with rfl | hb
    · exact hbuf
    · exact h.served.written b (by simp [hbuilds, hb])
  · intro c hc hwait
    rcases List.mem_cons.mp hc with rfl | hc
    · exact ⟨_, List.mem_cons_self, rfl, List.length_pos_of_ne_nil hbuf⟩
    · obtain ⟨b, hb, hbuild, hlt⟩ := h.served.reading c hc hwait
      rw [hbuilds] at hb
      rcases List.mem_cons.mp hb with rfl | hb
      · exact ⟨_, List.mem_cons_self, hbuild, hlt⟩
      · exact ⟨b, List.mem_cons_of_mem _ hb, hbuild, hlt⟩
  · intro c hc hwait
    rcases List.mem_cons.mp hc with rfl | hc
    · cases hwait
    · rcases h.served.waits c hc hwait with ⟨-, hnil⟩ | ⟨b, hb, hbuild, hdone, hptr⟩
      · rw [hbuilds] at hnil
        cases hnil
      · rw [hbuilds] at hb
        obtain rfl := Option.some.inj hb
        exact Or.inr ⟨_, rfl, hbuild, hdone, hptr⟩

theorem createClient :
    (s.createClient fd).Kept ∧ KeepsBuild s (s.createClient fd) ∧
      (s.createClient fd).frontState = s.frontState := by
  cases hbuilds : s.builds with
  | nil =>
      refine ⟨h.createClient_waits hfd hbuilds, ?_, ?_⟩
      · exact h.keepsBuild_cons hfd (congrArg StreamServer.map (createClient_nil hfd hbuilds))
      · rw [createClient_nil hfd hbuilds]
        rfl
  | cons front bs =>
      have hbuf : front.buf ≠ [] := h.served.written front (by simp [hbuilds])
      have hrun := createClient_cons hfd hbuilds hbuf
      refine ⟨h.createClient_reads hfd hbuilds, ?_, ?_⟩
      · exact h.keepsBuild_cons hfd (congrArg StreamServer.map hrun)
      · rw [hrun]
        simp [frontState, hbuilds]

end NewClient

/-- What is left of the builds when one loses a reader. -/
structure Released (s : StreamServer) (builds : List BuildInfo) : Prop where
  same : ∀ x ∈ builds, ∃ y ∈ s.builds, x.address = y.address ∧ x.buf = y.buf
  older : ∀ x ∈ builds.tail, x.buildCompleted = true ∧ 0 < x.refcount
  front : ∃ front bs refcount rest, s.builds = front :: bs ∧
    builds = { front with refcount := refcount } :: rest

/-- The build `x` when `b` has lost a reader. -/
def leave (b x : BuildInfo) : BuildInfo :=
  if x.address = b.address then { b with refcount := b.refcount - 1 } else x

section Leave

variable {b x : BuildInfo}

theorem leave_of_ne (hne : x.address ≠ b.address) : leave b x = x := if_neg hne

theorem leave_self : leave b b = { b with refcount := b.refcount - 1 } := if_pos rfl

theorem same_leave (hb : b ∈ s.builds) :
    ∀ x ∈ s.builds.map (leave b), ∃ y ∈ s.builds, x.address = y.address ∧ x.buf = y.buf := by
  intro x hx
  obtain ⟨y, hy, rfl⟩ := List.mem_map.mp hx
  by_cases heq : y.address = b.address
  · exact ⟨b, hb, by simp [leave, heq], by simp [leave, heq]⟩
  · exact ⟨y, hy, by rw [leave_of_ne heq], by rw [leave_of_ne heq]⟩

/-- A build that is complete keeps its readers but the one. -/
theorem older_leave (hdone : b.buildCompleted = true)
    (holder : ∀ y ∈ bs, y.buildCompleted = true ∧ 0 < y.refcount) :
    ∀ x ∈ bs.map (leave b), x.buildCompleted = true ∧
      (x.address = b.address → x.refcount = b.refcount - 1) ∧
      (x.address ≠ b.address → 0 < x.refcount) := by
  intro x hx
  obtain ⟨y, hy, rfl⟩ := List.mem_map.mp hx
  by_cases heq : y.address = b.address
  · simp [leave, heq, hdone]
  · simp [leave, heq, holder y hy]

theorem releaseBuild_eq (h : Tracks sent s') (hb : b ∈ s'.builds) : s'.releaseBuild b.address =
    if b.refcount - 1 = 0 && b.buildCompleted &&
        (s'.builds.map (leave b)).head?.map (·.address) ≠ some b.address then
      { s' with builds := s'.builds.map (leave b) }.removeBuild
        { b with refcount := b.refcount - 1 }
    else pure { s' with builds := s'.builds.map (leave b) } := by
  have hfind : s'.builds.find? (fun x ↦ x.address = b.address) = some b := by
    cases hx : s'.builds.find? fun x ↦ x.address = b.address with
    | none => exact absurd (List.find?_eq_none.mp hx b hb) (by simp)
    | some x =>
        exact congrArg some (h.build_eq (List.mem_of_find?_eq_some hx) hb
          (by simpa using List.find?_some hx))
  rw [StreamServer.releaseBuild, hfind]
  rfl

/-- The build at the front stays, whoever leaves. -/
theorem releaseBuild_front (h : s.Kept) (hbuilds : s.builds = b :: bs) :
    ∃ builds, s.releaseBuild b.address = .ok { s with builds := builds } ∧ Released s builds := by
  obtain ⟨sent, htracks⟩ := h.tracks
  have hb : b ∈ s.builds := by simp [hbuilds]
  have hnd := htracks.builds_nodup
  rw [hbuilds, List.map_cons, List.nodup_cons] at hnd
  have hne : ∀ x ∈ bs, x.address ≠ b.address :=
    fun x hx heq ↦ hnd.1 (heq ▸ List.mem_map_of_mem hx)
  have hmap : s.builds.map (leave b) = { b with refcount := b.refcount - 1 } :: bs := by
    rw [hbuilds, List.map_cons, leave_self]
    congr 1
    exact (List.map_congr_left fun x hx ↦ leave_of_ne (hne x hx)).trans (List.map_id bs)
  have hsame := same_leave hb
  rw [releaseBuild_eq htracks hb]
  rw [hmap] at hsame ⊢
  refine ⟨_, by simp, hsame, ?_, ⟨b, bs, _, bs, hbuilds, rfl⟩⟩
  exact fun x hx ↦ h.served.older x (by simpa [hbuilds] using hx)

/-- An older build goes with its last reader. -/
theorem releaseBuild_older (h : s.Kept) (hbuilds : s.builds = front :: bs) (hb : b ∈ bs) :
    ∃ builds, s.releaseBuild b.address = .ok { s with builds := builds } ∧ Released s builds := by
  obtain ⟨sent, htracks⟩ := h.tracks
  have hmem : b ∈ s.builds := by simp [hbuilds, hb]
  have hnd := htracks.builds_nodup
  rw [hbuilds, List.map_cons, List.nodup_cons] at hnd
  have hfront : front.address ≠ b.address := fun heq ↦ hnd.1 (heq ▸ List.mem_map_of_mem hb)
  have holder : ∀ y ∈ bs, y.buildCompleted = true ∧ 0 < y.refcount :=
    fun y hy ↦ h.served.older y (by simpa [hbuilds] using hy)
  have hdone : b.buildCompleted = true := (holder b hb).1
  have hold := older_leave hdone holder
  have hmap : s.builds.map (leave b) = front :: bs.map (leave b) := by
    rw [hbuilds, List.map_cons, leave_of_ne hfront]
  have hsame := same_leave hmem
  rw [releaseBuild_eq htracks hmem]
  rw [hmap] at hsame ⊢
  split
  · rename_i hguard
    have hzero : b.refcount - 1 = 0 := by
      simp only [Bool.and_eq_true, decide_eq_true_eq] at hguard
      exact hguard.1.1
    have hassert : (decide (b.refcount - 1 = 0) && b.buildCompleted) = true := by
      simp [hzero, hdone]
    rw [removeBuild, (assert_eq_ok (u := ())).mpr hassert, Lib.except_ok_bind]
    refine ⟨_, rfl, ?_, ?_, ?_⟩
    · exact fun x hx ↦ hsame x (List.mem_of_mem_filter hx)
    · intro x hx
      rw [List.filter_cons_of_pos (by simpa using hfront), List.tail_cons] at hx
      obtain ⟨hx, haddress⟩ := List.mem_filter.mp hx
      obtain ⟨hcompleted, -, hpos⟩ := hold x hx
      exact ⟨hcompleted, hpos (by simpa using haddress)⟩
    · rw [List.filter_cons_of_pos (by simpa using hfront)]
      exact ⟨front, bs, front.refcount, _, hbuilds, rfl⟩
  · rename_i hguard
    refine ⟨_, rfl, hsame, ?_, ⟨front, bs, front.refcount, _, hbuilds, rfl⟩⟩
    intro x hx
    obtain ⟨hcompleted, hcount, hpos⟩ := hold x hx
    refine ⟨hcompleted, ?_⟩
    by_cases heq : x.address = b.address
    · rw [hcount heq]
      refine Nat.pos_of_ne_zero fun hzero ↦ hguard ?_
      simp [hzero, hdone, hfront]
    · exact hpos heq

theorem releaseBuild (h : s.Kept) (hb : b ∈ s.builds) :
    ∃ builds, s.releaseBuild b.address = .ok { s with builds := builds } ∧ Released s builds := by
  obtain ⟨front, bs, hbuilds⟩ : ∃ front bs, s.builds = front :: bs :=
    List.exists_cons_of_ne_nil (List.ne_nil_of_mem hb)
  have hmem := hb
  rw [hbuilds] at hmem
  rcases List.mem_cons.mp hmem with rfl | hmem
  · exact h.releaseBuild_front hbuilds
  · exact h.releaseBuild_older hbuilds hmem

end Leave

/-- A client that is polled can leave. -/
theorem closeClient (h : s.Kept) (hfd : (fd, info) ∈ s.map) (hpolled : info.isWaiting = false) :
    ∃ s', s.closeClient fd = .ok s' ∧ s'.Kept ∧ s'.map = (s.map.filter fun c ↦ c.1 ≠ fd) ∧
      s'.frontState = s.frontState := by
  obtain ⟨sent, htracks⟩ := h.tracks
  obtain ⟨b, hb, hbuild, -⟩ := h.served.reading _ hfd hpolled
  obtain ⟨builds, hrelease, hreleased⟩ := h.releaseBuild hb
  have hrun : s.closeClient fd = .ok { s with
      builds := builds
      fds := s.fds.erase fd
      map := s.map.filter fun c ↦ c.1 ≠ fd } := by
    simp only at hbuild
    rw [StreamServer.closeClient, lookup_of_mem htracks.map_nodup hfd]
    simp only [hbuild, hrelease, Lib.except_ok_bind, Lib.except_pure]
  have htracks' := htracks.closeClient hrun
  have hin : fd ∈ s.fds := ((h.listed.client _ hfd).2).mpr hpolled
  have hold : ∀ c ∈ s.map.filter (fun c ↦ c.1 ≠ fd), c ∈ s.map ∧ c.1 ≠ fd := by
    intro c hc
    obtain ⟨hc, hne⟩ := List.mem_filter.mp hc
    exact ⟨hc, by simpa using hne⟩
  refine ⟨_, hrun, ⟨⟨_, htracks'⟩, ⟨h.listed.fds_nodup.erase fd, h.listed.waiting_nodup, ?_, ?_⟩,
    ⟨hreleased.older, ?_, ?_, ?_⟩⟩, rfl, ?_⟩
  · intro c hc
    obtain ⟨hc, hne⟩ := hold c hc
    refine ⟨(h.listed.client c hc).1, ?_⟩
    rw [← (h.listed.client c hc).2]
    exact List.mem_erase_of_ne hne
  · intro fd' hmem
    have hne : fd' ≠ fd := by
      rintro rfl
      rcases hmem with hmem | hmem
      · exact (h.listed.fds_nodup.mem_erase_iff.mp hmem).1 rfl
      · exact h.listed.disjoint hin hmem
    obtain ⟨c, hc, rfl⟩ := h.listed.known fd' (hmem.imp List.mem_of_mem_erase id)
    exact ⟨c, List.mem_filter.mpr ⟨hc, by simpa using hne⟩, rfl⟩
  · intro x hx
    obtain ⟨y, hy, -, hbuf⟩ := hreleased.same x hx
    rw [hbuf]
    exact h.served.written y hy
  · intro c hc hwait
    obtain ⟨y, hy, hybuild, hlt⟩ := h.served.reading c (hold c hc).1 hwait
    obtain ⟨x, hx, haddress, -⟩ := htracks'.assigned c hc y.address hybuild
    obtain ⟨z, hz, hzaddress, hbuf⟩ := hreleased.same x hx
    obtain rfl : z = y := htracks.build_eq hz hy (hzaddress.symm.trans haddress)
    exact ⟨x, hx, by rw [haddress]; exact hybuild, by rw [hbuf]; exact hlt⟩
  · intro c hc hwait
    obtain ⟨front, bs, refcount, rest, hbuilds, hnew⟩ := hreleased.front
    rcases h.served.waits c (hold c hc).1 hwait with ⟨-, hnil⟩ | ⟨x, hx, hxbuild, hdone, hptr⟩
    · rw [hbuilds] at hnil
      cases hnil
    · rw [hbuilds] at hx
      obtain rfl := Option.some.inj hx
      exact Or.inr ⟨{ front with refcount := refcount }, by rw [hnew]; rfl, hxbuild, hdone, hptr⟩
  · obtain ⟨front, bs, refcount, rest, hbuilds, hnew⟩ := hreleased.front
    simp [frontState, hbuilds, hnew]

/-- The clients play no part in what happens to their builds. -/
theorem releaseBuild_setMap (m : List (ℕ × ClientInfo)) (address : ℕ) :
    StreamServer.releaseBuild { s with map := m } address =
      (s.releaseBuild address).map ({ · with map := m }) := by
  rw [StreamServer.releaseBuild, StreamServer.releaseBuild]
  cases s.builds.find? fun b ↦ b.address = address with
  | none => rfl
  | some b =>
      simp only
      split
      · rename_i hguard
        have hassert : (decide (b.refcount - 1 = 0) && b.buildCompleted) = true := by
          rw [Bool.and_eq_true] at hguard
          exact hguard.1
        rw [removeBuild, removeBuild, (assert_eq_ok (u := ())).mpr hassert]
        rfl
      · rfl

theorem releaseBuild_map {address : ℕ} (h : s.releaseBuild address = .ok s') : s'.map = s.map := by
  rw [StreamServer.releaseBuild] at h
  split at h
  · cases h
  · simp only at h
    split at h
    · obtain ⟨_, -, h⟩ := Lib.bind_eq_ok.mp h
      rw [← Except.ok.inj h]
    · rw [← Except.ok.inj h]

/-- Closing a client forgets its position. -/
theorem closeClient_updateClient {f : ClientInfo → ClientInfo}
    (hnd : (s.map.map Prod.fst).Nodup) (hfd : (fd, info) ∈ s.map)
    (hbuild : ∀ x, (f x).itBuild = x.itBuild) :
    (s.updateClient fd f).closeClient fd = s.closeClient fd := by
  have hmem : (fd, f info) ∈ (s.updateClient fd f).map :=
    List.mem_map.mpr ⟨(fd, info), hfd, by simp⟩
  have hnd' : ((s.updateClient fd f).map.map Prod.fst).Nodup := by
    rw [keys_updateClient]
    exact hnd
  have hfilter : (s.updateClient fd f).map.filter (fun c ↦ c.1 ≠ fd) =
      s.map.filter fun c ↦ c.1 ≠ fd := by
    rw [updateClient, List.filter_map]
    have hpred : ((fun c : ℕ × ClientInfo ↦ decide (c.1 ≠ fd)) ∘ fun c ↦
        if c.1 = fd then (c.1, f c.2) else c) = fun c ↦ decide (c.1 ≠ fd) := by
      funext c
      simp only [Function.comp_apply]
      split <;> simp_all
    rw [hpred]
    refine (List.map_congr_left fun c hc ↦ ?_).trans (List.map_id _)
    rw [if_neg (by simpa using (List.mem_filter.mp hc).2)]
    rfl
  rw [StreamServer.closeClient, StreamServer.closeClient, lookup_of_mem hnd' hmem,
    lookup_of_mem hnd hfd]
  simp only [hbuild]
  cases info.itBuild with
  | none => rfl
  | some address =>
      have hset := releaseBuild_setMap (s := s) (s.updateClient fd f).map address
      change (s.updateClient fd f).releaseBuild address = _ at hset
      simp only [hset]
      cases hrelease : s.releaseBuild address with
      | error e => rfl
      | ok t =>
          have hmap : t.map = s.map := releaseBuild_map hrelease
          simp only [Except.map, Lib.except_ok_bind, hmap]
          rw [hfilter]

end Kept

/-- Where the loop leaves the position of the client. -/
theorem sendLoop_bounds {buf handed handed' : List UInt8} {start fuel i bufPtr bufSize bufPtr' : ℕ}
    {results : ℕ → SendResult} {last : Option SendResult} (hsize : bufPtr + bufSize = buf.length)
    (hpos : 0 < bufSize)
    (hrun : sendLoop buf start results fuel i bufPtr bufSize handed =
      .ok (bufPtr', handed', last)) :
    (last = none → bufPtr' = buf.length) ∧ (last ≠ none → bufPtr' < buf.length) := by
  induction fuel generalizing i bufPtr bufSize handed with
  | zero => cases hrun
  | succ fuel ih =>
      rw [sendLoop] at hrun
      cases hi : results i with
      | again =>
          simp only [hi, Lib.except_pure, Except.ok.injEq, Prod.mk.injEq] at hrun
          obtain ⟨rfl, -, rfl⟩ := hrun
          exact ⟨fun hnone ↦ absurd hnone (by simp), fun _ ↦ by omega⟩
      | failed =>
          simp only [hi, Lib.except_pure, Except.ok.injEq, Prod.mk.injEq] at hrun
          obtain ⟨rfl, -, rfl⟩ := hrun
          exact ⟨fun hnone ↦ absurd hnone (by simp), fun _ ↦ by omega⟩
      | sent more =>
          simp only [hi] at hrun
          split at hrun
          · exact ih (by omega) (by omega) hrun
          · simp only [Lib.except_pure, Except.ok.injEq, Prod.mk.injEq] at hrun
            obtain ⟨rfl, -, rfl⟩ := hrun
            exact ⟨fun _ ↦ by omega, fun hne ↦ absurd rfl hne⟩

theorem clientData_of_mem (hnd : (s.map.map Prod.fst).Nodup) (hfd : (fd, info) ∈ s.map)
    (htracks : Tracks sent s) {b : BuildInfo} (hb : b ∈ s.builds)
    (hbuild : info.itBuild = some b.address) (hlt : info.bufPtr < b.buf.length) :
    s.clientData fd = .ok (info, b) := by
  have hfind : s.builds.find? (fun x ↦ x.address = b.address) = some b := by
    cases hx : s.builds.find? fun x ↦ x.address = b.address with
    | none => exact absurd (List.find?_eq_none.mp hx b hb) (by simp)
    | some x =>
        exact congrArg some (htracks.build_eq (List.mem_of_find?_eq_some hx) hb
          (by simpa using List.find?_some hx))
  rw [clientData, lookup_of_mem hnd hfd]
  simp [hbuild, hfind, hlt]

theorem keepsBuild_updateClient (htracks : Tracks sent s) {f : ClientInfo → ClientInfo}
    (hbuild : ∀ x, (f x).itBuild = x.itBuild) {t : StreamServer}
    (hmap : t.map = (s.updateClient fd f).map) : KeepsBuild s t := by
  intro c hc a ha c' hc' hkey
  rw [hmap] at hc'
  obtain ⟨x, hx, rfl⟩ := List.mem_map.mp hc'
  have hkey' : x.1 = c.1 := by
    rw [← hkey]
    split <;> rfl
  obtain rfl : x = c := htracks.client_eq hx hc hkey'
  split
  · rw [← ha]
    exact hbuild x.2
  · exact ha

theorem keepsBuild_filter (htracks : Tracks sent s) {p : ℕ × ClientInfo → Bool} {t : StreamServer}
    (hmap : t.map = s.map.filter p) : KeepsBuild s t := by
  intro c hc a ha c' hc' hkey
  rw [hmap] at hc'
  rw [htracks.client_eq (List.mem_of_mem_filter hc') hc hkey]
  exact ha

namespace Kept

/-- The client has been sent a part of what there is. -/
theorem advance (h : s.Kept) (hfd : (fd, info) ∈ s.map) (hpolled : info.isWaiting = false)
    {b : BuildInfo} (hb : b ∈ s.builds) (hbuild : info.itBuild = some b.address) {p : ℕ}
    (hp : p < b.buf.length) : (s.updateClient fd ({ · with bufPtr := p })).Kept := by
  obtain ⟨sent, htracks⟩ := h.tracks
  have hentry : ∀ c ∈ (s.updateClient fd ({ · with bufPtr := p })).map,
      c = (fd, { info with bufPtr := p }) ∨ c ∈ s.map := by
    intro c hc
    obtain ⟨x, hx, rfl⟩ := List.mem_map.mp hc
    by_cases hkey : x.1 = fd
    · obtain rfl : x = (fd, info) := htracks.client_eq hx hfd hkey
      simp
    · simp [hkey, hx]
  refine ⟨⟨_, htracks.advance hfd hb hbuild hp.le⟩, ⟨h.listed.fds_nodup, h.listed.waiting_nodup,
    ?_, ?_⟩, ⟨h.served.older, h.served.written, ?_, ?_⟩⟩
  · intro c hc
    rcases hentry c hc with rfl | hc
    · exact h.listed.client (fd, info) hfd
    · exact h.listed.client c hc
  · intro fd' hmem
    obtain ⟨x, hx, rfl⟩ := h.listed.known fd' hmem
    exact ⟨_, List.mem_map_of_mem hx, by split <;> rfl⟩
  · intro c hc hwait
    rcases hentry c hc with rfl | hc
    · exact ⟨b, hb, hbuild, hp⟩
    · exact h.served.reading c hc hwait
  · intro c hc hwait
    rcases hentry c hc with rfl | hc
    · rw [hpolled] at hwait
      cases hwait
    · exact h.served.waits c hc hwait

/-- The client has been sent everything, and waits for more. -/
theorem putToWait (h : s.Kept) (hfd : (fd, info) ∈ s.map) (hpolled : info.isWaiting = false)
    {b : BuildInfo} (hb : b ∈ s.builds) (hbuild : info.itBuild = some b.address)
    (hincomplete : b.buildCompleted = false) :
    Kept { (s.updateClient fd ({ · with bufPtr := b.buf.length })).updateClient fd
        ({ · with isWaiting := true }) with
      fds := s.fds.erase fd
      waiting := fd :: s.waiting } := by
  obtain ⟨sent, htracks⟩ := h.tracks
  have hin : fd ∈ s.fds := ((h.listed.client _ hfd).2).mpr hpolled
  have hmap : ((s.updateClient fd ({ · with bufPtr := b.buf.length })).updateClient fd
      ({ · with isWaiting := true })).map = s.map.map fun c ↦
        if c.1 = fd then (c.1, { c.2 with bufPtr := b.buf.length, isWaiting := true }) else c := by
    simp only [updateClient, List.map_map]
    refine List.map_congr_left fun c _ ↦ ?_
    by_cases hkey : c.1 = fd <;> simp [hkey]
  have hentry : ∀ c ∈ ((s.updateClient fd ({ · with bufPtr := b.buf.length })).updateClient fd
      ({ · with isWaiting := true })).map,
      c = (fd, { info with bufPtr := b.buf.length, isWaiting := true }) ∨
        c ∈ s.map ∧ c.1 ≠ fd := by
    intro c hc
    rw [hmap] at hc
    obtain ⟨x, hx, rfl⟩ := List.mem_map.mp hc
    by_cases hkey : x.1 = fd
    · obtain rfl : x = (fd, info) := htracks.client_eq hx hfd hkey
      simp
    · simp [hkey, hx]
  -- Only the build in front can be incomplete.
  have hfront : b ∈ s.builds.head? := by
    cases hbuilds : s.builds with
    | nil =>
        rw [hbuilds] at hb
        cases hb
    | cons front bs =>
        rw [hbuilds] at hb
        rcases List.mem_cons.mp hb with rfl | hb
        · rfl
        · rw [(h.served.older b (by simpa [hbuilds] using hb)).1] at hincomplete
          cases hincomplete
  have htracks' := (htracks.advance hfd hb hbuild le_rfl).updateClient fd
    (f := ({ · with isWaiting := true })) (fun _ ↦ rfl) (fun _ ↦ rfl)
  refine ⟨⟨_, htracks'.setLists _ _⟩, ⟨h.listed.fds_nodup.erase fd,
    List.nodup_cons.mpr ⟨h.listed.disjoint hin, h.listed.waiting_nodup⟩, ?_, ?_⟩,
    ⟨h.served.older, h.served.written, ?_, ?_⟩⟩
  · intro c hc
    rcases hentry c hc with rfl | ⟨hc, hne⟩
    · simp [h.listed.fds_nodup.mem_erase_iff]
    · rw [List.mem_cons, List.mem_erase_of_ne hne, or_iff_right hne]
      exact h.listed.client c hc
  · intro fd' hmem
    have hold : fd' ∈ s.fds ∨ fd' ∈ s.waiting := by
      rcases hmem with hmem | hmem
      · exact Or.inl (List.mem_of_mem_erase hmem)
      · rcases List.mem_cons.mp hmem with rfl | hmem
        · exact Or.inl hin
        · exact Or.inr hmem
    obtain ⟨x, hx, rfl⟩ := h.listed.known fd' hold
    have hnew := List.mem_map_of_mem (f := fun c : ℕ × ClientInfo ↦
      if c.1 = fd then (c.1, { c.2 with bufPtr := b.buf.length, isWaiting := true }) else c) hx
    rw [← hmap] at hnew
    exact ⟨_, hnew, by split <;> rfl⟩
  · intro c hc hwait
    rcases hentry c hc with rfl | ⟨hc, -⟩
    · cases hwait
    · exact h.served.reading c hc hwait
  · intro c hc hwait
    rcases hentry c hc with rfl | ⟨hc, -⟩
    · exact Or.inr ⟨b, hfront, hbuild, hincomplete, rfl⟩
    · exact h.served.waits c hc hwait

theorem processClient (h : s.Kept) (hfd : fd ∈ s.fds) (results : ℕ → SendResult) :
    ∃ handed s', s.processClient fd results = .ok (handed, s') ∧ s'.Kept ∧ KeepsBuild s s' ∧
      s'.frontState = s.frontState := by
  obtain ⟨sent, htracks⟩ := h.tracks
  obtain ⟨⟨fd', info⟩, hc, rfl⟩ := h.listed.known fd (Or.inl hfd)
  have hpolled : info.isWaiting = false := ((h.listed.client _ hc).2).mp hfd
  obtain ⟨b, hb, hbuild, hlt⟩ := h.served.reading _ hc hpolled
  simp only at hbuild hlt
  have hdata := clientData_of_mem htracks.map_nodup hc htracks hb hbuild hlt
  have hsize : info.bufPtr + (b.buf.length - info.bufPtr) = b.buf.length := by omega
  obtain ⟨⟨bufPtr, handed, last⟩, hloop⟩ : ∃ x, sendLoop b.buf info.bufPtr results b.buf.length 0
      info.bufPtr (b.buf.length - info.bufPtr) [] = .ok x :=
    sendLoop_returns hsize (by omega) (Nat.sub_le b.buf.length info.bufPtr)
  obtain ⟨hend, hmore⟩ := sendLoop_bounds hsize (by omega) hloop
  rw [StreamServer.processClient, hdata, Lib.except_ok_bind]
  simp only [hloop, Lib.except_ok_bind]
  have hclose := closeClient_updateClient (f := ({ · with bufPtr := bufPtr }))
    htracks.map_nodup hc fun _ ↦ rfl
  obtain ⟨s', hrun, hkept, hmap, hstate⟩ := h.closeClient hc hpolled
  cases last with
  | none =>
      obtain rfl := hend rfl
      simp only
      cases hdone : b.buildCompleted with
      | true =>
          refine ⟨handed, s', ?_, hkept, keepsBuild_filter htracks hmap, hstate⟩
          rw [drained, if_pos rfl, hclose, hrun]
          rfl
      | false =>
          refine ⟨handed, _, ?_, h.putToWait hc hpolled hb hbuild hdone, ?_, rfl⟩
          · rw [drained, if_neg (by simp)]
            rfl
          · intro c hcs a ha c' hc' hkey
            have hmap' : ((s.updateClient fd' ({ · with bufPtr := b.buf.length })).updateClient fd'
                ({ · with isWaiting := true })).map = (s.updateClient fd' fun x ↦
                  { x with bufPtr := b.buf.length, isWaiting := true }).map := by
              simp only [updateClient, List.map_map]
              refine List.map_congr_left fun c _ ↦ ?_
              by_cases hkey : c.1 = fd' <;> simp [hkey]
            exact keepsBuild_updateClient (f := fun x ↦
              { x with bufPtr := b.buf.length, isWaiting := true }) htracks (fun _ ↦ rfl)
                hmap' c hcs
              a ha c' hc' hkey
  | some r =>
      have hp := hmore (by simp)
      have hadvance := h.advance hc hpolled hb hbuild hp
      have hkeeps : KeepsBuild s (s.updateClient fd' ({ · with bufPtr := bufPtr })) :=
        keepsBuild_updateClient (f := ({ · with bufPtr := bufPtr })) htracks (fun _ ↦ rfl) rfl
      cases r with
      | failed =>
          refine ⟨handed, s', ?_, hkept, keepsBuild_filter htracks hmap, hstate⟩
          simp only [hclose, hrun, Lib.except_ok_bind, Lib.except_pure]
      | again => exact ⟨handed, _, rfl, hadvance, hkeeps, rfl⟩
      | sent more => exact ⟨handed, _, rfl, hadvance, hkeeps, rfl⟩

end Kept

/-! ## Runs -/

/-- Where the daemon is: between builds, or in one that has announced a command
or not. -/
inductive Phase where
  | idle
  | building (announced : Bool)
  deriving DecidableEq

/-- The order in which the daemon makes its calls. -/
def Phase.next : Phase → Write → Option Phase
  | .idle, .newBuild _ => some (.building false)
  | .building _, .newCommand _ _ => some (.building true)
  | .building _, .cacheRetrieveAction _ => some (.building true)
  | .building true, .writeStdout _ _ => some (.building true)
  | .building true, .writeStderr _ _ => some (.building true)
  | .building announced, .endCommand _ _ => some (.building announced)
  | .building _, .endBuild _ => some .idle
  | _, _ => none

/-- The builds are as the phase says. -/
def Phase.Fits : Phase → StreamServer → Prop
  | .idle, s => ∀ b ∈ s.builds.head?, b.buildCompleted = true
  | .building announced, s => ∃ b ∈ s.builds.head?, b.buildCompleted = false ∧
      (announced = true → b.firstChunk = false)

/-- A call of the daemon, a connection, or a socket that can be written to. -/
inductive Event where
  | write (op : Write)
  | accept (fd : ℕ)
  | process (fd : ℕ) (results : ℕ → SendResult)

def Event.run (s : StreamServer) : Event → Outcome StreamServer
  | .write op => StreamServer.write op s
  | .accept fd => pure (s.createClient fd)
  | .process fd results => do
    let (_, s) ← s.processClient fd results
    pure s

/-- What may happen, and the phase after it: `accept` returns a descriptor that
no client has, and the descriptors that are polled are those of `fds_`. -/
def Event.Possible (s : StreamServer) (p : Phase) : Event → Phase → Prop
  | .write op, q => p.next op = some q
  | .accept fd, q => (∀ c ∈ s.map, c.1 ≠ fd) ∧ q = p
  | .process fd _, q => fd ∈ s.fds ∧ q = p

inductive Reachable : StreamServer → Phase → Prop
  | create : Reachable create .idle
  | step {s s' : StreamServer} {p q : Phase} {e : Event} (h : Reachable s p)
      (hpossible : e.Possible s p q) (hrun : e.run s = .ok s') : Reachable s' q

theorem kept_create : create.Kept := by
  refine ⟨⟨fun _ ↦ [], tracks_create⟩, ?_, ?_⟩
  · constructor <;> simp [create]
  · constructor <;> simp [create]

variable {p q : Phase} {e : Event}

theorem Kept.write (h : s.Kept) (hfits : p.Fits s) {op : Write} (hnext : p.next op = some q) :
    ∃ s', write op s = .ok s' ∧ s'.Kept ∧ q.Fits s' ∧ KeepsBuild s s' := by
  cases p with
  | idle =>
      cases op with
      | newBuild buildId =>
          obtain rfl := Option.some.inj hnext
          obtain ⟨s', hrun, hkept, hkeeps, b, hb, hincomplete⟩ := h.newBuild hfits buildId
          exact ⟨s', hrun, hkept, ⟨b, hb, hincomplete, by simp⟩, hkeeps⟩
      | _ => cases hnext
  | building announced =>
      obtain ⟨front, hfront, hincomplete, hfirst⟩ := hfits
      obtain ⟨bs, hbuilds⟩ : ∃ bs, s.builds = front :: bs := List.head?_eq_some_iff.mp hfront
      cases op with
      | newBuild buildId => cases hnext
      | newCommand cmdId cmd =>
          obtain rfl := Option.some.inj hnext
          obtain ⟨s', hrun, hkept, hkeeps, b, hb, hb'⟩ :=
            h.newCommand hbuilds hincomplete cmdId cmd
          exact ⟨s', hrun, hkept, ⟨b, hb, hb'.1, fun _ ↦ hb'.2⟩, hkeeps⟩
      | cacheRetrieveAction path =>
          obtain rfl := Option.some.inj hnext
          obtain ⟨s', hrun, hkept, hkeeps, b, hb, hb'⟩ :=
            h.cacheRetrieveAction hbuilds hincomplete path
          exact ⟨s', hrun, hkept, ⟨b, hb, hb'.1, fun _ ↦ hb'.2⟩, hkeeps⟩
      | writeStdout cmdId buf =>
          cases announced with
          | false => cases hnext
          | true =>
              obtain rfl := Option.some.inj hnext
              obtain ⟨s', hrun, hkept, hkeeps, b, hb, hb'⟩ :=
                h.writeCmdOutput hbuilds hincomplete (hfirst rfl) cmdId buf true
              exact ⟨s', hrun, hkept, ⟨b, hb, hb'.1, fun _ ↦ hb'.2⟩, hkeeps⟩
      | writeStderr cmdId buf =>
          cases announced with
          | false => cases hnext
          | true =>
              obtain rfl := Option.some.inj hnext
              obtain ⟨s', hrun, hkept, hkeeps, b, hb, hb'⟩ :=
                h.writeCmdOutput hbuilds hincomplete (hfirst rfl) cmdId buf false
              exact ⟨s', hrun, hkept, ⟨b, hb, hb'.1, fun _ ↦ hb'.2⟩, hkeeps⟩
      | endCommand cmdId status =>
          have hq : some (Phase.building announced) = some q := by
            cases announced <;> exact hnext
          obtain rfl := Option.some.inj hq
          obtain ⟨s', hrun, hkept, hkeeps, b, hb, hb'⟩ :=
            h.endCommand hbuilds hincomplete cmdId status
          exact ⟨s', hrun, hkept, ⟨b, hb, hb'.1, fun ha ↦ hb'.2.trans (hfirst ha)⟩, hkeeps⟩
      | endBuild result =>
          have hq : some Phase.idle = some q := by
            cases announced <;> exact hnext
          obtain rfl := Option.some.inj hq
          obtain ⟨s', hrun, hkept, hkeeps, b, hb, hdone⟩ := h.endBuild hbuilds hincomplete result
          refine ⟨s', hrun, hkept, fun b' hb' ↦ ?_, hkeeps⟩
          obtain rfl := Option.some.inj (hb.symm.trans hb')
          exact hdone

theorem Phase.Fits.congr (h : p.Fits s) (hstate : s'.frontState = s.frontState) : p.Fits s' := by
  have hfront : ∀ b' ∈ s'.builds.head?, ∃ b ∈ s.builds.head?,
      b.buildCompleted = b'.buildCompleted ∧ b.firstChunk = b'.firstChunk := by
    intro b' hb'
    have hsome : s.frontState = some (b'.buildCompleted, b'.firstChunk) := by
      rw [← hstate, frontState, Option.mem_def.mp hb']
      rfl
    obtain ⟨b, hb, heq⟩ := Option.map_eq_some_iff.mp hsome
    exact ⟨b, hb, congrArg Prod.fst heq, congrArg Prod.snd heq⟩
  cases p with
  | idle =>
      intro b' hb'
      obtain ⟨b, hb, hdone, -⟩ := hfront b' hb'
      rw [← hdone]
      exact h b hb
  | building announced =>
      obtain ⟨b, hb, hincomplete, hfirst⟩ := h
      obtain ⟨b', hb'⟩ : ∃ b', s'.builds.head? = some b' := by
        have hsome : s'.frontState = some (b.buildCompleted, b.firstChunk) := by
          rw [hstate, frontState, Option.mem_def.mp hb]
          rfl
        obtain ⟨b', hb', -⟩ := Option.map_eq_some_iff.mp hsome
        exact ⟨b', hb'⟩
      obtain ⟨x, hx, hdone, hchunk⟩ := hfront b' hb'
      obtain rfl := Option.some.inj (hx.symm.trans hb)
      exact ⟨b', hb', hdone ▸ hincomplete, fun ha ↦ hchunk ▸ hfirst ha⟩

/-- Every event that may happen is dealt with. -/
theorem Kept.run (h : s.Kept) (hfits : p.Fits s) (hpossible : e.Possible s p q) :
    ∃ s', e.run s = .ok s' ∧ s'.Kept ∧ q.Fits s' ∧ KeepsBuild s s' := by
  cases e with
  | write op => exact h.write hfits hpossible
  | accept fd =>
      obtain ⟨hfd, rfl⟩ := hpossible
      obtain ⟨hkept, hkeeps, hstate⟩ := h.createClient hfd
      exact ⟨_, rfl, hkept, hfits.congr hstate, hkeeps⟩
  | process fd results =>
      obtain ⟨hfd, rfl⟩ := hpossible
      obtain ⟨handed, s', hrun, hkept, hkeeps, hstate⟩ := h.processClient hfd results
      refine ⟨s', ?_, hkept, hfits.congr hstate, hkeeps⟩
      rw [Event.run, hrun]
      rfl

theorem Reachable.kept (h : Reachable s p) : s.Kept ∧ p.Fits s := by
  induction h with
  | create =>
      refine ⟨kept_create, ?_⟩
      intro b hb
      cases hb
  | step _ hpossible hrun ih =>
      obtain ⟨s₁, hrun₁, hkept, hfits, -⟩ := ih.1.run ih.2 hpossible
      obtain rfl := Except.ok.inj (hrun₁.symm.trans hrun)
      exact ⟨hkept, hfits⟩

/-- In every reachable state the books are in order, and every event that may
happen next is dealt with without an assertion failing, while every client that
has a build keeps it. -/
theorem bookkeeping (h : Reachable s p) :
    (s.fds.Nodup ∧ s.waiting.Nodup ∧ ∀ c ∈ s.map,
      (c.1 ∈ s.waiting ↔ c.2.isWaiting = true) ∧ (c.1 ∈ s.fds ↔ c.2.isWaiting = false)) ∧
    (∀ b ∈ s.builds, b.refcount = s.map.countP fun c ↦ c.2.itBuild = some b.address) ∧
    (∀ b ∈ s.builds.tail, b.buildCompleted = true ∧ 0 < b.refcount) ∧
    (∀ c ∈ s.map, c.1 ∈ s.fds → ∃ b ∈ s.builds, c.2.itBuild = some b.address ∧
      c.2.bufPtr < b.buf.length) ∧
    (∀ c ∈ s.map, c.1 ∈ s.waiting → c.2.itBuild = none ∧ s.builds = [] ∨
      ∃ front ∈ s.builds.head?, c.2.itBuild = some front.address ∧
        front.buildCompleted = false ∧ c.2.bufPtr = front.buf.length) ∧
    (∀ c ∈ s.map, ∀ a, c.2.itBuild = some a → ∃ b ∈ s.builds, b.address = a) ∧
    (∀ fd, fd ∈ s.fds ∨ fd ∈ s.waiting → ∃ c ∈ s.map, c.1 = fd) ∧
    ∀ (e : Event) (q : Phase), e.Possible s p q → ∃ s', e.run s = .ok s' ∧ KeepsBuild s s' := by
  obtain ⟨hkept, hfits⟩ := h.kept
  obtain ⟨sent, htracks⟩ := hkept.tracks
  refine ⟨⟨hkept.listed.fds_nodup, hkept.listed.waiting_nodup, hkept.listed.client⟩,
    htracks.refcount, hkept.served.older, ?_, ?_, ?_, hkept.listed.known, ?_⟩
  · intro c hc hfd
    exact hkept.served.reading c hc (((hkept.listed.client c hc).2).mp hfd)
  · intro c hc hwait
    exact hkept.served.waits c hc (((hkept.listed.client c hc).1).mp hwait)
  · intro c hc a ha
    obtain ⟨b, hb, haddress, -⟩ := htracks.assigned c hc a ha
    exact ⟨b, hb, haddress⟩
  · intro e q hpossible
    obtain ⟨s', hrun, -, -, hkeeps⟩ := hkept.run hfits hpossible
    exact ⟨s', hrun, hkeeps⟩

/-- A client that connected before the first build is polled once it starts. -/
theorem bookkeeping_first_build : ∃ s, Reachable s (.building false) ∧ s.fds = [5] ∧
    ∀ results, ∃ s', (Event.process 5 results).run s = .ok s' := by
  have haccept := Reachable.create.step (e := .accept 5) ⟨by simp [create], rfl⟩ rfl
  have hbuild := haccept.step (e := .write (.newBuild 0)) rfl rfl
  refine ⟨_, hbuild, rfl, fun results ↦ ?_⟩
  obtain ⟨s', hrun, -⟩ := (bookkeeping hbuild).2.2.2.2.2.2.2 (.process 5 results) _
    ⟨List.mem_singleton_self 5, rfl⟩
  exact ⟨s', hrun⟩

end StreamServer

end Falcon
