import Falcon.Stream.Bookkeeping

/-!
# What a call appends

Every call of the daemon between `newBuild` and `endBuild` appends one chunk to
the buffer of the build in front.  Two of them look at `firstChunk` to decide
about the comma, the others always write it.  Clients come and go without
touching the buffer.
-/

namespace Falcon

namespace StreamServer

/-- What stands before the payload, up to the quote. -/
def Write.opening : Write → String
  | .newCommand cmdId _ => "    \x7b \"id\": " ++ toString cmdId ++ ", \"cmd\": \""
  | .writeStdout cmdId _ => "    \x7b \"id\": " ++ toString cmdId ++ ", \"stdout\": \""
  | .writeStderr cmdId _ => "    \x7b \"id\": " ++ toString cmdId ++ ", \"stderr\": \""
  | .endCommand cmdId _ => "    \x7b \"id\": " ++ toString cmdId ++ ", \"status\": \""
  | .cacheRetrieveAction _ => "    \x7b \"cache\": \""
  | .newBuild _ | .endBuild _ => ""

/-- What stands between the quotes. -/
def Write.body : Write → List UInt8
  | .newCommand _ cmd => escapeJson (bytes cmd)
  | .writeStdout _ buf | .writeStderr _ buf => escapeJson buf
  | .endCommand _ status => bytes status.toString
  | .cacheRetrieveAction path => bytes path
  | .newBuild _ | .endBuild _ => []

def Write.text (op : Write) : List UInt8 := bytes op.opening ++ op.body ++ bytes "\" \x7d"

/-- The calls that look at `firstChunk`. -/
def Write.starts : Write → Bool
  | .newCommand _ _ | .cacheRetrieveAction _ => true
  | _ => false

/-- The calls between `newBuild` and `endBuild`. -/
def Write.IsChunk : Write → Prop
  | .newBuild _ | .endBuild _ => False
  | _ => True

variable {s s' s'' : StreamServer} {front : BuildInfo} {bs : List BuildInfo} {fd : ℕ}
  {info : ClientInfo}

/-- The build in front has changed at most in the number of its readers. -/
def SameText (s s' : StreamServer) : Prop :=
  ∀ front bs, s.builds = front :: bs →
    ∃ refcount rest, s'.builds = { front with refcount := refcount } :: rest

theorem SameText.of_eq (h : s'.builds = s.builds) : SameText s s' :=
  fun front bs hbuilds ↦ ⟨front.refcount, bs, h.trans hbuilds⟩

theorem SameText.trans (h : SameText s s') (h' : SameText s' s'') : SameText s s'' := by
  intro front bs hbuilds
  obtain ⟨refcount, rest, hbuilds'⟩ := h front bs hbuilds
  obtain ⟨refcount', rest', hbuilds''⟩ := h' _ rest hbuilds'
  exact ⟨refcount', rest', hbuilds''⟩

theorem sameText_flushClient (h : s.flushClient fd = .ok s') : SameText s s' := by
  intro front bs hbuilds
  rw [flushClient, hbuilds] at h
  cases hlookup : s.map.lookup fd with
  | none =>
      rw [hlookup] at h
      cases h
  | some info =>
      rw [hlookup] at h
      simp only at h
      cases hbuild : info.itBuild with
      | none =>
          rw [hbuild] at h
          rw [← Except.ok.inj h]
          exact ⟨_, bs, rfl⟩
      | some address =>
          rw [hbuild] at h
          obtain ⟨_, -, hpure⟩ := Lib.bind_eq_ok.mp h
          rw [← Except.ok.inj hpure]
          exact ⟨front.refcount, bs, hbuilds⟩

theorem sameText_flushWaiting (h : s.flushWaiting = .ok s') : SameText s s' := by
  rw [flushWaiting] at h
  split at h
  · cases h
  · obtain ⟨-, -, h⟩ := Lib.bind_eq_ok.mp h
    obtain ⟨s₁, hloop, hpure⟩ := Lib.bind_eq_ok.mp h
    have hsame : SameText s s₁ := Lib.foldlM_preserves SameText (fun _ ↦ .of_eq rfl)
      (fun _ _ _ ↦ .trans) (fun _ _ _ _ hstep ↦ sameText_flushClient hstep) hloop
    rw [← Except.ok.inj hpure]
    exact hsame

/-! ## Clients -/

theorem Kept.sameText_createClient (h : s.Kept) (hfd : ∀ c ∈ s.map, c.1 ≠ fd) :
    SameText s (s.createClient fd) := by
  intro front bs hbuilds
  have hbuf : front.buf ≠ [] := h.served.written front (by simp [hbuilds])
  rw [createClient_cons hfd hbuilds hbuf]
  exact ⟨front.refcount + 1, bs, rfl⟩

theorem Kept.sameText_closeClient (h : s.Kept) (hfd : (fd, info) ∈ s.map)
    (hpolled : info.isWaiting = false) (hrun : s.closeClient fd = .ok s') : SameText s s' := by
  obtain ⟨sent, htracks⟩ := h.tracks
  obtain ⟨b, hb, hbuild, -⟩ := h.served.reading _ hfd hpolled
  obtain ⟨builds, hrelease, hreleased⟩ := h.releaseBuild hb
  simp only at hbuild
  rw [StreamServer.closeClient, lookup_of_mem htracks.map_nodup hfd] at hrun
  simp only [hbuild, hrelease, Lib.except_ok_bind, Lib.except_pure, Except.ok.injEq] at hrun
  intro front bs hbuilds
  obtain ⟨front', bs', refcount, rest, hbuilds', hnew⟩ := hreleased.front
  obtain ⟨rfl, -⟩ := List.cons.inj (hbuilds.symm.trans hbuilds')
  rw [← hrun]
  exact ⟨refcount, rest, hnew⟩

theorem Kept.sameText_processClient (h : s.Kept) (hfd : fd ∈ s.fds) {results : ℕ → SendResult}
    {handed : List UInt8} (hrun : s.processClient fd results = .ok (handed, s')) :
    SameText s s' := by
  obtain ⟨sent, htracks⟩ := h.tracks
  obtain ⟨⟨fd', info⟩, hc, rfl⟩ := h.listed.known fd (Or.inl hfd)
  have hpolled : info.isWaiting = false := ((h.listed.client _ hc).2).mp hfd
  simp only [StreamServer.processClient, Lib.bind_eq_ok] at hrun
  obtain ⟨⟨info', b⟩, -, ⟨bufPtr, handed', last⟩, -, hrun⟩ := hrun
  have hclose := closeClient_updateClient (f := ({ · with bufPtr := bufPtr }))
    htracks.map_nodup hc fun _ ↦ rfl
  cases last with
  | none =>
      simp only [Lib.bind_eq_ok, Lib.except_pure, Except.ok.injEq, Prod.mk.injEq] at hrun
      obtain ⟨s₁, hdrained, -, rfl⟩ := hrun
      rw [drained] at hdrained
      split at hdrained
      · rw [hclose] at hdrained
        exact h.sameText_closeClient hc hpolled hdrained
      · rw [← Except.ok.inj hdrained]
        exact .of_eq rfl
  | some r =>
      cases r with
      | failed =>
          simp only [Lib.bind_eq_ok, Lib.except_pure, Except.ok.injEq, Prod.mk.injEq] at hrun
          obtain ⟨s₁, hclosed, -, rfl⟩ := hrun
          rw [hclose] at hclosed
          exact h.sameText_closeClient hc hpolled hclosed
      | again =>
          obtain ⟨-, rfl⟩ := Prod.mk.inj (Except.ok.inj hrun)
          exact .of_eq rfl
      | sent more =>
          obtain ⟨-, rfl⟩ := Prod.mk.inj (Except.ok.inj hrun)
          exact .of_eq rfl

/-! ## Calls of the daemon -/

theorem writeBuf_flush {str : List UInt8} (hbuilds : s.builds = front :: bs)
    (h : (do let s ← writeBuf str s; s.flushWaiting) = .ok s') :
    ∃ refcount rest, s'.builds =
      { front with buf := front.buf ++ str, refcount := refcount } :: rest := by
  obtain ⟨s₁, hwrite, hflush⟩ := Lib.bind_eq_ok.mp h
  rw [writeBuf, updateFront, hbuilds] at hwrite
  have hbuilds₁ : s₁.builds = { front with buf := front.buf ++ str } :: bs := by
    rw [← Except.ok.inj hwrite]
  exact sameText_flushWaiting hflush _ bs hbuilds₁

/-- A chunk that looks at `firstChunk`. -/
theorem chunk_appends {str : List UInt8}
    (h : (do let s ← nextChunk s; let s ← writeBuf str s; s.flushWaiting) = .ok s')
    (hbuilds : s.builds = front :: bs) :
    ∃ refcount rest, s'.builds = { front with
      buf := front.buf ++ ((if front.firstChunk then [] else bytes ",\n") ++ str)
      firstChunk := false
      refcount := refcount } :: rest := by
  obtain ⟨s₁, hchunk, hwrite⟩ := Lib.bind_eq_ok.mp h
  rw [nextChunk, updateFront, hbuilds] at hchunk
  have hs₁ := Except.ok.inj hchunk
  cases hfirst : front.firstChunk with
  | true =>
      have hbuilds₁ : s₁.builds = { front with firstChunk := false } :: bs := by
        rw [← hs₁]
        simp [hfirst]
      obtain ⟨refcount, rest, heq⟩ := writeBuf_flush hbuilds₁ hwrite
      exact ⟨refcount, rest, heq⟩
  | false =>
      have hbuilds₁ : s₁.builds = { front with buf := front.buf ++ bytes ",\n" } :: bs := by
        rw [← hs₁]
        simp [hfirst]
      obtain ⟨refcount, rest, heq⟩ := writeBuf_flush hbuilds₁ hwrite
      refine ⟨refcount, rest, ?_⟩
      rw [heq]
      simp [hfirst]

theorem write_starts {op : Write} (hop : op.starts = true) :
    write op s = (do let s ← nextChunk s; let s ← writeBuf op.text s; s.flushWaiting) := by
  cases op with
  | newCommand cmdId cmd => rfl
  | cacheRetrieveAction path =>
      have hstr : bytes ("    \x7b \"cache\": \"" ++ path ++ "\" \x7d") =
          (Write.cacheRetrieveAction path).text := by
        rw [bytes_append, bytes_append]
        rfl
      rw [write, cacheRetrieveAction, hstr]
  | _ => cases hop

theorem bytes_comma (cmdId : ℕ) (str : String) :
    bytes (",\n    \x7b \"id\": " ++ toString cmdId ++ str) =
      bytes ",\n" ++ bytes ("    \x7b \"id\": " ++ toString cmdId ++ str) := by
  rw [bytes_append, bytes_append, bytes_append, bytes_append, ← List.append_assoc,
    ← List.append_assoc]
  rfl

theorem writeCmdOutput_text {cmdId : ℕ} {buf : List UInt8} {isStdout : Bool}
    (hrun : writeCmdOutput cmdId buf isStdout s = .ok s') :
    (do let s ← writeBuf (bytes ",\n" ++ (bytes ("    \x7b \"id\": " ++ toString cmdId ++
      (if isStdout then ", \"stdout\": \"" else ", \"stderr\": \"")) ++ escapeJson buf ++
      bytes "\" \x7d")) s; s.flushWaiting) = .ok s' := by
  obtain ⟨-, -, hrun⟩ := Lib.bind_eq_ok.mp hrun
  rw [bytes_comma] at hrun
  simp only [List.append_assoc] at hrun ⊢
  exact hrun

/-- A chunk that does not look at `firstChunk`. -/
theorem write_follows {op : Write} (hop : op.IsChunk) (hfollows : op.starts = false)
    (hrun : write op s = .ok s') :
    (do let s ← writeBuf (bytes ",\n" ++ op.text) s; s.flushWaiting) = .ok s' := by
  cases op with
  | newBuild buildId => cases hop
  | endBuild result => cases hop
  | newCommand cmdId cmd => cases hfollows
  | cacheRetrieveAction path => cases hfollows
  | writeStdout cmdId buf =>
      have hwrite := writeCmdOutput_text hrun
      rw [if_pos rfl] at hwrite
      exact hwrite
  | writeStderr cmdId buf =>
      have hwrite := writeCmdOutput_text hrun
      rw [if_neg Bool.false_ne_true] at hwrite
      exact hwrite
  | endCommand cmdId status =>
      have hstr : bytes (",\n    \x7b \"id\": " ++ toString cmdId ++ ", \"status\": \"" ++
          status.toString ++ "\" \x7d") = bytes ",\n" ++ (Write.endCommand cmdId status).text := by
        rw [bytes_append, bytes_append, bytes_comma, List.append_assoc, List.append_assoc]
        simp only [Write.text, Write.opening, Write.body, List.append_assoc]
      rw [write, endCommand, hstr] at hrun
      exact hrun

/-- What is appended to the buffer of the build in front, and what happens to
`firstChunk`. -/
theorem write_chunk {op : Write} (hop : op.IsChunk) (hrun : write op s = .ok s')
    (hbuilds : s.builds = front :: bs) :
    ∃ refcount rest, s'.builds = { front with
      buf := front.buf ++ ((if op.starts && front.firstChunk then [] else bytes ",\n") ++ op.text)
      firstChunk := front.firstChunk && !op.starts
      refcount := refcount } :: rest := by
  cases hstarts : op.starts with
  | true =>
      rw [write_starts hstarts] at hrun
      obtain ⟨refcount, rest, heq⟩ := chunk_appends hrun hbuilds
      exact ⟨refcount, rest, by simpa using heq⟩
  | false =>
      obtain ⟨refcount, rest, heq⟩ := writeBuf_flush hbuilds (write_follows hop hstarts hrun)
      exact ⟨refcount, rest, by simpa using heq⟩

end StreamServer

end Falcon
