import Falcon.Lib.Json
import Falcon.Stream.Payload

/-!
# The document of a build

What a build writes is one JSON document, with one entry for each call between
`newBuild` and `endBuild`.  The calls for the output and the end of a command
write a comma without looking at `firstChunk`; they follow its announcement.
-/

namespace Falcon

open Lib Lib.Json

namespace StreamServer

/-- The entry of a call. -/
def Write.json : Write → Json
  | .newCommand cmdId cmd =>
      .obj [(bytes "id", .num cmdId), (bytes "cmd", .str (escapeJson (bytes cmd)))]
  | .writeStdout cmdId buf =>
      .obj [(bytes "id", .num cmdId), (bytes "stdout", .str (escapeJson buf))]
  | .writeStderr cmdId buf =>
      .obj [(bytes "id", .num cmdId), (bytes "stderr", .str (escapeJson buf))]
  | .endCommand cmdId status =>
      .obj [(bytes "id", .num cmdId), (bytes "status", .str (bytes status.toString))]
  | .cacheRetrieveAction path => .obj [(bytes "cache", .str (bytes path))]
  | .newBuild _ | .endBuild _ => .obj []

/-- The document of build `buildId` after the calls `ops`. -/
def document (buildId : ℕ) (ops : List Write) (result : BuildResult) : Json :=
  .obj [(bytes "id", .num buildId), (bytes "cmds", .arr (ops.map Write.json)),
    (bytes "result", .str (bytes result.toString))]

/-- What the daemon may do after the calls `ops` of a build: a command has a new
id, it is announced before its output, and it ends once, after its output. -/
def Write.Allowed (ops : List Write) : Write → Prop
  | .newCommand cmdId _ => ∀ cmd, Write.newCommand cmdId cmd ∉ ops
  | .writeStdout cmdId _ | .writeStderr cmdId _ | .endCommand cmdId _ =>
      (∃ cmd, Write.newCommand cmdId cmd ∈ ops) ∧ ∀ status, Write.endCommand cmdId status ∉ ops
  | .cacheRetrieveAction _ => True
  | .newBuild _ | .endBuild _ => False

/-- Build `buildId` is going on, and the daemon has made the calls `ops`. -/
inductive During (buildId : ℕ) : List Write → StreamServer → Prop
  | start {s s'} (h : Reachable s .idle) (hrun : newBuild buildId s = .ok s') :
      During buildId [] s'
  | write {ops op s s'} (h : During buildId ops s) (hop : op.Allowed ops)
      (hrun : write op s = .ok s') : During buildId (ops ++ [op]) s'
  | accept {ops fd s} (h : During buildId ops s) (hfd : ∀ c ∈ s.map, c.1 ≠ fd) :
      During buildId ops (s.createClient fd)
  | process {ops fd results handed s s'} (h : During buildId ops s) (hfd : fd ∈ s.fds)
      (hrun : s.processClient fd results = .ok (handed, s')) : During buildId ops s'

/-! ## The buffer -/

def header (buildId : ℕ) : List UInt8 :=
  bytes ("\x7b\n  \"id\": " ++ toString buildId ++ ",\n  \"cmds\": [\n")

def footer (result : BuildResult) : List UInt8 :=
  bytes ("\n  ],\n  \"result\": \"" ++ result.toString ++ "\"\n\x7d\n")

def chunks : List Write → List UInt8
  | [] => []
  | op :: ops => op.text ++ ops.flatMap fun op ↦ bytes ",\n" ++ op.text

theorem chunks_concat (ops : List Write) (op : Write) :
    chunks (ops ++ [op]) =
      chunks ops ++ ((if ops.isEmpty then [] else bytes ",\n") ++ op.text) := by
  cases ops with
  | nil => simp [chunks]
  | cons op' ops => simp [chunks]

/-- The buffer holds the header and the chunks, and `firstChunk` tells whether
there are any. -/
structure Written (buildId : ℕ) (ops : List Write) (s : StreamServer) : Prop where
  reachable : Reachable s (.building !ops.isEmpty)
  front : ∃ front bs, s.builds = front :: bs ∧ front.buf = header buildId ++ chunks ops ∧
    front.firstChunk = ops.isEmpty

variable {buildId : ℕ} {ops : List Write} {op : Write} {s s' : StreamServer} {fd : ℕ}

theorem written_newBuild (h : Reachable s .idle) (hrun : newBuild buildId s = .ok s') :
    Written buildId [] s' := by
  refine ⟨h.step (e := .write (.newBuild buildId)) rfl hrun, ?_⟩
  obtain ⟨s₁, -, hrun⟩ := Lib.bind_eq_ok.mp hrun
  obtain ⟨refcount, rest, hbuilds⟩ := writeBuf_flush (s := s₁.pushBuild buildId) rfl hrun
  refine ⟨_, rest, hbuilds, ?_, rfl⟩
  simp [header, chunks]

theorem Write.Allowed.isChunk (h : op.Allowed ops) : op.IsChunk := by
  cases op with
  | newBuild buildId => cases h
  | endBuild result => cases h
  | _ => trivial

/-- The first call is one of those that look at `firstChunk`. -/
theorem Write.Allowed.starts (h : op.Allowed ops) : op.starts = true ∨ ops.isEmpty = false := by
  have hannounced : ∀ cmdId, (∃ cmd, Write.newCommand cmdId cmd ∈ ops) → ops.isEmpty = false := by
    rintro cmdId ⟨cmd, hmem⟩
    exact List.isEmpty_eq_false_iff.mpr (List.ne_nil_of_mem hmem)
  cases op with
  | newCommand cmdId cmd => exact Or.inl rfl
  | cacheRetrieveAction path => exact Or.inl rfl
  | writeStdout cmdId buf => exact Or.inr (hannounced cmdId h.1)
  | writeStderr cmdId buf => exact Or.inr (hannounced cmdId h.1)
  | endCommand cmdId status => exact Or.inr (hannounced cmdId h.1)
  | newBuild buildId => cases h
  | endBuild result => cases h

theorem Write.Allowed.next (h : op.Allowed ops) :
    (Phase.building !ops.isEmpty).next op = some (.building true) := by
  cases op with
  | newCommand cmdId cmd => rfl
  | cacheRetrieveAction path => rfl
  | newBuild buildId => cases h
  | endBuild result => cases h
  | _ =>
      rcases h.starts with hstarts | hempty
      · cases hstarts
      · rw [hempty]
        rfl

theorem Written.write (h : Written buildId ops s) (hop : op.Allowed ops)
    (hrun : write op s = .ok s') : Written buildId (ops ++ [op]) s' := by
  obtain ⟨front, bs, hbuilds, hbuf, hfirst⟩ := h.front
  have hempty : (ops ++ [op]).isEmpty = false := by simp
  refine ⟨?_, ?_⟩
  · rw [hempty]
    exact h.reachable.step (e := .write op) hop.next hrun
  · obtain ⟨refcount, rest, hbuilds'⟩ := write_chunk hop.isChunk hrun hbuilds
    refine ⟨_, rest, hbuilds', ?_, ?_⟩
    · rw [hbuf, hfirst, chunks_concat, List.append_assoc]
      rcases hop.starts with hstarts | hsome
      · simp [hstarts]
      · simp [hsome]
    · rw [hempty, hfirst]
      rcases hop.starts with hstarts | hsome
      · simp [hstarts]
      · simp [hsome]

/-- A step of a client. -/
theorem Written.client (h : Written buildId ops s) (hsame : SameText s s')
    (hreachable : Reachable s' (.building !ops.isEmpty)) : Written buildId ops s' := by
  obtain ⟨front, bs, hbuilds, hbuf, hfirst⟩ := h.front
  obtain ⟨refcount, rest, hbuilds'⟩ := hsame front bs hbuilds
  exact ⟨hreachable, _, rest, hbuilds', hbuf, hfirst⟩

theorem During.written (h : During buildId ops s) : Written buildId ops s := by
  induction h with
  | start h hrun => exact written_newBuild h hrun
  | write _ hop hrun ih => exact ih.write hop hrun
  | @accept ops fd s _ hfd ih =>
      exact ih.client (ih.reachable.kept.1.sameText_createClient hfd)
        (ih.reachable.step (e := .accept fd) ⟨hfd, rfl⟩ rfl)
  | @process ops fd results handed s s' _ hfd hrun ih =>
      refine ih.client (ih.reachable.kept.1.sameText_processClient hfd hrun)
        (ih.reachable.step (e := .process fd results) ⟨hfd, rfl⟩ ?_)
      rw [Event.run, hrun]
      rfl

theorem Written.endBuild (h : Written buildId ops s) (result : BuildResult) :
    ∃ s' front bs, endBuild result s = .ok s' ∧ s'.builds = front :: bs ∧
      front.buildCompleted = true ∧ front.buf = header buildId ++ chunks ops ++ footer result := by
  obtain ⟨front, bs, hbuilds, hbuf, -⟩ := h.front
  obtain ⟨hkept, hfits⟩ := h.reachable.kept
  have hnext : (Phase.building !ops.isEmpty).next (.endBuild result) = some .idle := by
    cases ops.isEmpty <;> rfl
  obtain ⟨s', hrun, -⟩ := hkept.write hfits hnext
  have hend := hrun
  simp only [StreamServer.write, StreamServer.endBuild, hbuilds] at hend
  obtain ⟨-, -, hend⟩ := Lib.bind_eq_ok.mp hend
  obtain ⟨s₁, hwrite, hend⟩ := Lib.bind_eq_ok.mp hend
  obtain ⟨s₂, hflush, hend⟩ := Lib.bind_eq_ok.mp hend
  obtain ⟨refcount, rest, hbuilds₂⟩ := writeBuf_flush hbuilds
    (Lib.bind_eq_ok.mpr ⟨s₁, hwrite, hflush⟩)
  rw [updateFront, hbuilds₂] at hend
  refine ⟨s', _, rest, hrun, (congrArg builds (Except.ok.inj hend)).symm, rfl, ?_⟩
  rw [← hbuf]
  rfl

/-! ## Its tokens -/

theorem leads_num_append {n : ℕ} {str : String} {l : List UInt8} {toks : List Token}
    (hstr : bytes str = 44 :: l) (h : Leads l toks) :
    Leads (bytes (toString n) ++ bytes str) (.num n :: .comma :: toks) := by
  rw [hstr, bytes_toString, ← List.singleton_append, ← List.append_assoc]
  exact (leads_num_comma n).append h

theorem leads_header (buildId : ℕ) :
    Leads (header buildId) [.openObj, .str (bytes "id"), .colon, .num buildId, .comma,
      .str (bytes "cmds"), .colon, .openArr] := by
  have hid : Leads (bytes "\x7b\n  \"id\": ") [.openObj, .str (bytes "id"), .colon] :=
    (leads_spaced (l := [([], .openObj), (bytes "\n  ", .str (bytes "id")), ([], .colon)])
      rfl).append (leads_blanks (l := bytes " ") rfl)
  have hcmds : Leads (bytes "\n  \"cmds\": [\n") [.str (bytes "cmds"), .colon, .openArr] :=
    (leads_spaced (l := [(bytes "\n  ", .str (bytes "cmds")), ([], .colon), (bytes " ", .openArr)])
      rfl).append (leads_blanks (l := bytes "\n") rfl)
  rw [header, bytes_append, bytes_append, List.append_assoc]
  exact hid.append (leads_num_append rfl hcmds)

/-- The entry of a call about a command, whose text is `body`. -/
theorem leads_entry (key : String) {str : String} {l : List UInt8}
    (hstr : bytes str = 44 :: (l ++ [34]))
    (hkey : Leads l [.str (bytes key), .colon]) (cmdId : ℕ) (body : List UInt8) :
    Leads (bytes ("    \x7b \"id\": " ++ toString cmdId ++ str) ++ body ++ bytes "\" \x7d")
      (tokens (.obj [(bytes "id", .num cmdId), (bytes key, .str body)])) := by
  have hid : Leads (bytes "    \x7b \"id\": ") [.openObj, .str (bytes "id"), .colon] :=
    (leads_spaced (l := [(bytes "    ", .openObj), (bytes " ", .str (bytes "id")), ([], .colon)])
      rfl).append (leads_blanks (l := bytes " ") rfl)
  have hend : Leads (bytes " \x7d") [.closeObj] :=
    leads_spaced (l := [(bytes " ", .closeObj)]) rfl
  have hbody := (hkey.append (leads_str body)).append hend
  have hquote : bytes "\" \x7d" = 34 :: bytes " \x7d" := rfl
  have htext : bytes ("    \x7b \"id\": " ++ toString cmdId ++ str) ++ body ++ bytes "\" \x7d" =
      bytes "    \x7b \"id\": " ++ ((utf8 (toString cmdId).toList ++ [44]) ++
        (l ++ 34 :: (body ++ [34]) ++ bytes " \x7d")) := by
    rw [bytes_append, bytes_append, hstr, hquote, bytes_toString cmdId]
    simp
  rw [htext]
  exact hid.append ((leads_num_comma cmdId).append hbody)

theorem leads_text (hop : op.IsChunk) : Leads op.text (tokens op.json) := by
  have hkey : ∀ key : List UInt8, Leads (bytes " " ++ (34 :: (key ++ [34])) ++ bytes ": ")
      [.str key, .colon] := by
    intro key
    exact ((leads_blanks (l := bytes " ") rfl).append (leads_str key)).append
      ((leads_spaced (l := [([], .colon)]) rfl).append (leads_blanks (l := bytes " ") rfl))
  cases op with
  | newBuild buildId => cases hop
  | endBuild result => cases hop
  | newCommand cmdId cmd => exact leads_entry "cmd" rfl (hkey _) cmdId _
  | writeStdout cmdId buf => exact leads_entry "stdout" rfl (hkey _) cmdId _
  | writeStderr cmdId buf => exact leads_entry "stderr" rfl (hkey _) cmdId _
  | endCommand cmdId status => exact leads_entry "status" rfl (hkey _) cmdId _
  | cacheRetrieveAction path =>
      have hcache : Leads (bytes "    \x7b \"cache\": ") [.openObj, .str (bytes "cache"), .colon] :=
        (leads_spaced (l := [(bytes "    ", .openObj), (bytes " ", .str (bytes "cache")),
          ([], .colon)]) rfl).append (leads_blanks (l := bytes " ") rfl)
      have hend : Leads (bytes " \x7d") [.closeObj] :=
        leads_spaced (l := [(bytes " ", .closeObj)]) rfl
      have htext : (Write.cacheRetrieveAction path).text =
          bytes "    \x7b \"cache\": " ++ (34 :: (bytes path ++ [34]) ++ bytes " \x7d") := by
        have hopening : bytes "    \x7b \"cache\": \"" = bytes "    \x7b \"cache\": " ++ [34] := rfl
        have hquote : bytes "\" \x7d" = 34 :: bytes " \x7d" := rfl
        rw [Write.text, Write.opening, Write.body, hopening, hquote]
        simp
      rw [htext]
      exact hcache.append ((leads_str (bytes path)).append hend)

/-- The entries after the first one, up to the end of the list. -/
theorem leads_items (hops : ∀ op ∈ ops, op.IsChunk) :
    Leads (ops.flatMap (fun op ↦ bytes ",\n" ++ op.text) ++ bytes "\n  ]")
      (itemTokens (ops.map Write.json)) := by
  induction ops with
  | nil => exact leads_spaced (l := [(bytes "\n  ", .closeArr)]) rfl
  | cons op ops ih =>
      have hcomma : Leads (bytes ",\n") [.comma] :=
        (leads_spaced (l := [([], .comma)]) rfl).append (leads_blanks (l := bytes "\n") rfl)
      have hop := hcomma.append (leads_text (hops op List.mem_cons_self))
      rw [List.flatMap_cons, List.append_assoc]
      exact hop.append (ih fun op' hop' ↦ hops op' (List.mem_cons_of_mem op hop'))

theorem leads_chunks (hops : ∀ op ∈ ops, op.IsChunk) : ∃ toks,
    tokens (.arr (ops.map Write.json)) = .openArr :: toks ∧
      Leads (chunks ops ++ bytes "\n  ]") toks := by
  cases ops with
  | nil =>
      refine ⟨[.closeArr], by rw [List.map_nil, tokens], ?_⟩
      exact leads_spaced (l := [(bytes "\n  ", .closeArr)]) rfl
  | cons op ops =>
      refine ⟨_, by rw [List.map_cons, tokens], ?_⟩
      rw [chunks, List.append_assoc]
      exact (leads_text (hops op List.mem_cons_self)).append
        (leads_items fun op' hop' ↦ hops op' (List.mem_cons_of_mem op hop'))

theorem During.isChunk (h : During buildId ops s) : ∀ op ∈ ops, op.IsChunk := by
  induction h with
  | start => simp
  | write _ hop _ ih =>
      intro op' hmem
      rcases List.mem_append.mp hmem with hmem | hmem
      · exact ih op' hmem
      · rw [List.mem_singleton.mp hmem]
        exact hop.isChunk
  | accept _ _ ih => exact ih
  | process _ _ _ ih => exact ih

theorem spells_document (hops : ∀ op ∈ ops, op.IsChunk) (buildId : ℕ) (result : BuildResult) :
    Spells (header buildId ++ chunks ops ++ footer result)
      (tokens (document buildId ops result)) := by
  have hkey : Leads (bytes ",\n  \"result\": ") [.comma, .str (bytes "result"), .colon] :=
    (leads_spaced (l := [([], .comma), (bytes "\n  ", .str (bytes "result")), ([], .colon)])
      rfl).append (leads_blanks (l := bytes " ") rfl)
  have hend : Leads (bytes "\n\x7d\n") [.closeObj] :=
    (leads_spaced (l := [(bytes "\n", .closeObj)]) rfl).append (leads_blanks (l := bytes "\n") rfl)
  have hfooter : footer result = bytes "\n  ]" ++ (bytes ",\n  \"result\": " ++
      (34 :: (bytes result.toString ++ [34]) ++ bytes "\n\x7d\n")) := by
    cases result <;> rfl
  obtain ⟨toks, htoks, hchunks⟩ := leads_chunks hops
  have hleads := ((leads_header buildId).append hchunks).append
    (hkey.append ((leads_str (bytes result.toString)).append hend))
  have htokens : tokens (document buildId ops result) = [.openObj, .str (bytes "id"), .colon,
      .num buildId, .comma, .str (bytes "cmds"), .colon, .openArr] ++ toks ++
      ([.comma, .str (bytes "result"), .colon] ++ ([.str (bytes result.toString)] ++
        [.closeObj])) := by
    simp [document, tokens, fieldTokens, htoks]
  have htext : header buildId ++ chunks ops ++ footer result =
      header buildId ++ (chunks ops ++ bytes "\n  ]") ++ (bytes ",\n  \"result\": " ++
        (34 :: (bytes result.toString ++ [34]) ++ bytes "\n\x7d\n")) := by
    rw [hfooter]
    simp only [List.append_assoc]
  rw [htokens, htext]
  exact hleads.spells

/-- Every call the daemon may make between `newBuild` and `endBuild` is carried
out, and so is `endBuild` at any time.  The buffer is then a JSON document with
the number of the build, one entry for each call in the order of the calls, and
the result. -/
theorem document_wellFormed (h : During buildId ops s) :
    (∀ op : Write, op.Allowed ops → ∃ s', write op s = .ok s') ∧
      ∀ result, ∃ s' front bs toks, endBuild result s = .ok s' ∧ s'.builds = front :: bs ∧
        front.buildCompleted = true ∧ Spells front.buf toks ∧
        parse toks = some (document buildId ops result) := by
  have hwritten := h.written
  constructor
  · intro op hop
    obtain ⟨hkept, hfits⟩ := hwritten.reachable.kept
    obtain ⟨s', hrun, -⟩ := hkept.write hfits hop.next
    exact ⟨s', hrun⟩
  · intro result
    obtain ⟨s', front, bs, hrun, hbuilds, hdone, hbuf⟩ := hwritten.endBuild result
    refine ⟨s', front, bs, _, hrun, hbuilds, hdone, ?_, parse_tokens _⟩
    rw [hbuf]
    exact spells_document h.isChunk buildId result

/-- One command, which is still running when the build is ended. -/
theorem document_of_command : ∃ front toks, (endBuild .interrupted announced).toOption.bind
    (fun s ↦ s.builds.head?) = some front ∧ Spells front.buf toks ∧
    parse toks = some (.obj [(bytes "id", .num 0),
      (bytes "cmds", .arr [.obj [(bytes "id", .num 0), (bytes "cmd", .str (bytes "ls"))]]),
      (bytes "result", .str (bytes "INTERRUPTED"))]) := by
  have hallowed : (Write.newCommand 0 "ls").Allowed [] := by simp [Write.Allowed]
  have hduring : During 0 [.newCommand 0 "ls"] announced :=
    (During.start .create rfl).write hallowed rfl
  obtain ⟨s', front, bs, toks, hrun, hbuilds, -, hspells, hparse⟩ :=
    (document_wellFormed hduring).2 .interrupted
  refine ⟨front, toks, ?_, hspells, hparse⟩
  rw [hrun]
  simp [Except.toOption, hbuilds]

end StreamServer

end Falcon
