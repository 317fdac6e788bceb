import Falcon.Daemon.WatchmanClient

/-!
# Sessions with watchman

A second attempt is made behind a system call that has failed, and in no other case.  If
the system calls go well and each answer comes in a few pieces, wherever they are cut,
each command is sent once and gets its own answer.
-/

namespace Falcon

open Libjson

namespace Watchman

namespace Client

variable {c c' : Client} {cmd : List UInt8}

/-! ## System calls that fail -/

/-- The results that a loop has used: `after` is left of `before`, and the connection is
open if no call has failed. -/
structure Uses {ρ : Type*} (failed : ρ) (before after : List ρ) (isConnected : Bool) : Prop where
  exists_used : ∃ used, before = used ++ after ∧ (isConnected = true ↔ failed ∉ used)

theorem Uses.nil {ρ : Type*} (failed : ρ) (l : List ρ) : Uses failed l l true :=
  ⟨[], rfl, ⟨fun _ ↦ List.not_mem_nil, fun _ ↦ rfl⟩⟩

theorem Uses.cons {ρ : Type*} {failed r : ρ} {before after : List ρ} {isConnected : Bool}
    (h : Uses failed before after isConnected) (hr : r ≠ failed) :
    Uses failed (r :: before) after isConnected := by
  obtain ⟨used, rfl, hused⟩ := h
  refine ⟨r :: used, rfl, hused.trans ?_⟩
  rw [List.mem_cons, not_or]
  exact ⟨fun hmem ↦ ⟨hr.symm, hmem⟩, And.right⟩

theorem Uses.failed {ρ : Type*} (failed : ρ) (l : List ρ) :
    Uses failed (failed :: l) l false :=
  ⟨[failed], rfl, ⟨nofun, fun h ↦ absurd List.mem_cons_self h⟩⟩

theorem writeLoop_uses (h : c.isConnected = true) (writes : List WriteResult) (cmd : List UInt8) :
    Uses .failed writes (c.writeLoop writes cmd).1.writes (c.writeLoop writes cmd).1.isConnected ∧
      (c.writeLoop writes cmd).1.reads = c.reads := by
  induction writes generalizing c cmd with
  | nil => cases cmd <;> exact ⟨h ▸ Uses.nil _ _, rfl⟩
  | cons r writes ih =>
      cases cmd with
      | nil => exact ⟨h ▸ Uses.nil _ _, rfl⟩
      | cons b cmd =>
          cases r with
          | sent n =>
              obtain ⟨huses, hreads⟩ :=
                ih (c := { c with sent := c.sent ++ (b :: cmd).take n }) h ((b :: cmd).drop n)
              exact ⟨huses.cons nofun, hreads⟩
          | again =>
              obtain ⟨huses, hreads⟩ := ih h (b :: cmd)
              exact ⟨huses.cons nofun, hreads⟩
          | failed => exact ⟨Uses.failed _ _, rfl⟩

theorem checkAnswer_fst (dom : Option Tree) (c : Client) : (checkAnswer dom c).1 = c := by
  rw [checkAnswer.eq_def]
  split
  · rfl
  · split <;> rfl

theorem readLoop_uses (h : c.isConnected = true) (reads : List Received) (parser : Parser)
    (assigned : Bool) (loop : ℕ) :
    Uses .failed reads (c.readLoop reads parser assigned loop).1.reads
        (c.readLoop reads parser assigned loop).1.isConnected ∧
      (c.readLoop reads parser assigned loop).1.writes = c.writes := by
  fun_induction readLoop c reads parser assigned loop with
  | case1 => exact ⟨h ▸ Uses.nil _ _, rfl⟩
  | case2 => exact ⟨Uses.failed _ _, rfl⟩
  | case3 => exact ⟨h ▸ (Uses.nil _ _).cons (fun h ↦ by cases h), rfl⟩
  | case4 _ _ _ _ _ _ ih => exact ⟨ih.1.cons (fun h ↦ by cases h), ih.2⟩
  | case5 =>
      rw [checkAnswer_fst]
      exact ⟨h ▸ (Uses.nil _ _).cons (fun h ↦ by cases h), rfl⟩
  | case6 => exact ⟨h ▸ (Uses.nil _ _).cons (fun h ↦ by cases h), rfl⟩
  | case7 =>
      rw [checkAnswer_fst]
      exact ⟨h ▸ (Uses.nil _ _).cons (fun h ↦ by cases h), rfl⟩
  | case8 _ _ _ _ _ _ _ _ _ ih => exact ⟨ih.1.cons (fun h ↦ by cases h), ih.2⟩
  | case9 =>
      rw [checkAnswer_fst]
      exact ⟨h ▸ (Uses.nil _ _).cons (fun h ↦ by cases h), rfl⟩

theorem readAnswer_uses (h : c.isConnected = true) :
    Uses .failed c.reads c.readAnswer.1.reads c.readAnswer.1.isConnected ∧
      c.readAnswer.1.writes = c.writes :=
  readLoop_uses h c.reads .create false 0

/-- No system call between the two states has failed. -/
def Unfailing (c c' : Client) : Prop :=
  ∃ ws rs, c.writes = ws ++ c'.writes ∧ c.reads = rs ++ c'.reads ∧ .failed ∉ ws ∧ .failed ∉ rs

/-- Behind an attempt the connection is open just if no call has failed. -/
theorem attempt_unfailing (h : c.isConnected = true) (cmd : List UInt8) :
    (c.attempt cmd).1.isConnected = true ↔ Unfailing c (c.attempt cmd).1 := by
  obtain ⟨⟨ws, hws, hwrites⟩, hreads⟩ := writeLoop_uses h c.writes cmd
  have hends := writeLoop_ends h c.writes cmd
  rw [attempt, writeCommand]
  generalize c.writeLoop c.writes cmd = r at hws hwrites hreads hends ⊢
  obtain ⟨c₁, e | _⟩ := r
  · refine ⟨fun hopen ↦ ⟨ws, [], hws, hreads.symm, hwrites.mp hopen, List.not_mem_nil⟩, ?_⟩
    rintro ⟨ws', rs', hws', -, hfailed, -⟩
    obtain rfl : ws' = ws := List.append_cancel_right (hws'.symm.trans hws)
    exact hwrites.mpr hfailed
  · have hopen : c₁.isConnected = true := by
      rcases hends.connected with hopen | ⟨-, message, hmessage⟩
      · exact hopen
      · cases hmessage
    obtain ⟨⟨rs, hrs, hused⟩, hwrites'⟩ := readAnswer_uses hopen
    replace hrs : c.reads = rs ++ c₁.readAnswer.1.reads := hreads.symm.trans hrs
    change c₁.readAnswer.1.isConnected = true ↔ Unfailing c c₁.readAnswer.1
    refine ⟨fun hclosed ↦ ⟨ws, rs, ?_, hrs, hwrites.mp hopen, hused.mp hclosed⟩, ?_⟩
    · rw [hwrites']
      exact hws
    · rintro ⟨ws', rs', -, hrs', -, hfailed⟩
      obtain rfl : rs' = rs := List.append_cancel_right (hrs'.symm.trans hrs)
      exact hused.mpr hfailed

/-- A second attempt is made behind a system call that has failed only.  Another exception
finds the connection open, and the client does not expect that. -/
theorem sendCommand_connected_iff (h : c.isConnected = true) (cmd : List UInt8) :
    (c.sendCommand cmd).2 = .error .connected ↔
      (∃ message, (c.attempt cmd).2 = .error (.fault (.exception message))) ∧
        Unfailing c (c.attempt cmd).1 := by
  have hends := attempt_ends h cmd
  rw [← attempt_unfailing h cmd, sendCommand]
  generalize c.attempt cmd = r at hends ⊢
  obtain ⟨c₁, e | _⟩ := r
  · rcases hends.stop e rfl with (rfl | rfl | rfl) | ⟨message, rfl⟩
    · exact ⟨(fun h ↦ by cases h), fun h ↦ by obtain ⟨⟨_, h⟩, -⟩ := h; cases h⟩
    · exact ⟨(fun h ↦ by cases h), fun h ↦ by obtain ⟨⟨_, h⟩, -⟩ := h; cases h⟩
    · exact ⟨(fun h ↦ by cases h), fun h ↦ by obtain ⟨⟨_, h⟩, -⟩ := h; cases h⟩
    · cases hconnected : c₁.isConnected with
      | true =>
          refine ⟨fun _ ↦ ⟨⟨message, rfl⟩, rfl⟩, fun _ ↦ ?_⟩
          simp only [Result.rescue, connectToWatchman, hconnected, if_true, Result.andThen]
      | false =>
          refine ⟨fun hstop ↦ ?_, fun hopen ↦ by cases hopen.2⟩
          have hopens := connectToWatchman_opens hconnected
          simp only [Result.rescue] at hstop
          generalize c₁.connectToWatchman = r at hopens hstop
          obtain ⟨c₂, e | _⟩ := r
          · obtain ⟨-, rfl | ⟨message, rfl⟩⟩ := hopens.closed e rfl <;> cases hstop
          · obtain (hstop' | hstop' | hstop') | ⟨message, hstop'⟩ :=
              (attempt_ends (hopens.opened rfl).1 cmd).stop _ hstop <;> cases hstop'
  · exact ⟨(fun h ↦ by cases h), fun h ↦ by obtain ⟨⟨_, h⟩, -⟩ := h; cases h⟩

/-- A connected client, to which watchman sends the answer in one piece. -/
def answered (answer : List UInt8) : Client := ⟨true, [], [], [.sent 255], [.data answer], [], []⟩

/-- An answer with an error stops the client at its assertion. -/
theorem sendCommand_connected_error :
    ((answered (bytes "\x7b\"error\":\"no\"\x7d")).sendCommand (bytes "[ ]\n")).2 =
      .error .connected :=
  (sendCommand_connected_iff rfl (bytes "[ ]\n")).mpr
    ⟨⟨"no", by decide +kernel⟩, [.sent 255], [.data (bytes "\x7b\"error\":\"no\"\x7d")],
      by decide +kernel, by decide +kernel, by decide, by decide⟩

/-! ## Sessions without a failure -/

/-- Results of `write` with which `n` bytes are written. -/
inductive Takes : ℕ → List WriteResult → Prop
  | done : Takes 0 []
  | again {n ws} (hn : 0 < n) (h : Takes n ws) : Takes n (.again :: ws)
  | sent {n k ws} (hn : 0 < n) (h : Takes (n - k) ws) : Takes n (.sent k :: ws)

/-- The pieces in which an answer is read: the last one completes its document, which has
no entry `error`.  White space that is left over of an answer is read with the next one. -/
structure Answers (pieces : List (List UInt8)) : Prop where
  exists_document : ∃ depth before text after tree, DocumentText depth before text after tree ∧
    pieces.flatten = before ++ (text ++ after) ∧
    pieces.dropLast.flatten.length < (before ++ text).length ∧
    tree.toVal.getObject "error" = none
  length : pieces.length ≤ maxLoop
  -- As many bytes as `read` returns.
  size : ∀ piece ∈ pieces, piece.length ≤ 255

variable {ws : List WriteResult} {writes : List WriteResult} {reads : List Received}
  {pieces : List (List UInt8)} {a before text after : List UInt8} {tree : Tree}

theorem writeLoop_takes {n : ℕ} (h : Takes n ws) (c : Client) (hn : cmd.length = n)
    (writes : List WriteResult) : c.writeLoop (ws ++ writes) cmd =
      ({ c with sent := c.sent ++ cmd, writes := writes }, .ok ()) := by
  induction h generalizing c cmd with
  | done =>
      obtain rfl := List.length_eq_zero_iff.mp hn
      rw [List.append_nil]
      cases writes <;> rfl
  | again hpos _ ih =>
      obtain ⟨b, cmd, rfl⟩ := List.exists_cons_of_length_pos (hn ▸ hpos)
      exact ih c hn
  | @sent n k ws hpos _ ih =>
      obtain ⟨b, cmd, rfl⟩ := List.exists_cons_of_length_pos (hn ▸ hpos)
      have hdrop : ((b :: cmd).drop k).length = n - k := by rw [List.length_drop, hn]
      have hrest := ih { c with sent := c.sent ++ (b :: cmd).take k } hdrop
      rw [List.append_assoc, List.take_append_drop] at hrest
      exact hrest

/-- The loop of `readAnswer` behind the bytes `a`, up to the piece that completes the
document. -/
theorem readLoop_document {depth : ℕ} (h : DocumentText depth before text after tree)
    (hdepth : depth ≤ domStackSize) (herror : tree.toVal.getObject "error" = none) (c : Client) {p : Parser} {assigned : Bool}
    {loop : ℕ} (hfeed : Lib.feed Parser.step Parser.create a = (p, none))
    (pieces : List (List UInt8)) (last : List UInt8)
    (htext : a ++ (pieces ++ [last]).flatten = before ++ (text ++ after))
    (hpart : (a ++ pieces.flatten).length < (before ++ text).length)
    (hloop : loop + pieces.length < maxLoop) :
    c.readLoop ((pieces ++ [last]).map .data ++ reads) p assigned loop =
      ({ c with reads := reads }, .ok ()) := by
  induction pieces generalizing a p assigned loop with
  | nil =>
      obtain ⟨q, hwhole, hq⟩ := reads_document h hdepth
      have hlast : Lib.feed Parser.step p last = (q, none) := by
        rw [← htext, Lib.feed_append_of_none hfeed] at hwhole
        simpa using hwhole
      have hdom : JsonParser.getDom q = some tree := by rw [JsonParser.getDom, hq.dom]
      rw [List.nil_append, List.map_singleton, List.singleton_append, readLoop,
        JsonParser.parse_of_none hlast]
      simp only [hdom, checkAnswer, herror]
  | cons piece pieces ih =>
      rw [List.cons_append, List.flatten_cons, ← List.append_assoc] at htext
      rw [List.flatten_cons, ← List.append_assoc] at hpart
      -- Behind this piece the document is not complete.
      obtain ⟨b, hb, hsplit⟩ : ∃ b, b ≠ [] ∧ before ++ text = (a ++ piece) ++ b := by
        have hprefix : a ++ piece <+: before ++ text := by
          refine List.prefix_of_prefix_length_le ⟨_, htext⟩ ⟨after, ?_⟩ ?_
          · rw [List.append_assoc]
          · rw [List.length_append] at hpart
            omega
        obtain ⟨b, hb⟩ := hprefix
        refine ⟨b, ?_, hb.symm⟩
        rintro rfl
        rw [← hb, List.append_nil, List.length_append] at hpart
        omega
      obtain ⟨q, hq, hroot⟩ := rootStructure_of_part h hdepth hb hsplit
      have hpiece : Lib.feed Parser.step p piece = (q, none) := by
        rwa [Lib.feed_append_of_none hfeed] at hq
      rw [List.length_cons] at hloop
      rw [List.cons_append, List.map_cons, List.cons_append, readLoop,
        JsonParser.parse_of_none hpiece]
      simp only [JsonParser.getDom, hroot]
      rw [if_pos (by omega)]
      exact ih hq htext hpart (by omega)

theorem length_flatten_le {n : ℕ} (h : ∀ piece ∈ pieces, piece.length ≤ n) :
    pieces.flatten.length ≤ pieces.length * n := by
  induction pieces with
  | nil => exact Nat.zero_le _
  | cons piece pieces ih =>
      obtain ⟨hpiece, hpieces⟩ := List.forall_mem_cons.mp h
      have hrest := ih hpieces
      rw [List.flatten_cons, List.length_append, List.length_cons, Nat.succ_mul]
      omega

/-- What is read in a few pieces fits on the stack of the parser. -/
theorem Answers.length_flatten_le (h : Answers pieces) : pieces.flatten.length ≤ domStackSize := by
  have hsize : pieces.flatten.length ≤ pieces.length * 255 := Client.length_flatten_le h.size
  have hlength : pieces.length * 255 ≤ maxLoop * 255 := Nat.mul_le_mul_right 255 h.length
  exact hsize.trans (hlength.trans (by decide))

theorem readAnswer_answers (h : Answers pieces) (c : Client)
    (hreads : c.reads = pieces.map .data ++ reads) :
    c.readAnswer = ({ c with reads := reads }, .ok ()) := by
  obtain ⟨depth, before, text, after, tree, hdoc, htext, hpart, herror⟩ := h.exists_document
  have hdepth : text.length ≤ domStackSize := by
    have hfits := h.length_flatten_le
    rw [htext, List.length_append, List.length_append] at hfits
    omega
  have hshallow : DocumentText text.length before text after tree :=
    ⟨hdoc.before, hdoc.value.of_length, hdoc.structured, hdoc.after⟩
  rcases List.eq_nil_or_concat' pieces with rfl | ⟨pieces, last, rfl⟩
  · -- A document has at least one byte.
    have hnil : text = [] := by
      have hall := List.append_eq_nil_iff.mp htext.symm
      exact (List.append_eq_nil_iff.mp hall.2).1
    obtain ⟨l, ch, hch, -⟩ := hdoc.value.getLast_closing hdoc.structured
    rw [hnil] at hch
    cases l <;> cases hch
  · rw [List.dropLast_concat] at hpart
    have hlength := h.length
    rw [List.length_append, List.length_singleton] at hlength
    rw [readAnswer, hreads]
    exact readLoop_document (a := []) hshallow hdepth herror c rfl pieces last htext hpart (by omega)

/-- A node, the results of the writes of its command and the pieces of the answer. -/
structure Exchange where
  path : List UInt8
  time : ℕ
  writes : List WriteResult
  pieces : List (List UInt8)

def Exchange.command (workingDirectory : List UInt8) (x : Exchange) : List UInt8 :=
  triggerCommand workingDirectory x.path x.time

/-- Watchman takes the command, and its answer is read. -/
structure Exchange.Succeeds (workingDirectory : List UInt8) (x : Exchange) : Prop where
  takes : Takes (x.command workingDirectory).length x.writes
  answers : Answers x.pieces

theorem watchNode_succeeds {workingDirectory : List UInt8} {x : Exchange}
    (h : x.Succeeds workingDirectory) (hc : c.isConnected = true)
    (hwrites : c.writes = x.writes ++ writes) (hreads : c.reads = x.pieces.map .data ++ reads) :
    c.watchNode workingDirectory x.path x.time =
      ({ c with sent := c.sent ++ x.command workingDirectory, writes := writes, reads := reads },
        .ok ()) := by
  have hwrite : c.writeCommand (x.command workingDirectory) =
      ({ c with sent := c.sent ++ x.command workingDirectory, writes := writes }, .ok ()) := by
    rw [writeCommand, hwrites]
    exact writeLoop_takes h.takes c rfl writes
  have hanswer := readAnswer_answers h.answers
    { c with sent := c.sent ++ x.command workingDirectory, writes := writes } hreads
  rw [watchNode, ensureConnected, if_pos hc, Result.andThen, ← Exchange.command, sendCommand,
    attempt, hwrite, Result.andThen, hanswer]
  rfl

/-- Without a failure each command is sent once, in turn, and each has its own answer. -/
theorem watchGraph_succeeds {workingDirectory : List UInt8} (exchanges : List Exchange)
    (hc : c.isConnected = true) (h : ∀ x ∈ exchanges, x.Succeeds workingDirectory)
    (hwrites : c.writes = exchanges.flatMap Exchange.writes ++ writes)
    (hreads : c.reads = (exchanges.flatMap Exchange.pieces).map .data ++ reads) :
    c.watchGraph workingDirectory (exchanges.map fun x ↦ (x.path, x.time)) =
      ({ c with
        sent := c.sent ++ exchanges.flatMap (Exchange.command workingDirectory)
        writes := writes
        reads := reads }, .ok ()) := by
  rw [watchGraph, ensureConnected, if_pos hc, Result.andThen]
  induction exchanges generalizing c with
  | nil =>
      rw [List.map_nil, forNodes, List.flatMap_nil, List.append_nil]
      rw [List.flatMap_nil, List.nil_append] at hwrites
      rw [List.flatMap_nil, List.map_nil, List.nil_append] at hreads
      rw [← hwrites, ← hreads]
  | cons x exchanges ih =>
      rw [List.forall_mem_cons] at h
      rw [List.flatMap_cons, List.append_assoc] at hwrites
      rw [List.flatMap_cons, List.map_append, List.append_assoc] at hreads
      rw [List.map_cons, forNodes, watchNode_succeeds h.1 hc hwrites hreads, Result.andThen,
        List.flatMap_cons, ← List.append_assoc]
      exact ih (c := { c with
        sent := c.sent ++ x.command workingDirectory
        writes := exchanges.flatMap Exchange.writes ++ writes
        reads := (exchanges.flatMap Exchange.pieces).map .data ++ reads }) hc h.2 rfl rfl

theorem plainAnswer_document : DocumentText 1 [] (bytes "\x7b\"a\":1\x7d") [0x0a]
    (.mk .objectBegin [] [(bytes "a", .mk .int [] [] (bytes "1"))] []) := by
  let members : List (Key × Element) := [(⟨[], [0x61], [0x61], []⟩,
    ⟨[], [0x31], .mk .int [] [] [0x31], []⟩)]
  refine ⟨by decide, ?_, rfl, by decide⟩
  exact @ValueText.object 0 members (by decide)
    (List.forall_mem_singleton.mpr ⟨by decide, by decide +kernel, by decide⟩)
    (List.forall_mem_singleton.mpr ⟨by decide, by decide, nofun⟩)
    (List.forall_mem_singleton.mpr (.number (@NumberText.int [] _ (Or.inl rfl)
      (.digits (c := 0x31) (l := []) (by decide) (by decide) (by decide +kernel)))))

/-- A command that is written in two parts, and an answer in two pieces. -/
def objectExchange : Exchange where
  path := bytes "a.o"
  time := 7
  writes := [.again, .sent 10, .sent 500]
  pieces := [bytes "\x7b\"a", bytes "\":1\x7d\n"]

theorem objectExchange_succeeds : objectExchange.Succeeds (bytes "/w") where
  takes := by
    have hlength : (objectExchange.command (bytes "/w")).length = 232 := by decide +kernel
    rw [hlength]
    exact .again (by decide) (.sent (by decide) (.sent (by decide) .done))
  answers :=
    ⟨⟨1, [], _, _, _, plainAnswer_document, by decide, by decide, by decide +kernel⟩, by decide,
      by decide⟩

theorem watchGraph_succeeds_object :
    (Client.watchGraph (bytes "/w") [(objectExchange.path, objectExchange.time)]
      ⟨true, [], [], objectExchange.writes, objectExchange.pieces.map .data, [], []⟩).2 = .ok () := by
  let c : Client := ⟨true, [], [], objectExchange.writes, objectExchange.pieces.map .data, [], []⟩
  have hwrites : c.writes = [objectExchange].flatMap Exchange.writes ++ [] := by simp [c]
  have hreads : c.reads = ([objectExchange].flatMap Exchange.pieces).map .data ++ [] := by
    simp [c]
  exact congrArg Prod.snd (watchGraph_succeeds [objectExchange] rfl
    (List.forall_mem_singleton.mpr objectExchange_succeeds) hwrites hreads)

end Client

end Watchman

end Falcon
