import Falcon.Daemon.Watchman
import Falcon.Parser.JsonPrefix

/-!
# The watchman client

For each node the client writes a command to the socket of watchman and reads the
answer.  What the system calls return is given call by call.  A call that fails closes
the connection, and the client connects anew and tries once more.
-/

namespace Falcon

open Libjson

namespace Watchman

/-- What keeps a function of the client from returning. -/
inductive Stop where
  | fault (f : Fault)
  -- `connectToWatchman` and `openWatchmanSocket`: `!isConnected_`.
  | connected
  -- `connectToWatchman`: `isConnected_`.
  | notConnected
  -- `readAnswer` looks at `dom` before it has a value.
  | uninitialised
  -- A system call does not return.
  | waiting
  deriving DecidableEq

/-- What `write` returns; `sent n` stands for `n` bytes, or for all that are left.  A
write that kills the daemon, by SIGPIPE on a socket that watchman has closed, returns
nothing. -/
inductive WriteResult where
  | sent (n : ℕ)
  | again
  | failed
  deriving DecidableEq

/-- What `read` returns; it reads 255 bytes at most, and none at the end. -/
inductive Received where
  | data (buf : List UInt8)
  | again
  | failed
  deriving DecidableEq

/-- `WatchmanClient`, with what has been written to its socket and, in `past`, to the
sockets before, and the results of the system calls to come.  An attempt to open the socket
or to start watchman has no result or the message of its exception. -/
structure Client where
  isConnected : Bool
  past : List (List UInt8)
  sent : List UInt8
  writes : List WriteResult
  reads : List Received
  opens : List (Option String)
  starts : List (Option String)

abbrev Result := Client × Except Stop Unit

/-- Go on if the call has returned. -/
def Result.andThen (r : Result) (f : Client → Result) : Result :=
  match r with
  | (c, .ok _) => f c
  | (c, .error e) => (c, .error e)

/-- `catch (Exception& e)` -/
def Result.rescue (r : Result) (f : Client → Result) : Result :=
  match r with
  | (c, .error (.fault (.exception _))) => f c
  | (c, e) => (c, e)

namespace Client

def throw (message : String) (c : Client) : Result := (c, .error (.fault (.exception message)))

/-! ## The connection -/

def openWatchmanSocket (c : Client) : Result :=
  if c.isConnected then (c, .error .connected)
  else
    match c.opens with
    | [] => (c, .error .waiting)
    | none :: opens =>
      ({ c with isConnected := true, past := c.past ++ [c.sent], sent := [], opens := opens },
        .ok ())
    | some message :: opens => { c with opens := opens }.throw message

def startWatchmanInstance (c : Client) : Result :=
  match c.starts with
  | [] => (c, .error .waiting)
  | none :: starts => ({ c with starts := starts }, .ok ())
  | some message :: starts => { c with starts := starts }.throw message

def connectToWatchman (c : Client) : Result :=
  if c.isConnected then (c, .error .connected)
  else
    (c.openWatchmanSocket.rescue fun c ↦
      c.startWatchmanInstance.andThen openWatchmanSocket).andThen fun c ↦
        if c.isConnected then (c, .ok ()) else (c, .error .notConnected)

/-! ## A command and its answer -/

/-- The loop of `writeCommand`, on the bytes that are left. -/
def writeLoop (c : Client) : List WriteResult → List UInt8 → Result
  | writes, [] => ({ c with writes := writes }, .ok ())
  | [], _ :: _ => ({ c with writes := [] }, .error .waiting)
  | r :: writes, b :: cmd =>
    match r with
    | .sent n => writeLoop { c with sent := c.sent ++ (b :: cmd).take n } writes ((b :: cmd).drop n)
    | .again => writeLoop c writes (b :: cmd)
    | .failed =>
      { c with isConnected := false, writes := writes }.throw
        "unable to write command to watchman"

def writeCommand (cmd : List UInt8) (c : Client) : Result := c.writeLoop c.writes cmd

/-- `MAX_JSON_STRING_SIZE / MAX_BUF_SIZE` -/
def maxLoop : ℕ := 4

/-- The field `_data` as a C string. -/
def errorData : JsonVal → String
  | .string data | .literal data => .ofList (data.toList.takeWhile (· ≠ '\x00'))
  | _ => ""

/-- What `readAnswer` does with the answer behind its loop. -/
def checkAnswer (dom : Option Tree) (c : Client) : Result :=
  match dom with
  | none => c.throw "Error parsing watchman command response"
  | some dom =>
    match dom.toVal.getObject "error" with
    | none => (c, .ok ())
    | some error => c.throw (errorData error)

/-- The loop of `readAnswer`; `assigned` tells whether `dom` has a value, which is then
null. -/
def readLoop (c : Client) : List Received → Parser → Bool → ℕ → Result
  | [], _, _, _ => ({ c with reads := [] }, .error .waiting)
  | .failed :: reads, _, _, _ =>
    { c with isConnected := false, reads := reads }.throw "unable to read watchman command response"
  | .again :: reads, parser, assigned, loop =>
    if assigned = false then ({ c with reads := reads }, .error .uninitialised)
    else if loop + 2 < maxLoop then readLoop c reads parser assigned (loop + 2)
    else checkAnswer none { c with reads := reads }
  | .data buf :: reads, parser, _, loop =>
    match JsonParser.parse 0 buf parser with
    | .error f => ({ c with reads := reads }, .error (.fault f))
    | .ok parser =>
      match JsonParser.getDom parser with
      | some dom => checkAnswer (some dom) { c with reads := reads }
      | none =>
        if loop + 1 < maxLoop then readLoop c reads parser true (loop + 1)
        else checkAnswer none { c with reads := reads }

def readAnswer (c : Client) : Result := c.readLoop c.reads .create false 0

/-- One attempt of `watchNode` or `unwatchNode`. -/
def attempt (cmd : List UInt8) (c : Client) : Result := (c.writeCommand cmd).andThen readAnswer

/-- The end of `watchNode` and of `unwatchNode`. -/
def sendCommand (cmd : List UInt8) (c : Client) : Result :=
  (c.attempt cmd).rescue fun c ↦ c.connectToWatchman.andThen (attempt cmd)

def ensureConnected (c : Client) : Result :=
  if c.isConnected then (c, .ok ()) else c.connectToWatchman

/-! ## Nodes -/

/-- The command of `watchNode`; `time` is the second before. -/
def triggerCommand (workingDirectory path : List UInt8) (time : ℕ) : List UInt8 :=
  let target := updateTargetPath workingDirectory path
  bytes "[ " ++ bytes "\"trigger\", \"" ++ target.1 ++ bytes "\", \x7b " ++
  bytes "\"name\": \"" ++ path ++ bytes "\", " ++
  bytes "\"expression\": " ++
  bytes "   [\"allof\", " ++
  bytes "       [\"name\", \"" ++ target.2 ++ bytes "\", \"wholename\"], " ++
  bytes "       [\"anyof\", " ++
  bytes "           [\"not\", \"exists\"]," ++
  bytes "           [\"since\", " ++ bytes (toString time) ++ bytes ", \"mtime\"]]], " ++
  bytes "\"command\": [" ++
  bytes "    \"falcon\", \"--set-dirty\", \"" ++ path ++ bytes "\"" ++
  bytes "]\x7d]\n"

/-- The command of `unwatchNode`. -/
def triggerDelCommand (workingDirectory path : List UInt8) : List UInt8 :=
  let target := updateTargetPath workingDirectory path
  bytes "[ " ++
  bytes "\"trigger-del\", \"" ++ target.1 ++ bytes "\", " ++
  bytes "\"" ++ path ++ bytes "\" " ++
  bytes "]\n"

def watchNode (workingDirectory path : List UInt8) (time : ℕ) (c : Client) : Result :=
  c.ensureConnected.andThen (sendCommand (triggerCommand workingDirectory path time))

def unwatchNode (workingDirectory path : List UInt8) (c : Client) : Result :=
  c.ensureConnected.andThen (sendCommand (triggerDelCommand workingDirectory path))

/-- A loop over the nodes of a graph. -/
def forNodes {ν : Type*} (f : ν → Client → Result) : List ν → Client → Result
  | [], c => (c, .ok ())
  | n :: nodes, c => (f n c).andThen (forNodes f nodes)

/-- `watchGraph`, on the paths of the nodes and the times at which it gets to them. -/
def watchGraph (workingDirectory : List UInt8) (nodes : List (List UInt8 × ℕ)) (c : Client) :
    Result :=
  c.ensureConnected.andThen (forNodes (fun n ↦ watchNode workingDirectory n.1 n.2) nodes)

def unwatchGraph (workingDirectory : List UInt8) (nodes : List (List UInt8)) (c : Client) :
    Result :=
  c.ensureConnected.andThen (forNodes (unwatchNode workingDirectory) nodes)

/-- All that is done for a node. -/
def request (cmd : List UInt8) (c : Client) : Result :=
  c.ensureConnected.andThen (sendCommand cmd)

/-! ## What is sent -/

section Sent

variable {c c' : Client} {r : Result} {cmd : List UInt8} {cmds : List (List UInt8)}

/-- How a call of the connected client may end: it has returned or waits, or there is an
exception, which alone may have closed the connection.  An answer that is nested too deep
writes behind the stack of the parser. -/
structure Ends (r : Result) : Prop where
  connected : r.1.isConnected = true ∨
    r.1.isConnected = false ∧ ∃ message, r.2 = .error (.fault (.exception message))
  stop : ∀ e, r.2 = .error e → (e = .waiting ∨ e = .uninitialised ∨ e = .fault .heapOverflow) ∨
    ∃ message, e = .fault (.exception message)

/-- What a call has written: a part of the command, and all of it if it has returned. -/
structure Writes (sent cmd : List UInt8) (r : Result) : Prop where
  part : ∃ part, part <+: cmd ∧ r.1.sent = sent ++ part
  whole : r.2 = .ok () → r.1.sent = sent ++ cmd

/-- What was written before counts as well. -/
theorem Writes.prepend {front cmd : List UInt8} (h : Writes (c.sent ++ front) cmd r) :
    Writes c.sent (front ++ cmd) r := by
  obtain ⟨part, ⟨rest, hrest⟩, hsent⟩ := h.part
  refine ⟨⟨front ++ part, ⟨rest, ?_⟩, ?_⟩, fun hok ↦ ?_⟩
  · rw [List.append_assoc, hrest]
  · rw [hsent, List.append_assoc]
  · rw [h.whole hok, List.append_assoc]

theorem writeLoop_writes (c : Client) (writes : List WriteResult) (cmd : List UInt8) :
    Writes c.sent cmd (c.writeLoop writes cmd) := by
  induction writes generalizing c cmd with
  | nil =>
      cases cmd with
      | nil =>
          exact ⟨⟨[], List.nil_prefix, (List.append_nil _).symm⟩, fun _ ↦ (List.append_nil _).symm⟩
      | cons b cmd => exact ⟨⟨[], List.nil_prefix, (List.append_nil _).symm⟩, nofun⟩
  | cons r writes ih =>
      cases cmd with
      | nil =>
          exact ⟨⟨[], List.nil_prefix, (List.append_nil _).symm⟩, fun _ ↦ (List.append_nil _).symm⟩
      | cons b cmd =>
          cases r with
          | sent n =>
              have hwrites := (ih { c with sent := c.sent ++ (b :: cmd).take n }
                ((b :: cmd).drop n)).prepend
              rw [List.take_append_drop] at hwrites
              exact hwrites
          | again => exact ih c (b :: cmd)
          | failed => exact ⟨⟨[], List.nil_prefix, (List.append_nil _).symm⟩, nofun⟩

theorem writeLoop_ends (h : c.isConnected = true) (writes : List WriteResult)
    (cmd : List UInt8) : Ends (c.writeLoop writes cmd) := by
  induction writes generalizing c cmd with
  | nil =>
      cases cmd with
      | nil => exact ⟨Or.inl h, nofun⟩
      | cons b cmd => exact ⟨Or.inl h, fun e he ↦ Or.inl (Or.inl (Except.error.inj he).symm)⟩
  | cons r writes ih =>
      cases cmd with
      | nil => exact ⟨Or.inl h, nofun⟩
      | cons b cmd =>
          cases r with
          | sent n => exact ih (c := { c with sent := c.sent ++ (b :: cmd).take n }) h _
          | again => exact ih h (b :: cmd)
          | failed =>
              exact ⟨Or.inr ⟨rfl, _, rfl⟩,
                fun e he ↦ Or.inr ⟨_, (Except.error.inj he).symm⟩⟩

/-- `readAnswer` writes nothing. -/
theorem readLoop_sent (c : Client) (reads : List Received) (parser : Parser) (assigned : Bool)
    (loop : ℕ) : (c.readLoop reads parser assigned loop).1.sent = c.sent := by
  have hcheck : ∀ dom (c : Client), (checkAnswer dom c).1.sent = c.sent := by
    intro dom c
    rw [checkAnswer.eq_def]
    split
    · rfl
    · split <;> rfl
  fun_induction readLoop c reads parser assigned loop <;>
    first | rfl | exact hcheck _ _ | assumption

/-- What an answer makes of the client without a system call that fails. -/
theorem Ends.of_connected (h : r.1.isConnected = true)
    (hstop : ∀ e, r.2 = .error e → ∃ message, e = .fault (.exception message)) : Ends r :=
  ⟨Or.inl h, fun e he ↦ Or.inr (hstop e he)⟩

theorem checkAnswer_ends (h : c.isConnected = true) (dom : Option Tree) :
    Ends (checkAnswer dom c) := by
  rw [checkAnswer.eq_def]
  split
  · exact Ends.of_connected h fun e he ↦ ⟨_, (Except.error.inj he).symm⟩
  · split
    · exact Ends.of_connected h nofun
    · exact Ends.of_connected h fun e he ↦ ⟨_, (Except.error.inj he).symm⟩

theorem parse_error {s : List UInt8} {p : Parser} {f : Fault}
    (h : JsonParser.parse 0 s p = .error f) :
    f = .heapOverflow ∨ ∃ message, f = .exception message := by
  rw [JsonParser.parse] at h
  split at h
  · cases h
  · cases h
  · exact Or.inr ⟨_, (Except.error.inj h).symm⟩
  · exact Or.inl (Except.error.inj h).symm
  · exact Or.inr ⟨_, (Except.error.inj h).symm⟩

theorem readLoop_ends (h : c.isConnected = true) (reads : List Received) (parser : Parser)
    (assigned : Bool) (loop : ℕ) : Ends (c.readLoop reads parser assigned loop) := by
  fun_induction readLoop c reads parser assigned loop with
  | case1 => exact ⟨Or.inl h, fun e he ↦ Or.inl (Or.inl (Except.error.inj he).symm)⟩
  | case2 => exact ⟨Or.inr ⟨rfl, _, rfl⟩, fun e he ↦ Or.inr ⟨_, (Except.error.inj he).symm⟩⟩
  | case3 => exact ⟨Or.inl h, fun e he ↦ Or.inl (Or.inr (Or.inl (Except.error.inj he).symm))⟩
  | case4 _ _ _ _ _ _ ih => exact ih
  | case5 reads _ _ _ => exact checkAnswer_ends (c := { c with reads := reads }) h _
  | case6 _ _ _ _ _ f hparse =>
      obtain rfl | ⟨message, rfl⟩ := parse_error hparse
      · exact ⟨Or.inl h, fun e he ↦ Or.inl (Or.inr (Or.inr (Except.error.inj he).symm))⟩
      · exact Ends.of_connected h fun e he ↦ ⟨_, (Except.error.inj he).symm⟩
  | case7 _ reads _ _ _ => exact checkAnswer_ends (c := { c with reads := reads }) h _
  | case8 _ _ _ _ _ _ _ _ _ ih => exact ih
  | case9 _ reads _ _ _ => exact checkAnswer_ends (c := { c with reads := reads }) h _

theorem readAnswer_sent (c : Client) : c.readAnswer.1.sent = c.sent :=
  readLoop_sent c c.reads .create false 0

/-- One attempt: the whole command has been written if there is an answer to be read. -/
theorem attempt_writes (c : Client) (cmd : List UInt8) :
    Writes c.sent cmd (c.attempt cmd) := by
  have hwrite := writeLoop_writes c c.writes cmd
  rw [attempt, writeCommand]
  generalize c.writeLoop c.writes cmd = r at hwrite ⊢
  obtain ⟨c₁, e | _⟩ := r
  · exact ⟨hwrite.part, nofun⟩
  · have hsent : c₁.readAnswer.1.sent = c.sent ++ cmd :=
      (readAnswer_sent c₁).trans (hwrite.whole rfl)
    exact ⟨⟨cmd, List.prefix_rfl, hsent⟩, fun _ ↦ hsent⟩

theorem attempt_ends (h : c.isConnected = true) (cmd : List UInt8) : Ends (c.attempt cmd) := by
  have hends := writeLoop_ends h c.writes cmd
  rw [attempt, writeCommand]
  generalize c.writeLoop c.writes cmd = r at hends ⊢
  obtain ⟨c₁, e | _⟩ := r
  · exact hends
  · have hconnected : c₁.isConnected = true := by
      rcases hends.connected with hconnected | ⟨-, message, hmessage⟩
      · exact hconnected
      · cases hmessage
    exact readLoop_ends hconnected c₁.reads .create false 0

/-! ## The connection is opened anew -/

/-- Both attempts to open the connection end as they do on the same client. -/
structure Opens (c : Client) (r : Result) : Prop where
  opened : r.2 = .ok () → r.1.isConnected = true ∧ r.1.past = c.past ++ [c.sent] ∧ r.1.sent = []
  closed : ∀ e, r.2 = .error e → (r.1.isConnected = false ∧ r.1.past = c.past ∧
    r.1.sent = c.sent) ∧ (e = .waiting ∨ ∃ message, e = .fault (.exception message))

theorem openWatchmanSocket_opens (h : c.isConnected = false) : Opens c c.openWatchmanSocket := by
  rw [openWatchmanSocket, if_neg (by simp [h])]
  split
  · exact ⟨nofun, fun e he ↦ ⟨⟨h, rfl, rfl⟩, Or.inl (Except.error.inj he).symm⟩⟩
  · exact ⟨fun _ ↦ ⟨rfl, rfl, rfl⟩, nofun⟩
  · exact ⟨nofun, fun e he ↦ ⟨⟨h, rfl, rfl⟩, Or.inr ⟨_, (Except.error.inj he).symm⟩⟩⟩

theorem startWatchmanInstance_opens (h : c.isConnected = false) :
    Opens c (c.startWatchmanInstance.andThen openWatchmanSocket) := by
  rw [startWatchmanInstance]
  split
  · exact ⟨nofun, fun e he ↦ ⟨⟨h, rfl, rfl⟩, Or.inl (Except.error.inj he).symm⟩⟩
  · rename_i starts _
    have hopens := openWatchmanSocket_opens (c := { c with starts := starts }) h
    exact ⟨hopens.opened, hopens.closed⟩
  · exact ⟨nofun, fun e he ↦ ⟨⟨h, rfl, rfl⟩, Or.inr ⟨_, (Except.error.inj he).symm⟩⟩⟩

theorem connectToWatchman_opens (h : c.isConnected = false) : Opens c c.connectToWatchman := by
  have hopens : Opens c (c.openWatchmanSocket.rescue fun c ↦
      c.startWatchmanInstance.andThen openWatchmanSocket) := by
    have hfirst := openWatchmanSocket_opens h
    generalize c.openWatchmanSocket = r at hfirst ⊢
    obtain ⟨c₁, e | _⟩ := r
    · obtain ⟨⟨hclosed, hpast, hsent⟩, rfl | ⟨message, rfl⟩⟩ := hfirst.closed e rfl
      · exact hfirst
      · have hsecond := startWatchmanInstance_opens hclosed
        rw [Result.rescue]
        refine ⟨fun hok ↦ ?_, fun e he ↦ ?_⟩
        · rw [← hpast, ← hsent]
          exact hsecond.opened hok
        · rw [← hpast, ← hsent]
          exact hsecond.closed e he
    · exact hfirst
  rw [connectToWatchman, if_neg (by simp [h])]
  generalize (c.openWatchmanSocket.rescue fun c ↦
    c.startWatchmanInstance.andThen openWatchmanSocket) = r at hopens ⊢
  obtain ⟨c₁, e | _⟩ := r
  · exact hopens
  · have hconnected : c₁.isConnected = true := (hopens.opened rfl).1
    rw [Result.andThen, if_pos hconnected]
    exact hopens

/-! ## Commands one after the other -/

/-- What has been written for the commands of the list since `sent` was on the connection:
over the connections that have failed, and over the last one.  The command during which a
connection fails is written again, from its beginning, over the next. -/
inductive Carried (sent : List UInt8) :
    List (List UInt8) → List (List UInt8) → List UInt8 → Prop
  | start : Carried sent [] [] sent
  | whole {done past written} (h : Carried sent done past written) (cmd : List UInt8) :
      Carried sent (done ++ [cmd]) past (written ++ cmd)
  | again {done past written} (h : Carried sent done past written) {part cmd : List UInt8}
      (hpart : part <+: cmd) : Carried sent (done ++ [cmd]) (past ++ [written ++ part]) cmd

/-- What has been written when `cmd` has not got its answer: a part of it, and, if the
connection has failed and been opened again, a part of it over the new one. -/
inductive Stopped (sent : List UInt8) (done : List (List UInt8)) (cmd : List UInt8) :
    List (List UInt8) → List UInt8 → Prop
  | part {past written} (h : Carried sent done past written) {part : List UInt8}
      (hpart : part <+: cmd) : Stopped sent done cmd past (written ++ part)
  | again {past written} (h : Carried sent done past written) {part part' : List UInt8}
      (hpart : part <+: cmd) (hpart' : part' <+: cmd) :
      Stopped sent done cmd (past ++ [written ++ part]) part'

variable {before : List (List UInt8)} {sent : List UInt8} {done : List (List UInt8)}

/-- The commands have been carried since the connections were `before` and `sent`. -/
def Has (before : List (List UInt8)) (sent : List UInt8) (done : List (List UInt8)) (c : Client) :
    Prop :=
  ∃ past, c.past = before ++ past ∧ Carried sent done past c.sent

/-- What a request leads to. -/
structure Requests (before : List (List UInt8)) (sent : List UInt8) (done : List (List UInt8))
    (cmd : List UInt8) (r : Result) : Prop where
  returned : r.2 = .ok () → r.1.isConnected = true ∧ Has before sent (done ++ [cmd]) r.1
  stopped : ∀ e, r.2 = .error e →
    ∃ past, r.1.past = before ++ past ∧ Stopped sent done cmd past r.1.sent

theorem readLoop_past (c : Client) (reads : List Received) (parser : Parser) (assigned : Bool)
    (loop : ℕ) : (c.readLoop reads parser assigned loop).1.past = c.past := by
  have hcheck : ∀ dom (c : Client), (checkAnswer dom c).1.past = c.past := by
    intro dom c
    rw [checkAnswer.eq_def]
    split
    · rfl
    · split <;> rfl
  fun_induction readLoop c reads parser assigned loop <;>
    first | rfl | exact hcheck _ _ | assumption

theorem writeLoop_past (c : Client) (writes : List WriteResult) (cmd : List UInt8) :
    (c.writeLoop writes cmd).1.past = c.past := by
  induction writes generalizing c cmd with
  | nil => cases cmd <;> rfl
  | cons r writes ih =>
      cases cmd with
      | nil => rfl
      | cons b cmd =>
          cases r with
          | sent n => exact ih { c with sent := c.sent ++ (b :: cmd).take n } ((b :: cmd).drop n)
          | again => exact ih c (b :: cmd)
          | failed => rfl

theorem attempt_past (c : Client) (cmd : List UInt8) : (c.attempt cmd).1.past = c.past := by
  have hwrite := writeLoop_past c c.writes cmd
  rw [attempt, writeCommand]
  generalize c.writeLoop c.writes cmd = r at hwrite ⊢
  obtain ⟨c₁, e | _⟩ := r
  · exact hwrite
  · exact (readLoop_past c₁ c₁.reads .create false 0).trans hwrite

theorem attempt_requests (h : c.isConnected = true) (hhas : Has before sent done c)
    (cmd : List UInt8) : Requests before sent done cmd (c.attempt cmd) := by
  have hwrites := attempt_writes c cmd
  obtain ⟨past, hpast, hcarried⟩ := hhas
  rw [← attempt_past c cmd] at hpast
  refine ⟨fun hok ↦ ⟨?_, past, hpast, ?_⟩, fun _ _ ↦ ⟨past, hpast, ?_⟩⟩
  · rcases (attempt_ends h cmd).connected with hconnected | ⟨-, message, hmessage⟩
    · exact hconnected
    · cases hok.symm.trans hmessage
  · rw [hwrites.whole hok]
    exact hcarried.whole cmd
  · obtain ⟨part, hpart, hsent⟩ := hwrites.part
    rw [hsent]
    exact .part hcarried hpart

/-- The second attempt is made over a connection of its own. -/
theorem attempt_again {part : List UInt8} {past : List (List UInt8)} {written : List UInt8}
    (h : c.isConnected = true) (hcarried : Carried sent done past written) (hpart : part <+: cmd)
    (hpast : c.past = before ++ (past ++ [written ++ part])) (hsent : c.sent = []) :
    Requests before sent done cmd (c.attempt cmd) := by
  have hwrites := attempt_writes c cmd
  rw [hsent] at hwrites
  rw [← attempt_past c cmd] at hpast
  refine ⟨fun hok ↦ ⟨?_, _, hpast, ?_⟩, fun _ _ ↦ ⟨_, hpast, ?_⟩⟩
  · rcases (attempt_ends h cmd).connected with hconnected | ⟨-, message, hmessage⟩
    · exact hconnected
    · cases hok.symm.trans hmessage
  · rw [hwrites.whole hok]
    exact hcarried.again hpart
  · obtain ⟨part', hpart', hsent'⟩ := hwrites.part
    rw [hsent']
    exact .again hcarried hpart hpart'

theorem sendCommand_requests (h : c.isConnected = true) (hhas : Has before sent done c)
    (cmd : List UInt8) : Requests before sent done cmd (c.sendCommand cmd) := by
  have hfirst := attempt_requests h hhas cmd
  have hends := attempt_ends h cmd
  have hwrites := attempt_writes c cmd
  have hkept := attempt_past c cmd
  obtain ⟨past, hpast, hcarried⟩ := hhas
  rw [sendCommand]
  generalize c.attempt cmd = r at hfirst hends hwrites hkept ⊢
  obtain ⟨c₁, e | _⟩ := r
  · rcases hends.stop e rfl with (rfl | rfl | rfl) | ⟨message, rfl⟩
    · exact hfirst
    · exact hfirst
    · exact hfirst
    · cases hconnected : c₁.isConnected with
      | true =>
          -- The connection is still open, and `connectToWatchman` does not expect that.
          simp only [Result.rescue, connectToWatchman, hconnected, if_true, Result.andThen]
          exact ⟨nofun, fun _ _ ↦ hfirst.stopped _ rfl⟩
      | false =>
          have hopens := connectToWatchman_opens hconnected
          obtain ⟨part, hpart, hsent⟩ := hwrites.part
          simp only [Result.rescue]
          generalize c₁.connectToWatchman = r at hopens ⊢
          obtain ⟨c₂, e | _⟩ := r
          · obtain ⟨⟨-, hpast₂, hsent₂⟩, -⟩ := hopens.closed e rfl
            refine ⟨nofun, fun _ _ ↦ ?_⟩
            obtain ⟨past', hpast', hstopped⟩ := hfirst.stopped _ rfl
            exact ⟨past', hpast₂.trans hpast', hsent₂ ▸ hstopped⟩
          · obtain ⟨hopen, hpast₂, hnothing⟩ := hopens.opened rfl
            refine attempt_again hopen hcarried hpart ?_ hnothing
            have hfirstPast : c₁.past = before ++ past := hkept.trans hpast
            have hfirstSent : c₁.sent = c.sent ++ part := hsent
            rw [hpast₂, hfirstPast, hfirstSent, List.append_assoc]
  · exact hfirst

theorem request_requests (h : c.isConnected = true) (hhas : Has before sent done c)
    (cmd : List UInt8) : Requests before sent done cmd (c.request cmd) := by
  rw [request, ensureConnected, if_pos h]
  exact sendCommand_requests h hhas cmd

/-- By induction on the list of commands. -/
theorem requests_carried (h : c.isConnected = true) (hhas : Has before sent done c)
    (cmds : List (List UInt8)) :
    ((forNodes request cmds c).2 = .ok () → (forNodes request cmds c).1.isConnected = true ∧
      Has before sent (done ++ cmds) (forNodes request cmds c).1) ∧
    ∀ e, (forNodes request cmds c).2 = .error e → ∃ front cmd rest past,
      cmds = front ++ cmd :: rest ∧ (forNodes request cmds c).1.past = before ++ past ∧
      Stopped sent (done ++ front) cmd past (forNodes request cmds c).1.sent := by
  induction cmds generalizing c done with
  | nil =>
      refine ⟨fun _ ↦ ⟨h, ?_⟩, nofun⟩
      rw [List.append_nil]
      exact hhas
  | cons cmd cmds ih =>
      have hrequest := request_requests h hhas cmd
      rw [forNodes]
      generalize c.request cmd = r at hrequest ⊢
      obtain ⟨c₁, e | _⟩ := r
      · refine ⟨nofun, fun e' he ↦ ?_⟩
        obtain ⟨past, hpast, hstopped⟩ := hrequest.stopped e rfl
        refine ⟨[], cmd, cmds, past, rfl, hpast, ?_⟩
        rw [List.append_nil]
        exact hstopped
      · obtain ⟨hconnected, hhas'⟩ := hrequest.returned rfl
        obtain ⟨hok, herror⟩ := ih hconnected hhas'
        rw [List.append_assoc, List.singleton_append] at hok
        refine ⟨hok, fun e he ↦ ?_⟩
        obtain ⟨front, cmd', rest, past, rfl, hpast, hstopped⟩ := herror e he
        rw [List.append_assoc, List.singleton_append] at hstopped
        exact ⟨cmd :: front, cmd', rest, past, rfl, hpast, hstopped⟩

theorem forNodes_map {ν : Type*} (f : ν → List UInt8) (nodes : List ν) (c : Client) :
    forNodes (fun n ↦ request (f n)) nodes c = forNodes request (nodes.map f) c := by
  induction nodes generalizing c with
  | nil => rfl
  | cons n nodes ih =>
      have hrest : forNodes (fun n ↦ request (f n)) nodes = forNodes request (nodes.map f) :=
        funext ih
      rw [List.map_cons, forNodes, forNodes, hrest]

/-- The commands of `watchGraph`. -/
def triggers (workingDirectory : List UInt8) (nodes : List (List UInt8 × ℕ)) :
    List (List UInt8) :=
  nodes.map fun n ↦ triggerCommand workingDirectory n.1 n.2

theorem watchGraph_eq (workingDirectory : List UInt8) (nodes : List (List UInt8 × ℕ)) (c : Client) :
    c.watchGraph workingDirectory nodes =
      c.ensureConnected.andThen (forNodes request (triggers workingDirectory nodes)) := by
  rw [watchGraph]
  congr 1
  funext c
  exact forNodes_map _ nodes c

/-- The connections before the one over which the first command goes. -/
def connectionsBefore (c : Client) : List (List UInt8) :=
  if c.isConnected then c.past else c.past ++ [c.sent]

/-- What has been written over the connection before the first command. -/
def writtenBefore (c : Client) : List UInt8 := if c.isConnected then c.sent else []

/-- Whatever the system calls return and whatever watchman answers: a call that returns has
written the commands of all nodes in turn, each as a whole, and what else has gone over the
connections is the part of a command in front of the failure of each.  A call that does
not return has done so with the commands in front of one of the nodes, or there was no
connection and none could be opened. -/
theorem watchGraph_carried (workingDirectory : List UInt8) (nodes : List (List UInt8 × ℕ))
    (c : Client) :
    ((c.watchGraph workingDirectory nodes).2 = .ok () →
      (c.watchGraph workingDirectory nodes).1.isConnected = true ∧
      ∃ past, (c.watchGraph workingDirectory nodes).1.past = c.connectionsBefore ++ past ∧
        Carried c.writtenBefore (triggers workingDirectory nodes) past
          (c.watchGraph workingDirectory nodes).1.sent) ∧
    ∀ e, (c.watchGraph workingDirectory nodes).2 = .error e →
      (c.isConnected = false ∧ (c.watchGraph workingDirectory nodes).1.past = c.past ∧
        (c.watchGraph workingDirectory nodes).1.sent = c.sent) ∨
      ∃ front cmd rest past, triggers workingDirectory nodes = front ++ cmd :: rest ∧
        (c.watchGraph workingDirectory nodes).1.past = c.connectionsBefore ++ past ∧
        Stopped c.writtenBefore front cmd past (c.watchGraph workingDirectory nodes).1.sent := by
  have hrun : ∀ c' : Client, c'.past = c.connectionsBefore → c'.sent = c.writtenBefore →
      Has c.connectionsBefore c.writtenBefore [] c' := by
    intro c' hpast hsent
    refine ⟨[], by rw [hpast, List.append_nil], ?_⟩
    rw [hsent]
    exact .start
  rw [watchGraph_eq, ensureConnected]
  cases hconnected : c.isConnected with
  | true =>
      have hhas := hrun c (if_pos hconnected).symm (if_pos hconnected).symm
      obtain ⟨hok, herror⟩ := requests_carried hconnected hhas (triggers workingDirectory nodes)
      exact ⟨hok, fun e he ↦ Or.inr (herror e he)⟩
  | false =>
      have hopens := connectToWatchman_opens hconnected
      simp only [Bool.false_eq_true, if_false]
      generalize c.connectToWatchman = r at hopens ⊢
      obtain ⟨c₁, e | _⟩ := r
      · exact ⟨nofun, fun _ _ ↦ Or.inl ⟨trivial, (hopens.closed e rfl).1.2⟩⟩
      · obtain ⟨hopen, hpast, hsent⟩ := hopens.opened rfl
        have hhas := hrun c₁ (hpast.trans (if_neg (by simp [hconnected])).symm)
          (hsent.trans (if_neg (by simp [hconnected])).symm)
        obtain ⟨hok, herror⟩ := requests_carried hopen hhas (triggers workingDirectory nodes)
        exact ⟨hok, fun e he ↦ Or.inr (herror e he)⟩

end Sent

end Client

end Watchman

end Falcon
