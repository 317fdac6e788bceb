import Falcon.Build.ThreadWrites
import Falcon.Lib.JsonEvents

/-!
# What the client prints

`BuildOutputParser` of the client reads the document of a build from its socket, as the events
that ijson finds in it, and prints the commands and what they have written.
-/

namespace Falcon

open Lib Lib.Json Lib.JsonString

namespace BuildOutputParser

/-! ## The events -/

/-- `ijson.parse`: the events up to the end of the text, or up to an exception.  The module is
not part of the sources; this is what its documentation says about a document. -/
structure Ijson where
  parse : List UInt8 → List (List UInt8 × Json.Event) × Bool
  document : ∀ {text j evs}, Spells text (tokens j) → events [] j = some evs →
    parse text = (evs, true)

/-! ## The client -/

inductive Printed where
  | out (text : List UInt8)
  | err (text : List UInt8)
  deriving DecidableEq

structure State where
  result : List UInt8
  nbCommands : ℕ
  printed : List Printed

def State.print (s : State) (l : List Printed) : State := { s with printed := s.printed ++ l }

/-- `print value`. -/
def line (value : List UInt8) : List Printed := [.out (value ++ bytes "\n")]

/-- The value is printed in red. -/
def red (value : List UInt8) : List Printed :=
  [.err (bytes "\x1b[91m"), .err value, .err (bytes "\x1b[0m")]

def retrieving (value : List UInt8) : List Printed :=
  line (bytes "Retrieving " ++ value ++ bytes " from cache")

/-- An iteration of the loop of `parse`.  The ids are not used. -/
def onEvent (s : State) (e : List UInt8 × Json.Event) : State :=
  let (path, event) := e
  let s := if event = .startMap && path = bytes "cmds.item" then
    { s with nbCommands := s.nbCommands + 1 } else s
  match event with
  | .string value =>
    if path = bytes "cmds.item.cmd" then s.print (line value)
    else if path = bytes "cmds.item.stdout" then s.print (line value)
    else if path = bytes "cmds.item.stderr" then s.print (red value)
    else if path = bytes "result" then { s with result := value }
    else if path = bytes "cmds.item.cache" then s.print (retrieving value)
    else s
  | _ => s

/-- The result is `none` when ijson throws. -/
def parse (I : Ijson) (received : List UInt8) : Option Bool × List Printed :=
  let (evs, complete) := I.parse received
  let s := evs.foldl onEvent ⟨[], 0, []⟩
  if !complete then (none, s.printed)
  else if s.result ≠ bytes "SUCCEEDED" then (some false, s.printed)
  else if s.nbCommands = 0 then (some true, s.printed ++ line (bytes "Everything is up to date."))
  else (some true, s.printed)

/-! ## The entries -/

open StreamServer

/-- What the client shows of a call. -/
def shown : Write → List Printed
  | .newCommand _ cmd => line (bytes cmd)
  | .writeStdout _ buf => line buf
  | .writeStderr _ buf => red buf
  | .cacheRetrieveAction path => retrieving (bytes path)
  | .endCommand _ _ | .newBuild _ | .endBuild _ => []

def entryPath : List (List UInt8) := [bytes "cmds", bytes "item"]

theorem decode_ascii : ∀ key ∈ ["id", "cmd", "stdout", "stderr", "status", "cache", "cmds",
    "result", "UNKNOWN", "SUCCEEDED", "INTERRUPTED", "FAILED"],
    decode (bytes key) = some (bytes key) := by
  decide +kernel

/-- A field whose value is a string. -/
theorem fieldEvents_str (path : List (List UInt8)) {body value name : List UInt8}
    {fields : List (List UInt8 × Json)} {rest : List (List UInt8 × Json.Event)} {key : List UInt8}
    (hname : decode name = some key) (hvalue : decode body = some value)
    (hrest : fieldEvents path fields = some rest) :
    fieldEvents path ((name, .str body) :: fields) =
      some ((dotted path, .mapKey key) :: (dotted (path ++ [key]), .string value) :: rest) := by
  simp [fieldEvents, events, hname, hvalue, hrest]

theorem fieldEvents_num (path : List (List UInt8)) {name key : List UInt8} {n : ℕ}
    {fields : List (List UInt8 × Json)} {rest : List (List UInt8 × Json.Event)}
    (hname : decode name = some key) (hrest : fieldEvents path fields = some rest) :
    fieldEvents path ((name, .num n) :: fields) =
      some ((dotted path, .mapKey key) :: (dotted (path ++ [key]), .number n) :: rest) := by
  simp [fieldEvents, events, hname, hrest]

/-- An entry about a command. -/
theorem events_entry {key : String} (hkey : decode (bytes key) = some (bytes key)) (cmdId : ℕ)
    {body value : List UInt8} (hvalue : decode body = some value) :
    events entryPath (.obj [(bytes "id", .num cmdId), (bytes key, .str body)]) =
      some [(bytes "cmds.item", .startMap), (bytes "cmds.item", .mapKey (bytes "id")),
        (bytes "cmds.item.id", .number cmdId), (bytes "cmds.item", .mapKey (bytes key)),
        (dotted (entryPath ++ [bytes key]), .string value), (bytes "cmds.item", .endMap)] := by
  have hid : decode (bytes "id") = some (bytes "id") := decode_ascii "id" (by simp)
  have hfields := fieldEvents_num entryPath (n := cmdId) hid
    (fieldEvents_str entryPath hkey hvalue (by rw [fieldEvents]))
  rw [events, hfields]
  rfl

theorem events_json {op : Write} (hop : op.IsChunk) (hclean : op.Clean) :
    ∃ evs, events entryPath op.json = some evs ∧ ∀ s, evs.foldl onEvent s =
      { s with nbCommands := s.nbCommands + 1, printed := s.printed ++ shown op } := by
  cases op with
  | newBuild buildId => cases hop
  | endBuild result => cases hop
  | newCommand cmdId cmd =>
      have hpayload : (Write.newCommand cmdId cmd).payload = some (bytes cmd) := rfl
      exact ⟨_, events_entry (decode_ascii "cmd" (by simp)) cmdId
        ((decode_body hpayload).mpr hclean), fun s ↦ rfl⟩
  | writeStdout cmdId buf =>
      have hpayload : (Write.writeStdout cmdId buf).payload = some buf := rfl
      exact ⟨_, events_entry (decode_ascii "stdout" (by simp)) cmdId
        ((decode_body hpayload).mpr hclean), fun s ↦ rfl⟩
  | writeStderr cmdId buf =>
      have hpayload : (Write.writeStderr cmdId buf).payload = some buf := rfl
      exact ⟨_, events_entry (decode_ascii "stderr" (by simp)) cmdId
        ((decode_body hpayload).mpr hclean), fun s ↦ rfl⟩
  | endCommand cmdId status =>
      have hstatus : decode (bytes status.toString) = some (bytes status.toString) := by
        cases status <;> exact decode_ascii _ (by simp [SubProcessExitStatus.toString])
      refine ⟨_, events_entry (decode_ascii "status" (by simp)) cmdId hstatus, fun s ↦ ?_⟩
      rw [shown, List.append_nil]
      rfl
  | cacheRetrieveAction path =>
      have hpayload : (Write.cacheRetrieveAction path).payload = some (bytes path) := rfl
      have hvalue := (decode_body hpayload).mpr hclean
      have hfields := fieldEvents_str entryPath (decode_ascii "cache" (by simp)) hvalue
        (by rw [fieldEvents])
      have hevents : events entryPath (Write.cacheRetrieveAction path).json = some
          [(bytes "cmds.item", .startMap), (bytes "cmds.item", .mapKey (bytes "cache")),
            (dotted (entryPath ++ [bytes "cache"]), .string (bytes path)),
            (bytes "cmds.item", .endMap)] := by
        change events entryPath (.obj [(bytes "cache", .str (bytes path))]) = _
        have hfield : fieldEvents entryPath [(bytes "cache", .str (bytes path))] = _ := hfields
        rw [events, hfield]
        rfl
      exact ⟨_, hevents, fun s ↦ rfl⟩

/-! ## The document -/

theorem itemEvents_json {ops : List Write} (hops : ∀ op ∈ ops, op.IsChunk)
    (hclean : ∀ op ∈ ops, op.Clean) :
    ∃ evs, itemEvents [bytes "cmds"] (ops.map Write.json) = some evs ∧ ∀ s, evs.foldl onEvent s =
      { s with
        nbCommands := s.nbCommands + ops.length
        printed := s.printed ++ ops.flatMap shown } := by
  induction ops with
  | nil => exact ⟨[], by rw [List.map_nil, itemEvents], fun s ↦ by simp⟩
  | cons op ops ih =>
      obtain ⟨evs, hevs, hfold⟩ :=
        events_json (hops op List.mem_cons_self) (hclean op List.mem_cons_self)
      obtain ⟨rest, hrest, hfold'⟩ := ih (fun o ho ↦ hops o (List.mem_cons_of_mem op ho))
        fun o ho ↦ hclean o (List.mem_cons_of_mem op ho)
      refine ⟨evs ++ rest, ?_, fun s ↦ ?_⟩
      · have hitem : events ([bytes "cmds"] ++ [utf8 "item".toList]) op.json = some evs := hevs
        rw [List.map_cons, itemEvents, hitem, hrest]
        rfl
      · rw [List.foldl_append, hfold, hfold', List.flatMap_cons, List.length_cons,
          List.append_assoc]
        simp only [Nat.add_assoc, Nat.add_comm 1]

/-- The events of a document with the events of its entries. -/
def documentEvents (buildId : ℕ) (items : List (List UInt8 × Json.Event)) (result : List UInt8) :
    List (List UInt8 × Json.Event) :=
  ([], .startMap) :: ([], .mapKey (bytes "id")) :: (bytes "id", .number buildId) ::
    ([], .mapKey (bytes "cmds")) :: (bytes "cmds", .startArray) :: (items ++
      [(bytes "cmds", .endArray), ([], .mapKey (bytes "result")),
        (bytes "result", .string result), ([], .endMap)])

theorem events_document {ops : List Write} {items : List (List UInt8 × Json.Event)}
    (hitems : itemEvents [bytes "cmds"] (ops.map Write.json) = some items) (buildId : ℕ)
    (result : BuildResult) : events [] (document buildId ops result) =
      some (documentEvents buildId items (bytes result.toString)) := by
  have hresult : decode (bytes result.toString) = some (bytes result.toString) := by
    cases result <;> exact decode_ascii _ (by simp [BuildResult.toString])
  have hlast := fieldEvents_str [] (decode_ascii "result" (by simp)) hresult
    (by rw [fieldEvents])
  have harr : events [bytes "cmds"] (.arr (ops.map Write.json)) =
      some ((bytes "cmds", .startArray) :: items ++ [(bytes "cmds", .endArray)]) := by
    rw [events, hitems]
    rfl
  have hcmds : fieldEvents [] [(bytes "cmds", .arr (ops.map Write.json)),
      (bytes "result", .str (bytes result.toString))] = some
      (([], .mapKey (bytes "cmds")) :: ((bytes "cmds", .startArray) :: items ++
        [(bytes "cmds", .endArray)]) ++ [([], .mapKey (bytes "result")),
        (bytes "result", .string (bytes result.toString))]) := by
    rw [fieldEvents, decode_ascii "cmds" (by simp)]
    simp only [Option.bind_eq_bind, Option.bind_some, List.nil_append]
    rw [harr, hlast]
    rfl
  have hfields := fieldEvents_num [] (n := buildId) (decode_ascii "id" (by simp)) hcmds
  rw [document, events, hfields, documentEvents]
  simp [dotted]

/-- What the client makes of the document of a build. -/
theorem parse_document (I : Ijson) {ops : List Write} (hops : ∀ op ∈ ops, op.IsChunk)
    (hclean : ∀ op ∈ ops, op.Clean) {text : List UInt8} {buildId : ℕ} {result : BuildResult}
    (htext : Spells text (tokens (document buildId ops result))) :
    parse I text = (some (decide (result = .succeeded)), ops.flatMap shown ++
      if result = .succeeded ∧ ops = [] then line (bytes "Everything is up to date.") else []) := by
  obtain ⟨items, hitems, hfold⟩ := itemEvents_json hops hclean
  have hread := I.document htext (events_document hitems buildId result)
  have hstate : (documentEvents buildId items (bytes result.toString)).foldl onEvent ⟨[], 0, []⟩ =
      ⟨bytes result.toString, ops.length, ops.flatMap shown⟩ := by
    have hfold' := hfold ⟨[], 0, []⟩
    simp only [Nat.zero_add, List.nil_append] at hfold'
    rw [documentEvents, List.foldl_cons, List.foldl_cons, List.foldl_cons, List.foldl_cons,
      List.foldl_cons, List.foldl_append]
    change List.foldl onEvent (List.foldl onEvent ⟨[], 0, []⟩ items) _ = _
    rw [hfold']
    rfl
  rw [parse, hread]
  simp only [hstate]
  have hname : bytes result.toString ≠ bytes "SUCCEEDED" ↔ result ≠ .succeeded := by
    cases result <;> decide
  rw [if_neg (by decide)]
  by_cases hresult : result = .succeeded
  · rw [if_neg (hname.not.mpr (not_not.mpr hresult)), decide_eq_true hresult]
    by_cases hnil : ops = []
    · rw [if_pos (List.length_eq_zero_iff.mpr hnil), if_pos ⟨hresult, hnil⟩]
    · rw [if_neg (mt List.length_eq_zero_iff.mp hnil), if_neg fun h ↦ hnil h.2, List.append_nil]
  · rw [if_pos (hname.mpr hresult), decide_eq_false hresult, if_neg fun h ↦ hresult h.1,
      List.append_nil]

/-- The client of a build whose commands and output can be escaped prints each command, what it
has written and each path fetched from the cache, in the order in which the build thread has
told them, and succeeds when the build has. -/
theorem output_of_build (I : Ijson) {ω : Type} {P : Platform ω} {g : Graph} {p : BuildPlan} {w : ω}
    {numThreads : ℕ} {writes : List Write} {cs : List (ThreadChoice ω)} {evs : List BuildEvent}
    {t : BuildThread ω} (hlazy : ∀ op ∈ writes, ∃ path, op = .cacheRetrieveAction path)
    (hfresh : Lib.Guarded BuildThread.Fresh (BuildThread.step P) cs
      (BuildThread.create g p w numThreads writes))
    (hrun : Lib.runs (BuildThread.step P) cs (BuildThread.create g p w numThreads writes) =
      .ok (evs, t))
    (hcount : (announcements t.writes).length ≤ 2 ^ 32) (hclean : ∀ op ∈ t.writes, op.Clean)
    {buildId : ℕ} {s s' : StreamServer} (hreachable : Reachable s .idle)
    (hnew : newBuild buildId s = .ok s') :
    ∃ s₁ s₂ front bs, t.writes.foldlM (fun s op ↦ StreamServer.write op s) s' = .ok s₁ ∧
      endBuild t.builder.result s₁ = .ok s₂ ∧ s₂.builds = front :: bs ∧
      parse I front.buf = (some (decide (t.builder.result = .succeeded)), t.writes.flatMap shown ++
        if t.builder.result = .succeeded ∧ t.writes = [] then
          line (bytes "Everything is up to date.") else []) := by
  have htelling := BuildThread.telling_of_run hlazy hfresh hrun hcount
  have hstart : During buildId [] s' := .start hreachable hnew
  obtain ⟨s₁, hwrites, hduring⟩ := hstart.writes htelling.told.follows
  obtain ⟨s₂, front, bs, hend, hbuilds, -, hbuf⟩ := hduring.written.endBuild t.builder.result
  refine ⟨s₁, s₂, front, bs, hwrites, hend, hbuilds, ?_⟩
  rw [hbuf]
  exact parse_document I hduring.isChunk hclean (spells_document hduring.isChunk buildId _)

/-- The events of the document that is read. -/
def ijson : Ijson where
  parse text := (readEvents text).elim ([], false) (·, true)
  document htext hevents := by
    rw [readEvents_spells htext hevents]
    rfl

theorem output_of_build_compile : ∃ (t : BuildThread Unit) (front : BuildInfo),
    t.builder.phase = .finished ∧
      parse ijson front.buf = (some true, line (bytes "cc -c main.c") ++ line (bytes "hi")) := by
  obtain ⟨evs, t, hrun, hguarded, hwrites, hphase, hresult⟩ := BuildThread.compile_run
  have hclean : ∀ op ∈ t.writes, op.Clean := by
    rw [hwrites]
    intro op hop
    rcases List.mem_cons.mp hop with rfl | hop
    · refine ⟨"cc -c main.c".toList, ?_, by simp⟩
      rw [bytes_ascii (by simp)]
      exact utf8Decode_utf8 _
    · rcases List.mem_cons.mp hop with rfl | hop
      · exact ⟨['h', 'i'], by decide +kernel, by simp⟩
      · rw [List.mem_singleton.mp hop]
        trivial
  have hcount : (announcements t.writes).length ≤ 2 ^ 32 := by
    rw [hwrites]
    decide
  have hlazy : ∀ op ∈ ([] : List Write), ∃ path, op = .cacheRetrieveAction path := by simp
  have hnew : newBuild 7 StreamServer.create = .ok _ := rfl
  obtain ⟨-, -, front, -, -, -, -, hparse⟩ :=
    output_of_build ijson hlazy hguarded hrun hcount hclean .create hnew
  rw [hresult, hwrites, if_neg (by simp), List.append_nil] at hparse
  exact ⟨t, front, hphase, hparse⟩

end BuildOutputParser

end Falcon
