import Falcon.Build.Builder
import Falcon.Lib.ByteString

/-!
# The stream server

`StreamServer` sends the output of builds to its clients.  Every build has a
buffer that grows, and every client a position in the buffer of its build.
-/

namespace Falcon

def BuildResult.toString : BuildResult → String
  | .unknown => "UNKNOWN"
  | .succeeded => "SUCCEEDED"
  | .interrupted => "INTERRUPTED"
  | .failed => "FAILED"

def SubProcessExitStatus.toString : SubProcessExitStatus → String
  | .unknown => "UNKNOWN"
  | .succeeded => "SUCCEEDED"
  | .interrupted => "INTERRUPTED"
  | .failed => "FAILED"

namespace StreamServer

/-- `address` tells the elements of the list of builds apart, as iterators do. -/
structure BuildInfo where
  address : ℕ
  id : ℕ
  buf : List UInt8
  refcount : ℕ
  buildCompleted : Bool
  firstChunk : Bool
  deriving DecidableEq

/-- `itBuild` is `none` for the end of the list of builds. -/
structure ClientInfo where
  itBuild : Option ℕ
  bufPtr : ℕ
  isWaiting : Bool
  deriving DecidableEq

end StreamServer

open StreamServer in
/-- The current build stands in front of `builds`; a client is named by its
file descriptor. -/
structure StreamServer where
  builds : List BuildInfo
  map : List (ℕ × ClientInfo)
  fds : List ℕ
  waiting : List ℕ
  nextAddress : ℕ

namespace StreamServer

def create : StreamServer := ⟨[], [], [], [], 0⟩

/-- Change the build in front. -/
def updateFront (s : StreamServer) (f : BuildInfo → BuildInfo) : Outcome StreamServer :=
  match s.builds with
  | [] => .error (.assertion .someBuild)
  | b :: bs => pure { s with builds := f b :: bs }

def updateClient (s : StreamServer) (fd : ℕ) (f : ClientInfo → ClientInfo) : StreamServer :=
  { s with map := s.map.map fun c ↦ if c.1 = fd then (c.1, f c.2) else c }

def writeBuf (str : List UInt8) (s : StreamServer) : Outcome StreamServer :=
  s.updateFront fun b ↦ { b with buf := b.buf ++ str }

def escapeJson (buf : List UInt8) : List UInt8 :=
  buf.flatMap fun c ↦
    if c = 34 || c = 92 then [92, c] else if c = 10 then [92, 110] else [c]

/-- A client in the waiting list has something to read again. -/
def flushClient (s : StreamServer) (fd : ℕ) : Outcome StreamServer :=
  match s.map.lookup fd, s.builds with
  | none, _ => .error (.assertion .clientKnown)
  | some _, [] => .error (.assertion .ongoingBuild)
  | some info, front :: bs =>
    let s := { s.updateClient fd ({ · with isWaiting := false }) with fds := fd :: s.fds }
    match info.itBuild with
    | none => pure { s.updateClient fd ({ · with itBuild := some front.address }) with
        builds := { front with refcount := front.refcount + 1 } :: bs }
    | some address => do
      assert (address = front.address) .waitingForCurrentBuild
      pure s

def flushWaiting (s : StreamServer) : Outcome StreamServer :=
  match s.builds with
  | [] => .error (.assertion .ongoingBuild)
  | front :: _ => do
    assert (!front.buildCompleted && front.buf ≠ []) .ongoingBuild
    let s ← s.waiting.foldlM flushClient s
    pure { s with waiting := [] }

def removeBuild (s : StreamServer) (b : BuildInfo) : Outcome StreamServer := do
  assert (b.refcount = 0 && b.buildCompleted) .removableBuild
  pure { s with builds := s.builds.filter fun x ↦ x.address ≠ b.address }

/-- `newBuild` drops the previous build if nobody reads it any more. -/
def dropPrevious (s : StreamServer) : Outcome StreamServer :=
  match s.builds with
  | [] => pure s
  | front :: _ => do
    assert front.buildCompleted .previousBuildCompleted
    if front.refcount = 0 then s.removeBuild front else pure s

def pushBuild (buildId : ℕ) (s : StreamServer) : StreamServer :=
  { s with
    builds := ⟨s.nextAddress, buildId, [], 0, false, true⟩ :: s.builds
    nextAddress := s.nextAddress + 1 }

def newBuild (buildId : ℕ) (s : StreamServer) : Outcome StreamServer := do
  let s ← s.dropPrevious
  let s ← writeBuf (bytes ("\x7b\n  \"id\": " ++ toString buildId ++ ",\n  \"cmds\": [\n"))
    (s.pushBuild buildId)
  s.flushWaiting

def endBuild (result : BuildResult) (s : StreamServer) : Outcome StreamServer := do
  match s.builds with
  | [] => .error (.assertion .ongoingBuild)
  | front :: _ => do
    assert (!front.buildCompleted) .ongoingBuild
    let s ← writeBuf (bytes ("\n  ],\n  \"result\": \"" ++ result.toString ++ "\"\n\x7d\n")) s
    let s ← s.flushWaiting
    s.updateFront ({ · with buildCompleted := true })

/-- The comma between two chunks. -/
def nextChunk (s : StreamServer) : Outcome StreamServer :=
  s.updateFront fun b ↦
    if b.firstChunk then { b with firstChunk := false } else { b with buf := b.buf ++ bytes ",\n" }

def newCommand (cmdId : ℕ) (cmd : String) (s : StreamServer) : Outcome StreamServer := do
  let s ← s.nextChunk
  let s ← writeBuf (bytes ("    \x7b \"id\": " ++ toString cmdId ++ ", \"cmd\": \"") ++
    escapeJson (bytes cmd) ++ bytes "\" \x7d") s
  s.flushWaiting

def writeCmdOutput (cmdId : ℕ) (buf : List UInt8) (isStdout : Bool) (s : StreamServer) :
    Outcome StreamServer := do
  assert (s.builds.head?.any fun b ↦ !b.firstChunk) .notFirstChunk
  let s ← writeBuf (bytes (",\n    \x7b \"id\": " ++ toString cmdId ++
    (if isStdout then ", \"stdout\": \"" else ", \"stderr\": \"")) ++
    escapeJson buf ++ bytes "\" \x7d") s
  s.flushWaiting

def writeStdout (cmdId : ℕ) (buf : List UInt8) : StreamServer → Outcome StreamServer :=
  writeCmdOutput cmdId buf true

def writeStderr (cmdId : ℕ) (buf : List UInt8) : StreamServer → Outcome StreamServer :=
  writeCmdOutput cmdId buf false

def endCommand (cmdId : ℕ) (status : SubProcessExitStatus) (s : StreamServer) :
    Outcome StreamServer := do
  let s ← writeBuf (bytes (",\n    \x7b \"id\": " ++ toString cmdId ++ ", \"status\": \"" ++
    status.toString ++ "\" \x7d")) s
  s.flushWaiting

def cacheRetrieveAction (path : String) (s : StreamServer) : Outcome StreamServer := do
  let s ← s.nextChunk
  let s ← writeBuf (bytes ("    \x7b \"cache\": \"" ++ path ++ "\" \x7d")) s
  s.flushWaiting

/-- The client reads the last build, or waits for the first one. -/
def createClient (fd : ℕ) (s : StreamServer) : StreamServer :=
  let isWaiting := s.builds.head?.all fun b ↦ b.buf = []
  let s := if isWaiting then { s with waiting := fd :: s.waiting }
    else { s with fds := fd :: s.fds }
  { s with
    builds := match s.builds with
      | [] => []
      | front :: bs => { front with refcount := front.refcount + 1 } :: bs
    map := (fd, ⟨s.builds.head?.map (·.address), 0, isWaiting⟩) ::
      s.map.filter fun c ↦ c.1 ≠ fd }

/-- The build of the client loses a reader. -/
def releaseBuild (s : StreamServer) (address : ℕ) : Outcome StreamServer :=
  match s.builds.find? fun b ↦ b.address = address with
  | none => .error .nullDereference
  | some b =>
    let b := { b with refcount := b.refcount - 1 }
    let s := { s with builds := s.builds.map fun x ↦ if x.address = address then b else x }
    if b.refcount = 0 && b.buildCompleted && s.builds.head?.map (·.address) ≠ some address then
      s.removeBuild b
    else pure s

def closeClient (s : StreamServer) (fd : ℕ) : Outcome StreamServer :=
  match s.map.lookup fd with
  | none => .error (.assertion .clientKnown)
  | some info =>
    match info.itBuild with
    | none => .error (.assertion .clientHasBuild)
    | some address => do
      let s ← s.releaseBuild address
      pure { s with fds := s.fds.erase fd, map := s.map.filter fun c ↦ c.1 ≠ fd }

/-- `send` transfers at least one byte, or fails with `EAGAIN` or another error.
The count is one more than the field, and at most what was asked for. -/
inductive SendResult where
  | sent (more : ℕ)
  | again
  | failed
  deriving DecidableEq

/-- The loop of `processClient`.  The local pointer stays at `start`, while
`info.bufPtr` and `bufSize` move on.  The result is the new `info.bufPtr`, the
bytes handed to the socket, and the send that has ended the loop, if any. -/
def sendLoop (buf : List UInt8) (start : ℕ) (results : ℕ → SendResult) :
    ℕ → ℕ → ℕ → ℕ → List UInt8 → Outcome (ℕ × List UInt8 × Option SendResult)
  | 0, _, _, _, _ => .error .outOfFuel
  | fuel + 1, i, bufPtr, bufSize, handed =>
    match results i with
    | .sent more =>
      let r := min (more + 1) bufSize
      let handed := handed ++ (buf.drop start).take r
      if bufPtr + r < buf.length then
        sendLoop buf start results fuel (i + 1) (bufPtr + r) (bufSize - r) handed
      else pure (bufPtr + r, handed, none)
    | .again => pure (bufPtr, handed, some .again)
    | .failed => pure (bufPtr, handed, some .failed)

/-- Everything has been sent: the client leaves, or waits for more. -/
def drained (s : StreamServer) (fd : ℕ) (buildCompleted : Bool) : Outcome StreamServer :=
  if buildCompleted then s.closeClient fd
  else pure { s.updateClient fd ({ · with isWaiting := true }) with
    fds := s.fds.erase fd, waiting := fd :: s.waiting }

/-- The client, its build and what is left of the buffer, as `processClient`
finds them. -/
def clientData (s : StreamServer) (fd : ℕ) : Outcome (ClientInfo × BuildInfo) :=
  match s.map.lookup fd with
  | none => .error (.assertion .clientKnown)
  | some info =>
    match info.itBuild with
    | none => .error (.assertion .clientHasBuild)
    | some address =>
      match s.builds.find? fun b ↦ b.address = address with
      | none => .error .nullDereference
      | some b => do
        assert (info.bufPtr < b.buf.length) .clientHasData
        pure (info, b)

/-- `processClient`, with the bytes it hands to the socket. -/
def processClient (s : StreamServer) (fd : ℕ) (results : ℕ → SendResult) :
    Outcome (List UInt8 × StreamServer) := do
  let (info, b) ← s.clientData fd
  let (bufPtr, handed, last) ← sendLoop b.buf info.bufPtr results b.buf.length 0 info.bufPtr
    (b.buf.length - info.bufPtr) []
  let s := s.updateClient fd ({ · with bufPtr := bufPtr })
  match last with
  | none => do
    let s ← s.drained fd b.buildCompleted
    pure (handed, s)
  | some .failed => do
    let s ← s.closeClient fd
    pure (handed, s)
  | some _ => pure (handed, s)

end StreamServer

end Falcon
