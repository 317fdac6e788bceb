import Falcon.Lib.ByteString
import Falcon.Lib.Feed
import Falcon.Lib.Loop
import Falcon.Lib.Overwrite

/-!
# The depfile parser

`DepfileParser::Parse` is a scanner that re2c has generated.  It takes the
escapes out of the names in place, so the names it returns are pieces of the
content that it has changed.  Characters are signed, and a content is shorter
than `int` can count.
-/

namespace Falcon

namespace DepfileParser

/-- What the scanner must never do to its memory. -/
inductive ScanFault where
  | outOfBounds
  | tableIndex
  | outOfFuel
  deriving DecidableEq

/-! ## Characters -/

/-- Where the scanner goes on for the first character of a span. -/
inductive Start where
  | yy4
  | yy5
  | yy7
  | yy9
  | backslash
  deriving DecidableEq

def start (yych : Int8) : Start :=
  if yych ≤ 61 then
    if yych ≤ 36 then
      if yych ≤ 32 then
        if yych ≤ 0 then .yy7 else .yy9
      else if yych ≤ 33 then .yy5
      else if yych ≤ 35 then .yy9
      else .yy4
    else if yych ≤ 42 then
      if yych ≤ 39 then .yy9
      else if yych ≤ 41 then .yy5
      else .yy9
    else if yych ≤ 58 then .yy5
    else if yych ≤ 60 then .yy9
    else .yy5
  else if yych ≤ 94 then
    if yych ≤ 90 then
      if yych ≤ 63 then .yy9 else .yy5
    else if yych ≠ 92 then .yy9
    else .backslash
  else if yych ≤ 122 then
    if yych = 96 then .yy9 else .yy5
  else if yych = 126 then .yy5
  else .yy9

/-- Where the scanner goes on for the character behind a backslash. -/
inductive Escape where
  | yy3
  | yy14
  | yy16
  deriving DecidableEq

def escape (yych : Int8) : Escape :=
  if yych ≤ 35 then
    if yych ≤ 10 then
      if yych ≤ 0 then .yy3
      else if yych ≤ 9 then .yy14
      else .yy3
    else if yych = 32 then .yy16
    else if yych ≤ 34 then .yy14
    else .yy16
  else if yych ≤ 90 then
    if yych = 42 then .yy16 else .yy14
  else if yych ≤ 92 then .yy16
  else if yych = 124 then .yy16
  else .yy14

/-- `yybm`, whose second half is zero. -/
def yybm : List UInt8 := [
  0, 0, 0, 0, 0, 0, 0, 0,
  0, 0, 0, 0, 0, 0, 0, 0,
  0, 0, 0, 0, 0, 0, 0, 0,
  0, 0, 0, 0, 0, 0, 0, 0,
  0, 128, 0, 0, 0, 0, 0, 0,
  128, 128, 0, 128, 128, 128, 128, 128,
  128, 128, 128, 128, 128, 128, 128, 128,
  128, 128, 128, 0, 0, 128, 0, 0,
  128, 128, 128, 128, 128, 128, 128, 128,
  128, 128, 128, 128, 128, 128, 128, 128,
  128, 128, 128, 128, 128, 128, 128, 128,
  128, 128, 128, 0, 0, 0, 0, 128,
  0, 128, 128, 128, 128, 128, 128, 128,
  128, 128, 128, 128, 128, 128, 128, 128,
  128, 128, 128, 128, 128, 128, 128, 128,
  128, 128, 128, 0, 0, 0, 128, 0
] ++ List.replicate 128 0

/-- A read of `yybm[0 + yych]`. -/
def tableEntry (yych : Int8) : Except ScanFault UInt8 :=
  if yych < 0 then .error .tableIndex else .ok (yybm.getD yych.toInt.toNat 0)

/-! ## Spans -/

/-- The content with the positions `in` and `out`. -/
structure Scan where
  content : List UInt8
  inPos : ℕ
  outPos : ℕ

namespace Scan

/-- `*in` at the position `i`; behind the content there is a zero byte. -/
def read (s : Scan) (i : ℕ) : Except ScanFault UInt8 :=
  if i < s.content.length then .ok (s.content.getD i 0)
  else if i = s.content.length then .ok 0
  else .error .outOfBounds

/-- `*out++ = c` for each byte of `new`. -/
def put (s : Scan) (new : List UInt8) : Except ScanFault Scan :=
  if s.outPos + new.length ≤ s.content.length then
    .ok { s with
      content := Lib.overwrite s.content s.outPos new, outPos := s.outPos + new.length }
  else .error .outOfBounds

/-- The labels `yy10` and `yy11`: the position behind the characters of the table,
from the position `i` on. -/
def plainEnd (i : ℕ) : List UInt8 → Except ScanFault ℕ
  | [] => do
    let _ ← tableEntry 0
    pure i
  | c :: rest => do
    let entry ← tableEntry c.toInt8
    if entry &&& 128 ≠ 0 then plainEnd (i + 1) rest else pure i

/-- The label `yy6`: the span from `start` to `in` is shifted over the backslashes
that have been taken out in front of it. -/
def shift (s : Scan) (start : ℕ) : Except ScanFault Scan :=
  let len := s.inPos - start
  if s.outPos < start then s.put (Lib.slice s.content start len)
  else .ok { s with outPos := s.outPos + len }

/-- Behind a backslash, up to the next character. -/
def escaped (s : Scan) (yych : UInt8) : Except ScanFault (Bool × Scan) :=
  match escape yych.toInt8 with
  | .yy3 => pure (true, { s with inPos := s.inPos + 1 })
  | .yy14 => do
    let s ← { s with inPos := s.inPos + 2 }.put [0x5c, yych]
    pure (false, s)
  | .yy16 => do
    let s ← { s with inPos := s.inPos + 2 }.put [yych]
    pure (false, s)

/-- The body of the inner loop; `true` if it is left. -/
def span (s : Scan) : Except ScanFault (Bool × Scan) := do
  let yych ← s.read s.inPos
  match DepfileParser.start yych.toInt8 with
  | .yy4 => do
    let yych ← s.read (s.inPos + 1)
    if yych = 0x24 then do
      let s ← { s with inPos := s.inPos + 2 }.put [0x24]
      pure (false, s)
    else pure (true, { s with inPos := s.inPos + 1 })
  | .yy5 => do
    let stop ← plainEnd (s.inPos + 1) (s.content.drop (s.inPos + 1))
    let s ← { s with inPos := stop }.shift s.inPos
    pure (false, s)
  | .yy7 | .yy9 => pure (true, { s with inPos := s.inPos + 1 })
  | .backslash => do
    let yych ← s.read (s.inPos + 1)
    s.escaped yych

/-- The inner loop. -/
def filename : ℕ → Scan → Except ScanFault Scan
  | 0, _ => .error .outOfFuel
  | fuel + 1, s => do
    let (left, s) ← s.span
    if left then pure s else filename fuel s

end Scan

/-! ## Names -/

/-- `StringPiece`, a position in the content and a length. -/
structure StringPiece where
  str : ℕ
  len : ℕ

def StringPiece.asString (content : List UInt8) (p : StringPiece) : List UInt8 :=
  Lib.slice content p.str p.len

/-- The content and what has been found in it: `out_` is `none` for a null
pointer. -/
structure Pieces where
  content : List UInt8
  inPos : ℕ
  parsingTargets : Bool
  out : Option StringPiece
  ins : List StringPiece

def multipleOutputs : String := "depfile has multiple output paths."

/-- A name that has been found, if it is not empty. -/
def keepPiece (p : Pieces) (isTarget : Bool) (name : StringPiece) : Except String Pieces :=
  if name.len = 0 then .ok p
  else if !isTarget then .ok { p with ins := p.ins ++ [name] }
  else match p.out with
    | none => .ok { p with out := some name }
    | some out =>
      if out.asString p.content ≠ name.asString p.content then .error multipleOutputs else .ok p

/-- The tail of the outer loop, for the characters from `filename` to `out`. -/
def addFilename (p : Pieces) (filename : ℕ) (s : Scan) : Except String Pieces :=
  let len := s.outPos - filename
  let isTarget := p.parsingTargets
  let colon := decide (0 < len) && s.content.getD (filename + len - 1) 0 = 0x3a
  let p := { p with
    content := s.content, inPos := s.inPos
    parsingTargets := if colon then false else p.parsingTargets }
  keepPiece p isTarget ⟨filename, if colon then len - 1 else len⟩

/-- The outer loop. -/
def parseLoop : ℕ → Pieces → Except ScanFault (Except String Pieces)
  | 0, _ => .error .outOfFuel
  | fuel + 1, p =>
    if p.inPos < p.content.length then do
      let s ← Scan.filename (p.content.length + 2) ⟨p.content, p.inPos, p.inPos⟩
      match addFilename p p.inPos s with
      | .error err => pure (.error err)
      | .ok p => parseLoop fuel p
    else pure (.ok p)

/-- `DepfileParser::Parse`, with the error text if it returns false. -/
def parse (content : List UInt8) : Except ScanFault (Except String Pieces) :=
  parseLoop (content.length + 1) ⟨content, 0, true, none, []⟩

/-- What a caller reads through the pieces. -/
def Pieces.names (p : Pieces) : Option (List UInt8) × List (List UInt8) :=
  (p.out.map (·.asString p.content), p.ins.map (·.asString p.content))

/-- `Parse` as `Depfile::load` calls it; a null pointer is an empty output. -/
def parseDepfile (content : String) : Option (String × List String) :=
  match parse (bytes content) with
  | .ok (.ok p) => some (byteString (p.names.1.getD []), p.names.2.map byteString)
  | _ => none

end DepfileParser

end Falcon
