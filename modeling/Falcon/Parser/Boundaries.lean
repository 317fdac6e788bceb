import Falcon.Lib.ByteString
import Falcon.Parser.Document
import Falcon.Parser.Makefile

/-!
# Read boundaries in a makefile

`processFile` reads the makefile in pieces and gives them to `JsonParser::parse`
one after the other.  `parse` passes over one of the codes of the parser: a
closing bracket that closes nothing.  The parser has stopped there, in the
middle of the piece, and goes on with the next one.
-/

namespace Falcon

namespace Libjson

/-! ## The class `JsonParser` -/

namespace JsonParser

/-- A `char` array that ends at its first zero byte. -/
def cString (s : List UInt8) : String :=
  .ofList ((s.takeWhile (· ≠ 0)).map fun ch ↦ Char.ofNat ch.toNat)

/-- The position that `json_parser_string` reports. -/
def processed : Parser → List UInt8 → ℕ
  | _, [] => 0
  | p, ch :: s =>
    match p.step ch with
    | (q, none) => processed q s + 1
    | (_, some _) => 0

/-- The message, cut off at the size of its buffer. -/
def errorText (line col : ℕ) (s : List UInt8) : String :=
  .ofList (("Error line (" ++ toString line ++ ") caracter (" ++ toString col ++ ") line (" ++
    cString s ++ ")").toList.take 255)

/-- `JsonParser::parse` -/
def parse (line : ℕ) (s : List UInt8) (p : Parser) : Outcome Parser :=
  match p.jsonParserString s with
  -- `case 0`
  | (q, none) => pure q
  -- `case 3`
  | (q, some .popEmpty) => pure q
  -- `case 7`
  | (_, some .commentNotAllowed) => .error (.exception "yaml-style comment in json not allowed")
  | (_, some .heapOverflow) => .error .heapOverflow
  | (_, some _) => .error (.exception (errorText line (processed p s) s))

/-- The loop of `processFile`, on the pieces that it reads. -/
def parseAll (line : ℕ) (p : Parser) : List (List UInt8) → Outcome Parser
  | [] => pure p
  | c :: cs => do
    let p ← parse line c p
    parseAll (line + 1) p cs

/-- `JsonParser::getDom` -/
def getDom (p : Parser) : Option Tree := p.dom.rootStructure

/-- The code at which `parse` does not throw. -/
def passes (e : JsonError) : Bool := e = .popEmpty

variable {p q : Parser} {line : ℕ} {s : List UInt8} {cs : List (List UInt8)}

theorem parse_of_none (h : Lib.feed Parser.step p s = (q, none)) (line : ℕ) :
    parse line s p = .ok q := by
  rw [parse, Parser.jsonParserString, h]
  rfl

theorem parse_of_popEmpty (h : Lib.feed Parser.step p s = (q, some .popEmpty)) (line : ℕ) :
    parse line s p = .ok q := by
  rw [parse, Parser.jsonParserString, h]
  rfl

theorem parse_of_some {e : JsonError} (h : Lib.feed Parser.step p s = (q, some e))
    (he : e ≠ .popEmpty) (line : ℕ) : ∃ f, parse line s p = .error f := by
  rw [parse, Parser.jsonParserString, h]
  cases e with
  | popEmpty => exact absurd rfl he
  | _ => exact ⟨_, rfl⟩

/-- `parseAll` is `feedChunks`, as far as it throws or not. -/
theorem parseAll_cases (line : ℕ) (p : Parser) (cs : List (List UInt8)) :
    (∃ q, Lib.feedChunks Parser.step passes p cs = (q, none) ∧ parseAll line p cs = .ok q) ∨
    ∃ q e f, Lib.feedChunks Parser.step passes p cs = (q, some e) ∧
      parseAll line p cs = .error f := by
  induction cs generalizing p line with
  | nil => exact Or.inl ⟨p, rfl, rfl⟩
  | cons c cs ih =>
      rw [parseAll]
      rcases hc : Lib.feed Parser.step p c with ⟨t, _ | e⟩
      · rw [Lib.feedChunks_cons_of_none hc, parse_of_none hc, Lib.except_ok_bind]
        exact ih (line + 1) t
      · by_cases he : e = .popEmpty
        · subst he
          rw [Lib.feedChunks_cons_of_passes hc rfl, parse_of_popEmpty hc, Lib.except_ok_bind]
          exact ih (line + 1) t
        · obtain ⟨f, hf⟩ := parse_of_some hc he line
          rw [Lib.feedChunks_cons_of_some hc (decide_eq_false he), hf]
          exact Or.inr ⟨t, e, f, rfl, rfl⟩

theorem parseAll_of_none (h : Lib.feedChunks Parser.step passes p cs = (q, none)) (line : ℕ) :
    parseAll line p cs = .ok q := by
  rcases parseAll_cases line p cs with ⟨q', hfeed, hall⟩ | ⟨q', e, f, hfeed, -⟩
  · obtain rfl : q' = q := congrArg Prod.fst (hfeed.symm.trans h)
    exact hall
  · cases hfeed.symm.trans h

theorem parseAll_of_some {e : JsonError}
    (h : Lib.feedChunks Parser.step passes p cs = (q, some e)) (line : ℕ) :
    ∃ f, parseAll line p cs = .error f := by
  rcases parseAll_cases line p cs with ⟨q', hfeed, -⟩ | ⟨q', e', f, -, hall⟩
  · cases hfeed.symm.trans h
  · exact ⟨f, hall⟩

end JsonParser

/-! ## Behind the document, chunk by chunk -/

namespace Trail

/-- A chunk is read up to its end or to a closing bracket. -/
def readChunk : Trail × ℕ → List UInt8 → Option (Trail × ℕ)
  | s, [] => some s
  | s, ch :: c =>
    if s = (.blank, 0) ∧ isClosing ch then some s
    else match read s ch with
      | none => none
      | some s => readChunk s c

/-- There is nothing but white space and comments in the chunks, in each up to
its end or to a closing bracket. -/
def Quiet (cs : List (List UInt8)) : Prop := (cs.foldlM readChunk (.blank, 0)).isSome

end Trail

namespace Outer

variable {s : Trail × ℕ} {p : Parser}

/-- The parser takes what the machine reads, and at a closing bracket it stops and
can go on. -/
theorem feed_cases (h : Outer .ok s p) (c : List UInt8) :
    (∃ s' q code, Trail.readChunk s c = some s' ∧ Lib.feed Parser.step p c = (q, code) ∧
      (code = none ∨ code = some .popEmpty) ∧ Outer .ok s' q ∧ q.dom = p.dom) ∨
    (Trail.readChunk s c = none ∧
      ∃ q e, Lib.feed Parser.step p c = (q, some e) ∧ e ≠ .popEmpty) := by
  induction c generalizing s p with
  | nil => exact Or.inl ⟨s, p, none, rfl, rfl, Or.inl rfl, h, rfl⟩
  | cons ch c ih =>
      rw [Trail.readChunk]
      by_cases hclosing : s = (.blank, 0) ∧ Trail.isClosing ch = true
      · rw [if_pos hclosing]
        obtain ⟨rfl, hch⟩ := hclosing
        exact Or.inl ⟨_, _, _, rfl, Lib.feed_cons_of_some (h.step_closing hch), Or.inr rfl,
          ⟨h.stack, h.type, h.state, h.saved, h.left⟩, rfl⟩
      · rw [if_neg hclosing]
        cases hread : Trail.read s ch with
        | none =>
            obtain ⟨q, e, hstep, he⟩ := h.step_refused hread hclosing
            exact Or.inr ⟨rfl, q, e, Lib.feed_cons_of_some hstep, he⟩
        | some s' =>
            obtain ⟨q, hstep, houter, hdom⟩ := h.step_read (Or.inr rfl) hread
            rw [Lib.feed_cons_of_none hstep, ← hdom]
            exact ih houter

/-- The chunks behind a closing bracket too many. -/
theorem feedChunks_cases (h : Outer .ok s p) (cs : List (List UInt8)) :
    (∃ s' q, cs.foldlM Trail.readChunk s = some s' ∧
      Lib.feedChunks Parser.step JsonParser.passes p cs = (q, none) ∧ q.dom = p.dom) ∨
    (cs.foldlM Trail.readChunk s = none ∧
      ∃ q e, Lib.feedChunks Parser.step JsonParser.passes p cs = (q, some e)) := by
  induction cs generalizing s p with
  | nil => exact Or.inl ⟨s, p, rfl, rfl, rfl⟩
  | cons c cs ih =>
      rw [List.foldlM_cons]
      rcases h.feed_cases c with ⟨s', q, code, hc, hfeed, hcode, houter, hdom⟩ |
        ⟨hc, q, e, hfeed, he⟩
      · have hchunk : Lib.feedChunks Parser.step JsonParser.passes p (c :: cs) =
            Lib.feedChunks Parser.step JsonParser.passes q cs := by
          rcases hcode with rfl | rfl
          · exact Lib.feedChunks_cons_of_none hfeed
          · exact Lib.feedChunks_cons_of_passes hfeed rfl
        rw [hc, hchunk, ← hdom]
        exact ih houter
      · rw [hc]
        exact Or.inr ⟨rfl, q, e, Lib.feedChunks_cons_of_some hfeed (decide_eq_false he)⟩

end Outer

/-! ## Read boundaries -/

/-- What is read does not depend on the boundaries: the chunks throw if the whole
string does, and otherwise they leave the same tree. -/
def BoundaryFree (chunks : List (List UInt8)) : Prop :=
  ((∃ f, JsonParser.parseAll 0 .create chunks = .error f) ↔
    ∃ f, JsonParser.parse 0 chunks.flatten .create = .error f) ∧
  ∀ p q, JsonParser.parseAll 0 .create chunks = .ok p →
    JsonParser.parse 0 chunks.flatten .create = .ok q → JsonParser.getDom p = JsonParser.getDom q

/-- Behind the bytes `a`, which the parser takes, the document is complete and no
comment is open, and `b` is one more closing bracket. -/
def Surplus (a : List UInt8) (b : UInt8) : Prop :=
  ∃ p : Parser, Parser.create.jsonParserString a = (p, none) ∧ p.jsonParserIsDone = true ∧
    p.state = .ok ∧ Trail.isClosing b = true

variable {chunks pre post : List (List UInt8)} {a rest : List UInt8} {b : UInt8}
  {p q : Parser} {e : JsonError}

theorem Surplus.outer (h : Surplus a b) : ∃ p, Lib.feed Parser.step Parser.create a = (p, none) ∧
    Outer .ok (.blank, 0) p ∧ Trail.isClosing b = true := by
  obtain ⟨p, hfeed, hdone, hstate, hclosing⟩ := h
  have hstack : p.stack = [] := (of_decide_eq_true hdone).1
  exact ⟨p, hfeed, (Placed.run hfeed).outer hstack hstate, hclosing⟩

theorem Surplus.of_popEmpty (hfeed : Lib.feed Parser.step Parser.create a = (p, none))
    (hstep : p.step b = (q, some .popEmpty)) : Surplus a b := by
  obtain ⟨houter, hclosing⟩ := (Placed.run hfeed).of_popEmpty hstep
  have hstate : p.state = .ok := houter.state
  have hdone : p.jsonParserIsDone = true := by
    rw [Parser.jsonParserIsDone, houter.stack, hstate]
    rfl
  exact ⟨p, hfeed, hdone, hstate, hclosing⟩

/-- Without a code, and with one at which `parse` throws, it does not matter
where the boundaries are. -/
theorem boundaryFree_of_code {code : Option JsonError}
    (hfeed : Lib.feed Parser.step Parser.create chunks.flatten = (p, code))
    (hcode : code ≠ some .popEmpty) : BoundaryFree chunks := by
  cases code with
  | none =>
      have hall : JsonParser.parseAll 0 .create chunks = .ok p :=
        JsonParser.parseAll_of_none (Lib.feedChunks_of_none hfeed) 0
      have hwhole : JsonParser.parse 0 chunks.flatten .create = .ok p :=
        JsonParser.parse_of_none hfeed 0
      rw [BoundaryFree, hall, hwhole]
      refine ⟨Iff.rfl, fun q r hq hr ↦ ?_⟩
      cases hq
      cases hr
      rfl
  | some e =>
      have he : e ≠ .popEmpty := fun heq ↦ hcode (congrArg some heq)
      obtain ⟨pre, c, post, u, rfl, hpre, hc⟩ := Lib.exists_chunk hfeed
      have hchunks : Lib.feedChunks Parser.step JsonParser.passes .create (pre ++ c :: post) =
          (p, some e) :=
        (Lib.feedChunks_append hpre).trans (Lib.feedChunks_cons_of_some hc (decide_eq_false he))
      obtain ⟨f, hall⟩ := JsonParser.parseAll_of_some hchunks 0
      obtain ⟨g, hwhole⟩ := JsonParser.parse_of_some hfeed he 0
      rw [BoundaryFree, hall, hwhole]
      refine ⟨⟨fun _ ↦ ⟨g, rfl⟩, fun _ ↦ ⟨f, rfl⟩⟩, fun q r hq _ ↦ ?_⟩
      cases hq

/-- At a closing bracket too many the rest of the string is passed over, but that
of the chunk only. -/
theorem boundaryFree_iff_quiet (h : Surplus (pre.flatten ++ a) b) :
    BoundaryFree (pre ++ (a ++ b :: rest) :: post) ↔ Trail.Quiet post := by
  obtain ⟨p, hfeed, houter, hclosing⟩ := h.outer
  have hstep := houter.step_closing hclosing
  have houter' : Outer .ok (.blank, 0) { p with buffer := [] } :=
    ⟨houter.stack, houter.type, houter.state, houter.saved, houter.left⟩
  have hwhole : JsonParser.parse 0 (pre ++ (a ++ b :: rest) :: post).flatten .create =
      .ok { p with buffer := [] } := by
    refine JsonParser.parse_of_popEmpty ?_ 0
    have hflatten : (pre ++ (a ++ b :: rest) :: post).flatten =
        (pre.flatten ++ a) ++ b :: (rest ++ post.flatten) := by simp
    rw [hflatten, Lib.feed_append_of_none hfeed]
    exact Lib.feed_cons_of_some hstep
  have hchunks : Lib.feedChunks Parser.step JsonParser.passes .create
      (pre ++ (a ++ b :: rest) :: post) =
      Lib.feedChunks Parser.step JsonParser.passes { p with buffer := [] } post := by
    rcases hpre : Lib.feed Parser.step Parser.create pre.flatten with ⟨u, _ | e⟩
    · rw [Lib.feed_append_of_none hpre] at hfeed
      have hchunk : Lib.feed Parser.step u (a ++ b :: rest) =
          ({ p with buffer := [] }, some .popEmpty) :=
        (Lib.feed_append_of_none hfeed).trans (Lib.feed_cons_of_some hstep)
      rw [Lib.feedChunks_append hpre, Lib.feedChunks_cons_of_passes hchunk rfl]
    · rw [Lib.feed_append_of_some hpre] at hfeed
      cases hfeed
  rw [Trail.Quiet, BoundaryFree, hwhole]
  rcases houter'.feedChunks_cases post with ⟨s', q, hread, hpost, hdom⟩ | ⟨hread, q, e, hpost⟩
  · rw [hread, JsonParser.parseAll_of_none (hchunks.trans hpost) 0]
    refine ⟨fun _ ↦ rfl, fun _ ↦ ⟨⟨nofun, nofun⟩, fun r t hr ht ↦ ?_⟩⟩
    cases hr
    cases ht
    exact congrArg Dom.rootStructure hdom
  · obtain ⟨f, hall⟩ := JsonParser.parseAll_of_some (hchunks.trans hpost) 0
    rw [hread, hall]
    refine ⟨fun hfree ↦ ?_, fun hsome ↦ ?_⟩
    · obtain ⟨g, hg⟩ := hfree.1.1 ⟨f, rfl⟩
      cases hg
    · cases hsome

/-- The boundaries matter if there is a closing bracket too many and something
else than white space and comments in one of the chunks behind it. -/
theorem boundaryFree_iff (chunks : List (List UInt8)) :
    BoundaryFree chunks ↔ ∀ pre a b rest post, chunks = pre ++ (a ++ b :: rest) :: post →
      Surplus (pre.flatten ++ a) b → Trail.Quiet post := by
  constructor
  · rintro hfree pre a b rest post rfl hsurplus
    exact (boundaryFree_iff_quiet hsurplus).1 hfree
  · intro hquiet
    rcases hfeed : Lib.feed Parser.step Parser.create chunks.flatten with ⟨p, code⟩
    by_cases hcode : code = some .popEmpty
    · subst hcode
      obtain ⟨pre, c, post, u, rfl, hpre, hc⟩ := Lib.exists_chunk hfeed
      obtain ⟨a, b, rest, v, rfl, ha, hstep⟩ := Lib.exists_of_feed_some hc
      have hsurplus : Surplus (pre.flatten ++ a) b :=
        Surplus.of_popEmpty ((Lib.feed_append_of_none hpre).trans ha) hstep
      exact (boundaryFree_iff_quiet hsurplus).2 (hquiet pre a b rest post rfl hsurplus)
    · exact boundaryFree_of_code hfeed hcode

/-- `{}}x` is read to the end of the document if it comes in one piece, and the
second of the pieces `{}}` and `x` is refused. -/
theorem not_boundaryFree_split : ¬ BoundaryFree [[0x7b, 0x7d, 0x7d], [0x78]] := by
  rintro ⟨hthrows, -⟩
  obtain ⟨f, hf⟩ := hthrows.1 ⟨_, rfl⟩
  cases hf

/-! ## The makefile -/

namespace Tree

mutual

/-- The value that `processJson` sees. -/
def toVal : Tree → JsonVal
  | .mk .objectBegin _ object _ => .object (toEntries object)
  | .mk .arrayBegin array _ _ => .array (toElements array)
  | .mk .string _ _ data => .string (byteString data)
  | .mk _ _ _ data => .literal (byteString data)

def toElements : List Tree → List JsonVal
  | [] => []
  | v :: array => v.toVal :: toElements array

def toEntries : List (List UInt8 × Tree) → List (String × JsonVal)
  | [] => []
  | (key, v) :: object => (byteString key, v.toVal) :: toEntries object

end

end Tree

end Libjson

namespace GraphParser

open Libjson

/-- What `ifs.read` puts into the buffer, up to the first time that it is not full. -/
def pieces (s : List UInt8) : List (List UInt8) :=
  if s.length < 4095 then [s] else s.take 4095 :: pieces (s.drop 4095)
termination_by s.length
decreasing_by
  rw [List.length_drop]
  omega

theorem flatten_pieces (s : List UInt8) : (pieces s).flatten = s := by
  fun_induction pieces s with
  | case1 s _ => exact List.append_nil s
  | case2 s _ ih => rw [List.flatten_cons, ih, List.take_append_drop]

/-- The tree that `processFile` gets from its parser. -/
def readDom (s : List UInt8) : Outcome Tree := do
  let parser ← JsonParser.parseAll 0 .create (pieces s)
  match JsonParser.getDom parser with
  | none => .error (.exception "No dom for this json file")
  | some dom => pure dom

/-- `processFile`, on the content of the makefile. -/
def processFile (A : Allocator) (graphFilePath : String) (s : List UInt8) : Outcome Graph := do
  let dom ← readDom s
  match dom.toVal.getObject "rules" with
  | some (.array rules) => processJson A graphFilePath rules
  | _ => .error (.exception "No rules in the given JSon File")

variable {s : List UInt8}

theorem boundaryFree_pieces (hsurplus : ∀ a b rest, s = a ++ b :: rest → ¬ Surplus a b) :
    BoundaryFree (pieces s) := by
  rcases hfeed : Lib.feed Parser.step Parser.create s with ⟨p, code⟩
  have hpieces := hfeed
  rw [← flatten_pieces s] at hpieces
  refine boundaryFree_of_code hpieces ?_
  rintro rfl
  obtain ⟨a, b, rest, u, hs, ha, hstep⟩ := Lib.exists_of_feed_some hfeed
  exact hsurplus a b rest hs (Surplus.of_popEmpty ha hstep)

theorem readDom_eq_ok {dom : Tree} : readDom s = .ok dom ↔
    ∃ p, JsonParser.parseAll 0 .create (pieces s) = .ok p ∧ JsonParser.getDom p = some dom := by
  rw [readDom, Lib.bind_eq_ok]
  refine exists_congr fun p ↦ and_congr_right fun _ ↦ ?_
  cases JsonParser.getDom p with
  | none => exact ⟨nofun, nofun⟩
  | some v => exact ⟨fun h ↦ congrArg some (Except.ok.inj h), fun h ↦ congrArg _ (Option.some.inj h)⟩

/-- A makefile without a closing bracket too many is read as if it came in one
piece. -/
theorem readDom_eq_ok_iff (hsurplus : ∀ a b rest, s = a ++ b :: rest → ¬ Surplus a b)
    {dom : Tree} : readDom s = .ok dom ↔
      ∃ p, JsonParser.parse 0 s .create = .ok p ∧ JsonParser.getDom p = some dom := by
  obtain ⟨hthrows, htree⟩ := boundaryFree_pieces hsurplus
  rw [flatten_pieces] at hthrows htree
  rw [readDom_eq_ok]
  constructor
  · rintro ⟨p, hp, hdom⟩
    cases hq : JsonParser.parse 0 s .create with
    | error f =>
        obtain ⟨g, hg⟩ := hthrows.2 ⟨f, hq⟩
        cases hp.symm.trans hg
    | ok q => exact ⟨q, rfl, (htree p q hp hq).symm.trans hdom⟩
  · rintro ⟨q, hq, hdom⟩
    cases hp : JsonParser.parseAll 0 .create (pieces s) with
    | error f =>
        obtain ⟨g, hg⟩ := hthrows.1 ⟨f, hp⟩
        cases hq.symm.trans hg
    | ok p => exact ⟨p, rfl, (htree p q hp hq).trans hdom⟩

theorem processFile_eq_ok_iff (A : Allocator) (graphFilePath : String)
    (hsurplus : ∀ a b rest, s = a ++ b :: rest → ¬ Surplus a b) {g : Graph} :
    processFile A graphFilePath s = .ok g ↔ ∃ p dom rules,
      JsonParser.parse 0 s .create = .ok p ∧ JsonParser.getDom p = some dom ∧
      dom.toVal.getObject "rules" = some (.array rules) ∧
      processJson A graphFilePath rules = .ok g := by
  rw [processFile, Lib.bind_eq_ok]
  constructor
  · rintro ⟨dom, hdom, hrules⟩
    obtain ⟨p, hp, hp'⟩ := (readDom_eq_ok_iff hsurplus).1 hdom
    split at hrules
    · rename_i rules hget
      exact ⟨p, dom, rules, hp, hp', hget, hrules⟩
    · cases hrules
  · rintro ⟨p, dom, rules, hp, hp', hget, hrules⟩
    refine ⟨dom, (readDom_eq_ok_iff hsurplus).2 ⟨p, hp, hp'⟩, ?_⟩
    rw [hget]
    exact hrules

end GraphParser

end Falcon
