import Mathlib.Order.Nat
import Falcon.Lib.JsonString
import Falcon.Graph.DepfileParser

/-!
# What the depfile parser reads

The scanner, without its memory, is a machine that takes one character after the
other and keeps the names it has found.  `DepfileParser::Parse` does what the
machine does on the content that it was given: it never overtakes what it has
still to read, and it leaves the names alone that it has found before.
-/

namespace Falcon

namespace DepfileParser

/-! ## Characters -/

/-- Letters, digits and the punctuation that a name is made of. -/
def isPlain (c : UInt8) : Bool :=
  (0x30 ≤ c ∧ c ≤ 0x39) ∨ (0x41 ≤ c ∧ c ≤ 0x5a) ∨ (0x61 ≤ c ∧ c ≤ 0x7a) ∨
    c ∈ [0x21, 0x28, 0x29, 0x2b, 0x2c, 0x2d, 0x2e, 0x2f, 0x3a, 0x3d, 0x40, 0x5f, 0x7e]

/-- A space, a hash, a star, a bracket, a backslash or a bar lose a backslash. -/
def isEscaped (c : UInt8) : Bool := c ∈ [0x20, 0x23, 0x2a, 0x5b, 0x5c, 0x7c]

/-- Any other ASCII character keeps it, except a newline and zero. -/
def isVerbatim (c : UInt8) : Bool := c ≠ 0 ∧ c ≠ 0x0a ∧ c < 0x80 ∧ ¬ isEscaped c

theorem start_eq (c : UInt8) : start c.toInt8 =
    if isPlain c then .yy5 else if c = 0x24 then .yy4 else if c = 0x5c then .backslash
    else if c = 0 ∨ 0x80 ≤ c then .yy7 else .yy9 := by
  revert c
  exact Lib.forall_byte (by decide +kernel)

theorem escape_eq (c : UInt8) : escape c.toInt8 =
    if isEscaped c then .yy16 else if isVerbatim c then .yy14 else .yy3 := by
  revert c
  exact Lib.forall_byte (by decide +kernel)

/-- The table has the plain characters, and no entry for a negative character. -/
theorem tableEntry_eq (c : UInt8) : tableEntry c.toInt8 =
    if 0x80 ≤ c then .error .tableIndex else .ok (if isPlain c then 128 else 0) := by
  revert c
  exact Lib.forall_byte (by decide +kernel)

theorem not_large_of_isPlain {c : UInt8} (h : isPlain c = true) : ¬ 0x80 ≤ c :=
  Lib.forall_byte (p := fun c ↦ isPlain c = true → ¬ 0x80 ≤ c) (by decide +kernel) c h

/-! ## The machine -/

/-- In front of a span, in plain characters, behind a dollar, behind a backslash. -/
inductive Mode where
  | start
  | plain
  | dollar
  | backslash
  deriving DecidableEq

inductive Refusal where
  | tableIndex
  | multipleOutputs
  deriving DecidableEq

/-- The output and the inputs. -/
abbrev Names := Option (List UInt8) × List (List UInt8)

/-- `name` is the name that is being read. -/
structure Reading where
  mode : Mode
  name : List UInt8
  parsingTargets : Bool
  names : Names

/-- What `Parse` makes of it. -/
def Refusal.result : Refusal → Except ScanFault (Except String Names)
  | .tableIndex => .error .tableIndex
  | .multipleOutputs => .ok (.error DepfileParser.multipleOutputs)

/-- A name that has been found. -/
def keep (names : Names) (isTarget : Bool) (name : List UInt8) : Names × Option Refusal :=
  if name = [] then (names, none)
  else if !isTarget then ((names.1, names.2 ++ [name]), none)
  else match names.1 with
    | none => ((some name, names.2), none)
    | some out => (names, if out = name then none else some .multipleOutputs)

namespace Reading

/-- In front of the content. -/
def create : Reading := ⟨.start, [], true, (none, [])⟩

def append (r : Reading) (mode : Mode) (cs : List UInt8) : Reading :=
  { r with mode := mode, name := r.name ++ cs }

/-- A name ends.  One colon is taken off its end, and behind the first such name
there are no targets any more. -/
def endName (r : Reading) : Reading × Option Refusal :=
  let colon := decide (r.name.getLast? = some 0x3a)
  let (names, code) :=
    keep r.names r.parsingTargets (if colon then r.name.dropLast else r.name)
  (⟨.start, [], r.parsingTargets && !colon, names⟩, code)

/-- The first character of a span. -/
def first (r : Reading) (ch : UInt8) : Reading × Option Refusal :=
  if isPlain ch then (r.append .plain [ch], none)
  else if ch = 0x24 then ({ r with mode := .dollar }, none)
  else if ch = 0x5c then ({ r with mode := .backslash }, none)
  else r.endName

/-- The name ends in front of the character. -/
def endFirst (r : Reading) (ch : UInt8) : Reading × Option Refusal :=
  match r.endName with
  | (r, none) => r.first ch
  | (r, some e) => (r, some e)

def step (r : Reading) (ch : UInt8) : Reading × Option Refusal :=
  match r.mode with
  | .start => r.first ch
  | .plain => if 0x80 ≤ ch then (r, some .tableIndex) else r.first ch
  | .dollar => if ch = 0x24 then (r.append .start [0x24], none) else r.endFirst ch
  | .backslash =>
    if isEscaped ch then (r.append .start [ch], none)
    else if isVerbatim ch then (r.append .start [0x5c, ch], none)
    else r.endFirst ch

/-- The content ends. -/
def finish (r : Reading) : Except ScanFault (Except String Names) :=
  match r.endName with
  | (r, none) => .ok (.ok r.names)
  | (_, some e) => e.result

/-- What is left of the content is read. -/
def run (r : Reading) (l : List UInt8) : Except ScanFault (Except String Names) :=
  match Lib.feed step r l with
  | (r, none) => r.finish
  | (_, some e) => e.result

/-- The name ends, and what is left of the content is read. -/
def endRun (r : Reading) (l : List UInt8) : Except ScanFault (Except String Names) :=
  match r.endName with
  | (r, none) => r.run l
  | (_, some e) => e.result

end Reading

/-- What the machine finds in a content. -/
def readDepfile (content : List UInt8) : Except ScanFault (Except String Names) :=
  Reading.create.run content

namespace Reading

variable {r r' : Reading} {c : UInt8} {l : List UInt8} {e : Refusal}

theorem run_nil (r : Reading) : r.run [] = r.finish := rfl

theorem run_cons_of_none (h : r.step c = (r', none)) : r.run (c :: l) = r'.run l := by
  rw [run, Lib.feed_cons_of_none h]
  rfl

theorem run_cons_of_some (h : r.step c = (r', some e)) : r.run (c :: l) = e.result := by
  rw [run, Lib.feed_cons_of_some h]

theorem endName_mode_name {code : Option Refusal} (h : r.endName = (r', code)) :
    r'.mode = .start ∧ r'.name = [] := by
  cases h
  exact ⟨rfl, rfl⟩

theorem endName_nil (hname : r.name = []) :
    r.endName = (⟨.start, [], r.parsingTargets, r.names⟩, none) := by
  simp [endName, keep, hname]

/-- An empty name at the end of the content does not count. -/
theorem endRun_nil (r : Reading) : r.endRun [] = r.finish := by
  rw [endRun, finish]
  rcases h : r.endName with ⟨r', _ | e⟩
  · obtain ⟨-, hname⟩ := endName_mode_name h
    change r'.finish = _
    rw [finish, endName_nil hname]
  · rfl

theorem run_start (hmode : r.mode = .start) (c : UInt8) (l : List UInt8) :
    r.run (c :: l) = match r.first c with
      | (r, none) => r.run l
      | (_, some e) => e.result := by
  have hstep : r.step c = r.first c := by rw [step, hmode]
  rcases h : r.first c with ⟨r', _ | e⟩
  · exact run_cons_of_none (hstep.trans h)
  · exact run_cons_of_some (hstep.trans h)

/-- A character at which a name ends is read again behind it. -/
theorem run_endFirst (h : r.step c = r.endFirst c) : r.run (c :: l) = r.endRun (c :: l) := by
  rw [endFirst] at h
  rw [endRun]
  rcases hend : r.endName with ⟨r', _ | e⟩
  · rw [hend] at h
    change _ = r'.run (c :: l)
    rw [run_start (endName_mode_name hend).1]
    rcases hfirst : r'.first c with ⟨t, _ | e⟩
    · exact run_cons_of_none (h.trans hfirst)
    · exact run_cons_of_some (h.trans hfirst)
  · rw [hend] at h
    exact run_cons_of_some h

/-- The first character of a span does not depend on what was in front of it. -/
theorem first_mode (r : Reading) (mode : Mode) (c : UInt8) :
    { r with mode := mode }.first c = r.first c := rfl

theorem append_nil (r : Reading) (mode : Mode) : r.append mode [] = { r with mode := mode } := by
  rw [append, List.append_nil]

/-- The label `yy11`: plain characters as far as they go. -/
theorem run_plain (hmode : r.mode = .plain) (i : ℕ) (l : List UInt8) :
    (∃ k ≤ l.length, Scan.plainEnd i l = .ok (i + k) ∧
      r.run l = (r.append .start (l.take k)).run (l.drop k)) ∨
    (Scan.plainEnd i l = .error .tableIndex ∧ r.run l = .error .tableIndex) := by
  induction l generalizing r i with
  | nil => exact Or.inl ⟨0, le_rfl, rfl, by rw [List.take_nil, append_nil]; rfl⟩
  | cons c l ih =>
      rw [Scan.plainEnd, tableEntry_eq]
      by_cases hlarge : 0x80 ≤ c
      · have hstep : r.step c = (r, some .tableIndex) := by
          rw [step, hmode]
          exact if_pos hlarge
        rw [if_pos hlarge]
        exact Or.inr ⟨rfl, run_cons_of_some hstep⟩
      · have hstep : r.step c = r.first c := by
          rw [step, hmode]
          exact if_neg hlarge
        rw [if_neg hlarge, Lib.except_ok_bind]
        by_cases hplain : isPlain c = true
        · have hfirst : r.first c = (r.append .plain [c], none) := if_pos hplain
          rw [if_pos hplain, if_pos (by decide)]
          rw [run_cons_of_none (hstep.trans hfirst)]
          rcases ih (r := r.append .plain [c]) rfl (i + 1) with ⟨k, hk, hend, hrun⟩ | ⟨hend, hrun⟩
          · refine Or.inl ⟨k + 1, Nat.succ_le_succ hk, ?_, ?_⟩
            · rw [hend, Nat.add_assoc, Nat.add_comm 1 k]
            · rw [hrun, append, append, append, List.append_assoc, List.take_succ_cons,
                List.drop_succ_cons]
              rfl
          · exact Or.inr ⟨hend, hrun⟩
        · rw [if_neg hplain, if_neg (by decide)]
          refine Or.inl ⟨0, Nat.zero_le _, rfl, ?_⟩
          rw [List.take_zero, append_nil, List.drop_zero,
            run_start (r := { r with mode := .start }) rfl, first_mode]
          rcases hfirst : r.first c with ⟨r', _ | e⟩
          · exact run_cons_of_none (hstep.trans hfirst)
          · exact run_cons_of_some (hstep.trans hfirst)

end Reading

/-! ## The scanner -/

namespace Scan

variable {s s' : Scan} {r : Reading} {c : UInt8} {l new : List UInt8} {i j stop : ℕ}

/-- The scanner has read up to `stop` and written `new`: what it has not read yet
and what it has written before are still there. -/
structure Wrote (s : Scan) (stop : ℕ) (new : List UInt8) (s' : Scan) : Prop where
  inPos : s'.inPos = stop
  outPos : s'.outPos = s.outPos + new.length
  length : s'.content.length = s.content.length
  unread : s'.content.drop stop = s.content.drop stop
  kept : ∀ i len, i + len ≤ s.outPos →
    Lib.slice s'.content i len = Lib.slice s.content i len
  written : ∀ i ≤ s.outPos, Lib.slice s'.content i (s'.outPos - i) =
    Lib.slice s.content i (s.outPos - i) ++ new

theorem put_wrote (hroom : s.outPos + new.length ≤ stop) (hstop : stop ≤ s.content.length) :
    ∃ s', { s with inPos := stop }.put new = .ok s' ∧ s.Wrote stop new s' := by
  have hfits : s.outPos + new.length ≤ s.content.length := hroom.trans hstop
  refine ⟨_, if_pos hfits, rfl, rfl, Lib.length_overwrite hfits,
    Lib.drop_overwrite hfits hroom, fun i len hi ↦ Lib.slice_overwrite hfits hi, fun i hi ↦ ?_⟩
  change Lib.slice _ i (s.outPos + new.length - i) = _
  rw [show s.outPos + new.length - i = s.outPos - i + new.length by omega]
  refine Lib.slice_overwrite_snoc hfits ?_
  change s.outPos = i + (s.outPos - i)
  omega

/-- A span of plain text is where it has to be, or it is moved there. -/
theorem shift_wrote (hout : s.outPos ≤ s.inPos) (hin : s.inPos ≤ stop)
    (hstop : stop ≤ s.content.length) :
    ∃ s', { s with inPos := stop }.shift s.inPos = .ok s' ∧
      s.Wrote stop (Lib.slice s.content s.inPos (stop - s.inPos)) s' := by
  have hlen : (Lib.slice s.content s.inPos (stop - s.inPos)).length = stop - s.inPos :=
    Lib.length_slice (by omega)
  rw [shift]
  by_cases hbehind : s.outPos < s.inPos
  · rw [if_pos hbehind]
    refine put_wrote ?_ hstop
    rw [hlen]
    omega
  · obtain hsame : s.outPos = s.inPos := by omega
    rw [if_neg hbehind]
    refine ⟨_, rfl, rfl, ?_, rfl, rfl, fun _ _ _ ↦ rfl, fun i hi ↦ ?_⟩
    · change s.outPos + (stop - s.inPos) = _
      rw [hlen]
    · change Lib.slice s.content i (s.outPos + (stop - s.inPos) - i) = _
      rw [show s.outPos + (stop - s.inPos) - i = s.outPos - i + (stop - s.inPos) by omega,
        hsame, Lib.slice_add]
      congr 2
      omega

/-! ### The inner loop -/

theorem read_of_cons (h : s.content.drop i = c :: l) : s.read i = .ok c := by
  have hi : i < s.content.length := by
    by_contra hge
    rw [List.drop_eq_nil_of_le (by omega)] at h
    cases h
  have hget : s.content[i]? = some c := by
    rw [← List.head?_drop, h]
    rfl
  rw [read, if_pos hi, List.getD_eq_getElem?_getD, hget]
  rfl

theorem read_of_nil (h : s.content.drop i = []) (hi : i ≤ s.content.length) :
    s.read i = .ok 0 := by
  have hlen : s.content.length ≤ i := List.drop_eq_nil_iff.mp h
  rw [read, if_neg (by omega), if_pos (by omega)]

theorem drop_succ (h : s.content.drop i = c :: l) : s.content.drop (i + 1) = l := by
  rw [← List.drop_drop, h]
  rfl

theorem lt_of_cons (h : s.content.drop i = c :: l) : i < s.content.length := by
  by_contra hge
  rw [List.drop_eq_nil_of_le (by omega)] at h
  cases h

/-- What the machine makes of a span of the content: the scanner writes it, leaves
the loop behind one character, or reads its table in front of the first entry. -/
inductive Spans (s : Scan) (r : Reading) : Prop where
  | write (s' : Scan) (new : List UInt8) (hspan : s.span = .ok (false, s'))
      (hlater : s.inPos < s'.inPos) (hin : s'.inPos ≤ s.content.length)
      (hout : s'.outPos ≤ s'.inPos) (hwrote : s.Wrote s'.inPos new s')
      (hrun : r.run (s.content.drop s.inPos) =
        (r.append .start new).run (s.content.drop s'.inPos))
  | leave (hspan : s.span = .ok (true, { s with inPos := s.inPos + 1 }))
      (hrun : r.run (s.content.drop s.inPos) = r.endRun (s.content.drop (s.inPos + 1)))
  | fault (hspan : s.span = .error .tableIndex)
      (hrun : r.run (s.content.drop s.inPos) = .error .tableIndex)

section Span

variable (hmode : r.mode = .start) (hdrop : s.content.drop s.inPos = c :: l)
include hmode hdrop

/-- The label `yy5`. -/
theorem spans_plain (hout : s.outPos ≤ s.inPos) (hplain : isPlain c = true) : s.Spans r := by
  have hin : s.inPos < s.content.length := lt_of_cons hdrop
  have hrest : s.content.drop (s.inPos + 1) = l := drop_succ hdrop
  have hspan : s.span = (do
      let stop ← plainEnd (s.inPos + 1) (s.content.drop (s.inPos + 1))
      let s ← { s with inPos := stop }.shift s.inPos
      pure (false, s)) := by
    rw [span, read_of_cons hdrop, Lib.except_ok_bind, start_eq, if_pos hplain]
  have hfirst : r.step c = (r.append .plain [c], none) := by
    rw [Reading.step, hmode]
    exact if_pos hplain
  have hcons : r.run (s.content.drop s.inPos) = (r.append .plain [c]).run l := by
    rw [hdrop, Reading.run_cons_of_none hfirst]
  rw [hrest] at hspan
  rcases Reading.run_plain (r := r.append .plain [c]) rfl (s.inPos + 1) l with
    ⟨k, hk, hend, hrun⟩ | ⟨hend, hrun⟩
  · have hlen : l.length = s.content.length - (s.inPos + 1) := by
      rw [← hrest, List.length_drop]
    obtain ⟨s', hshift, hwrote⟩ :=
      shift_wrote hout (show s.inPos ≤ s.inPos + 1 + k by omega) (by omega)
    have hpos : s'.inPos = s.inPos + 1 + k := hwrote.inPos
    have hslice : Lib.slice s.content s.inPos (s.inPos + 1 + k - s.inPos) = c :: l.take k := by
      rw [Lib.slice, hdrop, show s.inPos + 1 + k - s.inPos = k + 1 by omega, List.take_succ_cons]
    rw [hslice, ← hpos] at hwrote
    refine .write s' (c :: l.take k) ?_ (by omega) (by omega) ?_ hwrote ?_
    · rw [hspan, hend, Lib.except_ok_bind, hshift]
      rfl
    · rw [hwrote.outPos, List.length_cons, List.length_take_of_le hk]
      omega
    · rw [hcons, hrun, hpos, ← List.drop_drop, hrest, Reading.append, Reading.append,
        Reading.append, List.append_assoc]
      rfl
  · refine .fault ?_ (hcons.trans hrun)
    rw [hspan, hend]
    rfl

/-- Any other character that is no backslash and no dollar ends the name. -/
theorem spans_other (hplain : ¬ isPlain c = true) (hdollar : c ≠ 0x24) (hback : c ≠ 0x5c) :
    s.Spans r := by
  refine .leave ?_ ?_
  · rw [span, read_of_cons hdrop, Lib.except_ok_bind, start_eq, if_neg hplain, if_neg hdollar,
      if_neg hback]
    split_ifs <;> rfl
  · have hfirst : r.first c = r.endName := by
      rw [Reading.first, if_neg hplain, if_neg hdollar, if_neg hback]
    rw [hdrop, drop_succ hdrop, Reading.run_start hmode, hfirst]
    rfl

omit hmode in
/-- Two characters of the content become `new`. -/
theorem spans_two {c' : UInt8} {l' : List UInt8} (hout : s.outPos ≤ s.inPos) (hl : l = c' :: l')
    (hnew : new.length ≤ 2)
    (hspan : s.span = (do
      let s ← { s with inPos := s.inPos + 2 }.put new
      pure (false, s)))
    (hrun : r.run (c :: c' :: l') = (r.append .start new).run l') : s.Spans r := by
  have hrest : s.content.drop (s.inPos + 1) = c' :: l' := (drop_succ hdrop).trans hl
  have hin : s.inPos + 1 < s.content.length := lt_of_cons hrest
  obtain ⟨s', hput, hwrote⟩ :=
    put_wrote (show s.outPos + new.length ≤ s.inPos + 2 by omega) (by omega)
  have hpos : s'.inPos = s.inPos + 2 := hwrote.inPos
  rw [← hpos] at hwrote
  refine .write s' new ?_ (by omega) (by omega) ?_ hwrote ?_
  · rw [hspan, hput]
    rfl
  · rw [hwrote.outPos]
    omega
  · rw [hdrop, hl, hrun, hpos, drop_succ hrest]

/-- The label `yy4`. -/
theorem spans_dollar (hout : s.outPos ≤ s.inPos) (hdollar : c = 0x24) : s.Spans r := by
  subst hdollar
  have hin : s.inPos < s.content.length := lt_of_cons hdrop
  have hfirst : r.step 0x24 = ({ r with mode := .dollar }, none) := by
    rw [Reading.step, hmode]
    rfl
  have hspan : s.span = (do
      let yych ← s.read (s.inPos + 1)
      if yych = 0x24 then do
        let s ← { s with inPos := s.inPos + 2 }.put [0x24]
        pure (false, s)
      else pure (true, { s with inPos := s.inPos + 1 })) := by
    rw [span, read_of_cons hdrop, Lib.except_ok_bind, start_eq]
    rfl
  have hrest : s.content.drop (s.inPos + 1) = l := drop_succ hdrop
  cases l with
  | nil =>
      rw [read_of_nil hrest (by omega)] at hspan
      refine .leave hspan ?_
      rw [hdrop, hrest, Reading.run_cons_of_none hfirst, Reading.endRun_nil]
      rfl
  | cons c' l =>
      rw [read_of_cons hrest, Lib.except_ok_bind] at hspan
      by_cases hsecond : c' = 0x24
      · rw [if_pos hsecond] at hspan
        refine spans_two hdrop hout rfl (by decide) hspan ?_
        rw [Reading.run_cons_of_none hfirst]
        exact Reading.run_cons_of_none (if_pos hsecond)
      · rw [if_neg hsecond] at hspan
        refine .leave hspan ?_
        rw [hdrop, hrest, Reading.run_cons_of_none hfirst]
        exact Reading.run_endFirst (if_neg hsecond)

/-- A backslash. -/
theorem spans_backslash (hout : s.outPos ≤ s.inPos) (hback : c = 0x5c) : s.Spans r := by
  subst hback
  have hin : s.inPos < s.content.length := lt_of_cons hdrop
  have hfirst : r.step 0x5c = ({ r with mode := .backslash }, none) := by
    rw [Reading.step, hmode]
    rfl
  have hspan : s.span = (do
      let yych ← s.read (s.inPos + 1)
      s.escaped yych) := by
    rw [span, read_of_cons hdrop, Lib.except_ok_bind, start_eq]
    rfl
  have hrest : s.content.drop (s.inPos + 1) = l := drop_succ hdrop
  cases l with
  | nil =>
      rw [read_of_nil hrest (by omega)] at hspan
      refine .leave hspan ?_
      rw [hdrop, hrest, Reading.run_cons_of_none hfirst, Reading.endRun_nil]
      rfl
  | cons c' l =>
      rw [read_of_cons hrest, Lib.except_ok_bind, escaped, escape_eq] at hspan
      have hstep : { r with mode := Mode.backslash }.step c' =
          if isEscaped c' then (r.append .start [c'], none)
          else if isVerbatim c' then (r.append .start [0x5c, c'], none)
          else { r with mode := Mode.backslash }.endFirst c' := rfl
      by_cases hescaped : isEscaped c' = true
      · rw [if_pos hescaped] at hspan hstep
        refine spans_two hdrop hout rfl (by simp) hspan ?_
        rw [Reading.run_cons_of_none hfirst]
        exact Reading.run_cons_of_none hstep
      · rw [if_neg hescaped] at hspan hstep
        by_cases hverbatim : isVerbatim c' = true
        · rw [if_pos hverbatim] at hspan hstep
          refine spans_two hdrop hout rfl (by simp) hspan ?_
          rw [Reading.run_cons_of_none hfirst]
          exact Reading.run_cons_of_none hstep
        · rw [if_neg hverbatim] at hspan hstep
          refine .leave hspan ?_
          rw [hdrop, hrest, Reading.run_cons_of_none hfirst]
          exact Reading.run_endFirst hstep

end Span

theorem spans (hout : s.outPos ≤ s.inPos) (hin : s.inPos ≤ s.content.length)
    (hmode : r.mode = .start) : s.Spans r := by
  cases hdrop : s.content.drop s.inPos with
  | nil =>
      refine .leave ?_ ?_
      · rw [span, read_of_nil hdrop hin]
        rfl
      · rw [← List.drop_drop, hdrop, List.drop_nil, Reading.endRun_nil]
        rfl
  | cons c l =>
      by_cases hplain : isPlain c = true
      · exact spans_plain hmode hdrop hout hplain
      · by_cases hdollar : c = 0x24
        · exact spans_dollar hmode hdrop hout hdollar
        · by_cases hback : c = 0x5c
          · exact spans_backslash hmode hdrop hout hback
          · exact spans_other hmode hdrop hplain hdollar hback

/-- The inner loop has read a name and written it from the position `start` on. -/
structure Named (s : Scan) (start : ℕ) (s' : Scan) : Prop where
  later : s.inPos < s'.inPos
  start_le : start ≤ s'.outPos
  out : s'.outPos ≤ s'.inPos
  fits : s'.outPos ≤ s'.content.length
  length : s'.content.length = s.content.length
  unread : s'.content.drop s'.inPos = s.content.drop s'.inPos
  kept : ∀ i len, i + len ≤ start →
    Lib.slice s'.content i len = Lib.slice s.content i len

theorem filename_cases {fuel start : ℕ} (hout : s.outPos ≤ s.inPos)
    (hin : s.inPos ≤ s.content.length) (hstart : start ≤ s.outPos) (hmode : r.mode = .start)
    (hname : r.name = Lib.slice s.content start (s.outPos - start))
    (hfuel : s.content.length + 1 - s.inPos < fuel) :
    (∃ s', filename fuel s = .ok s' ∧ s.Named start s' ∧
      r.run (s.content.drop s.inPos) =
        { r with name := Lib.slice s'.content start (s'.outPos - start) }.endRun
          (s'.content.drop s'.inPos)) ∨
    (filename fuel s = .error .tableIndex ∧
      r.run (s.content.drop s.inPos) = .error .tableIndex) := by
  induction fuel generalizing s r with
  | zero => omega
  | succ fuel ih =>
      rw [filename]
      rcases spans hout hin hmode with
        ⟨s₁, new, hspan, hlater, hin₁, hout₁, hwrote, hrun⟩ | ⟨hspan, hrun⟩ | ⟨hspan, hrun⟩
      · have hlength := hwrote.length
        have hstart₁ : start ≤ s₁.outPos := by
          rw [hwrote.outPos]
          omega
        have hname₁ : (r.append .start new).name =
            Lib.slice s₁.content start (s₁.outPos - start) := by
          rw [hwrote.written start hstart, ← hname]
          rfl
        rw [hspan, hrun, ← hwrote.unread]
        change (∃ s', filename fuel s₁ = .ok s' ∧ _) ∨ (filename fuel s₁ = _ ∧ _)
        rcases ih hout₁ (by omega) hstart₁ rfl hname₁ (by omega) with
          ⟨s', hrest, hnamed, hend⟩ | hfault
        · refine Or.inl ⟨s', hrest, ?_, hend⟩
          refine ⟨hlater.trans hnamed.later, hnamed.start_le, hnamed.out, hnamed.fits,
            hnamed.length.trans hlength, hnamed.unread.trans ?_, fun i len hi ↦ ?_⟩
          · obtain ⟨k, hk⟩ : ∃ k, s'.inPos = s₁.inPos + k :=
              ⟨s'.inPos - s₁.inPos, by have := hnamed.later; omega⟩
            rw [hk, ← List.drop_drop, hwrote.unread, List.drop_drop]
          · rw [hnamed.kept i len hi, hwrote.kept i len (by omega)]
        · exact Or.inr hfault
      · refine Or.inl ⟨_, by rw [hspan]; rfl, ?_, ?_⟩
        · exact ⟨Nat.lt_succ_self _, hstart, Nat.le_succ_of_le hout, hout.trans hin, rfl, rfl,
            fun _ _ _ ↦ rfl⟩
        · rw [hrun]
          change r.endRun _ =
            { r with name := Lib.slice s.content start (s.outPos - start) }.endRun _
          rw [← hname]
      · exact Or.inr ⟨by rw [hspan]; rfl, hrun⟩

end Scan

/-! ## The outer loop -/

namespace Pieces

/-- The pieces are in front of what is still to be read. -/
structure InFront (p : Pieces) : Prop where
  out : ∀ q ∈ p.out, q.str + q.len ≤ p.inPos
  ins : ∀ q ∈ p.ins, q.str + q.len ≤ p.inPos

/-- The machine has found what the pieces show. -/
structure Shows (p : Pieces) (r : Reading) : Prop where
  mode : r.mode = .start
  name : r.name = []
  targets : r.parsingTargets = p.parsingTargets
  names : r.names = p.names
  front : p.InFront

end Pieces

variable {p : Pieces} {r : Reading} {s s' : Scan}

/-- What is written behind the pieces does not change what they show. -/
theorem Pieces.InFront.names_kept (h : p.InFront) {content : List UInt8}
    (hkept : ∀ i len, i + len ≤ p.inPos → Lib.slice content i len = Lib.slice p.content i len) :
    { p with content := content }.names = p.names := by
  rw [names, names, Prod.mk.injEq]
  constructor
  · exact Option.map_congr fun q hq ↦ hkept _ _ (h.out q hq)
  · exact List.map_congr_left fun q hq ↦ hkept _ _ (h.ins q hq)

/-- A piece is kept as the machine keeps its name. -/
theorem keepPiece_cases (hfront : p.InFront) (isTarget : Bool) (name : StringPiece)
    (hname : name.str + name.len ≤ p.inPos) (hroom : name.str + name.len ≤ p.content.length) :
    (∃ p', keepPiece p isTarget name = .ok p' ∧
      keep p.names isTarget (name.asString p.content) = (p'.names, none) ∧ p'.InFront ∧
      p'.content = p.content ∧ p'.inPos = p.inPos ∧ p'.parsingTargets = p.parsingTargets) ∨
    (keepPiece p isTarget name = .error multipleOutputs ∧
      (keep p.names isTarget (name.asString p.content)).2 = some .multipleOutputs) := by
  have hnil : name.asString p.content = [] ↔ name.len = 0 := Lib.slice_eq_nil_iff hroom
  rw [keepPiece, keep]
  by_cases hzero : name.len = 0
  · rw [if_pos hzero, if_pos (hnil.mpr hzero)]
    exact Or.inl ⟨p, rfl, rfl, hfront, rfl, rfl, rfl⟩
  · rw [if_neg hzero, if_neg (hnil.not.mpr hzero)]
    cases isTarget with
    | false =>
        refine Or.inl ⟨_, rfl, ?_, ⟨hfront.out, fun q hq ↦ ?_⟩, rfl, rfl, rfl⟩
        · simp [Pieces.names]
        · rcases List.mem_append.mp hq with hold | hnew
          · exact hfront.ins q hold
          · obtain rfl := List.mem_singleton.mp hnew
            exact hname
    | true =>
        cases hout : p.out with
        | none =>
            have hnone : p.names.1 = none := by rw [Pieces.names, hout]; rfl
            rw [hnone]
            refine Or.inl ⟨_, rfl, rfl, ⟨fun q hq ↦ ?_, hfront.ins⟩, rfl, rfl, rfl⟩
            obtain rfl := Option.some.inj hq
            exact hname
        | some out =>
            have hsome : p.names.1 = some (out.asString p.content) := by
              rw [Pieces.names, hout]
              rfl
            rw [hsome]
            by_cases hsame : out.asString p.content = name.asString p.content
            · refine Or.inl ⟨p, if_neg (not_not.mpr hsame), ?_, hfront, rfl, rfl, rfl⟩
              exact congrArg (Prod.mk p.names) (if_pos hsame)
            · exact Or.inr ⟨if_pos hsame, if_neg hsame⟩

/-- The characters between `filename` and `out` are kept as the machine keeps the
name, and the machine refuses what the parser does not take. -/
theorem addFilename_cases (h : p.Shows r)
    (hnamed : Scan.Named ⟨p.content, p.inPos, p.inPos⟩ p.inPos s') {t : Reading}
    {code : Option Refusal}
    (hend : { r with name := Lib.slice s'.content p.inPos (s'.outPos - p.inPos) }.endName =
      (t, code)) :
    (∃ p', addFilename p p.inPos s' = .ok p' ∧ code = none ∧ p'.Shows t ∧
      p'.inPos = s'.inPos ∧ p'.content = s'.content) ∨
    (addFilename p p.inPos s' = .error multipleOutputs ∧ code = some .multipleOutputs) := by
  have hstart := hnamed.start_le
  have hfits := hnamed.fits
  have hout := hnamed.out
  have hlater : p.inPos < s'.inPos := hnamed.later
  rw [addFilename]
  generalize hlen : s'.outPos - p.inPos = len at hend
  have hroom : p.inPos + len ≤ s'.content.length := by omega
  have hcolon : (decide (0 < len) && s'.content.getD (p.inPos + len - 1) 0 = 0x3a) =
      decide ((Lib.slice s'.content p.inPos len).getLast? = some 0x3a) := by
    by_cases hpos : 0 < len
    · rw [Lib.getLast?_slice hroom hpos, List.getD_eq_getElem?_getD,
        List.getElem?_eq_getElem (by omega)]
      simp [hpos]
    · obtain rfl : len = 0 := by omega
      simp [Lib.slice_zero]
  rw [hcolon]
  generalize hc : decide ((Lib.slice s'.content p.inPos len).getLast? = some 0x3a) = colon
  generalize hlen' : (if colon then len - 1 else len) = len'
  have hle : len' ≤ len := by
    rw [← hlen']
    split_ifs <;> omega
  have hbare : (if colon then (Lib.slice s'.content p.inPos len).dropLast
      else Lib.slice s'.content p.inPos len) = Lib.slice s'.content p.inPos len' := by
    rw [← hlen']
    cases colon
    · rfl
    · exact Lib.dropLast_slice hroom
  have htargets : (r.parsingTargets && !colon) = if colon then false else p.parsingTargets := by
    rw [h.targets]
    cases colon <;> simp
  generalize hp₁ : ({ p with
    content := s'.content, inPos := s'.inPos
    parsingTargets := if colon then false else p.parsingTargets } : Pieces) = p₁
  have hnames : p₁.names = r.names := by
    rw [h.names, ← hp₁]
    exact h.front.names_kept hnamed.kept
  have hfront : p₁.InFront := by
    rw [← hp₁]
    exact ⟨fun q hq ↦ (h.front.out q hq).trans hlater.le,
      fun q hq ↦ (h.front.ins q hq).trans hlater.le⟩
  have hcontent : p₁.content = s'.content := by rw [← hp₁]
  have hpos : p₁.inPos = s'.inPos := by rw [← hp₁]
  have hp₁targets : p₁.parsingTargets = if colon then false else p.parsingTargets := by rw [← hp₁]
  have hend' : (t, code) = (⟨.start, [], p₁.parsingTargets,
      (keep p₁.names p.parsingTargets (Lib.slice s'.content p.inPos len')).1⟩,
      (keep p₁.names p.parsingTargets (Lib.slice s'.content p.inPos len')).2) := by
    rw [hp₁targets, ← htargets, ← h.targets, ← hend, Reading.endName]
    simp only [hc, hbare, hnames]
  obtain ⟨rfl, rfl⟩ := Prod.mk.inj hend'
  have hbefore : p.inPos + len' ≤ p₁.inPos := by omega
  have hinside : p.inPos + len' ≤ p₁.content.length := by
    rw [hcontent]
    omega
  rcases keepPiece_cases hfront p.parsingTargets ⟨p.inPos, len'⟩ hbefore hinside with
    ⟨p', hkeep, hnext, hfront', hcontent', hpos', htargets'⟩ | ⟨hkeep, hcode⟩
  · rw [StringPiece.asString, hcontent] at hnext
    refine Or.inl ⟨p', hkeep, ?_, ⟨rfl, rfl, htargets'.symm, ?_, hfront'⟩, hpos'.trans hpos,
      hcontent'.trans hcontent⟩
    · rw [hnext]
    · change (keep p₁.names p.parsingTargets (Lib.slice s'.content p.inPos len')).1 = p'.names
      rw [hnext]
  · rw [StringPiece.asString, hcontent] at hcode
    exact Or.inr ⟨hkeep, hcode⟩

/-- The outer loop does what the machine does with the rest of the content. -/
theorem parseLoop_run {fuel : ℕ} (h : p.Shows r) (hfuel : p.content.length - p.inPos < fuel) :
    (parseLoop fuel p).map (Except.map Pieces.names) = r.run (p.content.drop p.inPos) := by
  induction fuel generalizing p r with
  | zero => omega
  | succ fuel ih =>
      rw [parseLoop]
      by_cases hmore : p.inPos < p.content.length
      · rw [if_pos hmore]
        have hname : r.name = Lib.slice p.content p.inPos (p.inPos - p.inPos) := by
          rw [Nat.sub_self, Lib.slice_zero, h.name]
        have hfuel' : p.content.length + 1 - p.inPos < p.content.length + 2 := by omega
        rcases Scan.filename_cases (s := ⟨p.content, p.inPos, p.inPos⟩) le_rfl hmore.le le_rfl
          h.mode hname hfuel' with ⟨s', hloop, hnamed, hrun⟩ | ⟨hloop, hrun⟩
        · change r.run (p.content.drop p.inPos) = _ at hrun
          rw [hloop, Lib.except_ok_bind, hrun, Reading.endRun]
          have hlength : s'.content.length = p.content.length := hnamed.length
          have hlater : p.inPos < s'.inPos := hnamed.later
          rcases hend : Reading.endName
              { r with name := Lib.slice s'.content p.inPos (s'.outPos - p.inPos) } with ⟨t, code⟩
          rcases addFilename_cases h hnamed hend with
            ⟨p', hadd, rfl, hshows, hpos, hcontent⟩ | ⟨hadd, rfl⟩
          · rw [hadd]
            change _ = t.run (s'.content.drop s'.inPos)
            rw [← hpos, ← hcontent]
            exact ih hshows (by rw [hpos, hcontent]; omega)
          · rw [hadd]
            rfl
        · change r.run (p.content.drop p.inPos) = _ at hrun
          rw [hloop, hrun]
          rfl
      · rw [if_neg hmore, List.drop_eq_nil_of_le (by omega), Reading.run_nil, Reading.finish,
          Reading.endName_nil h.name]
        exact congrArg (fun names ↦ Except.ok (Except.ok names)) h.names.symm

theorem parse_run (content : List UInt8) :
    (parse content).map (Except.map Pieces.names) = readDepfile content := by
  have hstart : Pieces.Shows ⟨content, 0, true, none, []⟩ Reading.create :=
    ⟨rfl, rfl, rfl, rfl, nofun, nofun⟩
  exact parseLoop_run hstart (Nat.lt_succ_self _)

/-! ## Memory -/

theorem keep_code {names : Names} {isTarget : Bool} {name : List UInt8} :
    (keep names isTarget name).2 ≠ some .tableIndex := by
  rw [keep]
  split_ifs
  · exact nofun
  · exact nofun
  · split
    · exact nofun
    · split_ifs <;> exact nofun

namespace Reading

variable {t : Reading} {c : UInt8} {content : List UInt8} {e : Refusal}

theorem first_mode_plain {code : Option Refusal} (h : r.first c = (t, code))
    (hmode : t.mode = .plain) : isPlain c = true := by
  rw [first] at h
  split_ifs at h with hplain
  · exact hplain
  · cases h
    cases hmode
  · cases h
    cases hmode
  · rw [(endName_mode_name h).1] at hmode
    cases hmode

/-- The machine is in plain characters behind a plain character only. -/
theorem step_mode_plain (h : r.step c = (t, none)) (hmode : t.mode = .plain) :
    isPlain c = true := by
  have hend (r : Reading) (h : r.endFirst c = (t, none)) : isPlain c = true := by
    rw [endFirst] at h
    rcases hname : r.endName with ⟨r', _ | e⟩
    · rw [hname] at h
      exact first_mode_plain h hmode
    · rw [hname] at h
      cases h
  rw [step] at h
  split at h
  · exact first_mode_plain h hmode
  · split_ifs at h
    · cases h
    · exact first_mode_plain h hmode
  · split_ifs at h
    · cases h
      cases hmode
    · exact hend r h
  · split_ifs at h
    · cases h
      cases hmode
    · cases h
      cases hmode
    · exact hend r h

theorem first_code {code : Option Refusal} (h : r.first c = (t, code)) :
    code ≠ some .tableIndex := by
  rw [first] at h
  split_ifs at h
  · cases h
    exact nofun
  · cases h
    exact nofun
  · cases h
    exact nofun
  · cases h
    exact keep_code

/-- Only in plain characters can the machine meet a character that is not in the
table. -/
theorem step_tableIndex (h : r.step c = (t, some .tableIndex)) : r.mode = .plain ∧ 0x80 ≤ c := by
  have hend (r : Reading) : r.endFirst c ≠ (t, some .tableIndex) := by
    intro h
    rw [endFirst] at h
    rcases hname : r.endName with ⟨r', _ | e⟩
    · rw [hname] at h
      exact first_code h rfl
    · rw [hname] at h
      cases h
      exact keep_code (congrArg Prod.snd hname)
  rw [step] at h
  split at h
  · exact absurd rfl (first_code h)
  · rename_i hmode
    split_ifs at h with hlarge
    · exact ⟨hmode, hlarge⟩
    · exact absurd rfl (first_code h)
  · split_ifs at h
    · cases h
    · exact absurd h (hend r)
  · split_ifs at h
    · cases h
    · cases h
    · exact absurd h (hend r)

/-- Where the machine meets it. -/
theorem readDepfile_error {f : ScanFault} (h : readDepfile content = .error f) :
    f = .tableIndex ∧ ∃ pre a b post, content = pre ++ a :: b :: post ∧ isPlain a = true ∧
      0x80 ≤ b := by
  rw [readDepfile, run] at h
  rcases hfeed : Lib.feed step create content with ⟨r, _ | e⟩
  · rw [hfeed] at h
    change r.finish = _ at h
    rw [finish] at h
    rcases hend : r.endName with ⟨t, _ | e⟩
    · rw [hend] at h
      cases h
    · rw [hend] at h
      cases e with
      | tableIndex => exact absurd (congrArg Prod.snd hend) keep_code
      | multipleOutputs => cases h
  · rw [hfeed] at h
    change e.result = _ at h
    cases e with
    | multipleOutputs => cases h
    | tableIndex =>
        obtain rfl := Except.error.inj h
        obtain ⟨read, b, post, u, rfl, hread, hstep⟩ := Lib.exists_of_feed_some hfeed
        obtain ⟨hmode, hlarge⟩ := step_tableIndex hstep
        rcases List.eq_nil_or_concat read with rfl | ⟨pre, a, rfl⟩
        · cases hread
          cases hmode
        · rw [List.concat_eq_append] at hread ⊢
          rcases hpre : Lib.feed step create pre with ⟨v, _ | e⟩
          · rw [Lib.feed_append_of_none hpre] at hread
            rcases hlast : v.step a with ⟨w, _ | e⟩
            · rw [Lib.feed_cons_of_none hlast] at hread
              cases hread
              exact ⟨rfl, pre, a, b, post, by simp, step_mode_plain hlast hmode, hlarge⟩
            · rw [Lib.feed_cons_of_some hlast] at hread
              cases hread
          · rw [Lib.feed_append_of_some hpre] at hread
            cases hread

end Reading

/-- `Parse` finds what the machine finds in the content as it was.  It never reads
or writes outside of it, and no name is written over by one that is found later;
only a character that is not ASCII, right behind a plain one, makes it read in
front of its table. -/
theorem parse_in_place (content : List UInt8) :
    (parse content).map (Except.map Pieces.names) = readDepfile content ∧
    ∀ f, parse content = .error f → f = .tableIndex ∧ ∃ pre a b post,
      content = pre ++ a :: b :: post ∧ isPlain a = true ∧ 0x80 ≤ b := by
  refine ⟨parse_run content, fun f hf ↦ Reading.readDepfile_error ?_⟩
  rw [← parse_run, hf]
  rfl

end DepfileParser

end Falcon
