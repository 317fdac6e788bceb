import Falcon.Parser.JsonText

/-!
# The strings that the JSON parser reads

Between its quotes the parser takes UTF-8 a byte at a time and decodes escape
sequences at the end of its buffer.  What it has in the buffer at the closing quote
is what the text stands for.
-/

namespace Falcon

namespace Libjson

open Lib.JsonString (Plain hexValue readHex readSurrogate readUnicode readEscape readChar
  simpleEscape unescape)

namespace Parser

variable {p q t : Parser} {l m : List UInt8} {ch : UInt8} {cls : CharClass} {left : ℕ}

/-- The parser reads the bytes without an error. -/
def Reads (p : Parser) (l : List UInt8) (q : Parser) : Prop := Lib.feed step p l = (q, none)

theorem Reads.nil (p : Parser) : p.Reads [] p := rfl

theorem Reads.cons (h : p.step ch = (q, none)) (hl : q.Reads l t) : p.Reads (ch :: l) t :=
  (Lib.feed_cons_of_none h).trans hl

theorem Reads.one (h : p.step ch = (q, none)) : p.Reads [ch] q := .cons h (.nil q)

theorem Reads.append (h : p.Reads l q) (hm : q.Reads m t) : p.Reads (l ++ m) t :=
  (Lib.feed_append_of_none h).trans hm

/-- Within a string or a key; `left` bytes of a character are still to come. -/
def inString (q : State) (key : Bool) (save : State) (left multi : ℕ) (stack : List Mode)
    (buffer : List UInt8) (dom : Dom) : Parser :=
  ⟨q, save, key, left, multi, .none, stack, buffer, dom⟩

section InString

variable {state : State} {key : Bool} {save : State} {multi : ℕ} {stack : List Mode}
  {buffer : List UInt8} {dom : Dom}

/-! ## Characters -/

/-- A byte that stands for itself. -/
def isPlainByte (ch : UInt8) : Bool := 0x20 ≤ ch ∧ ch < 0x80 ∧ ch ≠ 0x22 ∧ ch ≠ 0x5c

theorem string_class {ch : UInt8} (h : isPlainByte ch = true) :
    decode 0 ch = some (characterClass ch, 0) ∧
      stateTransition .s (characterClass ch) = .state .s ∧
      bufferPolicy .s (characterClass ch) = .append :=
  Lib.forall_byte (p := fun ch ↦ isPlainByte ch = true →
    decode 0 ch = some (characterClass ch, 0) ∧
      stateTransition .s (characterClass ch) = .state .s ∧
      bufferPolicy .s (characterClass ch) = .append) (by decide +kernel) ch h

theorem ofNat_of_plain {c : Char} (h : Plain c) (hascii : c.toNat < 128) :
    isPlainByte (UInt8.ofNat c.toNat) = true := by
  obtain ⟨hlow, hquote, hback⟩ := h
  have hall : ∀ k < 128, 32 ≤ k → k ≠ 0x22 → k ≠ 0x5c → isPlainByte (UInt8.ofNat k) = true := by
    decide
  exact hall c.toNat hascii hlow (fun heq ↦ hquote (Char.toNat_inj.mp heq))
    (fun heq ↦ hback (Char.toNat_inj.mp heq))

/-- A byte that is added to the buffer. -/
theorem step_append {next : State} {k : ℕ} (h : decode k ch = some (cls, left))
    (hnext : stateTransition state cls = .state next) (hpolicy : bufferPolicy state cls = .append) :
    (inString state key save k multi stack buffer dom).step ch =
      (inString next key save left multi stack (buffer ++ [ch]) dom, none) := by
  rw [step_of_some (p := inString state key save k multi stack buffer dom) h, advance]
  simp only [inString, hnext, hpolicy]
  rfl

/-- The bytes behind the first one of a character. -/
theorem reads_continuation (h : ∀ ch ∈ l, isContinuation ch = true) :
    (inString .s key save l.length multi stack buffer dom).Reads l
      (inString .s key save 0 multi stack (buffer ++ l) dom) := by
  induction l generalizing buffer with
  | nil =>
      rw [List.append_nil]
      exact .nil _
  | cons ch l ih =>
      rw [List.forall_mem_cons] at h
      have hrest : (inString .s key save l.length multi stack (buffer ++ [ch]) dom).Reads l _ :=
        ih h.2
      rw [List.append_assoc] at hrest
      exact .cons (step_append (if_pos h.1) rfl rfl) hrest

/-- The first byte says how many follow. -/
theorem reads_multibyte {first second : UInt8}
    (hfirst : utf8Header first = some (l.length + 1))
    (h : ∀ ch ∈ second :: l, isContinuation ch = true) :
    (inString .s key save 0 multi stack buffer dom).Reads (first :: second :: l)
      (inString .s key save 0 multi stack (buffer ++ first :: second :: l) dom) := by
  have hdecode : decode 0 first = some (.other, l.length + 1) := by
    rw [decode, hfirst]
    rfl
  have hrest : (inString .s key save (l.length + 1) multi stack (buffer ++ [first]) dom).Reads
      (second :: l) _ := reads_continuation h
  rw [List.append_assoc] at hrest
  exact .cons (step_append hdecode rfl rfl) hrest

theorem isContinuation_of_lt {k : ℕ} (h : k < 64) :
    isContinuation (UInt8.ofNat (k + 0x80)) = true := by
  have hall : ∀ k < 64, isContinuation (UInt8.ofNat (k + 0x80)) = true := by decide
  exact hall k h

theorem utf8Header_two {k : ℕ} (h : k < 32) : utf8Header (UInt8.ofNat (k + 0xc0)) = some 1 := by
  have hall : ∀ k < 32, utf8Header (UInt8.ofNat (k + 0xc0)) = some 1 := by decide
  exact hall k h

theorem utf8Header_three {k : ℕ} (h : k < 16) : utf8Header (UInt8.ofNat (k + 0xe0)) = some 2 := by
  have hall : ∀ k < 16, utf8Header (UInt8.ofNat (k + 0xe0)) = some 2 := by decide
  exact hall k h

theorem utf8Header_four {k : ℕ} (h : k < 8) : utf8Header (UInt8.ofNat (k + 0xf0)) = some 3 := by
  have hall : ∀ k < 8, utf8Header (UInt8.ofNat (k + 0xf0)) = some 3 := by decide
  exact hall k h

theorem isContinuation_mod (k : ℕ) :
    isContinuation (UInt8.ofNat (k % 0x40 + 0x80)) = true :=
  isContinuation_of_lt (Nat.mod_lt k (by decide))

/-- A character that stands for itself. -/
theorem reads_plain {c : Char} (h : Plain c) :
    (inString .s key save 0 multi stack buffer dom).Reads (String.utf8EncodeChar c)
      (inString .s key save 0 multi stack (buffer ++ String.utf8EncodeChar c) dom) := by
  by_cases hascii : c.toNat < 128
  · rw [Lib.utf8EncodeChar_ascii hascii]
    obtain ⟨hdecode, hnext, hpolicy⟩ := string_class (ofNat_of_plain h hascii)
    exact .one (step_append hdecode hnext hpolicy)
  · rw [String.utf8EncodeChar]
    rw [if_neg (show ¬ c.val.toNat ≤ 0x7f from fun hle ↦ hascii (Nat.lt_succ_of_le hle))]
    split
    · refine reads_multibyte (l := []) (utf8Header_two (Nat.mod_lt _ (by decide))) ?_
      exact List.forall_mem_singleton.mpr (isContinuation_mod _)
    · split
      · refine reads_multibyte (utf8Header_three (Nat.mod_lt _ (by decide))) ?_
        exact List.forall_mem_cons.mpr
          ⟨isContinuation_mod _, List.forall_mem_singleton.mpr (isContinuation_mod _)⟩
      · refine reads_multibyte (utf8Header_four (Nat.mod_lt _ (by decide))) ?_
        exact List.forall_mem_cons.mpr ⟨isContinuation_mod _, List.forall_mem_cons.mpr
          ⟨isContinuation_mod _, List.forall_mem_singleton.mpr (isContinuation_mod _)⟩⟩

/-! ## Escape sequences -/

theorem reads_simpleEscape {c d : Char} (h : simpleEscape c = some d) :
    (inString .s key save 0 multi stack buffer dom).Reads
      (0x5c :: String.utf8EncodeChar c)
      (inString .s key save 0 multi stack (buffer ++ String.utf8EncodeChar d) dom) := by
  unfold simpleEscape at h
  split at h <;> cases h <;> exact .cons rfl (.one rfl)

end InString

/-! ### Four digits -/

/-- What a digit of an escape sequence is to the parser. -/
def IsHexByte (ch : UInt8) (value : ℕ) : Prop :=
  decode 0 ch = some (characterClass ch, 0) ∧ (characterClass ch).isHex = true ∧ hex ch = value ∧
    value < 16

instance (ch : UInt8) (value : ℕ) : Decidable (IsHexByte ch value) :=
  inferInstanceAs (Decidable (_ ∧ _ ∧ _ ∧ _))

theorem hexValue_small {c : Char} {value : ℕ} (h : hexValue c = some value) : c.toNat < 128 := by
  have hle {d : Char} (hd : c ≤ d) : c.toNat ≤ d.toNat := UInt32.le_iff_toNat_le.mp hd
  rw [hexValue] at h
  split_ifs at h with hdigit hlower hupper
  · exact (hle hdigit.2).trans_lt (by decide)
  · exact (hle hlower.2).trans_lt (by decide)
  · exact (hle hupper.2).trans_lt (by decide)

/-- A hexadecimal digit. -/
theorem hexValue_byte {c : Char} {value : ℕ} (h : hexValue c = some value) :
    String.utf8EncodeChar c = [UInt8.ofNat c.toNat] ∧ IsHexByte (UInt8.ofNat c.toNat) value := by
  have hsmall := hexValue_small h
  have hall : ∀ k < 128, ∀ value ∈ hexValue (Char.ofNat k), IsHexByte (UInt8.ofNat k) value := by
    decide +kernel
  refine ⟨Lib.utf8EncodeChar_ascii hsmall, hall c.toNat hsmall value ?_⟩
  rw [Char.ofNat_toNat]
  exact h

/-! ### Code points -/

theorem shift_or {u value : ℕ} (h : value < 16) : u <<< 4 ||| value = u * 16 + value := by
  rw [Nat.shiftLeft_eq, Nat.mul_comm u, ← Nat.two_pow_add_eq_or_of_lt h u]

/-- The upper six bits of sixteen. -/
theorem and_surrogate {v : ℕ} (h : v < 0x10000) : v &&& 0xfc00 = v / 0x400 * 0x400 := by
  have hdiv : (v &&& 0xfc00) / 2 ^ 10 = v / 2 ^ 10 := by
    rw [Nat.and_div_two_pow]
    exact (Nat.and_two_pow_sub_one_eq_mod (v / 2 ^ 10) 6).trans (Nat.mod_eq_of_lt (by omega))
  have hmod : (v &&& 0xfc00) % 2 ^ 10 = 0 := by
    rw [Nat.and_mod_two_pow]
    exact Nat.and_zero _
  omega

theorem isHighSurrogate_iff {v : ℕ} (h : v < 0x10000) :
    isHighSurrogate v = true ↔ 0xd800 ≤ v ∧ v < 0xdc00 := by
  rw [isHighSurrogate, decide_eq_true_eq, and_surrogate h]
  omega

theorem isLowSurrogate_iff {v : ℕ} (h : v < 0x10000) :
    isLowSurrogate v = true ↔ 0xdc00 ≤ v ∧ v < 0xe000 := by
  rw [isLowSurrogate, decide_eq_true_eq, and_surrogate h]
  omega

theorem toNat_charOfNat {v : ℕ} (h : v.isValidChar) : (Char.ofNat v).val.toNat = v := by
  rw [Char.ofNat, dif_pos h]
  rfl

theorem or_continuation (v : ℕ) : v &&& 0x3f ||| 0x80 = v % 0x40 + 0x80 := by
  have hall : ∀ k < 64, k ||| 0x80 = k + 0x80 := by decide
  have hmod : v &&& 0x3f = v % 0x40 := Nat.and_two_pow_sub_one_eq_mod v 6
  rw [hmod]
  exact hall _ (Nat.mod_lt _ (by decide))

theorem or_two {k : ℕ} (h : k < 32) : k ||| 0xc0 = k % 0x20 + 0xc0 := by
  have hall : ∀ k < 32, k ||| 0xc0 = k % 0x20 + 0xc0 := by decide
  exact hall k h

theorem or_three {k : ℕ} (h : k < 16) : k ||| 0xe0 = k % 0x10 + 0xe0 := by
  have hall : ∀ k < 16, k ||| 0xe0 = k % 0x10 + 0xe0 := by decide
  exact hall k h

theorem or_four {k : ℕ} (h : k < 8) : k ||| 0xf0 = k % 0x08 + 0xf0 := by
  have hall : ∀ k < 8, k ||| 0xf0 = k % 0x08 + 0xf0 := by decide
  exact hall k h

/-- The bytes that `decode_unicode_char` puts together are UTF-8. -/
theorem utf8_two {v : ℕ} (hlow : 0x80 ≤ v) (h : v < 0x800) :
    String.utf8EncodeChar (Char.ofNat v) =
      [.ofNat (v >>> 6 ||| 0xc0), .ofNat (v &&& 0x3f ||| 0x80)] := by
  rw [String.utf8EncodeChar, toNat_charOfNat (Or.inl (by omega)), if_neg (by omega),
    if_pos (by omega), Nat.shiftRight_eq_div_pow, or_two (by omega), or_continuation]

theorem utf8_three {v : ℕ} (hlow : 0x800 ≤ v) (h : v < 0x10000) (hvalid : v.isValidChar) :
    String.utf8EncodeChar (Char.ofNat v) =
      [.ofNat (v >>> 12 ||| 0xe0), .ofNat (v >>> 6 &&& 0x3f ||| 0x80),
        .ofNat (v &&& 0x3f ||| 0x80)] := by
  rw [String.utf8EncodeChar, toNat_charOfNat hvalid, if_neg (by omega), if_neg (by omega),
    if_pos (by omega), Nat.shiftRight_eq_div_pow, Nat.shiftRight_eq_div_pow, or_three (by omega),
    or_continuation, or_continuation]

theorem utf8_four {v : ℕ} (hlow : 0x10000 ≤ v) (h : v < 0x110000) :
    String.utf8EncodeChar (Char.ofNat v) =
      [.ofNat (v >>> 18 ||| 0xf0), .ofNat (v >>> 12 &&& 0x3f ||| 0x80),
        .ofNat (v >>> 6 &&& 0x3f ||| 0x80), .ofNat (v &&& 0x3f ||| 0x80)] := by
  rw [String.utf8EncodeChar, toNat_charOfNat (Or.inr ⟨by omega, by omega⟩), if_neg (by omega),
    if_neg (by omega), if_neg (by omega), Nat.shiftRight_eq_div_pow, Nat.shiftRight_eq_div_pow,
    Nat.shiftRight_eq_div_pow, or_four (by omega), or_continuation, or_continuation,
    or_continuation]

section Unicode

variable {key : Bool} {save : State} {multi hi v : ℕ} {stack : List Mode} {buffer : List UInt8}
  {dom : Dom} {a b c d : UInt8} {xa xb xc xd : ℕ}

/-- The number that four digits are. -/
def digits4 (xa xb xc xd : ℕ) : ℕ := ((xa * 16 + xb) * 16 + xc) * 16 + xd

variable (ha : IsHexByte a xa) (hb : IsHexByte b xb) (hc : IsHexByte c xc) (hd : IsHexByte d xd)
include ha hb hc hd

theorem digits4_lt : digits4 xa xb xc xd < 0x10000 := by
  have := ha.2.2.2
  have := hb.2.2.2
  have := hc.2.2.2
  have := hd.2.2.2
  rw [digits4]
  omega

theorem fold_digits : [a, b, c, d].foldl (fun uval ch ↦ uval <<< 4 ||| hex ch) 0 =
    digits4 xa xb xc xd := by
  simp only [List.foldl_cons, List.foldl_nil, ha.2.2.1, hb.2.2.1, hc.2.2.1, hd.2.2.1,
    shift_or ha.2.2.2, shift_or hb.2.2.2, shift_or hc.2.2.2, shift_or hd.2.2.2, digits4]
  omega

/-- Three digits are only added to the buffer, and at the fourth the code point is
decoded. -/
theorem reads_digits {multi' : ℕ} {buffer' : List UInt8}
    (hdecode : decodeUnicodeChar
      (inString .u4 key save 0 multi stack (buffer ++ [a, b, c, d]) dom) =
        (inString .u4 key save 0 multi' stack buffer' dom, none)) :
    (inString .u1 key save 0 multi stack buffer dom).Reads [a, b, c, d]
      (inString (if multi' ≠ 0 then .d1 else .s) key save 0 multi' stack buffer' dom) := by
  refine .cons (step_append ha.1 (if_pos ha.2.1) (if_pos ha.2.1)) ?_
  refine .cons (step_append hb.1 (if_pos hb.2.1) (if_pos hb.2.1)) ?_
  refine .cons (step_append hc.1 (if_pos hc.2.1) (if_pos hc.2.1)) (.one ?_)
  have hnext : stateTransition .u4 (characterClass d) = .action .uc := if_pos hd.2.1
  have hpolicy : bufferPolicy .u4 (characterClass d) = .append := if_pos hd.2.1
  rw [step_of_some (p := inString .u4 key save 0 multi stack _ dom) hd.1, advance]
  simp only [inString, hnext, hpolicy]
  have happend : buffer ++ [a] ++ [b] ++ [c] ++ [d] = buffer ++ [a, b, c, d] := by simp
  rw [bufferPush, doAction]
  simp only [actionsMap, actUc, happend]
  rw [inString] at hdecode
  rw [if_neg (by decide), hdecode]
  rfl

/-- The code point is decoded behind what was in the buffer. -/
theorem decode_digits (hv : digits4 xa xb xc xd = v) :
    decodeUnicodeChar (inString .u4 key save 0 multi stack (buffer ++ [a, b, c, d]) dom) =
      if multi = 0 ∧ v < 0x80 then
        (inString .u4 key save 0 multi stack (buffer ++ [.ofNat v]) dom, none)
      else if multi ≠ 0 then
        if ¬ isLowSurrogate v then
          (inString .u4 key save 0 multi stack buffer dom, some .unicodeMissingLowSurrogate)
        else
          let v := 0x10000 + ((multi &&& 0x3ff) <<< 10) + (v &&& 0x3ff)
          (inString .u4 key save 0 0 stack
            (buffer ++ [.ofNat (v >>> 18 ||| 0xf0), .ofNat (v >>> 12 &&& 0x3f ||| 0x80),
              .ofNat (v >>> 6 &&& 0x3f ||| 0x80), .ofNat (v &&& 0x3f ||| 0x80)]) dom, none)
      else if isLowSurrogate v then
        (inString .u4 key save 0 multi stack buffer dom, some .unicodeUnexpectedLowSurrogate)
      else if isHighSurrogate v then (inString .u4 key save 0 v stack buffer dom, none)
      else if v < 0x800 then
        (inString .u4 key save 0 multi stack
          (buffer ++ [.ofNat (v >>> 6 ||| 0xc0), .ofNat (v &&& 0x3f ||| 0x80)]) dom, none)
      else
        (inString .u4 key save 0 multi stack
          (buffer ++ [.ofNat (v >>> 12 ||| 0xe0), .ofNat (v >>> 6 &&& 0x3f ||| 0x80),
            .ofNat (v &&& 0x3f ||| 0x80)]) dom, none) := by
  have hdrop : (buffer ++ [a, b, c, d]).drop ((buffer ++ [a, b, c, d]).length - 4) =
    [a, b, c, d] := by simp
  have htake : (buffer ++ [a, b, c, d]).take ((buffer ++ [a, b, c, d]).length - 4) =
    buffer := by simp
  rw [decodeUnicodeChar]
  simp only [inString, hdrop, htake, fold_digits ha hb hc hd, hv]

/-- A code point that is a character. -/
theorem reads_codePoint (hv : digits4 xa xb xc xd = v) (hvalid : v < 0xd800 ∨ 0xe000 ≤ v) :
    (inString .u1 key save 0 0 stack buffer dom).Reads [a, b, c, d]
      (inString .s key save 0 0 stack (buffer ++ String.utf8EncodeChar (Char.ofNat v)) dom) := by
  have hlt := digits4_lt ha hb hc hd
  rw [hv] at hlt
  have hlow : ¬ isLowSurrogate v = true := by
    rw [isLowSurrogate_iff hlt]
    omega
  have hhigh : ¬ isHighSurrogate v = true := by
    rw [isHighSurrogate_iff hlt]
    omega
  have hchar : v.isValidChar := hvalid.imp id fun hle ↦ ⟨by omega, by omega⟩
  have hencoded : decodeUnicodeChar
      (inString .u4 key save 0 0 stack (buffer ++ [a, b, c, d]) dom) =
      (inString .u4 key save 0 0 stack
        (buffer ++ String.utf8EncodeChar (Char.ofNat v)) dom, none) := by
    rw [decode_digits ha hb hc hd hv]
    by_cases hascii : v < 0x80
    · have hone : String.utf8EncodeChar (Char.ofNat v) = [UInt8.ofNat v] := by
        have hnat : (Char.ofNat v).toNat = v := toNat_charOfNat hchar
        rw [Lib.utf8EncodeChar_ascii (by rw [hnat]; exact hascii), hnat]
      rw [if_pos ⟨rfl, hascii⟩, hone]
    · rw [if_neg fun h ↦ hascii h.2, if_neg (not_not.mpr rfl), if_neg hlow, if_neg hhigh]
      split_ifs with hsmall
      · rw [utf8_two (by omega) hsmall]
      · rw [utf8_three (by omega) hlt hchar]
  exact reads_digits ha hb hc hd hencoded

/-- The first half of a pair of surrogates. -/
theorem reads_high (hv : digits4 xa xb xc xd = v) (hhigh : 0xd800 ≤ v ∧ v < 0xdc00) :
    (inString .u1 key save 0 0 stack buffer dom).Reads [a, b, c, d]
      (inString .d1 key save 0 v stack buffer dom) := by
  have hlt := digits4_lt ha hb hc hd
  rw [hv] at hlt
  have hlow : ¬ isLowSurrogate v = true := by
    rw [isLowSurrogate_iff hlt]
    omega
  have hsurrogate : isHighSurrogate v = true := (isHighSurrogate_iff hlt).mpr hhigh
  have hdecode : decodeUnicodeChar
      (inString .u4 key save 0 0 stack (buffer ++ [a, b, c, d]) dom) = _ :=
    decode_digits ha hb hc hd hv
  rw [if_neg (by omega), if_neg (not_not.mpr rfl), if_neg hlow, if_pos hsurrogate] at hdecode
  have hreads := reads_digits ha hb hc hd hdecode
  rwa [if_pos (by omega)] at hreads

/-- The second half of a pair. -/
theorem reads_low (hhi : 0xd800 ≤ hi ∧ hi < 0xdc00) (hv : digits4 xa xb xc xd = v)
    (hlow : 0xdc00 ≤ v ∧ v < 0xe000) :
    (inString .u1 key save 0 hi stack buffer dom).Reads [a, b, c, d]
      (inString .s key save 0 0 stack (buffer ++ String.utf8EncodeChar
        (Char.ofNat (0x10000 + (hi - 0xd800) * 0x400 + (v - 0xdc00)))) dom) := by
  have hlt := digits4_lt ha hb hc hd
  rw [hv] at hlt
  have hsurrogate : isLowSurrogate v = true := (isLowSurrogate_iff hlt).mpr hlow
  have hvalue : 0x10000 + ((hi &&& 0x3ff) <<< 10) + (v &&& 0x3ff) =
      0x10000 + (hi - 0xd800) * 0x400 + (v - 0xdc00) := by
    have hhi' : hi &&& 0x3ff = hi % 0x400 := Nat.and_two_pow_sub_one_eq_mod hi 10
    have hv' : v &&& 0x3ff = v % 0x400 := Nat.and_two_pow_sub_one_eq_mod v 10
    rw [hhi', hv', Nat.shiftLeft_eq]
    omega
  have hdecode : decodeUnicodeChar
      (inString .u4 key save 0 hi stack (buffer ++ [a, b, c, d]) dom) = _ :=
    decode_digits ha hb hc hd hv
  rw [if_neg (by omega), if_pos (by omega), if_neg (not_not.mpr hsurrogate)] at hdecode
  simp only [hvalue] at hdecode
  rw [← utf8_four (by omega) (by omega)] at hdecode
  exact reads_digits ha hb hc hd hdecode

end Unicode

/-! ## Bodies -/

/-- Four digits, as characters. -/
structure FourDigits (pre : List Char) (v : ℕ) : Prop where
  bytes : ∃ a b c d xa xb xc xd, Lib.utf8 pre = [a, b, c, d] ∧ IsHexByte a xa ∧ IsHexByte b xb ∧
    IsHexByte c xc ∧ IsHexByte d xd ∧ digits4 xa xb xc xd = v

theorem readHex_eq {cs rest : List Char} {v : ℕ} (h : readHex cs = some (v, rest)) :
    ∃ pre, cs = pre ++ rest ∧ FourDigits pre v := by
  rcases cs with _ | ⟨a, _ | ⟨b, _ | ⟨c, _ | ⟨d, cs⟩⟩⟩⟩
  · cases h
  · cases h
  · cases h
  · cases h
  · simp only [readHex, Option.bind_eq_bind, Option.bind_eq_some_iff, Option.some.injEq,
      Prod.mk.injEq] at h
    obtain ⟨xa, ha, xb, hb, xc, hc, xd, hd, rfl, rfl⟩ := h
    obtain ⟨ha₁, ha₂⟩ := hexValue_byte ha
    obtain ⟨hb₁, hb₂⟩ := hexValue_byte hb
    obtain ⟨hc₁, hc₂⟩ := hexValue_byte hc
    obtain ⟨hd₁, hd₂⟩ := hexValue_byte hd
    refine ⟨[a, b, c, d], rfl, ⟨_, _, _, _, _, _, _, _, ?_, ha₂, hb₂, hc₂, hd₂, rfl⟩⟩
    simp [ha₁, hb₁, hc₁, hd₁]

section Body

variable {key : Bool} {save : State} {stack : List Mode} {buffer : List UInt8} {dom : Dom}
  {cs rest : List Char} {c d : Char}

/-- The parser has read the characters in front of `rest`, and `d` is what they are. -/
def ReadsChar (q : State) (key : Bool) (save : State) (multi : ℕ) (stack : List Mode)
    (buffer : List UInt8) (dom : Dom) (cs rest : List Char) (d : Char) : Prop :=
  ∃ pre, cs = pre ++ rest ∧ (inString q key save 0 multi stack buffer dom).Reads (Lib.utf8 pre)
    (inString .s key save 0 0 stack (buffer ++ String.utf8EncodeChar d) dom)

theorem readsChar_surrogate {hi : ℕ} (hhi : 0xd800 ≤ hi ∧ hi < 0xdc00)
    (h : readSurrogate hi cs = some (d, rest)) :
    ReadsChar .d1 key save hi stack buffer dom cs rest d := by
  unfold readSurrogate at h
  split at h
  · simp only [Option.bind_eq_bind, Option.bind_eq_some_iff] at h
    obtain ⟨⟨lo, rest'⟩, hhex, h⟩ := h
    simp only at h
    split_ifs at h with hlo
    · obtain ⟨rfl, rfl⟩ := Prod.mk.inj (Option.some.inj h)
      obtain ⟨pre, rfl, ⟨a, b, c, d, xa, xb, xc, xd, hbytes, ha, hb, hc, hd, hv⟩⟩ :=
        readHex_eq hhex
      refine ⟨'\\' :: 'u' :: pre, rfl, ?_⟩
      rw [Lib.utf8_cons, Lib.utf8_cons, hbytes]
      have hdigits : (inString .u1 key save 0 hi stack buffer dom).Reads [a, b, c, d] _ :=
        reads_low ha hb hc hd hhi hv hlo
      exact .cons (q := inString .d2 key save 0 hi stack buffer dom) rfl (.cons rfl hdigits)
  · cases h

/-- Behind `\u`. -/
theorem readsChar_unicode (h : readUnicode cs = some (d, rest)) :
    ReadsChar .u1 key save 0 stack buffer dom cs rest d := by
  simp only [readUnicode, Option.bind_eq_bind, Option.bind_eq_some_iff] at h
  obtain ⟨⟨code, rest'⟩, hhex, h⟩ := h
  simp only at h
  obtain ⟨pre, rfl, ⟨a, b, c, e, xa, xb, xc, xe, hbytes, ha, hb, hc, he, hv⟩⟩ := readHex_eq hhex
  split_ifs at h with hhigh hlow
  · obtain ⟨pre', rfl, hreads⟩ := readsChar_surrogate hhigh h
    refine ⟨pre ++ pre', (List.append_assoc _ _ _).symm, ?_⟩
    rw [Lib.utf8, List.flatMap_append]
    refine Reads.append ?_ hreads
    change (inString .u1 key save 0 0 stack buffer dom).Reads (Lib.utf8 pre) _
    rw [hbytes]
    exact reads_high ha hb hc he hv hhigh
  · obtain ⟨rfl, rfl⟩ := Prod.mk.inj (Option.some.inj h)
    refine ⟨pre, rfl, ?_⟩
    rw [hbytes]
    exact reads_codePoint ha hb hc he hv (by omega)

/-- Behind a backslash. -/
theorem readsChar_escape (h : readEscape cs = some (d, rest)) :
    ReadsChar .s key save 0 stack buffer dom ('\\' :: cs) rest d := by
  cases cs with
  | nil => cases h
  | cons e cs =>
      rw [readEscape] at h
      split_ifs at h with hunicode
      · obtain ⟨pre, rfl, hreads⟩ := readsChar_unicode h
        refine ⟨'\\' :: e :: pre, rfl, ?_⟩
        rw [hunicode, Lib.utf8_cons, Lib.utf8_cons]
        exact .cons (q := inString .e0 key save 0 0 stack buffer dom) rfl (.cons rfl hreads)
      · obtain ⟨d', hescape, heq⟩ := Option.map_eq_some_iff.mp h
        obtain ⟨rfl, rfl⟩ := Prod.mk.inj heq
        refine ⟨['\\', e], rfl, ?_⟩
        rw [Lib.utf8_cons, Lib.utf8_cons, Lib.utf8_nil, List.append_nil]
        exact reads_simpleEscape hescape

theorem readsChar (h : readChar c cs = some (d, rest)) :
    ReadsChar .s key save 0 stack buffer dom (c :: cs) rest d := by
  rw [readChar] at h
  split_ifs at h with hback hother
  · rw [hback]
    exact readsChar_escape h
  · obtain ⟨rfl, rfl⟩ := Prod.mk.inj (Option.some.inj h)
    rw [not_or, Nat.not_lt] at hother
    refine ⟨[c], rfl, ?_⟩
    rw [Lib.utf8_cons, Lib.utf8_nil, List.append_nil]
    exact reads_plain ⟨hother.2, hother.1, hback⟩

theorem reads_unescape {fuel : ℕ} {ds : List Char} (h : unescape fuel cs = some ds) :
    (inString .s key save 0 0 stack buffer dom).Reads (Lib.utf8 cs)
      (inString .s key save 0 0 stack (buffer ++ Lib.utf8 ds) dom) := by
  induction fuel generalizing cs ds buffer with
  | zero =>
      cases cs with
      | nil =>
          obtain rfl := Option.some.inj h
          rw [Lib.utf8_nil, List.append_nil]
          exact .nil _
      | cons c cs => cases h
  | succ fuel ih =>
      cases cs with
      | nil =>
          obtain rfl := Option.some.inj h
          rw [Lib.utf8_nil, List.append_nil]
          exact .nil _
      | cons c cs =>
          obtain ⟨d, rest, ds, hread, hrest, rfl⟩ := Lib.JsonString.unescape_cons h
          obtain ⟨pre, hpre, hreads⟩ := readsChar hread
          rw [hpre, Lib.utf8, List.flatMap_append, Lib.utf8_cons, ← List.append_assoc]
          exact hreads.append (ih hrest)

/-- What is between the quotes ends up in the buffer as what it stands for. -/
theorem reads_body {body data : List UInt8} (h : Lib.JsonString.decode body = some data) :
    (inString .s key save 0 0 stack buffer dom).Reads body
      (inString .s key save 0 0 stack (buffer ++ data) dom) := by
  simp only [Lib.JsonString.decode, Option.bind_eq_bind, Option.bind_eq_some_iff,
    Option.some.injEq] at h
  obtain ⟨cs, hcs, ds, hds, rfl⟩ := h
  rw [← Lib.utf8_of_decode hcs]
  exact reads_unescape hds

end Body

end Parser

end Libjson

end Falcon
