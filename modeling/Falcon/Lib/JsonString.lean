import Mathlib.Data.List.Basic

/-!
# JSON strings

What stands between the quotes of a JSON string, as bytes: UTF-8, in which no
control character occurs, and a quote or a backslash only as part of an escape
sequence.  The decoder accepts exactly that, pairs of surrogates included, and
gives the UTF-8 encoding of the characters that are meant.
-/

namespace Falcon.Lib

/-- What holds for every number below 256 holds for every byte. -/
theorem forall_byte {p : UInt8 → Prop} (h : ∀ n : Fin 256, p (UInt8.ofFin n)) (c : UInt8) : p c :=
  h c.toFin

/-! ## UTF-8 -/

def utf8 (cs : List Char) : List UInt8 := cs.flatMap String.utf8EncodeChar

def utf8Decode (l : List UInt8) : Option (List Char) :=
  (ByteArray.mk l.toArray).utf8Decode?.map Array.toList

@[simp] theorem utf8_nil : utf8 [] = [] := rfl

@[simp] theorem utf8_cons (c : Char) (cs : List Char) :
    utf8 (c :: cs) = String.utf8EncodeChar c ++ utf8 cs := by
  simp [utf8]

theorem utf8Encode_eq (cs : List Char) : cs.utf8Encode = ByteArray.mk (utf8 cs).toArray := by
  ext1
  simp [List.utf8Encode, utf8]

theorem utf8Decode_utf8 (cs : List Char) : utf8Decode (utf8 cs) = some cs := by
  rw [utf8Decode, ← utf8Encode_eq, List.utf8Decode?_utf8Encode]
  simp

theorem utf8_of_decode {l : List UInt8} {cs : List Char} (h : utf8Decode l = some cs) :
    utf8 cs = l := by
  obtain ⟨a, ha, rfl⟩ := Option.map_eq_some_iff.mp h
  have hget := ByteArray.utf8Encode_get_utf8Decode? (b := ByteArray.mk l.toArray)
    (h := by rw [ha]; rfl)
  simp only [ha, Option.get_some, utf8Encode_eq] at hget
  have hdata := congrArg ByteArray.data hget
  simpa using congrArg Array.toList hdata

theorem utf8_injective {cs ds : List Char} (h : utf8 cs = utf8 ds) : cs = ds := by
  have hdecode := utf8Decode_utf8 cs
  rw [h, utf8Decode_utf8] at hdecode
  exact (Option.some.inj hdecode).symm

/-- An ASCII character is one byte. -/
theorem utf8EncodeChar_ascii {c : Char} (h : c.toNat < 128) :
    String.utf8EncodeChar c = [UInt8.ofNat c.toNat] := by
  rw [String.utf8EncodeChar]
  exact if_pos (Nat.le_of_lt_succ h)

theorem toNat_ofNat_large {k : ℕ} (h : 128 ≤ k) (h' : k < 256) : 128 ≤ (UInt8.ofNat k).toNat := by
  rw [UInt8.toNat_ofNat', Nat.mod_eq_of_lt h']
  exact h

/-- The bytes of any other character are not ASCII. -/
theorem utf8EncodeChar_large {c : Char} (h : 128 ≤ c.toNat) :
    ∀ b ∈ String.utf8EncodeChar c, 128 ≤ b.toNat := by
  intro b hb
  rw [String.utf8EncodeChar] at hb
  split at hb
  · rename_i hle
    exact absurd (Nat.le_trans h hle) (by decide)
  · split at hb
    · simp only [List.mem_cons, List.not_mem_nil, or_false] at hb
      rcases hb with rfl | rfl <;> exact toNat_ofNat_large (by omega) (by omega)
    · split at hb
      · simp only [List.mem_cons, List.not_mem_nil, or_false] at hb
        rcases hb with rfl | rfl | rfl <;> exact toNat_ofNat_large (by omega) (by omega)
      · simp only [List.mem_cons, List.not_mem_nil, or_false] at hb
        rcases hb with rfl | rfl | rfl | rfl <;> exact toNat_ofNat_large (by omega) (by omega)

/-! ## Escape sequences -/

namespace JsonString

def hexValue (c : Char) : Option ℕ :=
  if '0' ≤ c ∧ c ≤ '9' then some (c.toNat - 48)
  else if 'a' ≤ c ∧ c ≤ 'f' then some (c.toNat - 87)
  else if 'A' ≤ c ∧ c ≤ 'F' then some (c.toNat - 55)
  else none

def readHex : List Char → Option (ℕ × List Char)
  | a :: b :: c :: d :: rest => do
    let a ← hexValue a
    let b ← hexValue b
    let c ← hexValue c
    let d ← hexValue d
    some (((a * 16 + b) * 16 + c) * 16 + d, rest)
  | _ => none

/-- What follows the first half of a pair of surrogates. -/
def readSurrogate (hi : ℕ) : List Char → Option (Char × List Char)
  | '\\' :: 'u' :: rest => do
    let (lo, rest) ← readHex rest
    if 0xdc00 ≤ lo ∧ lo < 0xe000 then
      some (Char.ofNat (0x10000 + (hi - 0xd800) * 0x400 + (lo - 0xdc00)), rest)
    else none
  | _ => none

/-- `\u` has been read. -/
def readUnicode (cs : List Char) : Option (Char × List Char) := do
  let (code, rest) ← readHex cs
  if 0xd800 ≤ code ∧ code < 0xdc00 then readSurrogate code rest
  else if 0xdc00 ≤ code ∧ code < 0xe000 then none
  else some (Char.ofNat code, rest)

def simpleEscape : Char → Option Char
  | '"' => some '"'
  | '\\' => some '\\'
  | '/' => some '/'
  | 'b' => some (Char.ofNat 8)
  | 'f' => some (Char.ofNat 12)
  | 'n' => some '\n'
  | 'r' => some '\r'
  | 't' => some '\t'
  | _ => none

/-- A backslash has been read. -/
def readEscape : List Char → Option (Char × List Char)
  | [] => none
  | e :: rest => if e = 'u' then readUnicode rest else (simpleEscape e).map (·, rest)

/-- The character that starts with `c`. -/
def readChar (c : Char) (rest : List Char) : Option (Char × List Char) :=
  if c = '\\' then readEscape rest
  else if c = '"' ∨ c.toNat < 32 then none
  else some (c, rest)

/-- All characters; as many steps are enough as there are characters to read. -/
def unescape : ℕ → List Char → Option (List Char)
  | _, [] => some []
  | 0, _ :: _ => none
  | fuel + 1, c :: rest => do
    let (c, rest) ← readChar c rest
    let cs ← unescape fuel rest
    some (c :: cs)

/-- The bytes that the body of a JSON string stands for, if it is one. -/
def decode (body : List UInt8) : Option (List UInt8) := do
  let cs ← utf8Decode body
  let cs ← unescape cs.length cs
  some (utf8 cs)

/-- A character that stands for itself. -/
def Plain (c : Char) : Prop := 32 ≤ c.toNat ∧ c ≠ '"' ∧ c ≠ '\\'

theorem readChar_plain {c : Char} (h : Plain c) (rest : List Char) :
    readChar c rest = some (c, rest) := by
  rw [readChar, if_neg h.2.2, if_neg]
  rintro (hquote | hlow)
  · exact h.2.1 hquote
  · exact absurd h.1 (Nat.not_le_of_lt hlow)

theorem readHex_length {cs rest : List Char} {k : ℕ} (h : readHex cs = some (k, rest)) :
    rest.length + 4 = cs.length := by
  match cs with
  | a :: b :: c :: d :: cs =>
      simp only [readHex, Option.bind_eq_bind, Option.bind_eq_some_iff, Option.some.injEq,
        Prod.mk.injEq] at h
      obtain ⟨_, -, _, -, _, -, _, -, -, rfl⟩ := h
      rfl
  | [] => cases h
  | [_] => cases h
  | [_, _] => cases h
  | [_, _, _] => cases h

theorem readSurrogate_length {hi : ℕ} {cs rest : List Char} {c : Char}
    (h : readSurrogate hi cs = some (c, rest)) : rest.length < cs.length := by
  rw [readSurrogate.eq_def] at h
  split at h
  · simp only [Option.bind_eq_bind, Option.bind_eq_some_iff] at h
    obtain ⟨⟨lo, rest'⟩, hhex, h⟩ := h
    have hlen := readHex_length hhex
    split at h
    · obtain ⟨-, rfl⟩ := Prod.mk.inj (Option.some.inj h)
      simp only [List.length_cons]
      omega
    · cases h
  · cases h

theorem readUnicode_length {cs rest : List Char} {c : Char}
    (h : readUnicode cs = some (c, rest)) : rest.length < cs.length := by
  simp only [readUnicode, Option.bind_eq_bind, Option.bind_eq_some_iff] at h
  obtain ⟨⟨code, rest'⟩, hhex, h⟩ := h
  have hlen := readHex_length hhex
  simp only at h
  split at h
  · have hlt := readSurrogate_length h
    omega
  · split at h
    · cases h
    · obtain ⟨-, rfl⟩ := Prod.mk.inj (Option.some.inj h)
      omega

/-- An escape sequence is longer than the character it stands for. -/
theorem readEscape_length {cs rest : List Char} {c : Char}
    (h : readEscape cs = some (c, rest)) : rest.length < cs.length := by
  cases cs with
  | nil => cases h
  | cons e cs =>
      rw [readEscape] at h
      split at h
      · exact Nat.lt_succ_of_lt (readUnicode_length h)
      · obtain ⟨_, -, heq⟩ := Option.map_eq_some_iff.mp h
        obtain ⟨-, rfl⟩ := Prod.mk.inj heq
        exact Nat.lt_succ_self _

theorem unescape_cons {fuel : ℕ} {c : Char} {rest ds : List Char}
    (h : unescape (fuel + 1) (c :: rest) = some ds) :
    ∃ d rest' ds', readChar c rest = some (d, rest') ∧ unescape fuel rest' = some ds' ∧
      ds = d :: ds' := by
  simp only [unescape, Option.bind_eq_bind, Option.bind_eq_some_iff, Option.some.injEq] at h
  obtain ⟨⟨d, rest'⟩, hread, ds', hds', rfl⟩ := h
  exact ⟨d, rest', ds', hread, hds', rfl⟩

/-- What is decoded is not longer than the text, and as long only without escapes. -/
theorem unescape_length {fuel : ℕ} {cs ds : List Char} (h : unescape fuel cs = some ds) :
    ds.length ≤ cs.length ∧ (ds.length = cs.length → ∀ c ∈ cs, Plain c) := by
  induction fuel generalizing cs ds with
  | zero =>
      cases cs with
      | nil =>
          obtain rfl := Option.some.inj h
          simp
      | cons c cs => cases h
  | succ fuel ih =>
      cases cs with
      | nil =>
          obtain rfl := Option.some.inj h
          simp
      | cons c cs =>
          obtain ⟨d, rest, ds', hread, hrest, rfl⟩ := unescape_cons h
          obtain ⟨hle, hall⟩ := ih hrest
          rw [readChar] at hread
          split at hread
          · have hlt := readEscape_length hread
            refine ⟨by simp only [List.length_cons]; omega, fun heq ↦ ?_⟩
            simp only [List.length_cons] at heq
            omega
          · rename_i hslash
            split at hread
            · cases hread
            · rename_i hother
              obtain ⟨rfl, rfl⟩ := Prod.mk.inj (Option.some.inj hread)
              refine ⟨by simpa using hle, fun heq ↦ ?_⟩
              rw [not_or, Nat.not_lt] at hother
              exact List.forall_mem_cons.mpr
                ⟨⟨hother.2, hother.1, hslash⟩, hall (by simpa using heq)⟩

/-- Exactly a text of plain characters stands for itself. -/
theorem unescape_self {fuel : ℕ} {cs : List Char} (hfuel : cs.length ≤ fuel) :
    unescape fuel cs = some cs ↔ ∀ c ∈ cs, Plain c := by
  constructor
  · exact fun h ↦ (unescape_length h).2 rfl
  · intro h
    induction cs generalizing fuel with
    | nil => cases fuel <;> rfl
    | cons c cs ih =>
        obtain ⟨fuel, rfl⟩ : ∃ k, fuel = k + 1 := ⟨fuel - 1, by simp at hfuel; omega⟩
        have hrest := ih (Nat.le_of_succ_le_succ hfuel) fun d hd ↦ h d (List.mem_cons_of_mem c hd)
        simp [unescape, readChar_plain (h c List.mem_cons_self), hrest]

theorem decode_utf8 (cs : List Char) :
    decode (utf8 cs) = (unescape cs.length cs).map utf8 := by
  rw [decode, utf8Decode_utf8]
  cases h : unescape cs.length cs <;> simp [h]

/-- What is decoded is UTF-8. -/
theorem decode_eq_some {body l : List UInt8} (h : decode body = some l) :
    ∃ cs, utf8 cs = l := by
  simp only [decode, Option.bind_eq_bind, Option.bind_eq_some_iff, Option.some.injEq] at h
  obtain ⟨_, -, cs, -, rfl⟩ := h
  exact ⟨cs, rfl⟩

end JsonString

end Falcon.Lib
