import Falcon.Lib.Json

/-!
# The tokens of a JSON text

The tokens that a text spells are found from left to right when the strings in it can be
decoded: a string ends at the first quote that is not escaped, and a number at its last digit.
-/

namespace Falcon

namespace Lib

namespace Json

open JsonString

/-! ## The end of a string -/

/-- The body up to the first quote that is not escaped, and what is behind the quote. -/
def endOfString : List UInt8 → Option (List UInt8 × List UInt8)
  | [] => none
  | 34 :: rest => some ([], rest)
  | 92 :: c :: rest => (endOfString rest).map fun x ↦ (92 :: c :: x.1, x.2)
  | b :: rest => (endOfString rest).map fun x ↦ (b :: x.1, x.2)

/-- The string goes on behind `l`. -/
def Passes (l : List UInt8) : Prop :=
  ∀ rest, endOfString (l ++ rest) = (endOfString rest).map fun x ↦ (l ++ x.1, x.2)

variable {l l' : List UInt8} {c d : Char} {cs rest : List Char}

theorem passes_nil : Passes [] := by
  intro rest
  simp

theorem Passes.append (h : Passes l) (h' : Passes l') : Passes (l ++ l') := by
  intro rest
  rw [List.append_assoc, h, h', Option.map_map]
  refine congrArg (Option.map · _) (funext fun x ↦ ?_)
  simp

theorem passes_byte {b : UInt8} (hquote : b ≠ 34) (hback : b ≠ 92) : Passes [b] := by
  intro rest
  rw [List.singleton_append, endOfString]
  · rfl
  · exact hquote
  · exact fun _ _ h _ ↦ absurd h hback

theorem passes_escape (b : UInt8) : Passes [92, b] := by
  intro rest
  change endOfString (92 :: b :: rest) = _
  rw [endOfString]
  rfl

theorem passes_bytes (h : ∀ b ∈ l, b ≠ 34 ∧ b ≠ 92) : Passes l := by
  induction l with
  | nil => exact passes_nil
  | cons b l ih =>
      obtain ⟨⟨hquote, hback⟩, hrest⟩ := List.forall_mem_cons.mp h
      exact (passes_byte hquote hback).append (ih hrest)

/-- Most characters stand for themselves. -/
theorem passes_char (hquote : c ≠ '"') (hback : c ≠ '\\') : Passes (String.utf8EncodeChar c) := by
  refine passes_bytes fun b hb ↦ ?_
  by_cases hascii : c.toNat < 128
  · rw [utf8EncodeChar_ascii hascii] at hb
    obtain rfl := List.mem_singleton.mp hb
    have hall : ∀ n < 128, Char.ofNat n ≠ '"' → Char.ofNat n ≠ '\\' →
        UInt8.ofNat n ≠ 34 ∧ UInt8.ofNat n ≠ 92 := by
      decide +kernel
    have hchar := hall c.toNat hascii
    rw [Char.ofNat_toNat] at hchar
    exact hchar hquote hback
  · have hlarge := utf8EncodeChar_large (Nat.le_of_not_lt hascii) b hb
    constructor
    all_goals
      rintro rfl
      exact absurd hlarge (by decide)

theorem passes_hex {k : ℕ} (h : hexValue c = some k) : Passes (String.utf8EncodeChar c) := by
  refine passes_char ?_ ?_
  all_goals
    rintro rfl
    cases h

/-- What is read in front of `rest` passes. -/
def PassesTo (cs rest : List Char) : Prop := ∃ pre, cs = pre ++ rest ∧ Passes (utf8 pre)

theorem PassesTo.trans {cs₁ cs₂ cs₃ : List Char} (h : PassesTo cs₁ cs₂) (h' : PassesTo cs₂ cs₃) :
    PassesTo cs₁ cs₃ := by
  obtain ⟨pre, rfl, hpre⟩ := h
  obtain ⟨pre', rfl, hpre'⟩ := h'
  refine ⟨pre ++ pre', (List.append_assoc _ _ _).symm, ?_⟩
  rw [utf8, List.flatMap_append]
  exact hpre.append hpre'

theorem passes_readHex {k : ℕ} (h : readHex cs = some (k, rest)) : PassesTo cs rest := by
  match cs with
  | a :: b :: c :: d :: cs =>
      simp only [readHex, Option.bind_eq_bind, Option.bind_eq_some_iff, Option.some.injEq,
        Prod.mk.injEq] at h
      obtain ⟨_, ha, _, hb, _, hc, _, hd, -, rfl⟩ := h
      refine ⟨[a, b, c, d], rfl, ?_⟩
      rw [utf8_cons, utf8_cons, utf8_cons, utf8_cons, utf8_nil, List.append_nil]
      exact (passes_hex ha).append ((passes_hex hb).append ((passes_hex hc).append (passes_hex hd)))
  | [] => cases h
  | [_] => cases h
  | [_, _] => cases h
  | [_, _, _] => cases h

/-- A backslash and the character behind it. -/
theorem passes_backslash (h : c.toNat < 128) (rest : List Char) :
    PassesTo ('\\' :: c :: rest) rest := by
  refine ⟨['\\', c], rfl, ?_⟩
  rw [utf8_cons, utf8_cons, utf8_nil, List.append_nil, utf8EncodeChar_ascii h]
  exact passes_escape _

theorem passes_readUnicode (h : readUnicode cs = some (d, rest)) :
    PassesTo ('\\' :: 'u' :: cs) rest := by
  refine (passes_backslash (by decide) cs).trans ?_
  simp only [readUnicode, Option.bind_eq_bind, Option.bind_eq_some_iff] at h
  obtain ⟨⟨code, rest'⟩, hhex, h⟩ := h
  refine (passes_readHex hhex).trans ?_
  simp only at h
  split_ifs at h with hhigh hlow
  · unfold readSurrogate at h
    split at h
    · rename_i _ rest''
      refine (passes_backslash (by decide) rest'').trans ?_
      simp only [Option.bind_eq_bind, Option.bind_eq_some_iff] at h
      obtain ⟨⟨lo, cs'⟩, hhex', h⟩ := h
      simp only at h
      split_ifs at h
      obtain ⟨-, rfl⟩ := Prod.mk.inj (Option.some.inj h)
      exact passes_readHex hhex'
    · cases h
  · obtain ⟨-, rfl⟩ := Prod.mk.inj (Option.some.inj h)
    exact ⟨[], rfl, passes_nil⟩

theorem simpleEscape_ascii (h : simpleEscape c = some d) : c.toNat < 128 := by
  unfold simpleEscape at h
  split at h
  all_goals first | decide | cases h

theorem passes_readChar (h : readChar c cs = some (d, rest)) : PassesTo (c :: cs) rest := by
  rw [readChar] at h
  split_ifs at h with hback hother
  · subst hback
    cases cs with
    | nil => cases h
    | cons e cs =>
        rw [readEscape] at h
        split_ifs at h with hunicode
        · exact hunicode ▸ passes_readUnicode h
        · obtain ⟨_, hescape, heq⟩ := Option.map_eq_some_iff.mp h
          obtain ⟨-, rfl⟩ := Prod.mk.inj heq
          exact passes_backslash (simpleEscape_ascii hescape) cs
  · obtain ⟨-, rfl⟩ := Prod.mk.inj (Option.some.inj h)
    refine ⟨[c], rfl, ?_⟩
    rw [utf8_cons, utf8_nil, List.append_nil]
    exact passes_char (not_or.mp hother).1 hback

theorem passes_unescape {fuel : ℕ} {ds : List Char} (h : unescape fuel cs = some ds) :
    Passes (utf8 cs) := by
  induction fuel generalizing cs ds with
  | zero =>
      cases cs with
      | nil => exact passes_nil
      | cons c cs => cases h
  | succ fuel ih =>
      cases cs with
      | nil => exact passes_nil
      | cons c cs =>
          obtain ⟨d, rest, ds, hread, hrest, rfl⟩ := unescape_cons h
          obtain ⟨pre, hpre, hpasses⟩ := passes_readChar hread
          rw [hpre, utf8, List.flatMap_append]
          exact hpasses.append (ih hrest)

/-- A body that can be decoded ends at the quote behind it. -/
theorem endOfString_decode {body data : List UInt8} (h : decode body = some data)
    (rest : List UInt8) : endOfString (body ++ 34 :: rest) = some (body, rest) := by
  simp only [decode, Option.bind_eq_bind, Option.bind_eq_some_iff, Option.some.injEq] at h
  obtain ⟨cs, hcs, ds, hds, -⟩ := h
  have hpasses := passes_unescape hds
  rw [utf8_of_decode hcs] at hpasses
  rw [hpasses (34 :: rest), endOfString]
  simp

/-! ## The lexer -/

def digit (b : UInt8) : Bool := 48 ≤ b && b ≤ 57

/-- The number with these digits. -/
def number (digits : List UInt8) : ℕ :=
  Nat.ofDigitChars 10 (digits.map fun b ↦ Char.ofNat b.toNat) 0

def mark (b : UInt8) : Option Token :=
  if b = 91 then some .openArr
  else if b = 93 then some .closeArr
  else if b = 123 then some .openObj
  else if b = 125 then some .closeObj
  else if b = 44 then some .comma
  else if b = 58 then some .colon
  else none

/-- The tokens of a text; as many steps are enough as there are bytes. -/
def lex : ℕ → List UInt8 → Option (List Token)
  | _, [] => some []
  | 0, _ :: _ => none
  | fuel + 1, b :: rest =>
    if blank b then lex fuel rest
    else if b = 34 then do
      let (body, rest) ← endOfString rest
      let toks ← lex fuel rest
      some (.str body :: toks)
    else if digit b then do
      let toks ← lex fuel (rest.dropWhile digit)
      some (.num (number (b :: rest.takeWhile digit)) :: toks)
    else do
      let t ← mark b
      let toks ← lex fuel rest
      some (t :: toks)

/-- The document that a text holds. -/
def readText (text : List UInt8) : Option Json := do
  let toks ← lex text.length text
  parse toks

theorem digits_utf8 {cs : List Char} (h : ∀ c ∈ cs, c.isDigit = true) :
    (∀ b ∈ utf8 cs, digit b = true) ∧ (utf8 cs).map (fun b ↦ Char.ofNat b.toNat) = cs := by
  have hall : ∀ n < 128, (Char.ofNat n).isDigit = true → digit (UInt8.ofNat n) = true ∧
      Char.ofNat (UInt8.ofNat n).toNat = Char.ofNat n := by
    decide +kernel
  induction cs with
  | nil => simp
  | cons c cs ih =>
      obtain ⟨hc, hcs⟩ := List.forall_mem_cons.mp h
      obtain ⟨hdigits, hmap⟩ := ih hcs
      have hascii : c.toNat < 128 := by
        simp only [Char.isDigit, Bool.and_eq_true, decide_eq_true_eq] at hc
        have hle : c.val.toNat ≤ 57 := hc.2
        exact Nat.lt_of_le_of_lt hle (by decide)
      obtain ⟨hdigit, hchar⟩ := hall c.toNat hascii (by rwa [Char.ofNat_toNat])
      rw [Char.ofNat_toNat] at hchar
      rw [utf8_cons, utf8EncodeChar_ascii hascii]
      refine ⟨List.forall_mem_cons.mpr ⟨hdigit, hdigits⟩, ?_⟩
      rw [List.singleton_append, List.map_cons, hchar, hmap]

/-- The text of a number is digits, and they are read back. -/
theorem text_num (n : ℕ) : ∃ b ds, (Token.num n).text = b :: ds ∧
    (∀ x ∈ b :: ds, digit x = true) ∧ number (b :: ds) = n := by
  have htext : (Token.num n).text = utf8 (Nat.toDigits 10 n) := by
    rw [Token.text, Nat.toString_eq_repr, Nat.toList_repr]
  have hall : ∀ c ∈ Nat.toDigits 10 n, c.isDigit = true := fun c hc ↦
    Nat.isDigit_of_mem_toDigits (by decide) (by decide) hc
  obtain ⟨hdigits, hmap⟩ := digits_utf8 hall
  cases hcons : utf8 (Nat.toDigits 10 n) with
  | nil =>
      rw [hcons] at hmap
      exact absurd hmap.symm Nat.toDigits_ne_nil
  | cons b ds =>
      refine ⟨b, ds, htext.trans hcons, hcons ▸ hdigits, ?_⟩
      rw [number, ← hcons, hmap]
      exact Nat.ofDigitChars_ten_toDigits

theorem digit_facts {b : UInt8} (h : digit b = true) : blank b = false ∧ b ≠ 34 := by
  have hall : ∀ b : UInt8, digit b = true → blank b = false ∧ b ≠ 34 :=
    forall_byte (by decide +kernel)
  exact hall b h

theorem not_digit_of_ends {n : ℕ} {rest : List UInt8} (h : (Token.num n).Ends rest) :
    rest.takeWhile digit = [] ∧ rest.dropWhile digit = rest := by
  cases rest with
  | nil => exact ⟨rfl, rfl⟩
  | cons b rest =>
      have hall : ∀ b : UInt8, (blank b = true ∨ b = 44 ∨ b = 93 ∨ b = 125) → digit b = false :=
        forall_byte (by decide +kernel)
      have hb : digit b = false := hall b (h b rfl)
      exact ⟨by rw [List.takeWhile_cons, hb]; rfl, by rw [List.dropWhile_cons, hb]; rfl⟩

/-- The tokens that are spelled are found, if the strings among them can be decoded. -/
theorem lex_spells {text : List UInt8} {toks : List Token} (h : Spells text toks)
    (hdecode : ∀ body, Token.str body ∈ toks → ∃ data, decode body = some data) {fuel : ℕ}
    (hfuel : text.length ≤ fuel) : lex fuel text = some toks := by
  induction h generalizing fuel with
  | nil => cases fuel <;> rfl
  | blank hb _ ih =>
      obtain ⟨fuel, rfl⟩ : ∃ k, fuel = k + 1 := ⟨fuel - 1, by simp at hfuel; omega⟩
      rw [lex, if_pos hb]
      exact ih hdecode (Nat.le_of_succ_le_succ hfuel)
  | @token t l toks hends _ ih =>
      have hrest : ∀ {k}, l.length ≤ k → lex k l = some toks :=
        ih fun body hbody ↦ hdecode body (List.mem_cons_of_mem _ hbody)
      cases t with
      | num n =>
          obtain ⟨b, ds, htext, hdigits, hnumber⟩ := text_num n
          obtain ⟨htake, hdrop⟩ := not_digit_of_ends hends
          rw [htext, List.cons_append] at hfuel ⊢
          obtain ⟨fuel, rfl⟩ : ∃ k, fuel = k + 1 := ⟨fuel - 1, by simp at hfuel; omega⟩
          obtain ⟨hb, hds⟩ := List.forall_mem_cons.mp hdigits
          obtain ⟨hblank, hquote⟩ := digit_facts hb
          have hlength : l.length ≤ fuel := by
            simp only [List.length_cons, List.length_append] at hfuel
            omega
          rw [lex, hblank, if_neg (by decide), if_neg hquote, if_pos hb,
            List.takeWhile_append_of_pos hds, List.dropWhile_append_of_pos hds, htake, hdrop,
            List.append_nil, hnumber, hrest hlength]
          rfl
      | str body =>
          obtain ⟨data, hdata⟩ := hdecode body List.mem_cons_self
          have htext : (Token.str body).text ++ l = 34 :: (body ++ 34 :: l) := by
            rw [Token.text, List.cons_append, List.append_assoc]
            rfl
          rw [htext] at hfuel ⊢
          obtain ⟨fuel, rfl⟩ : ∃ k, fuel = k + 1 := ⟨fuel - 1, by simp at hfuel; omega⟩
          have hlength : l.length ≤ fuel := by
            simp only [List.length_cons, List.length_append] at hfuel
            omega
          rw [lex, if_neg (by decide), if_pos rfl, endOfString_decode hdata]
          simp only [Option.bind_eq_bind, Option.bind_some, hrest hlength]
      | _ =>
          obtain ⟨fuel, rfl⟩ : ∃ k, fuel = k + 1 :=
            ⟨fuel - 1, by simp [Token.text] at hfuel; omega⟩
          have hlength : l.length ≤ fuel := Nat.le_of_succ_le_succ hfuel
          change lex (fuel + 1) (_ :: l) = _
          rw [lex, if_neg (by decide), if_neg (by decide), if_neg (by decide), hrest hlength]
          rfl

end Json

end Lib

end Falcon
