import Falcon.Lib.JsonString

/-!
# JSON documents

A document is read from its tokens, and a text spells tokens with blanks in
between.  The body of a string is a token as it is written; numbers are those
without a sign, a fraction and an exponent.
-/

namespace Falcon

namespace Lib

inductive Json where
  | num (n : ℕ)
  | str (body : List UInt8)
  | arr (items : List Json)
  | obj (fields : List (List UInt8 × Json))

namespace Json

inductive Token where
  | num (n : ℕ)
  | str (body : List UInt8)
  | openArr
  | closeArr
  | openObj
  | closeObj
  | comma
  | colon
  deriving DecidableEq

/-! ## Writing and reading tokens -/

mutual

def tokens : Json → List Token
  | .num n => [.num n]
  | .str body => [.str body]
  | .arr [] => [.openArr, .closeArr]
  | .arr (item :: items) => .openArr :: (tokens item ++ itemTokens items)
  | .obj [] => [.openObj, .closeObj]
  | .obj ((key, value) :: fields) =>
      .openObj :: .str key :: .colon :: (tokens value ++ fieldTokens fields)

/-- The items after the first one. -/
def itemTokens : List Json → List Token
  | [] => [.closeArr]
  | item :: items => .comma :: (tokens item ++ itemTokens items)

/-- The fields after the first one. -/
def fieldTokens : List (List UInt8 × Json) → List Token
  | [] => [.closeObj]
  | (key, value) :: fields => .comma :: .str key :: .colon :: (tokens value ++ fieldTokens fields)

end

mutual

def readValue : ℕ → List Token → Option (Json × List Token)
  | _ + 1, .num n :: rest => some (.num n, rest)
  | _ + 1, .str body :: rest => some (.str body, rest)
  | _ + 1, .openArr :: .closeArr :: rest => some (.arr [], rest)
  | fuel + 1, .openArr :: rest => do
    let (item, rest) ← readValue fuel rest
    let (items, rest) ← readItems fuel rest
    some (.arr (item :: items), rest)
  | _ + 1, .openObj :: .closeObj :: rest => some (.obj [], rest)
  | fuel + 1, .openObj :: .str key :: .colon :: rest => do
    let (value, rest) ← readValue fuel rest
    let (fields, rest) ← readFields fuel rest
    some (.obj ((key, value) :: fields), rest)
  | _, _ => none

def readItems : ℕ → List Token → Option (List Json × List Token)
  | _ + 1, .closeArr :: rest => some ([], rest)
  | fuel + 1, .comma :: rest => do
    let (item, rest) ← readValue fuel rest
    let (items, rest) ← readItems fuel rest
    some (item :: items, rest)
  | _, _ => none

def readFields : ℕ → List Token → Option (List (List UInt8 × Json) × List Token)
  | _ + 1, .closeObj :: rest => some ([], rest)
  | fuel + 1, .comma :: .str key :: .colon :: rest => do
    let (value, rest) ← readValue fuel rest
    let (fields, rest) ← readFields fuel rest
    some ((key, value) :: fields, rest)
  | _, _ => none

end

/-- The value that all tokens together stand for. -/
def parse (toks : List Token) : Option Json :=
  match readValue toks.length toks with
  | some (j, []) => some j
  | _ => none

theorem tokens_head (j : Json) : ∃ t toks, tokens j = t :: toks ∧ t ≠ .closeArr := by
  match j with
  | .num n => exact ⟨_, _, by rw [tokens], by simp⟩
  | .str body => exact ⟨_, _, by rw [tokens], by simp⟩
  | .arr [] => exact ⟨_, _, by rw [tokens], by simp⟩
  | .arr (item :: items) => exact ⟨_, _, by rw [tokens], by simp⟩
  | .obj [] => exact ⟨_, _, by rw [tokens], by simp⟩
  | .obj ((key, value) :: fields) => exact ⟨_, _, by rw [tokens], by simp⟩

theorem readValue_openArr {fuel : ℕ} {t : Token} {rest : List Token} (h : t ≠ .closeArr) :
    readValue (fuel + 1) (.openArr :: t :: rest) = (do
      let (item, rest) ← readValue fuel (t :: rest)
      let (items, rest) ← readItems fuel rest
      some (.arr (item :: items), rest)) := by
  cases t with
  | closeArr => exact absurd rfl h
  | _ => simp [readValue]

mutual

theorem readValue_tokens (j : Json) (fuel : ℕ) (hfuel : (tokens j).length ≤ fuel)
    (rest : List Token) : readValue fuel (tokens j ++ rest) = some (j, rest) := by
  obtain ⟨t, toks, hhead, -⟩ := tokens_head j
  obtain ⟨fuel, rfl⟩ : ∃ k, fuel = k + 1 := by
    rw [hhead, List.length_cons] at hfuel
    exact ⟨fuel - 1, by omega⟩
  match j with
  | .num n => simp [tokens, readValue]
  | .str body => simp [tokens, readValue]
  | .arr [] => simp [tokens, readValue]
  | .obj [] => simp [tokens, readValue]
  | .arr (item :: items) =>
      simp only [tokens, List.length_cons, List.length_append] at hfuel
      have hitem := readValue_tokens item fuel (by omega) (itemTokens items ++ rest)
      have hitems := readItems_tokens items fuel (by omega) rest
      obtain ⟨t, toks, hhead, ht⟩ := tokens_head item
      rw [hhead, List.cons_append] at hitem
      rw [tokens, hhead, List.cons_append, List.append_assoc, List.cons_append,
        readValue_openArr ht, hitem]
      simp [hitems]
  | .obj ((key, value) :: fields) =>
      simp only [tokens, List.length_cons, List.length_append] at hfuel
      have hvalue := readValue_tokens value fuel (by omega) (fieldTokens fields ++ rest)
      have hfields := readFields_tokens fields fuel (by omega) rest
      simp [tokens, readValue, hvalue, hfields]

theorem readItems_tokens (items : List Json) (fuel : ℕ) (hfuel : (itemTokens items).length ≤ fuel)
    (rest : List Token) : readItems fuel (itemTokens items ++ rest) = some (items, rest) := by
  match items with
  | [] =>
      obtain ⟨fuel, rfl⟩ : ∃ k, fuel = k + 1 := ⟨fuel - 1, by simp [itemTokens] at hfuel; omega⟩
      simp [itemTokens, readItems]
  | item :: items =>
      simp only [itemTokens, List.length_cons, List.length_append] at hfuel
      obtain ⟨fuel, rfl⟩ : ∃ k, fuel = k + 1 := ⟨fuel - 1, by omega⟩
      have hitem := readValue_tokens item fuel (by omega) (itemTokens items ++ rest)
      have hitems := readItems_tokens items fuel (by omega) rest
      simp [itemTokens, readItems, hitem, hitems]

theorem readFields_tokens (fields : List (List UInt8 × Json)) (fuel : ℕ)
    (hfuel : (fieldTokens fields).length ≤ fuel) (rest : List Token) :
    readFields fuel (fieldTokens fields ++ rest) = some (fields, rest) := by
  match fields with
  | [] =>
      obtain ⟨fuel, rfl⟩ : ∃ k, fuel = k + 1 := ⟨fuel - 1, by simp [fieldTokens] at hfuel; omega⟩
      simp [fieldTokens, readFields]
  | (key, value) :: fields =>
      simp only [fieldTokens, List.length_cons, List.length_append] at hfuel
      obtain ⟨fuel, rfl⟩ : ∃ k, fuel = k + 1 := ⟨fuel - 1, by omega⟩
      have hvalue := readValue_tokens value fuel (by omega) (fieldTokens fields ++ rest)
      have hfields := readFields_tokens fields fuel (by omega) rest
      simp [fieldTokens, readFields, hvalue, hfields]

end

/-- The tokens of a value are read back as that value. -/
theorem parse_tokens (j : Json) : parse (tokens j) = some j := by
  have hread := readValue_tokens j _ (Nat.le_refl (tokens j).length) []
  rw [List.append_nil] at hread
  rw [parse, hread]

/-! ## Tokens in a text -/

def blank (b : UInt8) : Bool := b = 32 || b = 9 || b = 10 || b = 13

def Token.text : Token → List UInt8
  | .num n => utf8 (toString n).toList
  | .str body => 34 :: (body ++ [34])
  | .openArr => [91]
  | .closeArr => [93]
  | .openObj => [123]
  | .closeObj => [125]
  | .comma => [44]
  | .colon => [58]

/-- A number ends before a blank or a mark. -/
def Token.Ends : Token → List UInt8 → Prop
  | .num _, rest => ∀ b ∈ rest.head?, blank b = true ∨ b = 44 ∨ b = 93 ∨ b = 125
  | _, _ => True

inductive Spells : List UInt8 → List Token → Prop
  | nil : Spells [] []
  | blank {b l toks} (hb : blank b = true) (h : Spells l toks) : Spells (b :: l) toks
  | token {t : Token} {l toks} (hends : t.Ends l) (h : Spells l toks) :
      Spells (t.text ++ l) (t :: toks)

/-- A text that spells its tokens whatever follows. -/
def Leads (l : List UInt8) (toks : List Token) : Prop :=
  ∀ ⦃rest toks'⦄, Spells rest toks' → Spells (l ++ rest) (toks ++ toks')

theorem Leads.spells {l : List UInt8} {toks : List Token} (h : Leads l toks) : Spells l toks := by
  have hspells := h .nil
  rw [List.append_nil, List.append_nil] at hspells
  exact hspells

theorem Leads.append {l l' : List UInt8} {toks toks' : List Token} (h : Leads l toks)
    (h' : Leads l' toks') : Leads (l ++ l') (toks ++ toks') := by
  intro rest toks'' hrest
  rw [List.append_assoc, List.append_assoc]
  exact h (h' hrest)

theorem leads_blanks {l : List UInt8} (h : l.all blank = true) : Leads l [] := by
  intro rest toks hrest
  induction l with
  | nil => exact hrest
  | cons b l ih =>
      rw [List.all_cons, Bool.and_eq_true] at h
      exact .blank h.1 (ih h.2)

theorem leads_str (body : List UInt8) : Leads (34 :: (body ++ [34])) [.str body] :=
  fun _ _ hrest ↦ .token (t := .str body) trivial hrest

/-- A number in an object or a list that goes on. -/
theorem leads_num_comma (n : ℕ) :
    Leads (utf8 (toString n).toList ++ [44]) [.num n, .comma] := by
  intro rest toks hrest
  rw [List.append_assoc]
  exact .token (t := .num n) (by simp [Token.Ends]) (.token (t := .comma) trivial hrest)

/-- Tokens that need nothing after them, with the blanks before each. -/
def spaced (l : List (List UInt8 × Token)) : List UInt8 := l.flatMap fun x ↦ x.1 ++ x.2.text

def Token.closed : Token → Bool
  | .num _ => false
  | _ => true

theorem leads_spaced {l : List (List UInt8 × Token)}
    (h : l.all (fun x ↦ x.1.all blank && x.2.closed) = true) :
    Leads (spaced l) (l.map Prod.snd) := by
  induction l with
  | nil => exact leads_blanks rfl
  | cons x l ih =>
      rw [List.all_cons, Bool.and_eq_true, Bool.and_eq_true] at h
      obtain ⟨⟨hblank, hclosed⟩, hrest⟩ := h
      have htoken : Leads x.2.text [x.2] := by
        intro rest toks hrest
        refine .token ?_ hrest
        cases hx : x.2 with
        | num n => simp [hx, Token.closed] at hclosed
        | _ => trivial
      exact ((leads_blanks hblank).append htoken).append (ih hrest)

end Json

end Lib

end Falcon
