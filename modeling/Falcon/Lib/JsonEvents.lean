import Falcon.Lib.JsonLexer

/-!
# The events of a JSON document

A reader that does not build the document reports what it meets, each time with the names on
the way to it.
-/

namespace Falcon

namespace Lib

namespace Json

open JsonString

/-- A value is the text that it stands for. -/
inductive Event where
  | startMap
  | endMap
  | mapKey (key : List UInt8)
  | startArray
  | endArray
  | number (n : ℕ)
  | string (value : List UInt8)
  deriving DecidableEq

/-- The names on the way to a value, with a dot in between. -/
def dotted (path : List (List UInt8)) : List UInt8 := [46].intercalate path

mutual

/-- The events of a value, each with the path that it comes with. -/
def events (path : List (List UInt8)) : Json → Option (List (List UInt8 × Event))
  | .num n => some [(dotted path, .number n)]
  | .str body => do
    let value ← decode body
    some [(dotted path, .string value)]
  | .arr items => do
    let evs ← itemEvents path items
    some ((dotted path, .startArray) :: evs ++ [(dotted path, .endArray)])
  | .obj fields => do
    let evs ← fieldEvents path fields
    some ((dotted path, .startMap) :: evs ++ [(dotted path, .endMap)])

def itemEvents (path : List (List UInt8)) : List Json → Option (List (List UInt8 × Event))
  | [] => some []
  | item :: items => do
    let evs ← events (path ++ [utf8 "item".toList]) item
    let rest ← itemEvents path items
    some (evs ++ rest)

def fieldEvents (path : List (List UInt8)) :
    List (List UInt8 × Json) → Option (List (List UInt8 × Event))
  | [] => some []
  | (body, value) :: fields => do
    let key ← decode body
    let evs ← events (path ++ [key]) value
    let rest ← fieldEvents path fields
    some ((dotted path, .mapKey key) :: evs ++ rest)

end

/-! ## Reading events -/

/-- The events of the document that a text holds. -/
def readEvents (text : List UInt8) : Option (List (List UInt8 × Event)) := do
  let j ← readText text
  events [] j

mutual

/-- Where there are events, the strings can be decoded. -/
theorem decodes_of_events {path : List (List UInt8)} {j : Json}
    {evs : List (List UInt8 × Event)} (h : events path j = some evs) :
    ∀ body, Token.str body ∈ tokens j → ∃ data, decode body = some data := by
  match j with
  | .num n =>
      intro body hbody
      simp [tokens] at hbody
  | .str body' =>
      intro body hbody
      obtain rfl : body = body' := by simpa [tokens] using hbody
      simp only [events, Option.bind_eq_bind, Option.bind_eq_some_iff] at h
      obtain ⟨data, hdata, -⟩ := h
      exact ⟨data, hdata⟩
  | .arr [] =>
      intro body hbody
      simp [tokens] at hbody
  | .arr (item :: items) =>
      simp only [events, itemEvents, Option.bind_eq_bind, Option.bind_eq_some_iff] at h
      obtain ⟨_, ⟨_, hitem, _, hitems, -⟩, -⟩ := h
      intro body hbody
      simp only [tokens, List.mem_cons, reduceCtorEq, List.mem_append, false_or] at hbody
      exact hbody.elim (decodes_of_events hitem body) (decodes_of_itemEvents hitems body)
  | .obj [] =>
      intro body hbody
      simp [tokens] at hbody
  | .obj ((key, value) :: fields) =>
      simp only [events, fieldEvents, Option.bind_eq_bind, Option.bind_eq_some_iff] at h
      obtain ⟨_, ⟨data, hkey, _, hvalue, _, hfields, -⟩, -⟩ := h
      intro body hbody
      simp only [tokens, List.mem_cons, reduceCtorEq, Token.str.injEq, List.mem_append,
        false_or] at hbody
      rcases hbody with rfl | hbody | hbody
      · exact ⟨data, hkey⟩
      · exact decodes_of_events hvalue body hbody
      · exact decodes_of_fieldEvents hfields body hbody

theorem decodes_of_itemEvents {path : List (List UInt8)} {items : List Json}
    {evs : List (List UInt8 × Event)} (h : itemEvents path items = some evs) :
    ∀ body, Token.str body ∈ itemTokens items → ∃ data, decode body = some data := by
  match items with
  | [] =>
      intro body hbody
      simp [itemTokens] at hbody
  | item :: items =>
      simp only [itemEvents, Option.bind_eq_bind, Option.bind_eq_some_iff] at h
      obtain ⟨_, hitem, _, hitems, -⟩ := h
      intro body hbody
      simp only [itemTokens, List.mem_cons, reduceCtorEq, List.mem_append, false_or] at hbody
      exact hbody.elim (decodes_of_events hitem body) (decodes_of_itemEvents hitems body)

theorem decodes_of_fieldEvents {path : List (List UInt8)} {fields : List (List UInt8 × Json)}
    {evs : List (List UInt8 × Event)} (h : fieldEvents path fields = some evs) :
    ∀ body, Token.str body ∈ fieldTokens fields → ∃ data, decode body = some data := by
  match fields with
  | [] =>
      intro body hbody
      simp [fieldTokens] at hbody
  | (key, value) :: fields =>
      simp only [fieldEvents, Option.bind_eq_bind, Option.bind_eq_some_iff] at h
      obtain ⟨data, hkey, _, hvalue, _, hfields, -⟩ := h
      intro body hbody
      simp only [fieldTokens, List.mem_cons, reduceCtorEq, Token.str.injEq, List.mem_append,
        false_or] at hbody
      rcases hbody with rfl | hbody | hbody
      · exact ⟨data, hkey⟩
      · exact decodes_of_events hvalue body hbody
      · exact decodes_of_fieldEvents hfields body hbody

end

/-- However a document with events is spelled, its events are read. -/
theorem readEvents_spells {text : List UInt8} {j : Json} {evs : List (List UInt8 × Event)}
    (htext : Spells text (tokens j)) (h : events [] j = some evs) : readEvents text = some evs := by
  have hlex := lex_spells htext (decodes_of_events h) (Nat.le_refl _)
  have hread : readText text = some j := by
    rw [readText, hlex]
    exact parse_tokens j
  rw [readEvents, hread]
  exact h

end Json

end Lib

end Falcon
