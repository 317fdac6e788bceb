import Falcon.Lib.JsonString
import Falcon.Parser.Document

/-!
# Texts that denote a document

A grammar of the documents that `JsonParser` is meant for: JSON with comments.  A
text denotes the tree of values that is built from it.
-/

namespace Falcon

namespace Libjson

/-- White space and comments. -/
def Blank (l : List UInt8) : Prop := l.foldlM Trail.read (.blank, 0) = some (.blank, 0)

instance (l : List UInt8) : Decidable (Blank l) := inferInstanceAs (Decidable (_ = _))

/-! ## Numbers -/

def isDigit (c : UInt8) : Bool := 0x30 ≤ c ∧ c ≤ 0x39

structure Digits (l : List UInt8) : Prop where
  ne_nil : l ≠ []
  digits : ∀ c ∈ l, isDigit c = true

def Sign (l : List UInt8) : Prop := l = [] ∨ l = [0x2d]

/-- The part of a number in front of its point: no zero in front of other digits. -/
inductive Whole : List UInt8 → Prop
  | zero : Whole [0x30]
  | digits {c l} (hc : isDigit c = true) (hne : c ≠ 0x30) (h : ∀ d ∈ l, isDigit d = true) :
      Whole (c :: l)

/-- An exponent. -/
inductive Exponent : List UInt8 → Prop
  | mk {e sign l} (he : e = 0x65 ∨ e = 0x45) (hsign : sign = [] ∨ sign = [0x2b] ∨ sign = [0x2d])
      (h : Digits l) : Exponent (e :: (sign ++ l))

/-- Numbers.  The parser has no exponent behind a bare zero. -/
inductive NumberText : List UInt8 → JsonType → Prop
  | int {sign whole} (hsign : Sign sign) (h : Whole whole) : NumberText (sign ++ whole) .int
  | point {sign whole frac} (hsign : Sign sign) (h : Whole whole) (hfrac : Digits frac) :
      NumberText (sign ++ (whole ++ 0x2e :: frac)) .float
  | exponent {sign whole exp} (hsign : Sign sign) (h : Whole whole) (hne : whole ≠ [0x30])
      (hexp : Exponent exp) : NumberText (sign ++ (whole ++ exp)) .float
  | pointExponent {sign whole frac exp} (hsign : Sign sign) (h : Whole whole)
      (hfrac : Digits frac) (hexp : Exponent exp) :
      NumberText (sign ++ (whole ++ 0x2e :: (frac ++ exp))) .float

/-! ## Values -/

/-- What is written for a constant. -/
inductive ConstantText : List UInt8 → JsonType → Prop
  | true : ConstantText [0x74, 0x72, 0x75, 0x65] .true
  | false : ConstantText [0x66, 0x61, 0x6c, 0x73, 0x65] .false
  | null : ConstantText [0x6e, 0x75, 0x6c, 0x6c] .null

/-- A value in an array or behind a key, with what is around it. -/
structure Element where
  before : List UInt8
  text : List UInt8
  tree : Tree
  after : List UInt8

/-- The key of a member, with what is in front of the key and of its colon. -/
structure Key where
  before : List UInt8
  body : List UInt8
  data : List UInt8
  colon : List UInt8

/-- A comment does not begin right behind a floating point number. -/
structure Element.Spaced (x : Element) : Prop where
  before : Blank x.before
  after : Blank x.after
  apart : ∀ array object data, x.tree = .mk .float array object data →
    x.after.head? ≠ some 0x2f

structure Key.Spaced (k : Key) : Prop where
  before : Blank k.before
  body : Lib.JsonString.decode k.body = some k.data
  colon : Blank k.colon

def Element.all (x : Element) : List UInt8 := x.before ++ (x.text ++ x.after)

def quoted (body : List UInt8) : List UInt8 := 0x22 :: (body ++ [0x22])

/-- A key with its value. -/
def memberText (m : Key × Element) : List UInt8 :=
  m.1.before ++ (quoted m.1.body ++ (m.1.colon ++ 0x3a :: m.2.all))

/-- What stands between commas. -/
def separated : List (List UInt8) → List UInt8
  | [] => []
  | [x] => x
  | x :: xs => x ++ 0x2c :: separated xs

/-- The entries of an object: the first value of a key stays. -/
def addEntry (object : List (List UInt8 × Tree)) (m : Key × Element) : List (List UInt8 × Tree) :=
  if (object.lookup m.1.data).isSome then object else object ++ [(m.1.data, m.2.tree)]

/-- The text denotes the tree, and its arrays and objects are within each other `depth`
deep at most. -/
inductive ValueText : ℕ → List UInt8 → Tree → Prop
  | string {depth body data} (h : Lib.JsonString.decode body = some data) :
      ValueText depth (quoted body) (.mk .string [] [] data)
  | number {depth text type} (h : NumberText text type) :
      ValueText depth text (.mk type [] [] text)
  | constant {depth text type} (h : ConstantText text type) :
      ValueText depth text (.mk type [] [] [])
  | emptyArray {depth space} (h : Blank space) :
      ValueText (depth + 1) (0x5b :: (space ++ [0x5d])) (.mk .arrayBegin [] [] [])
  | array {depth} {items : List Element} (hne : items ≠ []) (hspaced : ∀ x ∈ items, x.Spaced)
      (h : ∀ x ∈ items, ValueText depth x.text x.tree) :
      ValueText (depth + 1) (0x5b :: (separated (items.map Element.all) ++ [0x5d]))
        (.mk .arrayBegin (items.map Element.tree) [] [])
  | emptyObject {depth space} (h : Blank space) :
      ValueText (depth + 1) (0x7b :: (space ++ [0x7d])) (.mk .objectBegin [] [] [])
  | object {depth} {members : List (Key × Element)} (hne : members ≠ [])
      (hkeys : ∀ m ∈ members, m.1.Spaced) (hspaced : ∀ m ∈ members, m.2.Spaced)
      (h : ∀ m ∈ members, ValueText depth m.2.text m.2.tree) :
      ValueText (depth + 1) (0x7b :: (separated (members.map memberText) ++ [0x7d]))
        (.mk .objectBegin [] (members.foldl addEntry []) [])

def Tree.isStructure : Tree → Bool
  | .mk type _ _ _ => type = .arrayBegin ∨ type = .objectBegin

/-- An array or an object, with white space and comments around it. -/
structure DocumentText (depth : ℕ) (before text after : List UInt8) (tree : Tree) : Prop where
  before : Blank before
  value : ValueText depth text tree
  structured : tree.isStructure = true
  after : Blank after

variable {depth depth' : ℕ} {text : List UInt8} {tree : Tree}

theorem ValueText.mono (h : ValueText depth text tree) (hle : depth ≤ depth') :
    ValueText depth' text tree := by
  induction h generalizing depth' with
  | string h => exact .string h
  | number h => exact .number h
  | constant h => exact .constant h
  | emptyArray h =>
      obtain ⟨k, rfl⟩ := Nat.exists_eq_add_one_of_ne_zero (Nat.ne_zero_of_lt hle)
      exact .emptyArray h
  | array hne hspaced _ ih =>
      obtain ⟨k, rfl⟩ := Nat.exists_eq_add_one_of_ne_zero (Nat.ne_zero_of_lt hle)
      exact .array hne hspaced fun x hx ↦ ih x hx (Nat.le_of_succ_le_succ hle)
  | emptyObject h =>
      obtain ⟨k, rfl⟩ := Nat.exists_eq_add_one_of_ne_zero (Nat.ne_zero_of_lt hle)
      exact .emptyObject h
  | object hne hkeys hspaced _ ih =>
      obtain ⟨k, rfl⟩ := Nat.exists_eq_add_one_of_ne_zero (Nat.ne_zero_of_lt hle)
      exact .object hne hkeys hspaced fun m hm ↦ ih m hm (Nat.le_of_succ_le_succ hle)

theorem length_le_separated {x : List UInt8} {xs : List (List UInt8)} (h : x ∈ xs) :
    x.length ≤ (separated xs).length := by
  fun_induction separated xs with
  | case1 => cases h
  | case2 y =>
      obtain rfl := List.mem_singleton.mp h
      exact Nat.le_refl _
  | case3 y xs hne ih =>
      rw [List.length_append, List.length_cons]
      rcases List.mem_cons.mp h with rfl | h
      · exact Nat.le_add_right _ _
      · have hle := ih h
        omega

/-- Each array and each object takes two bytes. -/
theorem ValueText.of_length (h : ValueText depth text tree) : ValueText text.length text tree := by
  induction h with
  | string h => exact .string h
  | number h => exact .number h
  | constant h => exact .constant h
  | emptyArray h => exact .emptyArray h
  | @array _ items hne hspaced _ ih =>
      refine .array hne hspaced fun x hx ↦ (ih x hx).mono ?_
      have hle := length_le_separated (List.mem_map_of_mem (f := Element.all) hx)
      simp only [Element.all, List.length_append] at hle ⊢
      omega
  | emptyObject h => exact .emptyObject h
  | @object _ members hne hkeys hspaced _ ih =>
      refine .object hne hkeys hspaced fun m hm ↦ (ih m hm).mono ?_
      have hle := length_le_separated (List.mem_map_of_mem (f := memberText) hm)
      simp only [memberText, Element.all, List.length_append, List.length_cons] at hle ⊢
      omega

end Libjson

end Falcon
