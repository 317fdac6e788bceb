import Falcon.Daemon.WatchmanClient
import Falcon.Stream.Payload

/-!
# The requests to watchman

The command that the client builds up from strings is a document, if the strings that go
into it are bodies of JSON strings.  The client escapes nothing, so watchman gets what
they stand for.
-/

namespace Falcon

open Libjson

namespace Libjson

variable {l : List UInt8}

/-! ## Numbers -/

/-- The digits of a number that is not zero. -/
structure Positive (l : List UInt8) : Prop where
  exists_cons : ∃ c rest, l = c :: rest ∧ c ≠ 0x30
  digits : ∀ c ∈ l, isDigit c = true

theorem Positive.whole (h : Positive l) : Whole l := by
  obtain ⟨c, rest, rfl, hc⟩ := h.exists_cons
  obtain ⟨hdigit, hrest⟩ := List.forall_mem_cons.mp h.digits
  exact .digits hdigit hc hrest

theorem utf8_digitChar {d : ℕ} (h : d < 10) :
    Lib.utf8 [d.digitChar] = [UInt8.ofNat (d + 48)] ∧ isDigit (UInt8.ofNat (d + 48)) = true ∧
      (d ≠ 0 → UInt8.ofNat (d + 48) ≠ 0x30) := by
  have hall : ∀ d < 10, Lib.utf8 [d.digitChar] = [UInt8.ofNat (d + 48)] ∧
      isDigit (UInt8.ofNat (d + 48)) = true ∧ (d ≠ 0 → UInt8.ofNat (d + 48) ≠ 0x30) := by
    decide +kernel
  exact hall d h

theorem positive_toDigits {n : ℕ} (h : n ≠ 0) : Positive (Lib.utf8 (Nat.toDigits 10 n)) := by
  induction n using Nat.strongRecOn with
  | ind n ih =>
      by_cases hlt : n < 10
      · obtain ⟨hutf8, hdigit, hne⟩ := utf8_digitChar hlt
        rw [Nat.toDigits_of_lt_base hlt, hutf8]
        exact ⟨⟨_, [], rfl, hne h⟩, List.forall_mem_singleton.mpr hdigit⟩
      · obtain ⟨hutf8, hdigit, -⟩ := utf8_digitChar (Nat.mod_lt n (by decide : 10 > 0))
        obtain ⟨⟨c, rest, hcons, hc⟩, hdigits⟩ :=
          ih (n / 10) (Nat.div_lt_self (by omega) (by decide)) (by omega)
        rw [Nat.toDigits_of_base_le (by decide) (Nat.le_of_not_lt hlt), Lib.utf8,
          List.flatMap_append]
        change Positive (Lib.utf8 _ ++ Lib.utf8 _)
        rw [hutf8]
        refine ⟨⟨c, rest ++ _, by rw [hcons]; rfl, hc⟩, fun d hd ↦ ?_⟩
        rcases List.mem_append.mp hd with hd | hd
        · exact hdigits d hd
        · rw [List.mem_singleton.mp hd]
          exact hdigit

/-- A number is printed as one of the grammar. -/
theorem whole_toString (n : ℕ) : Whole (bytes (toString n)) := by
  by_cases h : n = 0
  · subst h
    exact .zero
  · have hbytes : bytes (toString n) = Lib.utf8 (Nat.toDigits 10 n) := by
      rw [bytes_toString, Nat.toString_eq_repr, Nat.toList_repr]
    rw [hbytes]
    exact (positive_toDigits h).whole

theorem valueText_toString {depth : ℕ} (n : ℕ) :
    ValueText depth (bytes (toString n)) (.mk .int [] [] (bytes (toString n))) :=
  .number (@NumberText.int [] _ (Or.inl rfl) (whole_toString n))

end Libjson

namespace Watchman

namespace Client

variable {workingDirectory path directory pattern name : List UInt8} {time : ℕ}

def stringTree (data : List UInt8) : Tree := .mk .string [] [] data

def arrayTree (elements : List Tree) : Tree := .mk .arrayBegin elements [] []

/-- What watchman reads for the command of `watchNode`. -/
def triggerTree (directory pattern name : List UInt8) (time : ℕ) : Tree :=
  arrayTree [stringTree (bytes "trigger"), stringTree directory, .mk .objectBegin []
    [(bytes "name", stringTree name),
      (bytes "expression", arrayTree [stringTree (bytes "allof"),
        arrayTree [stringTree (bytes "name"), stringTree pattern, stringTree (bytes "wholename")],
        arrayTree [stringTree (bytes "anyof"),
          arrayTree [stringTree (bytes "not"), stringTree (bytes "exists")],
          arrayTree [stringTree (bytes "since"), .mk .int [] [] (bytes (toString time)),
            stringTree (bytes "mtime")]]]),
      (bytes "command", arrayTree [stringTree (bytes "falcon"), stringTree (bytes "--set-dirty"),
        stringTree name])] []]

/-! ## Elements and members -/

def spaces (n : ℕ) : List UInt8 := List.replicate n 0x20

/-- An element behind some spaces that denotes a value. -/
structure Denotes (depth : ℕ) (x : Element) : Prop where
  spaced : x.Spaced
  value : ValueText depth x.text x.tree

def spacedElement (n : ℕ) (text : List UInt8) (tree : Tree) : Element := ⟨spaces n, text, tree, []⟩

theorem blank_spaces (n : ℕ) : Blank (spaces n) := by
  induction n with
  | zero => rfl
  | succ n ih => exact ih

theorem denotes_spaced (n : ℕ) {depth : ℕ} {text : List UInt8} {tree : Tree}
    (h : ValueText depth text tree) : Denotes depth (spacedElement n text tree) :=
  ⟨⟨blank_spaces n, rfl, nofun⟩, h⟩

/-- The text of an array. -/
def arrayText (items : List Element) : List UInt8 :=
  0x5b :: (separated (items.map Element.all) ++ [0x5d])

theorem valueText_array {depth : ℕ} {items : List Element} (hne : items ≠ [])
    (h : ∀ x ∈ items, Denotes depth x) :
    ValueText (depth + 1) (arrayText items) (arrayTree (items.map Element.tree)) :=
  .array hne (fun x hx ↦ (h x hx).spaced) fun x hx ↦ (h x hx).value

theorem valueText_string {depth : ℕ} {body data : List UInt8}
    (h : Lib.JsonString.decode body = some data) :
    ValueText depth (quoted body) (stringTree data) :=
  .string h

/-- A string that the client writes between quotes. -/
def word (n : ℕ) (body data : List UInt8) : Element :=
  spacedElement n (quoted body) (stringTree data)

theorem denotes_word (n : ℕ) {depth : ℕ} {body data : List UInt8}
    (h : Lib.JsonString.decode body = some data) : Denotes depth (word n body data) :=
  denotes_spaced n (valueText_string h)

/-- A word of the commands. -/
def keyword (n : ℕ) (s : String) : Element := word n (bytes s) (bytes s)

def keywords : List String := ["trigger", "name", "expression", "allof", "wholename", "anyof",
  "not", "exists", "since", "mtime", "command", "falcon", "--set-dirty"]

theorem decode_keyword {s : String} (h : s ∈ keywords) :
    Lib.JsonString.decode (bytes s) = some (bytes s) := by
  have hall : ∀ s ∈ keywords, Lib.JsonString.decode (bytes s) = some (bytes s) := by
    decide +kernel
  exact hall s h

theorem denotes_keyword (n : ℕ) {depth : ℕ} {s : String} (h : s ∈ keywords) :
    Denotes depth (keyword n s) :=
  denotes_word n (decode_keyword h)

/-! ## The command -/

def nameItems (patternBody pattern : List UInt8) : List Element :=
  [keyword 0 "name", word 1 patternBody pattern, keyword 1 "wholename"]

def existsItems : List Element := [keyword 0 "not", keyword 1 "exists"]

def sinceItems (time : ℕ) : List Element :=
  [keyword 0 "since",
    spacedElement 1 (bytes (toString time)) (.mk .int [] [] (bytes (toString time))),
    keyword 1 "mtime"]

/-- An array within another one. -/
def nested (n : ℕ) (items : List Element) : Element :=
  spacedElement n (arrayText items) (arrayTree (items.map Element.tree))

def anyofItems (time : ℕ) : List Element :=
  [keyword 0 "anyof", nested 12 existsItems, nested 11 (sinceItems time)]

def allofItems (patternBody pattern : List UInt8) (time : ℕ) : List Element :=
  [keyword 0 "allof", nested 8 (nameItems patternBody pattern), nested 8 (anyofItems time)]

def commandItems (nameBody name : List UInt8) : List Element :=
  [keyword 4 "falcon", keyword 1 "--set-dirty", word 1 nameBody name]

/-- A member of an object, with a blank in front of it. -/
def member (s : String) (x : Element) : Key × Element := (⟨spaces 1, bytes s, bytes s, []⟩, x)

def triggerMembers (patternBody nameBody pattern name : List UInt8) (time : ℕ) :
    List (Key × Element) :=
  [member "name" (word 1 nameBody name),
    member "expression" (nested 4 (allofItems patternBody pattern time)),
    member "command" (nested 1 (commandItems nameBody name))]

def triggerItems (directoryBody patternBody nameBody directory pattern name : List UInt8)
    (time : ℕ) : List Element :=
  [keyword 1 "trigger", word 1 directoryBody directory,
    spacedElement 1
      (0x7b :: (separated
        ((triggerMembers patternBody nameBody pattern name time).map memberText) ++ [0x7d]))
      (.mk .objectBegin []
        ((triggerMembers patternBody nameBody pattern name time).foldl addEntry []) [])]

theorem denotes_nested (n : ℕ) {depth : ℕ} {items : List Element} (hne : items ≠ [])
    (h : ∀ x ∈ items, Denotes depth x) : Denotes (depth + 1) (nested n items) :=
  denotes_spaced n (valueText_array hne h)

theorem key_spaced {s : String} (h : s ∈ keywords) (x : Element) : (member s x).1.Spaced :=
  ⟨blank_spaces 1, decode_keyword h, rfl⟩

section Command

variable {directoryBody patternBody nameBody : List UInt8}

theorem denotes_expression (hpattern : Lib.JsonString.decode patternBody = some pattern)
    (time : ℕ) : ∀ x ∈ allofItems patternBody pattern time, Denotes 2 x := by
  have hexists : ∀ x ∈ existsItems, Denotes 0 x :=
    List.forall_mem_cons.mpr ⟨denotes_keyword 0 (by decide),
      List.forall_mem_singleton.mpr (denotes_keyword 1 (by decide))⟩
  have hsince : ∀ x ∈ sinceItems time, Denotes 0 x :=
    List.forall_mem_cons.mpr ⟨denotes_keyword 0 (by decide), List.forall_mem_cons.mpr
      ⟨denotes_spaced 1 (valueText_toString time),
        List.forall_mem_singleton.mpr (denotes_keyword 1 (by decide))⟩⟩
  have hanyof : ∀ x ∈ anyofItems time, Denotes 1 x :=
    List.forall_mem_cons.mpr ⟨denotes_keyword 0 (by decide), List.forall_mem_cons.mpr
      ⟨denotes_nested 12 (List.cons_ne_nil _ _) hexists,
        List.forall_mem_singleton.mpr (denotes_nested 11 (List.cons_ne_nil _ _) hsince)⟩⟩
  have hname : ∀ x ∈ nameItems patternBody pattern, Denotes 1 x :=
    List.forall_mem_cons.mpr ⟨denotes_keyword 0 (by decide), List.forall_mem_cons.mpr
      ⟨denotes_word 1 hpattern, List.forall_mem_singleton.mpr (denotes_keyword 1 (by decide))⟩⟩
  exact List.forall_mem_cons.mpr ⟨denotes_keyword 0 (by decide), List.forall_mem_cons.mpr
    ⟨denotes_nested 8 (List.cons_ne_nil _ _) hname,
      List.forall_mem_singleton.mpr (denotes_nested 8 (List.cons_ne_nil _ _) hanyof)⟩⟩

theorem denotes_members (hpattern : Lib.JsonString.decode patternBody = some pattern)
    (hname : Lib.JsonString.decode nameBody = some name) (time : ℕ) :
    ∀ m ∈ triggerMembers patternBody nameBody pattern name time, m.1.Spaced ∧ Denotes 3 m.2 := by
  have hcommand : ∀ x ∈ commandItems nameBody name, Denotes 2 x :=
    List.forall_mem_cons.mpr ⟨denotes_keyword 4 (by decide), List.forall_mem_cons.mpr
      ⟨denotes_keyword 1 (by decide), List.forall_mem_singleton.mpr (denotes_word 1 hname)⟩⟩
  refine List.forall_mem_cons.mpr ⟨⟨key_spaced (by decide) _, denotes_word 1 hname⟩, ?_⟩
  refine List.forall_mem_cons.mpr ⟨⟨key_spaced (by decide) _, ?_⟩, ?_⟩
  · exact denotes_nested 4 (List.cons_ne_nil _ _) (denotes_expression hpattern time)
  · exact List.forall_mem_singleton.mpr
      ⟨key_spaced (by decide) _, denotes_nested 1 (List.cons_ne_nil _ _) hcommand⟩

theorem denotes_trigger (hdirectory : Lib.JsonString.decode directoryBody = some directory)
    (hpattern : Lib.JsonString.decode patternBody = some pattern)
    (hname : Lib.JsonString.decode nameBody = some name) (time : ℕ) :
    ∀ x ∈ triggerItems directoryBody patternBody nameBody directory pattern name time,
      Denotes 4 x := by
  have hmembers := denotes_members hpattern hname time
  refine List.forall_mem_cons.mpr ⟨denotes_keyword 1 (by decide), List.forall_mem_cons.mpr
    ⟨denotes_word 1 hdirectory, List.forall_mem_singleton.mpr (denotes_spaced 1 ?_)⟩⟩
  exact .object (List.cons_ne_nil _ _) (fun m hm ↦ (hmembers m hm).1)
    (fun m hm ↦ (hmembers m hm).2.spaced) fun m hm ↦ (hmembers m hm).2.value

end Command

/-- The entries of an object with three different keys. -/
theorem triggerItems_tree (directoryBody patternBody nameBody directory pattern name : List UInt8)
    (time : ℕ) : arrayTree ((triggerItems directoryBody patternBody nameBody directory pattern name
      time).map Element.tree) = triggerTree directory pattern name time := rfl

/-! ## The text of the command -/

/-- What stands between the strings that go into the command. -/
structure Pieces : Prop where
  opening : bytes "\"trigger\", \"" = quoted (bytes "trigger") ++ [0x2c, 0x20, 0x22]
  name : bytes "\"name\": \"" = quoted (bytes "name") ++ [0x3a, 0x20, 0x22]
  expression : bytes "\"expression\": " = quoted (bytes "expression") ++ [0x3a, 0x20]
  allof : bytes "   [\"allof\", " = spaces 3 ++ 0x5b :: (quoted (bytes "allof") ++ [0x2c, 0x20])
  pattern : bytes "       [\"name\", \"" =
    spaces 7 ++ 0x5b :: (quoted (bytes "name") ++ [0x2c, 0x20, 0x22])
  wholename : bytes "\", \"wholename\"], " =
    0x22 :: 0x2c :: 0x20 :: (quoted (bytes "wholename") ++ [0x5d, 0x2c, 0x20])
  anyof : bytes "       [\"anyof\", " =
    spaces 7 ++ 0x5b :: (quoted (bytes "anyof") ++ [0x2c, 0x20])
  exists_ : bytes "           [\"not\", \"exists\"]," = spaces 11 ++
    0x5b :: (quoted (bytes "not") ++ 0x2c :: 0x20 :: (quoted (bytes "exists") ++ [0x5d, 0x2c]))
  since : bytes "           [\"since\", " =
    spaces 11 ++ 0x5b :: (quoted (bytes "since") ++ [0x2c, 0x20])
  mtime : bytes ", \"mtime\"]]], " =
    0x2c :: 0x20 :: (quoted (bytes "mtime") ++ [0x5d, 0x5d, 0x5d, 0x2c, 0x20])
  command : bytes "\"command\": [" = quoted (bytes "command") ++ [0x3a, 0x20, 0x5b]
  falcon : bytes "    \"falcon\", \"--set-dirty\", \"" = spaces 4 ++
    (quoted (bytes "falcon") ++
      0x2c :: 0x20 :: (quoted (bytes "--set-dirty") ++ [0x2c, 0x20, 0x22]))

theorem pieces : Pieces := ⟨rfl, rfl, rfl, rfl, rfl, rfl, rfl, rfl, rfl, rfl, rfl, rfl⟩

theorem triggerCommand_eq (workingDirectory path directory pattern name : List UInt8) (time : ℕ) :
    triggerCommand workingDirectory path time =
      arrayText (triggerItems (updateTargetPath workingDirectory path).1
        (updateTargetPath workingDirectory path).2 path directory pattern name time) ++ [0x0a] := by
  have hopen : bytes "[ " = [0x5b, 0x20] := rfl
  have hobject : bytes "\", \x7b " = [0x22, 0x2c, 0x20, 0x7b, 0x20] := rfl
  have hnext : bytes "\", " = [0x22, 0x2c, 0x20] := rfl
  have hquote : bytes "\"" = [0x22] := rfl
  have hclose : bytes "]\x7d]\n" = [0x5d, 0x7d, 0x5d, 0x0a] := rfl
  unfold triggerCommand
  simp only [hopen, hobject, hnext, hquote, hclose, pieces.opening, pieces.name,
    pieces.expression, pieces.allof, pieces.pattern, pieces.wholename, pieces.anyof,
    pieces.exists_, pieces.since, pieces.mtime, pieces.command, pieces.falcon]
  simp only [arrayText, triggerItems, triggerMembers, allofItems, anyofItems, nameItems,
    existsItems, sinceItems, commandItems, nested, member, keyword, word, spacedElement,
    Element.all, memberText, separated, quoted, spaces, List.replicate, List.map_cons,
    List.map_nil, List.append_assoc, List.cons_append, List.nil_append, List.append_nil]

/-- The command of `watchNode` is a document: a trigger that runs `falcon --set-dirty` on the
node.  Watchman gets what the directory, the pattern and the path stand for between quotes. -/
theorem triggerCommand_document
    (hdirectory : Lib.JsonString.decode (updateTargetPath workingDirectory path).1 = some directory)
    (hpattern : Lib.JsonString.decode (updateTargetPath workingDirectory path).2 = some pattern)
    (hname : Lib.JsonString.decode path = some name) (time : ℕ) :
    ∃ text, triggerCommand workingDirectory path time = text ++ [0x0a] ∧
      DocumentText 5 [] text [0x0a] (triggerTree directory pattern name time) := by
  refine ⟨_, triggerCommand_eq workingDirectory path directory pattern name time, rfl, ?_, rfl,
    by decide⟩
  rw [← triggerItems_tree (updateTargetPath workingDirectory path).1
    (updateTargetPath workingDirectory path).2 path]
  exact valueText_array (List.cons_ne_nil _ _)
    (denotes_trigger hdirectory hpattern hname time)

theorem triggerCommand_document_object : ∃ text,
    triggerCommand (bytes "/w") (bytes "a.o") 7 = text ++ [0x0a] ∧
      DocumentText 5 [] text [0x0a] (triggerTree (bytes "/w") (bytes "a.o") (bytes "a.o") 7) :=
  triggerCommand_document (by decide +kernel) (by decide +kernel) (by decide +kernel) 7

end Client

end Watchman

end Falcon
