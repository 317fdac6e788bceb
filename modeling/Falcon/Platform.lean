import Falcon.Graph.Core
import Falcon.Lib.Lists

/-!
# What the daemon calls outside its graph

File contents and modification times, the clock, SHA-256, the depfile parser,
the memory allocator and the cache, over a type `ω` of states of the outside
world.  The graph code is written against this interface; the cache of
`cache_manager.cpp` is one implementation of it.
-/

namespace Falcon

structure Platform (ω : Type) where
  -- `ifstream` and `stat` on a path.
  readFile : ω → String → Option String
  mtime : ω → String → Option Timestamp
  -- `time(NULL)`.
  now : ω → Timestamp
  sha256 : String → List UInt8
  -- `DepfileParser::Parse`: the output and the inputs, or a parse error.
  parseDepfile : String → Option (String × List String)
  -- `new Node`: an address not in use, and what its memory held.
  newNode : Finset NodeId → NodeId
  newNode_fresh : ∀ used, newNode used ∉ used
  uninitialised : Finset NodeId → Bool
  -- The public functions of `CacheManager`.
  restoreNode : Graph → NodeId → ω → Outcome (Bool × ω)
  restoreRule : Graph → RuleId → ω → Outcome (Bool × ω)
  restoreDepfile : Graph → RuleId → ω → Outcome (Bool × ω)
  saveRule : Graph → RuleId → ω → Outcome ω

/-! ## The hasher -/

def hexDigit (d : ℕ) : Char :=
  if d < 10 then Char.ofNat ('0'.toNat + d) else Char.ofNat ('a'.toNat + (d - 10))

/-- `"%02x"`. -/
def hexByte (b : UInt8) : List Char := [hexDigit (b.toNat / 16), hexDigit (b.toNat % 16)]

def hexString (bytes : List UInt8) : String := String.ofList (bytes.flatMap hexByte)

theorem hexString_length (l : List UInt8) : (hexString l).length = 2 * l.length := by
  induction l with
  | nil => rfl
  | cons a l ih =>
      simp only [hexString, String.length_ofList, List.flatMap_cons, List.length_append,
        List.length_cons] at ih ⊢
      rw [ih]
      simp only [hexByte, List.length_cons, List.length_nil]
      omega

/-- `Hasher::get` after the pieces of `data` have been fed to it. -/
def Platform.digest {ω : Type} (P : Platform ω) (data : List String) : String :=
  hexString (P.sha256 (String.join data))

theorem Platform.digest_ne_empty {ω : Type} {P : Platform ω}
    (hlength : ∀ s, (P.sha256 s).length = 32) (data : List String) : P.digest data ≠ "" := by
  intro h
  have hlen := hexString_length (P.sha256 (String.join data))
  rw [hlength, show hexString (P.sha256 (String.join data)) = "" from h] at hlen
  simp at hlen

/-! ## Digests that are known -/

def hexValue (c : Char) : ℕ := if c.isDigit then c.toNat - 48 else c.toNat - 87

def fromHex : List Char → List UInt8
  | a :: b :: l => UInt8.ofNat (hexValue a * 16 + hexValue b) :: fromHex l
  | _ => []

/-- The bytes of a digest that is written as a number. -/
def digestBytes (d : ℕ) : List UInt8 :=
  (List.range 32).map fun i ↦ UInt8.ofNat (d / 256 ^ (31 - i) % 256)

theorem length_digestBytes (d : ℕ) : (digestBytes d).length = 32 := by
  rw [digestBytes, List.length_map, List.length_range]

/-- A table of digests, with zeros for everything else. -/
theorem length_fromHex_lookup {table : List (String × String)}
    (h : ∀ e ∈ table, (fromHex e.2.toList).length = 32) (s : String) :
    (fromHex ((table.lookup s).getD (String.ofList (List.replicate 64 '0'))).toList).length =
      32 := by
  cases hs : table.lookup s with
  | none => decide
  | some d =>
      exact h (s, d) (Lib.mem_of_lookup_eq_some hs)

end Falcon
