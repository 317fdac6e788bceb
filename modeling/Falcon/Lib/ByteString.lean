import Falcon.Lib.JsonString
import Mathlib.Logic.Function.Basic

/-!
# Strings of bytes

A `std::string` is a sequence of bytes.  Such a string is written as a `String` with one
character for each byte, and any list of bytes can be written so.
-/

namespace Falcon

/-- The bytes of a `std::string`. -/
def bytes (s : String) : List UInt8 := s.toList.map fun c ↦ UInt8.ofNat c.toNat

/-- The `std::string` of the bytes. -/
def byteString (l : List UInt8) : String := .ofList (l.map fun b ↦ Char.ofNat b.toNat)

theorem bytes_append (a b : String) : bytes (a ++ b) = bytes a ++ bytes b := by
  simp [bytes]

theorem bytes_ne_nil {str : String} (h : str ≠ "") : bytes str ≠ [] := by
  rw [bytes, ne_eq, List.map_eq_nil_iff, String.toList_eq_nil_iff]
  exact h

theorem toNat_ofNat_byte (b : UInt8) : (Char.ofNat b.toNat).toNat = b.toNat := by
  have hvalid : b.toNat.isValidChar := Or.inl (Nat.lt_trans b.toNat_lt (by decide))
  rw [Char.ofNat, dif_pos hvalid]
  rfl

@[simp] theorem bytes_byteString (l : List UInt8) : bytes (byteString l) = l := by
  rw [bytes, byteString, String.toList_ofList, List.map_map]
  refine (List.map_congr_left fun b _ ↦ ?_).trans (List.map_id l)
  change UInt8.ofNat (Char.ofNat b.toNat).toNat = b
  rw [toNat_ofNat_byte, UInt8.ofNat_toNat]

/-- No two lists of bytes are written alike. -/
theorem byteString_injective : Function.Injective byteString :=
  Function.LeftInverse.injective bytes_byteString

/-- The bytes of an ASCII text are its encoding. -/
theorem bytes_ascii {s : String} (h : ∀ c ∈ s.toList, c.toNat < 128) :
    bytes s = Lib.utf8 s.toList := by
  rw [bytes]
  generalize s.toList = cs at h
  induction cs with
  | nil => rfl
  | cons c cs ih =>
      obtain ⟨hc, hcs⟩ := List.forall_mem_cons.mp h
      rw [List.map_cons, ih hcs, Lib.utf8_cons, Lib.utf8EncodeChar_ascii hc]
      rfl

/-- A number is printed in ASCII. -/
theorem bytes_toString (n : ℕ) : bytes (toString n) = Lib.utf8 (toString n).toList := by
  refine bytes_ascii fun c hc ↦ ?_
  rw [Nat.toString_eq_repr, Nat.toList_repr] at hc
  have hdigit : c.isDigit = true :=
    Nat.isDigit_of_mem_toDigits (show 0 < 10 by decide) (Nat.le_refl 10) hc
  rw [Char.isDigit_iff_toNat] at hdigit
  exact Nat.lt_of_le_of_lt hdigit.2 (by decide)

end Falcon
