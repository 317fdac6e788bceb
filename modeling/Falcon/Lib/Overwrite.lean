import Mathlib.Data.List.Basic

/-!
# Memory that is rewritten behind its reader

A text is read from the front and rewritten in place.  What is written stays
behind what has been read, so the reader sees the text as it was, and what was
written before stays as well.
-/

namespace Falcon.Lib

variable {α : Type*}

/-- `l` with `new` over what it has from the position `i` on. -/
def overwrite (l : List α) (i : ℕ) (new : List α) : List α :=
  l.take i ++ new ++ l.drop (i + new.length)

/-- The `len` elements from the position `i` on. -/
def slice (l : List α) (i len : ℕ) : List α := (l.drop i).take len

variable {l new : List α} {i j len : ℕ}

theorem length_overwrite (h : i + new.length ≤ l.length) :
    (overwrite l i new).length = l.length := by
  rw [overwrite, List.length_append, List.length_append, List.length_take, List.length_drop]
  omega

theorem take_overwrite (h : i + new.length ≤ l.length) (hj : j ≤ i) :
    (overwrite l i new).take j = l.take j := by
  have hlen : (l.take i).length = i := List.length_take_of_le (by omega)
  rw [overwrite, List.append_assoc, List.take_append_of_le_length (by omega), List.take_take,
    Nat.min_eq_left hj]

theorem drop_overwrite (h : i + new.length ≤ l.length) (hj : i + new.length ≤ j) :
    (overwrite l i new).drop j = l.drop j := by
  have hlen : (l.take i ++ new).length = i + new.length := by
    rw [List.length_append, List.length_take_of_le (by omega)]
  obtain ⟨k, rfl⟩ : ∃ k, j = i + new.length + k := ⟨j - (i + new.length), by omega⟩
  rw [overwrite, ← hlen, List.drop_length_add_append, List.drop_drop, hlen]

/-- A slice in front of what is written. -/
theorem slice_overwrite (h : i + new.length ≤ l.length) (hj : j + len ≤ i) :
    slice (overwrite l i new) j len = slice l j len := by
  have htake := take_overwrite (j := j + len) h hj
  have hslice (m : List α) : slice m j len = (m.take (j + len)).drop j := by
    rw [slice, List.drop_take]
    congr 1
    omega
  rw [hslice, hslice, htake]

/-- A slice that ends where something is written becomes longer by that. -/
theorem slice_overwrite_snoc (h : i + new.length ≤ l.length) (hi : i = j + len) :
    slice (overwrite l i new) j (len + new.length) = slice l j len ++ new := by
  have hlen : (l.take i).length = i := List.length_take_of_le (by omega)
  have hdrop : ((l.take i).drop j).length = len := by
    rw [List.length_drop]
    omega
  rw [slice, overwrite, List.append_assoc, List.drop_append_of_le_length (by omega),
    ← List.append_assoc, List.take_append_of_le_length (by rw [List.length_append]; omega),
    List.take_of_length_le (by rw [List.length_append]; omega), slice, List.drop_take, hi]
  congr 2
  omega

theorem slice_zero (l : List α) (i : ℕ) : slice l i 0 = [] := List.take_zero

theorem slice_add (l : List α) (i m n : ℕ) :
    slice l i (m + n) = slice l i m ++ slice l (i + m) n := by
  rw [slice, List.take_add, List.drop_drop]
  rfl

theorem length_slice (h : i + len ≤ l.length) : (slice l i len).length = len := by
  rw [slice, List.length_take, List.length_drop]
  omega

theorem slice_eq_nil_iff (h : i + len ≤ l.length) : slice l i len = [] ↔ len = 0 := by
  rw [← List.length_eq_zero_iff, length_slice h]

theorem dropLast_slice (h : i + len ≤ l.length) :
    (slice l i len).dropLast = slice l i (len - 1) := by
  rw [List.dropLast_eq_take, length_slice h, slice, slice, List.take_take,
    Nat.min_eq_left (Nat.sub_le len 1)]

theorem getLast?_slice (h : i + len ≤ l.length) (hlen : 0 < len) :
    (slice l i len).getLast? = l[i + len - 1]? := by
  rw [List.getLast?_eq_getElem?, length_slice h, slice,
    List.getElem?_take_of_lt (by omega), List.getElem?_drop]
  congr 1
  omega

end Falcon.Lib
