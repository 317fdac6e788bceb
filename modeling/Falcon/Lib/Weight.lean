import Mathlib.Algebra.BigOperators.Group.Finset.Basic
import Mathlib.Algebra.Order.BigOperators.Group.Finset

/-!
# Weights that bound a chain of repairs

A finite set of items has heights.  Repairing an item may spoil any number of
lower items.  The repairs come to an end: the sum of `b ^ height` over the items
that are spoilt decreases, if `b` is larger than the number of items.
-/

namespace Falcon.Lib

variable {α : Type*}

def weight (height : α → ℕ) (b : ℕ) (U : Finset α) : ℕ := ∑ x ∈ U, b ^ height x

theorem weight_mono {height : α → ℕ} {b : ℕ} {U U' : Finset α} (h : U ⊆ U') :
    weight height b U ≤ weight height b U' :=
  Finset.sum_le_sum_of_subset h

/-- What a repair spoils weighs less than what it repairs. -/
theorem weight_lower_lt {height : α → ℕ} {b : ℕ} {items : Finset α} (hb : items.card < b) (x : α) :
    weight height b (items.filter fun y ↦ height y < height x) < b ^ height x := by
  cases hx : height x with
  | zero => simp [weight]
  | succ k =>
      have hle : ∀ y ∈ items.filter fun y ↦ height y < k + 1, b ^ height y ≤ b ^ k := by
        intro y hy
        apply Nat.pow_le_pow_right (Nat.zero_lt_of_lt hb)
        exact Nat.le_of_lt_succ (Finset.mem_filter.mp hy).2
      calc weight height b (items.filter fun y ↦ height y < k + 1)
          ≤ (items.filter fun y ↦ height y < k + 1).card * b ^ k :=
          Finset.sum_le_card_nsmul _ _ _ hle
        _ ≤ items.card * b ^ k :=
          Nat.mul_le_mul_right _ (Finset.card_filter_le _ _)
        _ < b * b ^ k := Nat.mul_lt_mul_of_pos_right hb (Nat.pow_pos (Nat.zero_lt_of_lt hb))
        _ = b ^ (k + 1) := (Nat.pow_succ').symm

/-- The item `x` has been repaired, and lower items may have been spoilt. -/
theorem weight_lt [DecidableEq α] {height : α → ℕ} {b : ℕ} {items U U' : Finset α}
    (hb : items.card < b) {x : α} (hx : x ∈ U)
    (hU : ∀ y ∈ U', y ∈ U ∧ y ≠ x ∨ y ∈ items ∧ height y < height x) :
    weight height b U' < weight height b U := by
  have hsub : U' ⊆ U.erase x ∪ items.filter fun y ↦ height y < height x := by
    intro y hy
    rcases hU y hy with ⟨hmem, hne⟩ | hlow
    · exact Finset.mem_union_left _ (Finset.mem_erase.mpr ⟨hne, hmem⟩)
    · exact Finset.mem_union_right _ (Finset.mem_filter.mpr hlow)
  calc weight height b U'
      ≤ weight height b (U.erase x ∪ items.filter fun y ↦ height y < height x) := weight_mono hsub
    _ ≤ weight height b (U.erase x) +
        weight height b (items.filter fun y ↦ height y < height x) := by
      simp only [weight]
      rw [← Finset.sum_union_inter]
      exact Nat.le_add_right _ _
    _ < weight height b (U.erase x) + b ^ height x :=
      Nat.add_lt_add_left (weight_lower_lt hb x) _
    _ = weight height b U := Finset.sum_erase_add U _ hx

end Falcon.Lib
