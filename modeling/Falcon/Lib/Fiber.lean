import Mathlib.Data.Set.Card

/-!
# Counting references

Keys point to cells.  The number of keys that point to a cell moves by at most
one when a single key is pointed elsewhere.
-/

namespace Falcon.Lib

variable {κ β : Type*}

/-- The keys that point to `b`. -/
def fiber (f : κ → β) (b : β) : Set κ := {k | f k = b}

@[simp] theorem mem_fiber {f : κ → β} {b : β} {k : κ} : k ∈ fiber f b ↔ f k = b := Iff.rfl

/-- One key alone points to `c`. -/
theorem ncard_fiber_eq_one {f : κ → β} {k : κ} {c : β} (hf : (fiber f c).Finite) (hk : f k = c) :
    (fiber f c).ncard = 1 ↔ ∀ x, f x = c → x = k := by
  refine ⟨fun h x hx ↦ ?_, fun h ↦ ?_⟩
  · exact (Set.ncard_le_one hf).mp h.le x hx k hk
  · rw [Set.ncard_eq_one]
    exact ⟨k, Set.eq_singleton_iff_unique_mem.mpr ⟨hk, h⟩⟩

variable [DecidableEq κ]

theorem fiber_update_of_eq (f : κ → β) (k : κ) (b : β) :
    fiber (Function.update f k b) b = insert k (fiber f b) := by
  ext x
  by_cases hx : x = k <;> simp [hx]

theorem fiber_update_of_ne (f : κ → β) (k : κ) {b c : β} (hne : b ≠ c) :
    fiber (Function.update f k b) c = fiber f c \ {k} := by
  ext x
  by_cases hx : x = k <;> simp [hx, hne]

theorem finite_fiber_update {f : κ → β} {c : β} (hf : (fiber f c).Finite) (k : κ) (b : β) :
    (fiber (Function.update f k b) c).Finite := by
  by_cases hb : b = c
  · subst hb
    rw [fiber_update_of_eq]
    exact hf.insert k
  · rw [fiber_update_of_ne f k hb]
    exact hf.sdiff

/-- Pointing `k` at `b`, where it did not point before. -/
theorem ncard_fiber_update_self {f : κ → β} {k : κ} {b : β} (hf : (fiber f b).Finite)
    (hk : f k ≠ b) : (fiber (Function.update f k b) b).ncard = (fiber f b).ncard + 1 := by
  rw [fiber_update_of_eq]
  exact Set.ncard_insert_of_notMem hk hf

/-- Pointing `k` away from `c`. -/
theorem ncard_fiber_update_away {f : κ → β} {k : κ} {b c : β} (hne : b ≠ c) (hk : f k = c) :
    (fiber (Function.update f k b) c).ncard = (fiber f c).ncard - 1 := by
  rw [fiber_update_of_ne f k hne]
  exact Set.ncard_sdiff_singleton_of_mem hk

/-- The cells that `k` did not and does not point to. -/
theorem fiber_update_other {f : κ → β} {k : κ} {b c : β} (hne : b ≠ c) (hk : f k ≠ c) :
    fiber (Function.update f k b) c = fiber f c := by
  rw [fiber_update_of_ne f k hne]
  exact Set.sdiff_singleton_eq_self hk

end Falcon.Lib
