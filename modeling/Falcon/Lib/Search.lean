import Mathlib.Data.Set.Insert
import Mathlib.Logic.Relation

/-!
# Searches that enter every element once

A depth-first search keeps the set of what it has entered, follows the edges of
an element before it returns from it, and may test every element on the way.
When it is over, it has entered what is within reach of its starting points,
and a good verdict says that every test has passed.
-/

namespace Falcon.Lib

open Relation

variable {α : Type*} {next : α → α → Prop} {ok : α → Prop} {start : Set α}

/-- What can be reached from the starting points. -/
def Reach (next : α → α → Prop) (start : Set α) : Set α := {x | ∃ s ∈ start, ReflTransGen next s x}

theorem Reach.of_start {x : α} (hx : x ∈ start) : x ∈ Reach next start := ⟨x, hx, .refl⟩

theorem Reach.tail {x y : α} (hx : x ∈ Reach next start) (hxy : next x y) :
    y ∈ Reach next start := by
  obtain ⟨s, hs, hsx⟩ := hx
  exact ⟨s, hs, hsx.tail hxy⟩

/-- A set that holds the starting points and is closed under the edges. -/
theorem Reach.subset {S : Set α} (hstart : start ⊆ S) (hclosed : ∀ x ∈ S, ∀ y, next x y → y ∈ S) :
    Reach next start ⊆ S := by
  rintro x ⟨s, hs, hsx⟩
  induction hsx with
  | refl => exact hstart hs
  | tail _ hyz ih => exact hclosed _ ih _ hyz

/-- What a part of the search has done in which the set of what has been entered
grew from `S` to `S'` and the verdict went from `b` to `b'`. -/
structure Search (next : α → α → Prop) (ok : α → Prop) (start S S' : Set α) (b b' : Prop) :
    Prop where
  grows : S ⊆ S'
  verdict : b' → b
  passed : b' → ∀ x ∈ S', x ∉ S → ok x
  followed : ∀ x ∈ S', x ∉ S → ∀ y, next x y → y ∈ S'
  reached : ∀ x ∈ S', x ∉ S → x ∈ Reach next start

namespace Search

variable {S S' S'' : Set α} {b₀ b b' b'' : Prop}

/-- A test outside the elements, which can only spoil the verdict. -/
theorem test (h : b' → b) : Search next ok start S S b b' where
  grows := subset_rfl
  verdict := h
  passed _ _ hx hnot := absurd hx hnot
  followed _ hx hnot := absurd hx hnot
  reached _ hx hnot := absurd hx hnot

theorem refl : Search next ok start S S b b := test id

theorem trans (h : Search next ok start S S' b b') (h' : Search next ok start S' S'' b' b'') :
    Search next ok start S S'' b b'' where
  grows := h.grows.trans h'.grows
  verdict hb := h.verdict (h'.verdict hb)
  passed hb x hx hnot := by
    by_cases hmid : x ∈ S'
    · exact h.passed (h'.verdict hb) x hmid hnot
    · exact h'.passed hb x hx hmid
  followed x hx hnot y hxy := by
    by_cases hmid : x ∈ S'
    · exact h'.grows (h.followed x hmid hnot y hxy)
    · exact h'.followed x hx hmid y hxy
  reached x hx hnot := by
    by_cases hmid : x ∈ S'
    · exact h.reached x hmid hnot
    · exact h'.reached x hx hmid

/-- An element is entered, and before the search leaves it its edges have been
followed and its tests have been made. -/
theorem enter {a : α} (h : Search next ok start (insert a S) S' b b') (hb₀ : b → b₀)
    (ha : a ∈ Reach next start) (hok : b' → ok a) (hnext : ∀ y, next a y → y ∈ S') :
    Search next ok start S S' b₀ b' where
  grows := (Set.subset_insert a S).trans h.grows
  verdict hb := hb₀ (h.verdict hb)
  passed hb x hx hnot := by
    by_cases heq : x = a
    · exact heq ▸ hok hb
    · exact h.passed hb x hx (by simp [heq, hnot])
  followed x hx hnot y hxy := by
    by_cases heq : x = a
    · exact hnext y (heq ▸ hxy)
    · exact h.followed x hx (by simp [heq, hnot]) y hxy
  reached x hx hnot := by
    by_cases heq : x = a
    · exact heq ▸ ha
    · exact h.reached x hx (by simp [heq, hnot])

/-- A search from all the starting points enters what is within reach. -/
theorem eq_reach (h : Search next ok start ∅ S b b') (hstart : start ⊆ S) :
    S = Reach next start := by
  apply Set.Subset.antisymm
  · exact fun x hx ↦ h.reached x hx (Set.notMem_empty x)
  · exact Reach.subset hstart fun x hx ↦ h.followed x hx (Set.notMem_empty x)

end Search

end Falcon.Lib
