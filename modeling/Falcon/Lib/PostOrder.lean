import Mathlib.Data.List.Infix
import Mathlib.Data.List.TakeWhile
import Mathlib.Logic.Relation

/-!
# Postorder

The order in which a depth-first traversal leaves the points of a graph, given
the list of the points below each point.  It only ever grows at its end, so
what has been left at some moment is a prefix of the whole order.
-/

namespace Falcon.Lib

open Relation

variable {α : Type*}

theorem prefix_foldl {f : List α → α → List α} (hf : ∀ done a, done <+: f done a)
    (l : List α) (done : List α) : done <+: l.foldl f done := by
  induction l generalizing done with
  | nil => exact List.prefix_refl done
  | cons a l ih => exact (hf done a).trans (ih (f done a))

theorem mem_foldl_of_mem {f : List α → α → List α} {p : α → α → Prop}
    (hf : ∀ done a b, b ∈ f done a → b ∈ done ∨ p a b) {l done : List α} {b : α}
    (h : b ∈ l.foldl f done) : b ∈ done ∨ ∃ a ∈ l, p a b := by
  induction l generalizing done with
  | nil => exact Or.inl h
  | cons a l ih =>
      rcases ih h with hb | ⟨c, hc, hp⟩
      · exact (hf done a b hb).imp_right fun hp ↦ ⟨a, List.mem_cons_self, hp⟩
      · exact Or.inr ⟨c, List.mem_cons_of_mem a hc, hp⟩

/-- The part of a list in front of the first element without the property. -/
theorem takeWhile_of_prefix {p : α → Bool} {l l' : List α} {a : α} (h : l ++ [a] <+: l')
    (hl : ∀ b ∈ l, p b = true) (ha : p a = false) : l'.takeWhile p = l := by
  obtain ⟨rest, rfl⟩ := h
  rw [List.append_assoc, List.takeWhile_append_of_pos hl, List.singleton_append,
    List.takeWhile_cons_of_neg (by simp [ha]), List.append_nil]

variable [DecidableEq α] (below : α → List α)

/-- `done` lists the points that have been left already. -/
def postOrder : ℕ → List α → α → List α
  | 0, done, _ => done
  | fuel + 1, done, a =>
    if a ∈ done then done else (below a).foldl (postOrder fuel) done ++ [a]

variable {below}

theorem postOrder_of_mem (fuel : ℕ) {done : List α} {a : α} (h : a ∈ done) :
    postOrder below fuel done a = done := by
  cases fuel with
  | zero => rfl
  | succ fuel => exact if_pos h

theorem postOrder_of_notMem (fuel : ℕ) {done : List α} {a : α} (h : a ∉ done) :
    postOrder below (fuel + 1) done a = (below a).foldl (postOrder below fuel) done ++ [a] :=
  if_neg h

theorem prefix_postOrder (fuel : ℕ) (done : List α) (a : α) :
    done <+: postOrder below fuel done a := by
  induction fuel generalizing done a with
  | zero => exact List.prefix_refl done
  | succ fuel ih =>
      rw [postOrder]
      split
      · exact List.prefix_refl done
      · exact (prefix_foldl ih (below a) done).trans (List.prefix_append _ _)

theorem foldl_postOrder_of_subset (fuel : ℕ) {done l : List α} (h : l ⊆ done) :
    l.foldl (postOrder below fuel) done = done := by
  induction l with
  | nil => rfl
  | cons a l ih =>
      obtain ⟨ha, hl⟩ := List.cons_subset.mp h
      rw [List.foldl_cons, postOrder_of_mem fuel ha, ih hl]

/-- Only points are left from which the start can be reached. -/
theorem mem_postOrder {fuel : ℕ} {done : List α} {a b : α} (h : b ∈ postOrder below fuel done a) :
    b ∈ done ∨ ReflTransGen (fun x y ↦ x ∈ below y) b a := by
  induction fuel generalizing done a b with
  | zero => exact Or.inl h
  | succ fuel ih =>
      rw [postOrder] at h
      split at h
      · exact Or.inl h
      · rcases List.mem_append.mp h with h | h
        · rcases mem_foldl_of_mem (f := postOrder below fuel) (fun _ _ _ ↦ ih) h with
          h | ⟨c, hc, hreach⟩
          · exact Or.inl h
          · exact Or.inr (hreach.tail hc)
        · exact Or.inr (List.mem_singleton.mp h ▸ .refl)

/-- A point that cannot reach itself is not left while the points below are. -/
theorem notMem_foldl_postOrder (fuel : ℕ) {done : List α} {a : α}
    (hno : ¬ TransGen (fun x y ↦ x ∈ below y) a a) (h : a ∉ done) :
    a ∉ (below a).foldl (postOrder below fuel) done := by
  intro hmem
  rcases mem_foldl_of_mem (f := postOrder below fuel)
    (fun _ _ _ ↦ mem_postOrder) hmem with hmem | ⟨b, hb, hreach⟩
  · exact h hmem
  · exact hno (.tail' hreach hb)

end Falcon.Lib
