import Mathlib.Data.List.Infix

/-!
# Histories

Each element of a list may depend on those in front of it.
-/

namespace Falcon.Lib

variable {α : Type*}

/-- Each element is one that `legal` allows behind the elements in front of it. -/
def Follows (legal : List α → α → Prop) (xs : List α) : Prop :=
  ∀ pre a post, xs = pre ++ a :: post → legal pre a

variable {legal : List α → α → Prop} {xs ys : List α} {a : α}

theorem follows_nil : Follows legal [] := by
  intro pre a post h
  simp at h

theorem follows_snoc : Follows legal (xs ++ [a]) ↔ Follows legal xs ∧ legal xs a := by
  constructor
  · refine fun h ↦ ⟨fun pre b post hsplit ↦ h pre b (post ++ [a]) ?_, h xs a [] rfl⟩
    rw [hsplit, List.append_assoc, List.cons_append]
  · rintro ⟨hxs, ha⟩ pre b post hsplit
    rcases List.eq_nil_or_concat' post with rfl | ⟨post, c, rfl⟩
    · obtain ⟨rfl, hb⟩ := List.append_inj' hsplit rfl
      exact List.singleton_inj.mp hb ▸ ha
    · rw [← List.cons_append, ← List.append_assoc] at hsplit
      exact hxs pre b post (List.append_inj' hsplit rfl).1

/-- What is added may depend on what was there and on what is added in front of it. -/
theorem Follows.append (h : Follows legal xs)
    (hys : ∀ pre a post, ys = pre ++ a :: post → legal (xs ++ pre) a) :
    Follows legal (xs ++ ys) := by
  induction ys using List.reverseRecOn with
  | nil => rwa [List.append_nil]
  | append_singleton ys b ih =>
      rw [← List.append_assoc, follows_snoc]
      refine ⟨ih fun pre a post hsplit ↦ hys pre a (post ++ [b]) ?_, hys ys b [] rfl⟩
      rw [hsplit, List.append_assoc, List.cons_append]

end Falcon.Lib
