import Mathlib.Data.List.Nodup

/-!
# Counting in lists without duplicates

A counter kept beside a list has to move by one whenever one element changes
sides.  The lemmas say so for the count itself.
-/

namespace Falcon.Lib

variable {α : Type*}

/-- Two predicates that differ at one element of a duplicate-free list have
counts that differ by one. -/
theorem countP_eq_add_one {l : List α} (hnd : l.Nodup) {a : α} (ha : a ∈ l)
    {p q : α → Bool} (hpa : p a = true) (hqa : q a = false)
    (hpq : ∀ x ∈ l, x ≠ a → p x = q x) : l.countP p = l.countP q + 1 := by
  induction l with
  | nil => simp at ha
  | cons b l ih =>
      obtain ⟨hbl, hnd⟩ := List.nodup_cons.mp hnd
      by_cases hab : b = a
      · subst b
        have htail : l.countP p = l.countP q := by
          apply List.countP_congr
          intro x hx
          rw [hpq x (List.mem_cons_of_mem a hx) (fun h ↦ hbl (h ▸ hx))]
        rw [List.countP_cons_of_pos hpa, List.countP_cons_of_neg (by simp [hqa]), htail]
      · have hal : a ∈ l := (List.mem_cons.mp ha).resolve_left (Ne.symm hab)
        have htail := ih hnd hal fun x hx hxa ↦ hpq x (List.mem_cons_of_mem b hx) hxa
        have hb : p b = q b := hpq b List.mem_cons_self hab
        rw [List.countP_cons, List.countP_cons, htail, hb]
        omega

theorem countP_add_countP_congr {l : List α} {p q p' q' : α → Bool}
    (h : ∀ x ∈ l, (p x).toNat + (q x).toNat = (p' x).toNat + (q' x).toNat) :
    l.countP p + l.countP q = l.countP p' + l.countP q' := by
  induction l with
  | nil => rfl
  | cons a l ih =>
      have htail := ih fun x hx ↦ h x (List.mem_cons_of_mem a hx)
      have hhead := h a List.mem_cons_self
      simp only [List.countP_cons]
      cases hp : p a <;> cases hq : q a <;> cases hp' : p' a <;> cases hq' : q' a <;>
        simp [hp, hq, hp', hq'] at hhead ⊢ <;> omega

/-- Two duplicate-free lists have equally many elements of each other. -/
theorem countP_mem_comm [DecidableEq α] {l m : List α} (hl : l.Nodup) (hm : m.Nodup) :
    l.countP (fun x ↦ decide (x ∈ m)) = m.countP (fun x ↦ decide (x ∈ l)) := by
  rw [List.countP_eq_length_filter, List.countP_eq_length_filter]
  apply List.Perm.length_eq
  rw [List.perm_ext_iff_of_nodup (hl.filter _) (hm.filter _)]
  intro x
  simp [and_comm]

/-- The occurrences of `b` in lists that hold it once at most, one list for
each element of `l`. -/
theorem count_flatMap_eq_countP {β : Type*} [DecidableEq β] {l : List α} {f : α → List β} {b : β}
    (hf : ∀ a ∈ l, (f a).count b ≤ 1) :
    (l.flatMap f).count b = l.countP (fun a ↦ decide (b ∈ f a)) := by
  induction l with
  | nil => rfl
  | cons a l ih =>
      have htail := ih fun x hx ↦ hf x (List.mem_cons_of_mem a hx)
      rw [List.flatMap_cons, List.count_append, htail, List.countP_cons, Nat.add_comm]
      congr 1
      by_cases hb : b ∈ f a
      · have hone : (f a).count b = 1 :=
          Nat.le_antisymm (hf a List.mem_cons_self) (List.count_pos_iff.mpr hb)
        simp [hb, hone]
      · simp [hb, List.count_eq_zero_of_not_mem hb]

theorem countP_or_le (p q : α → Bool) (l : List α) :
    l.countP (fun a ↦ p a || q a) ≤ l.countP p + l.countP q := by
  induction l with
  | nil => simp
  | cons a l ih =>
      simp only [List.countP_cons, Bool.or_eq_true]
      by_cases hp : p a = true <;> by_cases hq : q a = true <;> simp only [hp, hq] <;> grind

/-- Each element of a list without repetitions that is in `l` and asks for `b`
accounts for one `b`. -/
theorem countP_mem_le_count_flatMap {β : Type*} [DecidableEq α] [DecidableEq β] {l xs : List α}
    {f : α → List β} {b : β} (hnodup : xs.Nodup) (hf : ∀ a ∈ xs, b ∈ f a) :
    xs.countP (fun a ↦ decide (a ∈ l)) ≤ (l.flatMap f).count b := by
  induction l with
  | nil => simp
  | cons a l ih =>
      have hsplit : xs.countP (fun x ↦ decide (x ∈ a :: l)) ≤
          xs.count a + xs.countP (fun x ↦ decide (x ∈ l)) := by
        refine Nat.le_trans (Nat.le_of_eq ?_) (countP_or_le (· == a) (fun x ↦ decide (x ∈ l)) xs)
        exact List.countP_congr fun x _ ↦ by simp
      have hone : xs.count a ≤ (f a).count b := by
        by_cases ha : a ∈ xs
        · have hpos := List.count_pos_iff.mpr (hf a ha)
          have hle := List.nodup_iff_count_le_one.mp hnodup a
          omega
        · rw [List.count_eq_zero_of_not_mem ha]
          exact Nat.zero_le _
      rw [List.flatMap_cons, List.count_append]
      omega

end Falcon.Lib
