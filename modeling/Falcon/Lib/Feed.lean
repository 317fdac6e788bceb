import Mathlib.Data.List.Basic

/-!
# Machines that are fed in chunks

A machine reads one element after the other and stops at the first one for
which it returns a code.  It can be fed all its input at once, or chunk by chunk
by a caller who gives up at some of the codes and passes over the others.
-/

namespace Falcon.Lib

variable {σ β ε : Type*} (step : σ → β → σ × Option ε)

/-- Feed the machine until it returns a code. -/
def feed : σ → List β → σ × Option ε
  | s, [] => (s, none)
  | s, b :: bs =>
    match step s b with
    | (t, none) => feed t bs
    | (t, some e) => (t, some e)

/-- Feed the machine chunk by chunk, and give up at a code that does not pass. -/
def feedChunks (passes : ε → Bool) : σ → List (List β) → σ × Option ε
  | s, [] => (s, none)
  | s, c :: cs =>
    match feed step s c with
    | (t, none) => feedChunks passes t cs
    | (t, some e) => if passes e then feedChunks passes t cs else (t, some e)

variable {step} {s t u : σ} {a l : List β} {b : β} {e : ε} {pre cs : List (List β)} {c : List β}
  {passes : ε → Bool}

@[simp] theorem feed_nil (s : σ) : feed step s [] = (s, none) := rfl

theorem feed_cons_of_none (h : step s b = (t, none)) : feed step s (b :: l) = feed step t l := by
  rw [feed, h]

theorem feed_cons_of_some (h : step s b = (t, some e)) : feed step s (b :: l) = (t, some e) := by
  rw [feed, h]

theorem feed_append_of_none (h : feed step s a = (t, none)) :
    feed step s (a ++ l) = feed step t l := by
  induction a generalizing s with
  | nil =>
      obtain rfl : s = t := (Prod.mk.inj h).1
      rfl
  | cons b a ih =>
      rw [List.cons_append]
      rcases hstep : step s b with ⟨u, _ | e⟩
      · rw [feed_cons_of_none hstep] at h ⊢
        exact ih h
      · rw [feed_cons_of_some hstep] at h
        cases h

theorem feed_append_of_some (h : feed step s a = (t, some e)) :
    feed step s (a ++ l) = (t, some e) := by
  induction a generalizing s with
  | nil => cases h
  | cons b a ih =>
      rw [List.cons_append]
      rcases hstep : step s b with ⟨u, _ | e'⟩
      · rw [feed_cons_of_none hstep] at h ⊢
        exact ih h
      · rw [feed_cons_of_some hstep] at h ⊢
        exact h

/-- Where there is no code at the end, there is none on the way. -/
theorem feed_append_none (h : feed step s (a ++ l) = (t, none)) :
    ∃ u, feed step s a = (u, none) ∧ feed step u l = (t, none) := by
  rcases ha : feed step s a with ⟨u, _ | e⟩
  · rw [feed_append_of_none ha] at h
    exact ⟨u, rfl, h⟩
  · rw [feed_append_of_some ha] at h
    cases h

theorem feed_singleton_none (h : feed step s [b] = (t, none)) : step s b = (t, none) := by
  rcases hb : step s b with ⟨u, _ | e⟩
  · rw [feed_cons_of_none hb] at h
    rw [(Prod.mk.inj h).1]
  · rw [feed_cons_of_some hb] at h
    cases h

/-- The element for which the machine returns its code. -/
theorem exists_of_feed_some (h : feed step s l = (t, some e)) :
    ∃ a b rest u, l = a ++ b :: rest ∧ feed step s a = (u, none) ∧ step u b = (t, some e) := by
  induction l generalizing s with
  | nil => cases h
  | cons b l ih =>
      rcases hstep : step s b with ⟨u, _ | e'⟩
      · rw [feed_cons_of_none hstep] at h
        obtain ⟨a, b', rest, v, rfl, ha, hb⟩ := ih h
        exact ⟨b :: a, b', rest, v, rfl, (feed_cons_of_none hstep).trans ha, hb⟩
      · rw [feed_cons_of_some hstep] at h
        exact ⟨[], b, l, s, rfl, rfl, hstep.trans h⟩

/-- What a step that returns no code preserves. -/
theorem feed_invariant (I : σ → Prop) (hstep : ∀ ⦃s b t⦄, I s → step s b = (t, none) → I t)
    (hs : I s) (h : feed step s l = (t, none)) : I t := by
  induction l generalizing s with
  | nil => exact (Prod.mk.inj h).1 ▸ hs
  | cons b l ih =>
      rcases hb : step s b with ⟨u, _ | e⟩
      · rw [feed_cons_of_none hb] at h
        exact ih (hstep hs hb) h
      · rw [feed_cons_of_some hb] at h
        cases h

/-! ## Chunks -/

@[simp] theorem feedChunks_nil (s : σ) : feedChunks step passes s [] = (s, none) := rfl

theorem feedChunks_cons_of_none (h : feed step s c = (t, none)) :
    feedChunks step passes s (c :: cs) = feedChunks step passes t cs := by
  rw [feedChunks, h]

theorem feedChunks_cons_of_passes (h : feed step s c = (t, some e)) (hpasses : passes e = true) :
    feedChunks step passes s (c :: cs) = feedChunks step passes t cs := by
  rw [feedChunks, h]
  exact if_pos hpasses

theorem feedChunks_cons_of_some (h : feed step s c = (t, some e)) (hpasses : passes e = false) :
    feedChunks step passes s (c :: cs) = (t, some e) := by
  rw [feedChunks, h]
  exact if_neg (by simp [hpasses])

/-- As long as there is no code the chunks do not matter. -/
theorem feedChunks_append (h : feed step s pre.flatten = (t, none)) :
    feedChunks step passes s (pre ++ cs) = feedChunks step passes t cs := by
  induction pre generalizing s with
  | nil =>
      obtain rfl : s = t := (Prod.mk.inj h).1
      rfl
  | cons c pre ih =>
      rw [List.flatten_cons] at h
      rcases hc : feed step s c with ⟨u, _ | e⟩
      · rw [feed_append_of_none hc] at h
        rw [List.cons_append, feedChunks_cons_of_none hc]
        exact ih h
      · rw [feed_append_of_some hc] at h
        cases h

theorem feedChunks_of_none (h : feed step s cs.flatten = (t, none)) :
    feedChunks step passes s cs = (t, none) := by
  have happend : feedChunks step passes s (cs ++ []) = feedChunks step passes t [] :=
    feedChunks_append h
  rwa [List.append_nil] at happend

/-- The chunk in which the code is returned. -/
theorem exists_chunk (h : feed step s cs.flatten = (t, some e)) :
    ∃ pre c post u, cs = pre ++ c :: post ∧ feed step s pre.flatten = (u, none) ∧
      feed step u c = (t, some e) := by
  induction cs generalizing s with
  | nil => cases h
  | cons c cs ih =>
      rw [List.flatten_cons] at h
      rcases hc : feed step s c with ⟨u, _ | e'⟩
      · rw [feed_append_of_none hc] at h
        obtain ⟨pre, d, post, v, rfl, hpre, hd⟩ := ih h
        refine ⟨c :: pre, d, post, v, rfl, ?_, hd⟩
        rw [List.flatten_cons, feed_append_of_none hc]
        exact hpre
      · rw [feed_append_of_some hc] at h
        exact ⟨[], c, cs, s, rfl, rfl, hc.trans h⟩

end Falcon.Lib
