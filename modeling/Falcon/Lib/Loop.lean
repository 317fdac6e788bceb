import Mathlib.Data.List.Basic

/-!
# Loops that can fail

Rules for `List.foldlM` in the exception monad.  A loop over a list either
reaches its end in a state that satisfies the invariant of the whole list, or
stops at the first failing iteration.
-/

namespace Falcon.Lib

universe u v

variable {ε : Type u} {α β σ : Type v}

@[simp] theorem except_pure (a : α) : (pure a : Except ε α) = .ok a := rfl

@[simp] theorem except_ok_bind (a : α) (f : α → Except ε β) :
    (Except.ok a >>= f) = f a := rfl

@[simp] theorem except_error_bind (e : ε) (f : α → Except ε β) :
    ((Except.error e : Except ε α) >>= f) = .error e := rfl

theorem toOption_eq_some {x : Except ε α} {a : α} (h : x.toOption = some a) : x = .ok a := by
  cases x with
  | error e => cases h
  | ok b => rw [Option.some.inj h]

theorem bind_eq_ok {x : Except ε α} {f : α → Except ε β} {b : β} :
    (x >>= f) = .ok b ↔ ∃ a, x = .ok a ∧ f a = .ok b := by
  cases x with
  | error e => simp
  | ok a => simp

theorem bind_eq_error {x : Except ε α} {f : α → Except ε β} {e : ε} :
    (x >>= f) = .error e ↔ x = .error e ∨ ∃ a, x = .ok a ∧ f a = .error e := by
  cases x with
  | error e' => simp
  | ok a => simp

/-- Total correctness of a loop: an invariant indexed by the part of the list
already consumed, whose every iteration succeeds, holds of the whole list. -/
theorem foldlM_rule {f : σ → α → Except ε σ} {l : List α} {s : σ}
    (P : List α → σ → Prop) (hzero : P [] s)
    (hstep : ∀ pre a post s, l = pre ++ a :: post → P pre s →
      ∃ s', f s a = .ok s' ∧ P (pre ++ [a]) s') :
    ∃ s', l.foldlM f s = .ok s' ∧ P l s' := by
  suffices h : ∀ post pre s, l = pre ++ post → P pre s →
      ∃ s', post.foldlM f s = .ok s' ∧ P l s' from h l [] s rfl hzero
  intro post
  induction post with
  | nil =>
      intro pre s hl hP
      refine ⟨s, rfl, ?_⟩
      rw [hl, List.append_nil]
      exact hP
  | cons a post ih =>
      intro pre s hl hP
      obtain ⟨s₁, hf, hP₁⟩ := hstep pre a post s hl hP
      obtain ⟨s₂, hrest, hP₂⟩ := ih (pre ++ [a]) s₁ (by simp [hl]) hP₁
      exact ⟨s₂, by simp [List.foldlM_cons, hf, hrest], hP₂⟩

/-- A loop with more in its state does what the loop without it does. -/
theorem foldlM_map {τ : Type v} {f : σ → α → Except ε σ} {f' : τ → α → Except ε τ} (proj : τ → σ)
    (h : ∀ t a, (f' t a).map proj = f (proj t) a) (l : List α) (t : τ) :
    (l.foldlM f' t).map proj = l.foldlM f (proj t) := by
  induction l generalizing t with
  | nil => rfl
  | cons a l ih =>
      rw [List.foldlM_cons, List.foldlM_cons, ← h]
      cases f' t a with
      | error e => rfl
      | ok t' => exact ih t'

/-- Partial correctness of a loop: a reflexive and transitive relation that
relates the two sides of every successful iteration relates the ends. -/
theorem foldlM_preserves {f : σ → α → Except ε σ} {l : List α} {s s' : σ}
    (R : σ → σ → Prop) (hrefl : ∀ s, R s s)
    (htrans : ∀ s₁ s₂ s₃, R s₁ s₂ → R s₂ s₃ → R s₁ s₃)
    (hstep : ∀ a ∈ l, ∀ s s', f s a = .ok s' → R s s')
    (h : l.foldlM f s = .ok s') : R s s' := by
  induction l generalizing s with
  | nil =>
      simp only [List.foldlM_nil, except_pure, Except.ok.injEq] at h
      exact h ▸ hrefl s
  | cons a l ih =>
      rw [List.foldlM_cons] at h
      obtain ⟨s₁, hf, hrest⟩ := bind_eq_ok.mp h
      exact htrans s s₁ s' (hstep a List.mem_cons_self s s₁ hf)
        (ih (fun b hb ↦ hstep b (List.mem_cons_of_mem a hb)) hrest)

/-- Partial correctness of a loop, with an invariant indexed by the part of the
list already consumed. -/
theorem foldlM_prefix {f : σ → α → Except ε σ} {l : List α} {s s' : σ}
    (I : List α → σ → Prop) (hzero : I [] s)
    (hstep : ∀ pre a post t t', l = pre ++ a :: post → I pre t → f t a = .ok t' → I (pre ++ [a]) t')
    (h : l.foldlM f s = .ok s') : I l s' := by
  suffices hall : ∀ post pre t, l = pre ++ post → I pre t → post.foldlM f t = .ok s' → I l s' from
    hall l [] s rfl hzero h
  intro post
  induction post with
  | nil =>
      intro pre t hl hI hrun
      obtain rfl : t = s' := Except.ok.inj hrun
      rw [hl, List.append_nil]
      exact hI
  | cons a post ih =>
      intro pre t hl hI hrun
      rw [List.foldlM_cons] at hrun
      obtain ⟨t', hf, hrest⟩ := bind_eq_ok.mp hrun
      exact ih (pre ++ [a]) t' (by simp [hl]) (hstep pre a post t t' hl hI hf) hrest

/-- An invariant kept by every successful iteration is kept by the loop. -/
theorem foldlM_invariant {f : σ → α → Except ε σ} {l : List α} {s s' : σ}
    (P : σ → Prop) (hstep : ∀ a ∈ l, ∀ s s', f s a = .ok s' → P s → P s')
    (h : l.foldlM f s = .ok s') (hP : P s) : P s' :=
  foldlM_preserves (fun s s' ↦ P s → P s') (fun _ hp ↦ hp)
    (fun _ _ _ h₁ h₂ hp ↦ h₂ (h₁ hp)) hstep h hP

/-- What holds after a loop, and not before, starts to hold in one iteration. -/
theorem foldlM_gains {f : σ → α → Except ε σ} {l : List α} {s s' : σ} {P : σ → Prop}
    (h : l.foldlM f s = .ok s') (hP : P s') (hnot : ¬ P s) : ∃ pre a post t t',
      l = pre ++ a :: post ∧ pre.foldlM f s = .ok t ∧ f t a = .ok t' ∧ ¬ P t ∧ P t' := by
  induction l generalizing s with
  | nil => exact absurd (Except.ok.inj h ▸ hP) hnot
  | cons a l ih =>
      rw [List.foldlM_cons] at h
      obtain ⟨s₁, hf, hrest⟩ := bind_eq_ok.mp h
      by_cases hP₁ : P s₁
      · exact ⟨[], a, l, s, s₁, rfl, rfl, hf, hnot, hP₁⟩
      · obtain ⟨pre, b, post, t, t', rfl, hpre, hstep, hgain⟩ := ih hrest hP₁
        refine ⟨a :: pre, b, post, t, t', rfl, ?_, hstep, hgain⟩
        rw [List.foldlM_cons, hf]
        exact hpre

/-- An iteration that succeeds more often makes a loop that succeeds more often. -/
theorem foldlM_of_ok {f f' : σ → α → Except ε σ} {l : List α} {s s' : σ}
    (hstep : ∀ s a s', f s a = .ok s' → f' s a = .ok s') (h : l.foldlM f s = .ok s') :
    l.foldlM f' s = .ok s' := by
  induction l generalizing s with
  | nil => exact h
  | cons a l ih =>
      rw [List.foldlM_cons] at h
      obtain ⟨s₁, hf, hrest⟩ := bind_eq_ok.mp h
      rw [List.foldlM_cons, hstep s a s₁ hf]
      exact ih hrest

/-- A loop fails only as one of its iterations does. -/
theorem foldlM_ne_error {f : σ → α → Except ε σ} {l : List α} {e : ε}
    (hstep : ∀ a ∈ l, ∀ s, f s a ≠ .error e) (s : σ) : l.foldlM f s ≠ .error e := by
  induction l generalizing s with
  | nil =>
      intro h
      cases h
  | cons a l ih =>
      rw [List.foldlM_cons]
      intro h
      rcases bind_eq_error.mp h with h | ⟨s', -, h⟩
      · exact hstep a List.mem_cons_self s h
      · exact ih (fun b hb ↦ hstep b (List.mem_cons_of_mem a hb)) s' h

/-- A loop fails where the first iteration fails. -/
theorem foldlM_eq_error {f : σ → α → Except ε σ} {l : List α} {s : σ} {e : ε} :
    l.foldlM f s = .error e ↔ ∃ pre a post s', l = pre ++ a :: post ∧ pre.foldlM f s = .ok s' ∧
      f s' a = .error e := by
  constructor
  · intro h
    induction l generalizing s with
    | nil => cases h
    | cons a l ih =>
        rw [List.foldlM_cons] at h
        rcases bind_eq_error.mp h with h | ⟨s₁, hs₁, h⟩
        · exact ⟨[], a, l, s, rfl, rfl, h⟩
        · obtain ⟨pre, b, post, s', rfl, hpre, hfail⟩ := ih h
          refine ⟨a :: pre, b, post, s', rfl, ?_, hfail⟩
          rw [List.foldlM_cons, hs₁]
          exact hpre
  · rintro ⟨pre, a, post, s', rfl, hpre, hfail⟩
    rw [List.foldlM_append, hpre, except_ok_bind, List.foldlM_cons, hfail, except_error_bind]

theorem forM_eq_ok {f : α → Except ε Unit} {l : List α} :
    l.forM f = .ok () ↔ ∀ a ∈ l, f a = .ok () := by
  induction l with
  | nil => simp
  | cons a l ih =>
      change (f a >>= fun _ ↦ l.forM f) = .ok () ↔ _
      rw [bind_eq_ok, List.forall_mem_cons, ← ih]
      constructor
      · rintro ⟨_, ha, hl⟩
        exact ⟨ha, hl⟩
      · rintro ⟨ha, hl⟩
        exact ⟨(), ha, hl⟩

theorem forM_eq_error {f : α → Except ε Unit} {l : List α} {e : ε} (h : l.forM f = .error e) :
    ∃ a ∈ l, f a = .error e := by
  induction l with
  | nil => cases h
  | cons a l ih =>
      change (f a >>= fun _ ↦ l.forM f) = .error e at h
      rcases bind_eq_error.mp h with h | ⟨u, -, h⟩
      · exact ⟨a, List.mem_cons_self, h⟩
      · obtain ⟨b, hb, hfb⟩ := ih h
        exact ⟨b, List.mem_cons_of_mem a hb, hfb⟩

/-- A loop by position over a list that its own body may change: the end is
looked up again before every iteration.  The budget bounds the iterations. -/
def liveLoop (overrun : ε) (list : σ → List α) (body : σ → α → Except ε σ) :
    ℕ → ℕ → σ → Except ε σ
  | 0, _, _ => .error overrun
  | budget + 1, i, s =>
    match (list s)[i]? with
    | none => .ok s
    | some a => do
      let s ← body s a
      liveLoop overrun list body budget (i + 1) s

theorem liveLoop_invariant {overrun : ε} {list : σ → List α} {body : σ → α → Except ε σ}
    (P : σ → Prop) (hstep : ∀ s, ∀ a ∈ list s, ∀ s', P s → body s a = .ok s' → P s')
    {budget i : ℕ} {s s' : σ} (h : liveLoop overrun list body budget i s = .ok s') (hP : P s) :
    P s' := by
  induction budget generalizing i s with
  | zero => cases h
  | succ budget ih =>
      rw [liveLoop] at h
      split at h
      · exact Except.ok.inj h ▸ hP
      · rename_i a hi
        obtain ⟨s₁, hbody, hrest⟩ := bind_eq_ok.mp h
        exact ih hrest (hstep s a (List.mem_of_getElem? hi) s₁ hP hbody)

/-- Partial correctness of a loop that finds `l` at the front of its list
whenever it looks; the iterations behind `l` must not hurt. -/
theorem liveLoop_prefix {overrun : ε} {list : σ → List α} {body : σ → α → Except ε σ} {l : List α}
    (I : List α → σ → Prop) (hlist : ∀ pre t, I pre t → l <+: list t)
    (hstep : ∀ pre a post t t', l = pre ++ a :: post → a ∈ list t → I pre t → body t a = .ok t' →
      I (pre ++ [a]) t')
    (hbehind : ∀ a t t', a ∈ list t → I l t → body t a = .ok t' → I l t') {s s' : σ}
    (hzero : I [] s) {budget : ℕ} (h : liveLoop overrun list body budget 0 s = .ok s') :
    I l s' := by
  suffices hall : ∀ budget i t, I (l.take i) t → liveLoop overrun list body budget i t = .ok s' →
      I l s' from hall budget 0 s hzero h
  intro budget
  induction budget with
  | zero =>
      intro i t _ hrun
      cases hrun
  | succ budget ih =>
      intro i t hI hrun
      obtain ⟨rest, hrest⟩ := hlist _ t hI
      rw [liveLoop] at hrun
      split at hrun
      · rename_i hend
        have hlen : l.length ≤ i := by
          have hle := List.getElem?_eq_none_iff.mp hend
          rw [← hrest, List.length_append] at hle
          omega
        rw [List.take_of_length_le hlen] at hI
        exact Except.ok.inj hrun ▸ hI
      · rename_i a ha
        obtain ⟨t', hbody, hrun⟩ := bind_eq_ok.mp hrun
        have hmem : a ∈ list t := List.mem_of_getElem? ha
        apply ih (i + 1) t' _ hrun
        by_cases hi : i < l.length
        · rw [← hrest, List.getElem?_append_left hi] at ha
          have hl : l = l.take i ++ a :: l.drop (i + 1) := by
            rw [← List.getElem?_eq_some_iff.mp ha |>.choose_spec, List.getElem_cons_drop,
              List.take_append_drop]
          have hnext : l.take (i + 1) = l.take i ++ [a] := by
            rw [List.take_add_one, ha]
            rfl
          rw [hnext]
          exact hstep _ a _ t t' hl hmem hI hbody
        · rw [List.take_of_length_le (Nat.le_of_not_lt hi)] at hI
          rw [List.take_of_length_le (by omega)]
          exact hbehind a t t' hmem hI hbody

/-- The same loop with a body that is told the position. -/
def liveLoopAt (overrun : ε) (list : σ → List α) (body : ℕ → σ → α → Except ε σ) :
    ℕ → ℕ → σ → Except ε σ
  | 0, _, _ => .error overrun
  | budget + 1, i, s =>
    match (list s)[i]? with
    | none => .ok s
    | some a => do
      let s ← body i s a
      liveLoopAt overrun list body budget (i + 1) s

/-- Partial correctness of a loop with an invariant indexed by the position: it
holds at the end of the list as it is then. -/
theorem liveLoopAt_rule {overrun : ε} {list : σ → List α} {body : ℕ → σ → α → Except ε σ}
    (I : ℕ → σ → Prop)
    (hstep : ∀ i s a s', (list s)[i]? = some a → I i s → body i s a = .ok s' → I (i + 1) s')
    {budget i : ℕ} {s s' : σ} (hzero : I i s)
    (h : liveLoopAt overrun list body budget i s = .ok s') :
    ∃ j, I j s' ∧ (list s').length ≤ j := by
  induction budget generalizing i s with
  | zero => cases h
  | succ budget ih =>
      rw [liveLoopAt] at h
      split at h
      · rename_i hend
        rw [← Except.ok.inj h]
        exact ⟨i, hzero, List.getElem?_eq_none_iff.mp hend⟩
      · rename_i a ha
        obtain ⟨s₁, hbody, hrest⟩ := bind_eq_ok.mp h
        exact ih (hstep i s a s₁ ha hzero hbody) hrest

/-- Total correctness of a loop whose invariant fixes the list. -/
theorem liveLoop_rule {overrun : ε} {list : σ → List α} {body : σ → α → Except ε σ} {l : List α}
    (P : List α → σ → Prop) (hlist : ∀ pre s, P pre s → list s = l)
    (hstep : ∀ pre a post s, l = pre ++ a :: post → P pre s →
      ∃ s', body s a = .ok s' ∧ P (pre ++ [a]) s')
    {s : σ} (hzero : P [] s) {budget : ℕ} (hbudget : l.length < budget) :
    ∃ s', liveLoop overrun list body budget 0 s = .ok s' ∧ P l s' := by
  suffices h : ∀ (post pre : List α) (s : σ) (budget : ℕ), l = pre ++ post → P pre s →
      post.length < budget →
      ∃ s', liveLoop overrun list body budget pre.length s = .ok s' ∧ P l s' from
    h l [] s budget rfl hzero hbudget
  intro post
  induction post with
  | nil =>
      intro pre s budget hl hP hlen
      obtain ⟨budget, rfl⟩ : ∃ k, budget = k + 1 := Nat.exists_eq_add_one.mpr hlen
      rw [List.append_nil] at hl
      rw [liveLoop, hlist pre s hP, hl, List.getElem?_eq_none (Nat.le_refl _)]
      exact ⟨s, rfl, hP⟩
  | cons a post ih =>
      intro pre s budget hl hP hlen
      obtain ⟨budget, rfl⟩ : ∃ k, budget = k + 1 := Nat.exists_eq_add_one.mpr (by omega)
      obtain ⟨s₁, hbody, hP₁⟩ := hstep pre a post s hl hP
      have hnext : l[pre.length]? = some a := by simp [hl]
      obtain ⟨s', hrest, hP'⟩ := ih (pre ++ [a]) s₁ budget (by simp [hl]) hP₁
        (by simpa using hlen)
      refine ⟨s', ?_, hP'⟩
      rw [liveLoop, hlist pre s hP, hnext]
      simp only [hbody, except_ok_bind]
      simpa using hrest

/-! ## Failures that do not happen -/

/-- The computation does not fail with `e`, and what it returns satisfies `Q`. -/
def Avoids (e : ε) (x : Except ε α) (Q : α → Prop) : Prop := x ≠ .error e ∧ ∀ a, x = .ok a → Q a

namespace Avoids

variable {e : ε} {Q R : α → Prop}

theorem ok {a : α} (h : Q a) : Avoids e (.ok a) Q := by
  refine ⟨fun he ↦ ?_, fun b hb ↦ ?_⟩
  · cases he
  · exact Except.ok.inj hb ▸ h

theorem error {e' : ε} (h : e' ≠ e) : Avoids e (.error e' : Except ε α) Q := by
  refine ⟨fun he ↦ h (Except.error.inj he), fun a ha ↦ ?_⟩
  cases ha

theorem mono {x : Except ε α} (h : Avoids e x Q) (hQR : ∀ a, x = .ok a → Q a → R a) :
    Avoids e x R :=
  ⟨h.1, fun a ha ↦ hQR a ha (h.2 a ha)⟩

theorem bind {x : Except ε α} {f : α → Except ε β} {R : β → Prop} (h : Avoids e x Q)
    (hf : ∀ a, x = .ok a → Q a → Avoids e (f a) R) : Avoids e (x >>= f) R := by
  cases x with
  | error e' => exact error fun he ↦ h.1 (he ▸ rfl)
  | ok a => exact hf a rfl (h.2 a rfl)

/-- An invariant from which every iteration avoids the failure. -/
theorem foldlM {f : σ → α → Except ε σ} {l : List α} (I : σ → Prop)
    (hstep : ∀ a ∈ l, ∀ s, I s → Avoids e (f s a) I) {s : σ} (hs : I s) :
    Avoids e (l.foldlM f s) I := by
  induction l generalizing s with
  | nil => exact ok hs
  | cons a l ih =>
      rw [List.foldlM_cons]
      refine (hstep a List.mem_cons_self s hs).bind fun s' _ hs' ↦ ?_
      exact ih (fun b hb ↦ hstep b (List.mem_cons_of_mem a hb)) hs'

/-- The budget suffices if the invariant bounds the length of the list. -/
theorem liveLoop {list : σ → List α} {body : σ → α → Except ε σ} (I : σ → Prop) {bound : ℕ}
    (hlength : ∀ s, I s → (list s).length ≤ bound)
    (hstep : ∀ s, ∀ a ∈ list s, I s → Avoids e (body s a) I)
    {budget i : ℕ} {s : σ} (hs : I s) (hi : i ≤ bound) (hbudget : bound < budget + i) :
    Avoids e (liveLoop e list body budget i s) I := by
  induction budget generalizing i s with
  | zero => omega
  | succ budget ih =>
      rw [Lib.liveLoop]
      split
      · exact ok hs
      · rename_i a ha
        obtain ⟨hlt, -⟩ := List.getElem?_eq_some_iff.mp ha
        have hle := hlength s hs
        refine (hstep s a (List.mem_of_getElem? ha) hs).bind fun s' _ hs' ↦ ?_
        exact ih hs' (by omega) (by omega)

/-- The budget does not matter if running out of it is another failure. -/
theorem liveLoop_of_ne {overrun : ε} (hne : overrun ≠ e) {list : σ → List α}
    {body : σ → α → Except ε σ} (I : σ → Prop)
    (hstep : ∀ s, ∀ a ∈ list s, I s → Avoids e (body s a) I) {budget i : ℕ} {s : σ} (hs : I s) :
    Avoids e (Lib.liveLoop overrun list body budget i s) I := by
  induction budget generalizing i s with
  | zero => exact error hne
  | succ budget ih =>
      rw [Lib.liveLoop]
      split
      · exact ok hs
      · rename_i a ha
        exact (hstep s a (List.mem_of_getElem? ha) hs).bind fun s' _ hs' ↦ ih hs'

end Avoids

/-! ## Failures that are added -/

/-- The second computation is the first one, unless it fails with `e`. -/
def Checked (e : ε) (x x' : Except ε α) : Prop := x' = x ∨ x' = .error e

namespace Checked

variable {e : ε}

theorem refl (x : Except ε α) : Checked e x x := Or.inl rfl

theorem bind {x x' : Except ε α} {f f' : α → Except ε β} (h : Checked e x x')
    (hf : ∀ a, Checked e (f a) (f' a)) : Checked e (x >>= f) (x' >>= f') := by
  rcases h with rfl | rfl
  · cases x' with
    | error e' => exact refl _
    | ok a => exact hf a
  · exact Or.inr rfl

theorem foldlM {f f' : σ → α → Except ε σ} (hf : ∀ s a, Checked e (f s a) (f' s a)) {l : List α}
    (s : σ) : Checked e (l.foldlM f s) (l.foldlM f' s) := by
  induction l generalizing s with
  | nil => exact refl _
  | cons a l ih =>
      rw [List.foldlM_cons, List.foldlM_cons]
      exact (hf s a).bind ih

/-- The body of the checked loop is told the position. -/
theorem liveLoop {overrun : ε} {list : σ → List α} {body : σ → α → Except ε σ}
    {bodyAt : ℕ → σ → α → Except ε σ} (hbody : ∀ i s a, Checked e (body s a) (bodyAt i s a))
    (budget i : ℕ) (s : σ) : Checked e (Lib.liveLoop overrun list body budget i s)
      (liveLoopAt overrun list bodyAt budget i s) := by
  induction budget generalizing i s with
  | zero => exact refl _
  | succ budget ih =>
      rw [Lib.liveLoop, liveLoopAt]
      cases (list s)[i]? with
      | none => exact refl _
      | some a => exact (hbody i s a).bind (ih (i + 1))

end Checked

end Falcon.Lib
