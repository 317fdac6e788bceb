import Falcon.Lib.Loop

/-!
# Simulation of step functions

A step function makes choices, emits events and may fail.  Another one simulates it if it
can make choices of its own such that both emit the same events and fail alike.  Some of
the failures only mean that the step is not over yet, and need no answer.
-/

namespace Falcon.Lib

universe v

variable {σ τ γ δ ι ε : Type*}

/-- A map commutes with a bind where it does behind the first of the two. -/
theorem bind_map {α β β' : Type v} {x : Except ε α} {f : α → Except ε β} {g : α → Except ε β'}
    {m : β → β'} (h : ∀ a, g a = (f a).map m) : (x >>= g) = (x >>= f).map m := by
  cases x with
  | error e => rfl
  | ok a => exact h a

/-- The steps of a list of choices, up to the first failure. -/
def runs (step : σ → γ → Except ε (List ι × σ)) : List γ → σ → Except ε (List ι × σ)
  | [], s => pure ([], s)
  | c :: cs, s => do
    let (evs, s) ← step s c
    let (evs', s) ← runs step cs s
    pure (evs ++ evs', s)

/-- Each choice is one that `G` allows in the state in which it is made. -/
def Guarded (G : σ → γ → Prop) (step : σ → γ → Except ε (List ι × σ)) : List γ → σ → Prop
  | [], _ => True
  | c :: cs, s => G s c ∧ ∀ evs t, step s c = .ok (evs, t) → Guarded G step cs t

/-- Two outcomes with the same events, or the same failure. -/
inductive Answers (R : σ → τ → Prop) :
    Except ε (List ι × σ) → Except ε (List ι × τ) → Prop
  | ok {evs s t} (h : R s t) : Answers R (.ok (evs, s)) (.ok (evs, t))
  | error (e) : Answers R (.error e) (.error e)

variable {step : σ → γ → Except ε (List ι × σ)} {step' : τ → δ → Except ε (List ι × τ)}
  {R : σ → τ → Prop} {G : σ → γ → Prop} {s s' : σ} {t t' : τ} {evs : List ι}
  {c : γ} {cs : List γ}

theorem runs_cons_of_ok (h : step s c = .ok (evs, s')) : runs step (c :: cs) s = (do
    let x ← runs step cs s'
    pure (evs ++ x.1, x.2)) := by
  rw [runs, h]
  rfl

theorem runs_cons_of_error {e : ε} (h : step s c = .error e) :
    runs step (c :: cs) s = .error e := by
  rw [runs, h]
  rfl

theorem guarded_cons_of_ok (hG : G s c) (h : step s c = .ok (evs, s'))
    (hrest : Guarded G step cs s') : Guarded G step (c :: cs) s := by
  refine ⟨hG, fun evs₁ s₁ hrun ↦ ?_⟩
  obtain ⟨-, rfl⟩ := Prod.mk.inj (Except.ok.inj (h.symm.trans hrun))
  exact hrest

theorem guarded_mono {G' : σ → γ → Prop} (hG : ∀ s c, G s c → G' s c)
    (h : Guarded G step cs s) : Guarded G' step cs s := by
  induction cs generalizing s with
  | nil => trivial
  | cons c cs ih => exact ⟨hG s c h.1, fun evs t hrun ↦ ih (h.2 evs t hrun)⟩

theorem guarded_of_forall (h : ∀ c ∈ cs, ∀ s, G s c) : Guarded G step cs s := by
  induction cs generalizing s with
  | nil => trivial
  | cons c cs ih =>
      exact ⟨h c List.mem_cons_self s,
        fun _ _ _ ↦ ih fun d hd ↦ h d (List.mem_cons_of_mem _ hd)⟩

/-- The state behind the first step of a run. -/
theorem runs_cons_eq_ok (h : runs step (c :: cs) s = .ok (evs, s')) :
    ∃ evs₁ s₁ evs₂, step s c = .ok (evs₁, s₁) ∧ runs step cs s₁ = .ok (evs₂, s') ∧
      evs = evs₁ ++ evs₂ := by
  cases hfirst : step s c with
  | error e => cases (runs_cons_of_error hfirst).symm.trans h
  | ok x =>
      obtain ⟨evs₁, s₁⟩ := x
      obtain ⟨⟨evs₂, s₂⟩, hrest, hrun⟩ := bind_eq_ok.mp ((runs_cons_of_ok hfirst).symm.trans h)
      obtain ⟨rfl, rfl⟩ := Prod.mk.inj (Except.ok.inj hrun)
      exact ⟨evs₁, s₁, evs₂, rfl, hrest, rfl⟩

/-- What a step that `G` allows preserves, given the events so far, holds along a run. -/
theorem runs_invariant (I : List ι → σ → Prop)
    (hstep : ∀ ⦃evs evs' s s' c⦄, I evs s → G s c → step s c = .ok (evs', s') →
      I (evs ++ evs') s')
    (hguard : Guarded G step cs s) (hrun : runs step cs s = .ok (evs, s')) (before : List ι)
    (hI : I before s) : I (before ++ evs) s' := by
  induction cs generalizing s evs before with
  | nil =>
      obtain ⟨rfl, rfl⟩ := Prod.mk.inj (Except.ok.inj hrun)
      rwa [List.append_nil]
  | cons c cs ih =>
      obtain ⟨evs₁, s₁, evs₂, hfirst, hrest, rfl⟩ := runs_cons_eq_ok hrun
      rw [← List.append_assoc]
      exact ih (hguard.2 _ _ hfirst) hrest _ (hstep hI hguard.1 hfirst)

/-- If every step that `G` allows keeps an invariant or fails as it may, so does a run. -/
theorem runs_keep (I : σ → Prop) (fails : γ → ε → Prop)
    (hstep : ∀ ⦃s c⦄, I s → G s c → (∃ e, fails c e ∧ step s c = .error e) ∨
      ∃ evs s', step s c = .ok (evs, s') ∧ I s')
    (hguard : Guarded G step cs s) (hI : I s) :
    (∃ c ∈ cs, ∃ e, fails c e ∧ runs step cs s = .error e) ∨
      ∃ evs s', runs step cs s = .ok (evs, s') ∧ I s' := by
  induction cs generalizing s with
  | nil => exact Or.inr ⟨[], s, rfl, hI⟩
  | cons c cs ih =>
      rcases hstep hI hguard.1 with ⟨e, hfails, herror⟩ | ⟨evs, s', hfirst, hI'⟩
      · exact Or.inl ⟨c, List.mem_cons_self, e, hfails, runs_cons_of_error herror⟩
      · rw [runs_cons_of_ok hfirst]
        rcases ih (hguard.2 _ _ hfirst) hI' with ⟨d, hd, e, hfails, hrest⟩ | ⟨evs', t, hrest, ht⟩
        · exact Or.inl ⟨d, List.mem_cons_of_mem _ hd, e, hfails, by rw [hrest]; rfl⟩
        · exact Or.inr ⟨evs ++ evs', t, by rw [hrest]; rfl, ht⟩

theorem Answers.prepend {x : Except ε (List ι × σ)} {y : Except ε (List ι × τ)}
    (h : Answers R x y) (evs : List ι) :
    Answers R (do let x ← x; pure (evs ++ x.1, x.2)) (do let y ← y; pure (evs ++ y.1, y.2)) := by
  cases h with
  | error e => exact .error e
  | ok hR => exact .ok hR

/-- A simulation of the steps is one of the runs. -/
theorem runs_simulated (blocks : ε → Prop)
    (hstep : ∀ ⦃s t c⦄, R s t → G s c → (∃ e, blocks e ∧ step s c = .error e) ∨
      ∃ d, Answers R (step s c) (step' t d))
    (hguard : Guarded G step cs s) (hR : R s t) :
    (∃ e, blocks e ∧ runs step cs s = .error e) ∨
      ∃ ds, ds.length = cs.length ∧ Answers R (runs step cs s) (runs step' ds t) := by
  induction cs generalizing s t with
  | nil => exact Or.inr ⟨[], rfl, .ok hR⟩
  | cons c cs ih =>
      rcases hstep hR hguard.1 with ⟨e, hblocks, herror⟩ | ⟨d, hanswers⟩
      · exact Or.inl ⟨e, hblocks, runs_cons_of_error herror⟩
      · generalize hfirst : step s c = x at hanswers
        generalize hsecond : step' t d = y at hanswers
        cases hanswers with
        | error e =>
            refine Or.inr ⟨d :: List.replicate cs.length d, by simp, ?_⟩
            rw [runs_cons_of_error hfirst, runs_cons_of_error hsecond]
            exact .error e
        | @ok evs s' t' hR' =>
            rw [runs_cons_of_ok hfirst]
            rcases ih (hguard.2 _ _ hfirst) hR' with ⟨e, hblocks, herror⟩ | ⟨ds, hlength, hrest⟩
            · exact Or.inl ⟨e, hblocks, by rw [herror]; rfl⟩
            · refine Or.inr ⟨d :: ds, congrArg Nat.succ hlength, ?_⟩
              rw [runs_cons_of_ok hsecond]
              exact hrest.prepend evs

theorem Answers.exists_ok {x : Except ε (List ι × σ)} {y : Except ε (List ι × τ)}
    (h : Answers R x y) (hx : x = .ok (evs, s)) : ∃ t, y = .ok (evs, t) ∧ R s t := by
  cases h with
  | error e => cases hx
  | ok hR =>
      obtain ⟨rfl, rfl⟩ := Prod.mk.inj (Except.ok.inj hx)
      exact ⟨_, rfl, hR⟩

theorem Answers.error_eq {e : ε} {x : Except ε (List ι × σ)} {y : Except ε (List ι × τ)}
    (h : Answers R x y) (hx : x = .error e) : y = .error e := by
  cases h with
  | error e => exact congrArg _ (Except.error.inj hx)
  | ok hR => cases hx

end Falcon.Lib
