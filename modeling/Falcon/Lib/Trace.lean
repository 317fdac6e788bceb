import Mathlib.Data.List.Induction

/-!
# Runs with a trace

A step relation with labels, its runs, and what holds along them.
-/

namespace Falcon.Lib

variable {σ α : Type*}

/-- `step` leads from `s` along the labels in the list. -/
inductive Trace (step : σ → α → σ → Prop) (s : σ) : List α → σ → Prop
  | nil : Trace step s [] s
  | snoc {as : List α} {a : α} {t u : σ} (h : Trace step s as t) (hstep : step t a u) :
      Trace step s (as ++ [a]) u

namespace Trace

variable {step : σ → α → σ → Prop} {s t u : σ} {as bs : List α} {a : α}

/-- What a step preserves, given the labels so far, holds along a run. -/
theorem invariant (h : Trace step s as t) (I : List α → σ → Prop) (hnil : I [] s)
    (hstep : ∀ ⦃as t a u⦄, I as t → step t a u → I (as ++ [a]) u) : I as t := by
  induction h with
  | nil => exact hnil
  | snoc _ ha ih => exact hstep ih ha

/-- A run passes through a state after each first part of its labels. -/
theorem of_append (h : Trace step s (as ++ bs) u) :
    ∃ t, Trace step s as t ∧ Trace step t bs u := by
  induction bs using List.reverseRecOn generalizing u with
  | nil =>
      rw [List.append_nil] at h
      exact ⟨u, h, .nil⟩
  | append_singleton bs b ih =>
      rw [← List.append_assoc] at h
      generalize hall : as ++ bs ++ [b] = all at h
      cases h with
      | nil => simp at hall
      | snoc hrun hlast =>
          obtain ⟨rfl, hb⟩ := List.append_inj' hall rfl
          obtain ⟨t, hfirst, hsecond⟩ := ih hrun
          obtain rfl := List.singleton_inj.mp hb
          exact ⟨t, hfirst, hsecond.snoc hlast⟩

/-- A simulation carries a run over to the other relation. -/
theorem simulate {τ : Type*} {step' : τ → α → τ → Prop} {x : τ} (h : Trace step s as t)
    (R : σ → τ → Prop) (hR : R s x)
    (hstep : ∀ ⦃s x a t⦄, R s x → step s a t → ∃ y, step' x a y ∧ R t y) :
    ∃ y, Trace step' x as y ∧ R t y := by
  induction h with
  | nil => exact ⟨x, .nil, hR⟩
  | snoc _ ha ih =>
      obtain ⟨y, hrun, hy⟩ := ih
      obtain ⟨z, hz, hRz⟩ := hstep hy ha
      exact ⟨z, hrun.snoc hz, hRz⟩

theorem single (hstep : step s a t) : Trace step s [a] t := Trace.nil.snoc hstep

end Trace

end Falcon.Lib
