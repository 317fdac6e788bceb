import Mathlib.Data.Finset.Card
import Mathlib.Data.Finset.Max
import Mathlib.Logic.Relation

/-!
# Acyclic relations with finitely many targets

An acyclic relation whose edges all end in one finite set has a rank: the
number of elements that can still be reached.  The rank strictly decreases
along every edge, which bounds the depth of any recursion that follows the
edges and supplies minimal elements of nonempty sets.
-/

namespace Falcon.Lib

open Relation

variable {α : Type*} {R : α → α → Prop}

/-- No element can reach itself in one or more steps. -/
def Acyclic (R : α → α → Prop) : Prop := ∀ a, ¬ TransGen R a a

theorem Acyclic.mono {S : α → α → Prop} (h : Acyclic R) (hsub : ∀ a b, S a b → R a b) :
    Acyclic S :=
  fun a ha ↦ h a (TransGen.mono hsub _ _ ha)

theorem acyclic_of_rank (f : α → ℕ) (hf : ∀ a b, R a b → f a < f b) : Acyclic R := by
  intro a ha
  have hlt : ∀ b, TransGen R a b → f a < f b := by
    intro b hb
    induction hb with
    | single hab => exact hf _ _ hab
    | tail _ hbc ih => exact ih.trans (hf _ _ hbc)
  exact lt_irrefl _ (hlt a ha)

theorem Acyclic.swap (h : Acyclic R) : Acyclic (Function.swap R) :=
  fun a ha ↦ h a (transGen_swap.mp ha)

/-- Following an edge leads to a point from which the start is out of reach. -/
theorem Acyclic.not_reach_back (h : Acyclic R) {a b : α} (hab : R a b) :
    ¬ ReflTransGen R b a :=
  fun hba ↦ h a (TransGen.head' hab hba)

theorem Acyclic.antisymm (h : Acyclic R) {a b : α} (hab : ReflTransGen R a b)
    (hba : ReflTransGen R b a) : a = b := by
  rcases reflTransGen_iff_eq_or_transGen.mp hab with heq | hlt
  · exact heq.symm
  · exact (h a (hlt.trans_left hba)).elim

/-! ## Adding edges -/

/-- The relation `R` with an edge from every element of `S` to every one of `T`. -/
def Join (R : α → α → Prop) (S T : Set α) (a b : α) : Prop := R a b ∨ a ∈ S ∧ b ∈ T

/-- A path with new edges is an old one, or enters the new edges from an old
path and leaves them to another, if no new edge can be followed twice. -/
theorem Join.transGen {S T : Set α} (hback : ∀ a ∈ S, ∀ b ∈ T, ¬ ReflTransGen R b a) {x y : α}
    (h : TransGen (Join R S T) x y) :
    TransGen R x y ∨ ∃ a ∈ S, ∃ b ∈ T, ReflTransGen R x a ∧ ReflTransGen R b y := by
  induction h with
  | single hstep =>
      rcases hstep with hstep | ⟨hx, hy⟩
      · exact Or.inl (.single hstep)
      · exact Or.inr ⟨_, hx, _, hy, .refl, .refl⟩
  | tail _ hstep ih =>
      rcases hstep with hstep | ⟨hy, hz⟩
      · rcases ih with hold | ⟨a, ha, b, hb, hxa, hby⟩
        · exact Or.inl (hold.tail hstep)
        · exact Or.inr ⟨a, ha, b, hb, hxa, hby.tail hstep⟩
      · rcases ih with hold | ⟨a, ha, b, hb, hxa, hby⟩
        · exact Or.inr ⟨_, hy, _, hz, hold.to_reflTransGen, .refl⟩
        · exact absurd hby (hback _ hy b hb)

/-- New edges close a cycle exactly if one of them can be followed back. -/
theorem Acyclic.join_iff (h : Acyclic R) {S T : Set α} :
    Acyclic (Join R S T) ↔ ∀ a ∈ S, ∀ b ∈ T, ¬ ReflTransGen R b a := by
  constructor
  · intro hjoin a ha b hb hback
    refine hjoin a (TransGen.head' (Or.inr ⟨ha, hb⟩) ?_)
    exact ReflTransGen.mono (fun _ _ hstep ↦ Or.inl hstep) _ _ hback
  · intro hback x hcycle
    rcases Join.transGen hback hcycle with hold | ⟨a, ha, b, hb, hxa, hbx⟩
    · exact h x hold
    · exact hback a ha b hb (hbx.trans hxa)

/-- The number of elements of `S` that `a` reaches in one or more steps. -/
noncomputable def reachCount (R : α → α → Prop) (S : Finset α) (a : α) : ℕ := by
  classical exact (S.filter fun b ↦ TransGen R a b).card

theorem reachCount_le (R : α → α → Prop) (S : Finset α) (a : α) :
    reachCount R S a ≤ S.card := by
  classical
  exact Finset.card_filter_le _ _

theorem reachCount_eq_zero {a : α} (h : ∀ b, ¬ R a b) (S : Finset α) : reachCount R S a = 0 := by
  classical
  apply Finset.card_eq_zero.mpr
  apply Finset.filter_eq_empty_iff.mpr
  intro b _ hb
  obtain ⟨c, hac, -⟩ := TransGen.head'_iff.mp hb
  exact h c hac

/-- An edge to a point that is on no cycle. -/
theorem reachCount_lt_of_mem {S : Finset α} {a b : α} (hno : ¬ TransGen R b b) (hb : b ∈ S)
    (hab : R a b) : reachCount R S b < reachCount R S a := by
  classical
  unfold reachCount
  apply Finset.card_lt_card
  refine (Finset.ssubset_iff_of_subset ?_).mpr ⟨b, ?_, ?_⟩
  · intro c hc
    simp only [Finset.mem_filter] at hc ⊢
    exact ⟨hc.1, TransGen.head hab hc.2⟩
  · simp only [Finset.mem_filter]
    exact ⟨hb, .single hab⟩
  · simp only [Finset.mem_filter, not_and]
    exact fun _ ↦ hno

theorem Acyclic.reachCount_lt_of_mem (h : Acyclic R) {S : Finset α} {a b : α} (hb : b ∈ S)
    (hab : R a b) : reachCount R S b < reachCount R S a :=
  Lib.reachCount_lt_of_mem (h b) hb hab

theorem Acyclic.reachCount_lt (h : Acyclic R) {S : Finset α}
    (hS : ∀ a b, R a b → b ∈ S) {a b : α} (hab : R a b) :
    reachCount R S b < reachCount R S a :=
  h.reachCount_lt_of_mem (hS a b hab) hab

/-- A nonempty finite set has an element none of whose direct successors is
in the set. -/
theorem Acyclic.exists_minimal (h : Acyclic R) {S : Finset α}
    (hS : ∀ a b, R a b → b ∈ S) {T : Finset α} (hT : T.Nonempty) :
    ∃ a ∈ T, ∀ b, R a b → b ∉ T := by
  obtain ⟨a, haT, hmin⟩ := T.exists_min_image (reachCount R S) hT
  refine ⟨a, haT, fun b hab hbT ↦ ?_⟩
  exact absurd (h.reachCount_lt hS hab) (not_lt.mpr (hmin b hbT))

end Falcon.Lib
