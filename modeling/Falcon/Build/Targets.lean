import Falcon.Build.Plan
import Falcon.Graph.Closure

/-!
# What the targets need

The traversal of `BuildPlan::addTarget` stops at clean nodes and at rules that
are ready.  Where the marks are closed upwards it misses nothing: a dirty rule
below a target is joined to the target by dirty files only.
-/

namespace Falcon

open Relation

namespace Graph

variable {g : Graph}

/-- The target is an output of the rule, or is made with the help of one. -/
def DependsOn (g : Graph) (t : NodeId) (r : RuleId) : Prop :=
  ∃ o, (g.node o).childRule = some r ∧ ReflTransGen g.links.Feeds o t

/-- The marks of the generated nodes and of the rules, which say what is to be
built: a file is dirty together with its rule, and makes the rules that use it
dirty. -/
structure MarksClosed (g : Graph) : Prop where
  node_iff : ∀ n r, (g.node n).childRule = some r →
    ((g.node n).isDirty = true ↔ (g.rule r).isDirty = true)
  input : ∀ r ∈ g.rules, ∀ n ∈ (g.rule r).inputs, (g.node n).isSource = false →
    (g.node n).isDirty = true → (g.rule r).isDirty = true

namespace MarksClosed

variable (h : g.MarksClosed) (hown : g.Owned)
include h

theorem dirtyHasDirtyRule : g.DirtyHasDirtyRule :=
  fun n r hn hdirty ↦ (h.node_iff n r hn).mp hdirty

include hown

/-- The traversal finds every dirty rule below a target. -/
theorem needed_iff (hexact : g.Exact) {T : Finset NodeId} {r : RuleId} :
    g.Needed T r ↔ (g.rule r).isDirty = true ∧ ∃ t ∈ T, g.DependsOn t r := by
  constructor
  · intro hr
    induction hr with
    | target ht hdirty hchild =>
        exact ⟨h.dirtyHasDirtyRule _ _ hchild hdirty, _, ht, _, hchild, .refl⟩
    | @input q x r _ _ hx hdirty hchild ih =>
        obtain ⟨-, t, ht, o, ho, hpath⟩ := ih
        refine ⟨h.dirtyHasDirtyRule _ _ hchild hdirty, t, ht, x, hchild, ?_⟩
        exact ReflTransGen.head ⟨q, ho, hx⟩ hpath
  · rintro ⟨hdirty, t, ht, o, ho, hpath⟩
    -- from the target down to the rule, along the path
    induction hpath using ReflTransGen.head_induction_on generalizing r with
    | refl => exact .target ht ((h.node_iff t r ho).mpr hdirty) ho
    | @head a c hstep _ ih =>
        obtain ⟨q, hq, ha⟩ := hstep
        have hadirty : (g.node a).isDirty = true := (h.node_iff a r ho).mpr hdirty
        have hasource : (g.node a).isSource = false := by simp [Node.isSource, ho]
        have hrules : q ∈ g.rules := (hown c q hq).1
        have hqdirty : (g.rule q).isDirty = true := h.input q hrules a ha hasource hadirty
        have hwait : (g.rule q).ready = false := by
          rw [← Bool.not_eq_true, hexact.ready_iff hrules]
          intro hall
          have hready := hall a ha
          rw [inputReady, hasource, hadirty] at hready
          cases hready
        exact .input (ih hqdirty hq) hwait ha hadirty ho

end MarksClosed

end Graph

namespace BuildPlan

variable {g : Graph}

/-- The plan holds the dirty rules that the targets depend on, and those of them
whose inputs are there can start; there is one unless the plan is empty. -/
theorem create_exact (hown : g.Owned) (hac : g.links.Acyclic) (hexact : g.Exact)
    (hmarks : g.MarksClosed) (T : Finset NodeId) :
    ∃ p, create g T = .ok p ∧
      (∀ r, r ∈ p.rules ↔ (g.rule r).isDirty = true ∧ ∃ t ∈ T, g.DependsOn t r) ∧
      (∀ r, r ∈ p.readyRules ↔ r ∈ p.rules ∧ ∀ n ∈ (g.rule r).inputs,
        (g.node n).isSource = true ∨ (g.node n).isDirty = false) ∧
      (p.rules.Nonempty → p.readyRules.Nonempty) := by
  obtain ⟨p, hcreate, hrules, hready, -⟩ :=
    create_owned hown hac hexact hmarks.dirtyHasDirtyRule T
  refine ⟨p, hcreate, fun r ↦ (hrules r).trans (hmarks.needed_iff hown hexact), fun r ↦ ?_,
    create_start hcreate⟩
  rw [hready, hrules]
  refine and_congr_right fun hneeded ↦ ?_
  obtain ⟨n, hn, -⟩ := hneeded.exists_dirty_output
  rw [hexact.ready_iff (hown n r hn).1]
  simp [Graph.inputReady]

/-- The plan for `parse.o` when everything has to be built. -/
theorem create_diamondGraph : ∃ p, create (Graph.diamondGraph false) {3} = .ok p ∧
    0 ∈ p.rules ∧ 1 ∉ p.readyRules ∧ (p.rules.Nonempty → p.readyRules.Nonempty) := by
  have hmarks : (Graph.diamondGraph false).MarksClosed := by
    refine ⟨?_, fun r hr n _ _ _ ↦ ?_⟩
    · rintro (_ | _ | _ | _ | n) r hr <;>
        simp [Graph.diamondGraph, Node.create] at hr <;> subst hr <;> decide
    · rcases Graph.diamondGraph_rules false hr with rfl | rfl <;> decide
  obtain ⟨p, hcreate, hrules, hready, hstart⟩ :=
    create_exact (Graph.owned_of_twoWay (Graph.twoWay_diamondGraph false))
      (Graph.acyclic_diamondGraph false) (Graph.exact_diamondGraph false) hmarks {3}
  refine ⟨p, hcreate, ?_, fun hr ↦ ?_, hstart⟩
  · refine (hrules 0).mpr ⟨rfl, 3, Finset.mem_singleton_self 3, 1, rfl, ?_⟩
    apply ReflTransGen.single
    exact ⟨1, rfl, List.mem_cons_self⟩
  · have hno := ((hready 1).mp hr).2 1 List.mem_cons_self
    revert hno
    decide

end BuildPlan

end Falcon
