import Falcon.Graph.Counted
import Falcon.Graph.Terminates

/-!
# The counter after any load

A load takes the ready implicit inputs of its rule out of the counter and puts
the new ones in, whether the counter was exact or not.  A new input that is
dirty moves the counter the wrong way.  No load changes which nodes are ready.
-/

namespace Falcon

open Relation Lib

namespace Graph

variable {ω : Type} {P : Platform ω} {g g' : Graph}

/-- Nodes that are made or deleted are sources. -/
theorem Wired.inputReady_edit (h : g.Wired) (hstep : Edit P g g') (n : NodeId) :
    (g'.node n).childRule = (g.node n).childRule ∧ g'.inputReady n = g.inputReady n := by
  rcases node_of_edit hstep n with ⟨hash, deps, parents, hnode⟩ | ⟨hnew, dep, hash, deps, hnode⟩
  · simp only [inputReady, hnode, Node.isSource, Node.isDirty, and_self]
  · have hnone : (g.node n).childRule = none := by
      cases hc : (g.node n).childRule with
      | none => rfl
      | some r => exact absurd (h.child n r hc).2.2 hnew
    simp only [inputReady, hnode, Node.isSource, hnone, Node.create, Option.isNone_none,
      Bool.true_or, and_self]

theorem Wired.inputReady_edits (h : g.Wired) (hrun : Edits P g g') :
    (∀ n, (g'.node n).childRule = (g.node n).childRule) ∧
      ∀ n, g'.inputReady n = g.inputReady n := by
  induction hrun with
  | refl => exact ⟨fun _ ↦ rfl, fun _ ↦ rfl⟩
  | tail hrun hstep ih =>
      have hlast := fun n ↦ (h.edits hrun).inputReady_edit hstep n
      exact ⟨fun n ↦ (hlast n).1.trans (ih.1 n), fun n ↦ (hlast n).2.trans (ih.2 n)⟩

end Graph

namespace Depfile

open Graph

variable {ω : Type} {P : Platform ω} {w : ω} {g g' k k' : Graph} {r : RuleId}

/-- Counting an input moves the counter by one, up if the input is ready. -/
theorem countInput_moves {t : NodeId} (hrun : countInput k r t = .ok k') :
    ∃ c, k' = k.setRule r { k.rule r with numInputsReady := c } ∧
      c + (if k.inputReady t then 0 else 1) =
        (k.rule r).numInputsReady + if k.inputReady t then 1 else 0 := by
  cases hready : k.inputReady t with
  | true =>
      by_cases hroom : (k.rule r).numInputsReady + 1 ≤ (k.rule r).inputs.length
      · rw [countInput_ready hready hroom] at hrun
        exact ⟨_, (Except.ok.inj hrun).symm, rfl⟩
      · have hcond : ((k.node t).isDirty && !(k.node t).isSource) = false := by
          rw [inputReady] at hready
          cases hd : (k.node t).isDirty <;> simp_all
        simp [countInput, hcond, onRule, Rule.markInputReady, hroom, assert, Except.map] at hrun
  | false =>
      rw [countInput_unready hready] at hrun
      split at hrun
      · rename_i hpos
        exact ⟨_, (Except.ok.inj hrun).symm, Nat.sub_add_cancel hpos⟩
      · cases hrun

/-- The rule has got the further inputs `added`, and its counter has moved with
each of them. -/
structure Gained (k : Graph) (r : RuleId) (added : List NodeId) (k' : Graph) : Prop where
  inputs : (k'.rule r).inputs = (k.rule r).inputs ++ added
  implicit : (k'.rule r).numImplicitDeps = (k.rule r).numImplicitDeps + added.length
  counter : (k'.rule r).numInputsReady + added.countP (fun n ↦ !k.inputReady n) =
    (k.rule r).numInputsReady + added.countP k.inputReady
  other : ∀ q ≠ r, k'.rule q = k.rule q
  lookup : ∀ dep n, k'.nodes.lookup dep = some n →
    k.nodes.lookup dep = some n ∨ k.inputReady n = true

theorem Gained.refl (k : Graph) (r : RuleId) : Gained k r [] k where
  inputs := (List.append_nil _).symm
  implicit := rfl
  counter := rfl
  other _ _ := rfl
  lookup _ _ := Or.inl

theorem Gained.trans {k'' : Graph} {added added' : List NodeId} (h : Gained k r added k')
    (h' : Gained k' r added' k'') (hready : ∀ n, k'.inputReady n = k.inputReady n) :
    Gained k r (added ++ added') k'' where
  inputs := by rw [h'.inputs, h.inputs, List.append_assoc]
  implicit := by rw [h'.implicit, h.implicit, List.length_append, Nat.add_assoc]
  counter := by
    have hfirst := h.counter
    have hsecond := h'.counter
    simp only [hready, funext hready] at hsecond
    rw [List.countP_append, List.countP_append]
    omega
  other q hq := (h'.other q hq).trans (h.other q hq)
  lookup dep n hn := by
    rcases h'.lookup dep n hn with hn | hn
    · exact h.lookup dep n hn
    · exact Or.inr (hready n ▸ hn)

/-- A dependency is no new input, or a single one. -/
theorem setRuleDependency_gained {dep : String} {t : NodeId} (h : k.Wired) (hr : r ∈ k.rules)
    (hrun : setRuleDependency P w k r dep = .ok (t, k')) :
    ∃ added, Gained k r added k' ∧ ∀ n ∈ added, k.inputReady n = true ∨
      k.nodes.lookup dep = some n ∧ n ∉ (k.rule r).inputs := by
  have hready' : ∀ n, k'.inputReady n = k.inputReady n :=
    (h.inputReady_edits (edits_of_relinks (setRuleDependency_relinks h hr hrun).relinks)).2
  rcases setRuleDependency_cases P w k r dep with ⟨t', -, -, heq⟩ | ⟨t', k₁, hjoin, heq⟩
  · rw [heq] at hrun
    obtain ⟨rfl, rfl⟩ := Prod.mk.inj (Except.ok.inj hrun)
    exact ⟨[], .refl k r, by simp⟩
  · rw [heq] at hrun
    cases hcount : countInput k₁ r t' with
    | error f =>
        rw [hcount] at hrun
        cases hrun
    | ok k₂ =>
        rw [hcount] at hrun
        obtain ⟨rfl, rfl⟩ := Prod.mk.inj (Except.ok.inj hrun)
        obtain ⟨c, rfl, hmoved⟩ := countInput_moves hcount
        have hself := hjoin.rule_self
        have hnew : k₁.inputReady t' = k.inputReady t' := hready' t'
        rw [hnew] at hmoved
        refine ⟨[t'], ⟨?_, ?_, ?_, fun q hq ↦ ?_, fun path n hn ↦ ?_⟩, fun n hn ↦ ?_⟩
        · rw [setRule_rule, if_pos rfl, hself]
          rfl
        · rw [setRule_rule, if_pos rfl, hself]
          rfl
        · rw [hself] at hmoved
          rw [setRule_rule, if_pos rfl, List.countP_singleton, List.countP_singleton]
          cases hk : k.inputReady t' <;> simpa [hk, Rule.addImplicitInput] using hmoved
        · rw [setRule_rule, if_neg hq]
          exact hjoin.rule_ne hq
        · rcases hjoin.lookup_iff.mp hn with hn | ⟨hnone, -, rfl⟩
          · exact Or.inl hn
          · exact Or.inr (hnew ▸ (hjoin.ready_of_created hnone).1)
        · rw [List.mem_singleton.mp hn]
          cases hjoin with
          | found hlookup hnot => exact Or.inr ⟨hlookup, hnot⟩
          | created hnone _ =>
              exact Or.inl (hnew ▸ (Joins.created (P := P) (w := w) hnone ‹_›).ready_of_created
                hnone |>.1)

theorem addDependencies_gained {ins : List String} {before left : List NodeId} (h : k.Wired)
    (hr : r ∈ k.rules) (hrun : addDependencies P w r ins (k, before) = .ok (k', left)) :
    ∃ added, Gained k r added k' ∧ ∀ n ∈ added, k.inputReady n = true ∨
      ∃ dep ∈ ins, k.nodes.lookup dep = some n ∧ n ∉ (k.rule r).inputs := by
  induction ins generalizing k before with
  | nil =>
      simp only [addDependencies, Lib.except_pure, Except.ok.injEq, Prod.mk.injEq] at hrun
      obtain ⟨rfl, -⟩ := hrun
      exact ⟨[], .refl k r, by simp⟩
  | cons dep ins ih =>
      rw [addDependencies] at hrun
      obtain ⟨⟨t, k₁⟩, hstep, hrest⟩ := Lib.bind_eq_ok.mp hrun
      have hrelinks := (setRuleDependency_relinks h hr hstep).relinks
      have hready := (h.inputReady_edits (edits_of_relinks hrelinks)).2
      obtain ⟨first, hfirst, hnamed⟩ := setRuleDependency_gained h hr hstep
      obtain ⟨rest, hgained, hnamed'⟩ :=
        ih (h.relinks hrelinks) ((rules_of_relinks hrelinks).symm ▸ hr) hrest
      refine ⟨first ++ rest, hfirst.trans hgained hready, fun n hn ↦ ?_⟩
      rcases List.mem_append.mp hn with hn | hn
      · exact (hnamed n hn).imp_right fun hdep ↦ ⟨dep, List.mem_cons_self, hdep⟩
      · rcases hnamed' n hn with hn | ⟨path, hpath, hlookup, hnot⟩
        · exact Or.inl (hready n ▸ hn)
        · rcases hfirst.lookup path n hlookup with hlookup | hn
          · refine Or.inr ⟨path, List.mem_cons_of_mem dep hpath, hlookup, fun hin ↦ hnot ?_⟩
            rw [hfirst.inputs]
            exact List.mem_append_left first hin
          · exact Or.inl hn

theorem explicit_append_implicit (x : Rule) :
    Hash.explicitInputs x ++ implicitDeps x = x.inputs :=
  List.take_append_drop _ _

theorem length_explicit_add_implicit (x : Rule) :
    (Hash.explicitInputs x).length + (implicitDeps x).length = x.inputs.length := by
  rw [← List.length_append, explicit_append_implicit]

theorem nbReady_eq_add (g : Graph) (r : RuleId) : g.nbReady r =
    (Hash.explicitInputs (g.rule r)).countP g.inputReady +
      (implicitDeps (g.rule r)).countP g.inputReady := by
  rw [Graph.nbReady, ← List.countP_append, explicit_append_implicit]

/-- Of the implicit inputs the ready ones are taken out of the counter. -/
theorem detachImplicit_counts (hrun : detachImplicit g r = .ok k) :
    ∃ c, c + (implicitDeps (g.rule r)).countP g.inputReady = (g.rule r).numInputsReady ∧
      k = g.setRule r { g.rule r with
        inputs := Hash.explicitInputs (g.rule r), numImplicitDeps := 0, numInputsReady := c } := by
  obtain ⟨g₁, hloop, hpure⟩ := Lib.bind_eq_ok.mp hrun
  obtain ⟨c, hc, hg₁⟩ : ∃ c, c + (implicitDeps (g.rule r)).reverse.countP g.inputReady =
      (g.rule r).numInputsReady ∧ g₁ = g.setRule r { g.rule r with numInputsReady := c } := by
    refine Lib.foldlM_prefix (fun pre k ↦ ∃ c, c + pre.countP g.inputReady =
        (g.rule r).numInputsReady ∧ k = g.setRule r { g.rule r with numInputsReady := c })
      ⟨_, rfl, by simp [setRule]⟩ ?_ hloop
    rintro pre n post t t' - ⟨c, hc, rfl⟩ hstep
    have hready : (g.setRule r { g.rule r with numInputsReady := c }).inputReady n =
        g.inputReady n := rfl
    rw [hready] at hstep
    rw [List.countP_append, List.countP_singleton]
    cases hn : g.inputReady n with
    | true =>
        rw [hn, if_pos rfl] at hstep
        have hself : (g.setRule r { g.rule r with numInputsReady := c }).rule r =
            { g.rule r with numInputsReady := c } := by
          rw [setRule_rule, if_pos rfl]
        by_cases hpos : 0 < c
        · refine ⟨c - 1, by rw [if_pos rfl]; omega, ?_⟩
          simp only [onRule, Rule.markInputDirty, hself, hpos, decide_true, assert_true,
            Lib.except_ok_bind, Lib.except_pure, Except.map, Except.ok.injEq] at hstep
          rw [← hstep]
          simp [setRule]
        · simp [onRule, Rule.markInputDirty, hself, hpos, assert, Except.map] at hstep
    | false =>
        rw [hn] at hstep
        simp only [Bool.false_eq_true, if_false, Lib.except_pure, Except.ok.injEq] at hstep
        exact ⟨c, by simpa using hc, hstep.symm⟩
  refine ⟨c, List.countP_reverse ▸ hc, ?_⟩
  rw [← Except.ok.inj hpure, hg₁]
  simp [updateRule, setRule, Hash.explicitInputs]

/-- The inputs of the rule after a load are its explicit ones and those of
`added`; the counter has lost the ready implicit inputs and moved with the new
ones. -/
structure Recounted (g : Graph) (r : RuleId) (added : List NodeId) (g' : Graph) : Prop where
  inputs : (g'.rule r).inputs = Hash.explicitInputs (g.rule r) ++ added
  implicit : (g'.rule r).numImplicitDeps = added.length
  counter : (g'.rule r).numInputsReady + (implicitDeps (g.rule r)).countP g.inputReady +
      added.countP (fun n ↦ !g.inputReady n) =
    (g.rule r).numInputsReady + added.countP g.inputReady
  other : ∀ q ≠ r, g'.rule q = g.rule q

/-- A dirty input that a load adds is named by the depfile. -/
def NamesNew (P : Platform ω) (g : Graph) (r : RuleId) (content : String) (n : NodeId) : Prop :=
  ∃ ins, Names P g r content ins ∧ ∃ dep ∈ ins, g.nodes.lookup dep = some n ∧
    n ∉ Hash.explicitInputs (g.rule r)

theorem load_recounted {content : String} {loaded : Bool} (h : g.Wired) (hr : r ∈ g.rules)
    (hrun : load P w g r content = .ok (loaded, g')) :
    ∃ added, Recounted g r added g' ∧
      ∀ n ∈ added, g.inputReady n = true ∨ NamesNew P g r content n := by
  obtain ⟨k, hdetach, hcases⟩ := load_ok hrun
  have hwired := h.relinks (detachImplicit_relinks (P := P) hdetach).1
  obtain ⟨c, hc, hk⟩ := detachImplicit_counts hdetach
  have hself : k.rule r = { g.rule r with
      inputs := Hash.explicitInputs (g.rule r), numImplicitDeps := 0, numInputsReady := c } := by
    rw [hk, setRule_rule, if_pos rfl]
  have hother : ∀ q ≠ r, k.rule q = g.rule q := by
    intro q hq
    rw [hk, setRule_rule, if_neg hq]
  have hnode : k.node = g.node := by rw [hk]; rfl
  obtain ⟨-, rfl, -⟩ | ⟨-, first, ins, k₁, left, hfirst, hparse, hadd, hdrop⟩ := hcases
  · refine ⟨[], ⟨?_, ?_, ?_, hother⟩, by simp⟩
    · rw [hself, List.append_nil]
    · rw [hself]
      rfl
    · rw [hself]
      exact hc
  have hr' : r ∈ k.rules := by rw [hk]; exact hr
  obtain ⟨added, hgained, hnamed⟩ := addDependencies_gained hwired hr' hadd
  have hready : k.inputReady = g.inputReady := by
    funext n
    rw [inputReady, inputReady, hnode]
  have hrule : g'.rule = k₁.rule :=
    Lib.foldlM_invariant (fun t : Graph ↦ t.rule = k₁.rule) (fun n _ t t' hstep ht ↦ by
      obtain ⟨-, ⟨-, -, rfl⟩ | ⟨-, rfl⟩⟩ := dropDependency_cases hstep
      · exact ht
      · exact ht) hdrop rfl
  refine ⟨added, ⟨?_, ?_, ?_, fun q hq ↦ ?_⟩, fun n hn ↦ ?_⟩
  · rw [hrule, hgained.inputs, hself]
  · rw [hrule, hgained.implicit, hself, Nat.zero_add]
  · have hcounter := hgained.counter
    rw [hready, hself] at hcounter
    rw [hrule]
    change (k₁.rule r).numInputsReady + _ = c + _ at hcounter
    omega
  · rw [hrule, hgained.other q hq, hother q hq]
  · refine (hnamed n hn).imp (fun hn ↦ hready ▸ hn) ?_
    rintro ⟨dep, hdep, hlookup, hnot⟩
    refine ⟨ins, ⟨first, ?_, ?_⟩, dep, hdep, ?_, ?_⟩
    · rw [hself] at hfirst
      exact hfirst
    · rw [hnode] at hparse
      exact hparse
    · rw [hk] at hlookup
      exact hlookup
    · rw [hself] at hnot
      exact hnot

namespace Recounted

variable {added : List NodeId} (h : Recounted g r added g')
include h

theorem length_inputs : (g'.rule r).inputs.length + (implicitDeps (g.rule r)).length =
    (g.rule r).inputs.length + added.length := by
  have hsplit := length_explicit_add_implicit (g.rule r)
  rw [h.inputs, List.length_append]
  omega

theorem nbReady (hready : ∀ n, g'.inputReady n = g.inputReady n) :
    g'.nbReady r + (implicitDeps (g.rule r)).countP g.inputReady =
      g.nbReady r + added.countP g.inputReady := by
  have hsplit := nbReady_eq_add g r
  rw [Graph.nbReady, h.inputs, funext hready, List.countP_append]
  omega

theorem counter_of_ready (hadded : ∀ n ∈ added, g.inputReady n = true) :
    (g'.rule r).numInputsReady + (implicitDeps (g.rule r)).countP g.inputReady =
      (g.rule r).numInputsReady + added.length := by
  have hnone : added.countP (fun n ↦ !g.inputReady n) = 0 :=
    List.countP_eq_zero.mpr fun n hn ↦ by simp [hadded n hn]
  have hcounter := h.counter
  rwa [hnone, List.countP_eq_length.mpr hadded] at hcounter

end Recounted

/-! ## Counters that lag behind -/

theorem avoids_countInput {t : NodeId}
    (hroom : (k.rule r).numInputsReady + 1 ≤ (k.rule r).inputs.length) :
    Avoids (.assertion .inputReadyBound) (countInput k r t) fun _ ↦ True := by
  cases hready : k.inputReady t with
  | true =>
      rw [countInput_ready hready hroom]
      exact .ok trivial
  | false =>
      rw [countInput_unready hready]
      split
      · exact .ok trivial
      · exact .error (by simp)

theorem avoids_setRuleDependency {dep : String}
    (hle : (k.rule r).numInputsReady ≤ (k.rule r).inputs.length) :
    Avoids (.assertion .inputReadyBound) (setRuleDependency P w k r dep) fun _ ↦ True := by
  rcases setRuleDependency_cases P w k r dep with ⟨t, -, -, heq⟩ | ⟨t, k₁, hjoin, heq⟩
  · rw [heq]
    exact .ok trivial
  · have hroom : (k₁.rule r).numInputsReady + 1 ≤ (k₁.rule r).inputs.length := by
      rw [hjoin.rule_self]
      simpa [Rule.addImplicitInput] using hle
    have hcount := avoids_countInput (t := t) hroom
    rw [heq]
    cases hrun : countInput k₁ r t with
    | ok k₂ => exact .ok trivial
    | error f => exact .error fun hf ↦ hcount.1 (hf ▸ hrun)

theorem avoids_addDependencies {ins : List String} {before : List NodeId} (h : k.Wired)
    (hr : r ∈ k.rules) (hle : (k.rule r).numInputsReady ≤ (k.rule r).inputs.length) :
    Avoids (.assertion .inputReadyBound) (addDependencies P w r ins (k, before))
      fun _ ↦ True := by
  induction ins generalizing k before with
  | nil => exact .ok trivial
  | cons dep ins ih =>
      rw [addDependencies]
      refine (avoids_setRuleDependency hle).bind fun x hstep _ ↦ ?_
      obtain ⟨t, k₁⟩ := x
      have hrelinks := (setRuleDependency_relinks h hr hstep).relinks
      obtain ⟨added, hgained, -⟩ := setRuleDependency_gained h hr hstep
      refine ih (h.relinks hrelinks) ((rules_of_relinks hrelinks).symm ▸ hr) ?_
      have hcounter := hgained.counter
      have hready : added.countP k.inputReady ≤ added.length := List.countP_le_length
      rw [hgained.inputs, List.length_append]
      omega

theorem avoids_detachImplicit :
    Avoids (.assertion .inputReadyBound) (detachImplicit g r) fun _ ↦ True := by
  refine Avoids.bind (Avoids.foldlM (fun _ ↦ True) (fun n _ k _ ↦ ?_) trivial)
    fun _ _ _ ↦ .ok trivial
  split
  · by_cases hpos : 0 < (k.rule r).numInputsReady
    · simp only [onRule, Rule.markInputDirty, hpos, decide_true, assert_true,
        Lib.except_ok_bind, Lib.except_pure, Except.map]
      exact .ok trivial
    · simp only [onRule, Rule.markInputDirty, hpos, decide_false, assert, Bool.false_eq_true,
        if_false, Lib.except_error_bind, Except.map]
      exact .error (by simp)
  · exact .ok trivial

theorem avoids_dropDependency (n : NodeId) :
    Avoids (.assertion .inputReadyBound) (dropDependency r g n) fun _ ↦ True := by
  rw [dropDependency]
  refine Avoids.bind (Q := fun _ ↦ True) ?_ fun k _ _ ↦ ?_
  · cases hp : (g.node n).hasParent r with
    | true =>
        simp only [onNode, Node.removeParentRule, hp, assert_true, Lib.except_ok_bind,
          Lib.except_pure, Except.map]
        exact .ok trivial
    | false =>
        simp only [onNode, Node.removeParentRule, hp, assert, Bool.false_eq_true, if_false,
          Lib.except_error_bind, Except.map]
        exact .error (by simp)
  · split <;> exact .ok trivial

/-- A load overruns no counter that is not ahead of the ready inputs. -/
theorem avoids_load {content : String} (h : g.Wired) (hr : r ∈ g.rules)
    (hcounted : (g.rule r).numInputsReady ≤ g.nbReady r) :
    Avoids (.assertion .inputReadyBound) (load P w g r content) fun _ ↦ True := by
  rw [load]
  refine avoids_detachImplicit.bind fun k hdetach _ ↦ ?_
  have hwired := h.relinks (detachImplicit_relinks (P := P) hdetach).1
  obtain ⟨c, hc, hk⟩ := detachImplicit_counts hdetach
  have hsplit := nbReady_eq_add g r
  have hexplicit : (Hash.explicitInputs (g.rule r)).countP g.inputReady ≤
      (Hash.explicitInputs (g.rule r)).length := List.countP_le_length
  have hle : (k.rule r).numInputsReady ≤ (k.rule r).inputs.length := by
    rw [hk, setRule_rule, if_pos rfl]
    change c ≤ (Hash.explicitInputs (g.rule r)).length
    omega
  split
  · exact .ok trivial
  · split
    · exact .error (by simp)
    · split
      · exact .ok trivial
      · refine (avoids_addDependencies hwired (by rw [hk]; exact hr) hle).bind fun x _ _ ↦ ?_
        refine Avoids.bind (Avoids.foldlM (fun _ ↦ True) (fun n _ t _ ↦ ?_) trivial)
          fun _ _ _ ↦ .ok trivial
        exact avoids_dropDependency n

theorem avoids_loadFromfile (h : g.Wired) (hr : r ∈ g.rules)
    (hcounted : (g.rule r).numInputsReady ≤ g.nbReady r) :
    Avoids (.assertion .inputReadyBound) (loadFromfile P w g r) fun _ ↦ True := by
  rw [loadFromfile]
  split
  · exact .ok trivial
  · split
    · exact .ok trivial
    · exact avoids_load h hr hcounted

end Depfile

namespace Graph

variable {ω : Type} {P : Platform ω} {w : ω} {g g' : Graph} {r : RuleId} {S : Set RuleId}

/-- No counter is ahead of the ready inputs, and a rule of `S` has all its
inputs or has a counter that stays behind. -/
structure Lagging (S : Set RuleId) (g : Graph) : Prop where
  joined : g.Joined
  counted : ∀ q ∈ g.rules, (g.rule q).numInputsReady ≤ g.nbReady q
  settled : ∀ q ∈ g.rules, q ∈ S → (g.rule q).numInputsReady < g.nbReady q ∨
    g.nbReady q = (g.rule q).inputs.length

namespace Lagging

theorem touch (h : g.Lagging S) (hlinks : g'.links = g.links)
    (hready : ∀ n, g'.inputReady n = g.inputReady n)
    (hcounter : ∀ q, (g'.rule q).numInputsReady = (g.rule q).numInputsReady) : g'.Lagging S := by
  have hinputs : ∀ q, (g'.rule q).inputs = (g.rule q).inputs := inputs_of_links hlinks
  have hnb : ∀ q, g'.nbReady q = g.nbReady q := fun q ↦ by
    rw [nbReady, nbReady, hinputs, funext hready]
  refine ⟨h.joined.of_links hlinks, fun q hq ↦ ?_, fun q hq hS ↦ ?_⟩
  · rw [hcounter, hnb]
    exact h.counted q (rules_of_links hlinks ▸ hq)
  · rw [hcounter, hnb, hinputs]
    exact h.settled q (rules_of_links hlinks ▸ hq) hS

/-- A load moves the counter of its rule by as much as the ready inputs, or less. -/
theorem load {content : String} {ins : List String} {loaded : Bool} (h : g.Lagging S)
    (hr : r ∈ g.rules) (hnames : Depfile.Names P g r content ins)
    (hrun : Depfile.load P w g r content = .ok (loaded, g')) : g'.Lagging S := by
  obtain ⟨added, hcount, -⟩ := Depfile.load_recounted h.joined.wired hr hrun
  have hedits := edits_of_relinks (Depfile.load_relinks h.joined.wired hr hrun)
  have hready := (h.joined.wired.inputReady_edits hedits).2
  have hrules : g'.rules = g.rules := rules_of_edits hedits
  have hnb := hcount.nbReady hready
  have hcounter := hcount.counter
  have hlength := hcount.length_inputs
  have himplicit : (Depfile.implicitDeps (g.rule r)).countP g.inputReady ≤
      (Depfile.implicitDeps (g.rule r)).length := List.countP_le_length
  have hsplit : added.length =
      added.countP g.inputReady + added.countP (fun n ↦ !g.inputReady n) := by
    simpa using List.length_eq_countP_add_countP g.inputReady (l := added)
  have hother : ∀ q ≠ r, g'.nbReady q = g.nbReady q := fun q hq ↦ by
    rw [nbReady, nbReady, hcount.other q hq, funext hready]
  refine ⟨(Depfile.load_spec h.joined hr hnames hrun).loading.joined h.joined, fun q hq ↦ ?_,
    fun q hq hS ↦ ?_⟩
  all_goals
    rw [hrules] at hq
    by_cases hqr : q = r
  · subst hqr
    have hle := h.counted q hq
    omega
  · rw [hcount.other q hqr, hother q hqr]
    exact h.counted q hq
  · subst hqr
    have hle := h.counted q hq
    have hbound : g.nbReady q ≤ (g.rule q).inputs.length := List.countP_le_length
    have hcases := h.settled q hq hS
    have hboth := Depfile.length_explicit_add_implicit (g.rule q)
    have heach := Depfile.nbReady_eq_add g q
    have hexplicit : (Hash.explicitInputs (g.rule q)).countP g.inputReady ≤
        (Hash.explicitInputs (g.rule q)).length := List.countP_le_length
    omega
  · rw [hcount.other q hqr, hother q hqr]
    exact h.settled q hq hS

end Lagging

end Graph

namespace Hash

open Graph

variable {ω : Type} {P : Platform ω} {s s' : Graph × ω} {r : RuleId} {a b : Bool}

theorem HashStep.edits (h : s.1.Wired) (hstep : HashStep P s s') : Edits P s.1 s'.1 := by
  cases hstep with
  | node hrun => exact .single (.hashNode hrun)
  | rule hr hrun hrestore =>
      have hfirst : Edits P _ _ := .single (.hashRule hrun)
      exact hfirst.trans
        (restoreDepfile_edits (h.edits hfirst) ((rules_of_edits hfirst).symm ▸ hr) hrestore)

theorem wired_of_hashSteps (h : s.1.Wired) (hrun : ReflTransGen (HashStep P) s s') :
    s'.1.Wired := by
  induction hrun with
  | refl => exact h
  | tail _ hstep ih => exact ih.edits (hstep.edits ih)

/-- Hashing a rule and what is above it consists of steps that hash one node or
one rule. -/
theorem recomputeRuleHash_hashSteps {nodeHash : Graph × ω → NodeId → Outcome (Graph × ω)}
    (hnode : ∀ t n t', t.1.Wired → nodeHash t n = .ok t' → ReflTransGen (HashStep P) t t')
    (h : s.1.Wired) (hr : r ∈ s.1.rules) (hrun : recomputeRuleHash P nodeHash s r = .ok s') :
    ReflTransGen (HashStep P) s s' := by
  obtain ⟨g₁, hupdate, hrun⟩ := Lib.bind_eq_ok.mp hrun
  obtain ⟨s₁, hrestore, hloop⟩ := Lib.bind_eq_ok.mp hrun
  exact Lib.foldlM_invariant (fun t ↦ ReflTransGen (HashStep P) s t)
    (fun n _ t t' hstep ht ↦ ht.trans (hnode t n t' (wired_of_hashSteps h ht) hstep)) hloop
    (.single (.rule hr hupdate hrestore))

theorem recomputeNodeHash_hashSteps {fuel : ℕ} {n : NodeId} {changed : Bool} (h : s.1.Wired)
    (hrun : recomputeNodeHash P a b fuel s n = .ok (changed, s')) :
    ReflTransGen (HashStep P) s s' := by
  induction fuel generalizing s n changed s' with
  | zero => cases hrun
  | succ fuel ih =>
      obtain ⟨g₁, hupdate, hcases⟩ := recomputeNodeHash_ok (g := s.1) (w := s.2) hrun
      have hfirst : ReflTransGen (HashStep P) s (g₁, s.2) := .single (.node hupdate)
      obtain ⟨-, rfl⟩ | ⟨-, hloop⟩ := hcases
      · exact hfirst
      · refine Lib.liveLoop_invariant (fun t ↦ ReflTransGen (HashStep P) s t) ?_ hloop hfirst
        intro t q hq t' ht hbody
        have hwired := wired_of_hashSteps h ht
        refine ht.trans (recomputeRuleHash_hashSteps ?_ hwired (hwired.parents n q hq) hbody)
        intro u m u' hu hm
        obtain ⟨⟨ch, u₁⟩, hrec, hpure⟩ := Lib.bind_eq_ok.mp hm
        rw [← Except.ok.inj hpure]
        exact ih hu hrec

/-! ## Hashing with counters that lag behind -/

/-- Every depfile that comes out of the cache on the way is a depfile of its
rule. -/
def Accepting (P : Platform ω) (s : Graph × ω) : Prop :=
  ∀ g w, ReflTransGen (HashStep P) s (g, w) → ∀ r ∈ g.rules, ∀ g₁ w' content,
    Restores P g w r g₁ w' content → ∃ ins, Depfile.Names P g₁ r content ins

theorem Accepting.step (h : Accepting P s) (hstep : HashStep P s s') : Accepting P s' :=
  fun g w hrun ↦ h g w (.head hstep hrun)

/-- What hashing keeps: the counters lag behind, and the depfiles are accepted. -/
structure Overtaking (P : Platform ω) (S : Set RuleId) (s : Graph × ω) : Prop where
  lagging : s.1.Lagging S
  accepting : Accepting P s

variable {S : Set RuleId}

theorem lagging_updateRuleHash {g g' : Graph} (h : g.Lagging S)
    (hrun : updateRuleHash P g r a b = .ok g') : g'.Lagging S := by
  obtain ⟨hash, deps, rfl⟩ := updateRuleHash_frame hrun
  exact h.touch (updateRuleHash_links hrun).1 (fun _ ↦ rfl)
    fun q ↦ proj_setRule Rule.numInputsReady (by rfl) q

theorem Overtaking.step (h : Overtaking P S s) (hstep : HashStep P s s') :
    Overtaking P S s' := by
  refine ⟨?_, h.accepting.step hstep⟩
  obtain ⟨hlag, haccepts⟩ := h
  cases hstep with
  | node hrun =>
      have hedit : Edit P _ _ := .hashNode hrun
      have hready := fun m ↦ (hlag.joined.wired.inputReady_edit hedit m).2
      obtain ⟨hash, deps, rfl⟩ := updateNodeHash_frame hrun
      exact hlag.touch (updateNodeHash_links hrun).1 hready fun _ ↦ rfl
  | @rule g w r g₁ _ hr hrun hrestore =>
      have hlag₁ : g₁.Lagging S := lagging_updateRuleHash hlag hrun
      have hr₁ : r ∈ g₁.rules := rules_of_links (updateRuleHash_links hrun).1 ▸ hr
      obtain ⟨heq, -⟩ | ⟨loaded, k, hdep, hchanged, hrestored, hload, hagain⟩ :=
        restoreDepfile_ok hrestore
      · exact heq ▸ hlag₁
      · refine lagging_updateRuleHash ?_ hagain
        obtain ⟨-, rfl, -⟩ | ⟨content, hread, hne, hcontent⟩ := Depfile.loadFromfile_ok hload
        · exact hlag₁
        · obtain ⟨ins, hnames⟩ := haccepts g w .refl r hr g₁ _ content
            ⟨hrun, hdep, hchanged, hrestored, hne, hread⟩
          exact hlag₁.load hr₁ hnames hcontent

section

variable (hP : ∀ g r w, P.restoreDepfile g r w ≠ .error (.assertion .inputReadyBound))
include hP

theorem avoids_restoreDepfile {tmp : String} {g : Graph} {w : ω} (h : g.Lagging S)
    (hr : r ∈ g.rules) :
    Avoids (.assertion .inputReadyBound) (restoreDepfile P tmp g w r) fun _ ↦ True := by
  rw [restoreDepfile]
  split
  · refine Avoids.bind (Q := fun _ ↦ True) ⟨hP g r w, fun _ _ ↦ trivial⟩ fun x _ _ ↦ ?_
    obtain ⟨restored, w'⟩ := x
    cases restored with
    | false => exact .ok trivial
    | true =>
        refine (Depfile.avoids_loadFromfile h.joined.wired hr (h.counted r hr)).bind
          fun y _ _ ↦ ?_
        exact (avoids_updateRuleHash (by simp)).bind fun _ _ _ ↦ .ok trivial
  · exact .ok trivial

theorem avoids_recomputeRuleHash {nodeHash : Graph × ω → NodeId → Outcome (Graph × ω)}
    (hnode : ∀ t n, Overtaking P S t →
      Avoids (.assertion .inputReadyBound) (nodeHash t n) (Overtaking P S))
    (h : Overtaking P S s) (hr : r ∈ s.1.rules) :
    Avoids (.assertion .inputReadyBound) (recomputeRuleHash P nodeHash s r)
      (Overtaking P S) := by
  rw [recomputeRuleHash]
  refine (avoids_updateRuleHash (by simp)).bind fun g₁ hrun hl ↦ ?_
  have hr₁ : r ∈ g₁.rules := rules_of_links hl ▸ hr
  refine (avoids_restoreDepfile hP (lagging_updateRuleHash h.lagging hrun) hr₁).bind
    fun s₁ hrestore _ ↦ ?_
  exact Avoids.foldlM _ (fun n _ t ht ↦ hnode t n ht) (h.step (.rule hr hrun hrestore))

/-- The recursion overruns no counter, however many depfiles it loads. -/
theorem avoids_recomputeNodeHash {fuel : ℕ} {n : NodeId} (h : Overtaking P S s) :
    Avoids (.assertion .inputReadyBound) (recomputeNodeHash P a b fuel s n)
      fun x ↦ Overtaking P S x.2 := by
  induction fuel generalizing s n with
  | zero => exact .error (by simp)
  | succ fuel ih =>
      obtain ⟨g, w⟩ := s
      rw [recomputeNodeHash]
      refine (avoids_updateNodeHash (by simp) (by simp)).bind fun x hrun _ ↦ ?_
      obtain ⟨changed, g₁⟩ := x
      have h₁ : Overtaking P S (g₁, w) := h.step (.node hrun)
      cases changed with
      | false => exact .ok h₁
      | true =>
          refine (Avoids.liveLoop_of_ne (by simp) (Overtaking P S) ?_ h₁).bind
            fun s' _ hs' ↦ .ok hs'
          intro t q hq ht
          refine avoids_recomputeRuleHash hP (fun u m hu ↦ ?_) ht
            (ht.lagging.joined.wired.parents n q hq)
          exact (ih hu).bind fun x _ hx ↦ .ok hx

end

end Hash

end Falcon
