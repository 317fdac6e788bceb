import Mathlib.Data.Finset.Sort
import Falcon.Graph.MarkDirty

/-!
# The build plan

`BuildPlan` collects the rules that have to run for a set of targets and hands
out the ones whose inputs are ready.  The traversal skips a rule that is in
the plan already, so its depth is bounded by the number of rules, on any graph.
-/

namespace Falcon

-- Sets of `Rule*` are ordered by address.
structure BuildPlan where
  rules : Finset RuleId
  readyRules : Finset RuleId
  numStarted : ℕ
  deriving DecidableEq

namespace BuildPlan

def empty : BuildPlan := ⟨∅, ∅, 0⟩

def addTarget (g : Graph) : ℕ → BuildPlan → NodeId → Outcome BuildPlan
  | 0, _, _ => .error .outOfFuel
  | fuel + 1, p, target =>
    -- This target is already up to date.
    if !(g.node target).isDirty then pure p
    else
      match (g.node target).childRule with
      -- This is a source file. Ignore it.
      | none => pure p
      | some rule =>
        if rule ∈ p.rules then pure p
        else do
          assert (g.rule rule).isDirty .planRuleDirty
          let p := { p with rules := insert rule p.rules }
          if (g.rule rule).ready then do
            assert (rule ∉ p.readyRules) .planRuleNotReady
            pure { p with readyRules := insert rule p.readyRules }
          else (g.rule rule).inputs.foldlM (addTarget g fuel) p

/-- The constructor: the targets are added in the order of their addresses. -/
def create (g : Graph) (targets : Finset NodeId) : Outcome BuildPlan := do
  let p ← (targets.sort (· ≤ ·)).foldlM (addTarget g (g.rules.length + 1)) empty
  assert (p.rules = ∅ || p.readyRules ≠ ∅) .planHasStart
  pure p

def hasWork (p : BuildPlan) : Bool := p.readyRules ≠ ∅

def done (p : BuildPlan) : Bool := p.numStarted = p.rules.card

def findWork (p : BuildPlan) : Option RuleId × BuildPlan :=
  match (p.readyRules.sort (· ≤ ·)).head? with
  | none => (none, p)
  | some rule =>
    (some rule, { p with readyRules := p.readyRules.erase rule, numStarted := p.numStarted + 1 })

/-- `findWork` hands out the rule with the least address. -/
theorem findWork_least {p : BuildPlan} {r : RuleId} (hr : r ∈ p.readyRules)
    (hmin : ∀ q ∈ p.readyRules, r ≤ q) : p.findWork =
      (some r, { p with
        readyRules := p.readyRules.erase r, numStarted := p.numStarted + 1 }) := by
  have hsorted := p.readyRules.pairwise_sort (· ≤ ·)
  have hmem := (Finset.mem_sort (s := p.readyRules) (· ≤ ·)).mpr hr
  rw [findWork]
  cases hsort : p.readyRules.sort (· ≤ ·) with
  | nil => simp [hsort] at hmem
  | cons q l =>
      rw [hsort] at hsorted hmem
      have hq : q ∈ p.readyRules := (Finset.mem_sort (· ≤ ·)).mp (hsort ▸ List.mem_cons_self)
      obtain rfl : r = q := by
        rcases List.mem_cons.mp hmem with h | h
        · exact h
        · exact le_antisymm (hmin q hq) (List.rel_of_pairwise_cons hsorted h)
      rfl

def notifyParent (g : Graph) (p : BuildPlan) (parentRule : RuleId) : BuildPlan :=
  if (g.rule parentRule).ready && parentRule ∈ p.rules then
    { p with readyRules := insert parentRule p.readyRules }
  else p

def notifyRuleBuilt (g : Graph) (p : BuildPlan) (rule : RuleId) : Outcome BuildPlan := do
  assert (rule ∉ p.readyRules) .notifiedRuleNotReady
  assert (rule ∈ p.rules) .notifiedRuleInPlan
  pure <| ((g.rule rule).outputs.flatMap fun o ↦ (g.node o).parentRules).foldl (notifyParent g) p

end BuildPlan

namespace Graph

def DirtyHasDirtyRule (g : Graph) : Prop :=
  ∀ n r, (g.node n).childRule = some r → (g.node n).isDirty = true → (g.rule r).isDirty = true

/-- The rules that a build of the targets `T` has to run: the traversal goes
from a dirty target to its rule, and below a rule that is not ready. -/
inductive Needed (g : Graph) (T : Finset NodeId) : RuleId → Prop
  | target {t r} (ht : t ∈ T) (hdirty : (g.node t).isDirty = true)
      (hchild : (g.node t).childRule = some r) : Needed g T r
  | input {q x r} (hq : Needed g T q) (hready : (g.rule q).ready = false)
      (hx : x ∈ (g.rule q).inputs) (hdirty : (g.node x).isDirty = true)
      (hchild : (g.node x).childRule = some r) : Needed g T r

theorem Needed.exists_dirty_output {g : Graph} {T : Finset NodeId} {r : RuleId}
    (h : g.Needed T r) :
    ∃ n, (g.node n).childRule = some r ∧ (g.node n).isDirty = true := by
  cases h with
  | target _ hdirty hchild => exact ⟨_, hchild, hdirty⟩
  | input _ _ _ hdirty hchild => exact ⟨_, hchild, hdirty⟩

end Graph

namespace BuildPlan

variable {g : Graph}

def Covers (g : Graph) (p : BuildPlan) (t : NodeId) : Prop :=
  (g.node t).isDirty = true → ∀ r, (g.node t).childRule = some r → r ∈ p.rules

theorem Covers.mono {p p' : BuildPlan} {t : NodeId} (h : Covers g p t)
    (hsub : p.rules ⊆ p'.rules) : Covers g p' t :=
  fun hd r hr ↦ hsub (h hd r hr)

/-- What a traversal from plan `p` to plan `p'` has done: the rules it added
all satisfy `S`, are in the ready set exactly if they are ready, and otherwise
have their inputs covered.  Rules that were in `p` may still be open. -/
structure Extends (g : Graph) (S : RuleId → Prop) (p p' : BuildPlan) : Prop where
  rules_subset : p.rules ⊆ p'.rules
  started : p'.numStarted = p.numStarted
  sound : ∀ r ∈ p'.rules, r ∉ p.rules → S r
  ready_iff : ∀ r, r ∈ p'.readyRules ↔
    r ∈ p.readyRules ∨ (r ∈ p'.rules ∧ r ∉ p.rules ∧ (g.rule r).ready = true)
  closed : ∀ r ∈ p'.rules, r ∉ p.rules → (g.rule r).ready = false →
    ∀ x ∈ (g.rule r).inputs, Covers g p' x

theorem Extends.refl (g : Graph) (S : RuleId → Prop) (p : BuildPlan) : Extends g S p p where
  rules_subset := Finset.Subset.refl _
  started := rfl
  sound r hr hnr := absurd hr hnr
  ready_iff r := by
    constructor
    · exact Or.inl
    · rintro (h | ⟨hr, hnr, -⟩)
      · exact h
      · exact absurd hr hnr
  closed r hr hnr := absurd hr hnr

theorem Extends.trans {S : RuleId → Prop} {p₁ p₂ p₃ : BuildPlan} (h : Extends g S p₁ p₂)
    (h' : Extends g S p₂ p₃) : Extends g S p₁ p₃ where
  rules_subset := h.rules_subset.trans h'.rules_subset
  started := h'.started.trans h.started
  sound r hr hnr := by
    by_cases hmid : r ∈ p₂.rules
    · exact h.sound r hmid hnr
    · exact h'.sound r hr hmid
  ready_iff r := by
    rw [h'.ready_iff, h.ready_iff]
    constructor
    · rintro ((h₁ | ⟨h₂, hn, hrdy⟩) | ⟨h₃, hn, hrdy⟩)
      · exact Or.inl h₁
      · exact Or.inr ⟨h'.rules_subset h₂, hn, hrdy⟩
      · exact Or.inr ⟨h₃, fun hr ↦ hn (h.rules_subset hr), hrdy⟩
    · rintro (h₁ | ⟨h₃, hn, hrdy⟩)
      · exact Or.inl (Or.inl h₁)
      · by_cases hmid : r ∈ p₂.rules
        · exact Or.inl (Or.inr ⟨hmid, hn, hrdy⟩)
        · exact Or.inr ⟨h₃, hmid, hrdy⟩
  closed r hr hnr hrdy x hx := by
    by_cases hmid : r ∈ p₂.rules
    · exact (h.closed r hmid hnr hrdy x hx).mono h'.rules_subset
    · exact h'.closed r hr hmid hrdy x hx

theorem Extends.mono {S S' : RuleId → Prop} {p p' : BuildPlan} (h : Extends g S p p')
    (hS : ∀ r, S r → S' r) : Extends g S' p p' :=
  { h with sound := fun r hr hnr ↦ hS r (h.sound r hr hnr) }

theorem foldlM_addTarget {S : RuleId → Prop} {fuel : ℕ} {l : List NodeId} {p : BuildPlan}
    (hspec : ∀ x ∈ l, ∀ q : BuildPlan, p.rules ⊆ q.rules → q.readyRules ⊆ q.rules →
      ∃ q', addTarget g fuel q x = .ok q' ∧ Extends g S q q' ∧ Covers g q' x ∧
        q'.readyRules ⊆ q'.rules)
    (hready : p.readyRules ⊆ p.rules) :
    ∃ p', l.foldlM (addTarget g fuel) p = .ok p' ∧ Extends g S p p' ∧
      (∀ x ∈ l, Covers g p' x) ∧ p'.readyRules ⊆ p'.rules := by
  apply Lib.foldlM_rule (fun pre q ↦ Extends g S p q ∧ (∀ x ∈ pre, Covers g q x) ∧
    q.readyRules ⊆ q.rules)
  · exact ⟨Extends.refl g S p, by simp, hready⟩
  · intro pre x post q hl ⟨hext, hcov, hrdy⟩
    obtain ⟨q', hrun, hext', hcov', hrdy'⟩ := hspec x (by simp [hl]) q hext.rules_subset hrdy
    refine ⟨q', hrun, hext.trans hext', ?_, hrdy'⟩
    intro y hy
    rcases List.mem_append.mp hy with hy | hy
    · exact (hcov y hy).mono hext'.rules_subset
    · rw [List.mem_singleton.mp hy]
      exact hcov'

theorem extends_insert_ready {S : RuleId → Prop} {p : BuildPlan} {r : RuleId} (hS : S r)
    (hnew : r ∉ p.rules) (hrdy : (g.rule r).ready = true) :
    Extends g S p { p with rules := insert r p.rules, readyRules := insert r p.readyRules } where
  rules_subset := Finset.subset_insert _ _
  started := rfl
  sound q hq hnq := by
    rcases Finset.mem_insert.mp hq with rfl | hq
    · exact hS
    · exact absurd hq hnq
  ready_iff q := by
    simp only [Finset.mem_insert]
    constructor
    · rintro (rfl | hq)
      · exact Or.inr ⟨Or.inl rfl, hnew, hrdy⟩
      · exact Or.inl hq
    · rintro (hq | ⟨rfl | hq, hnq, -⟩)
      · exact Or.inr hq
      · exact Or.inl rfl
      · exact absurd hq hnq
  closed q hq hnq hnrdy := by
    rcases Finset.mem_insert.mp hq with rfl | hq
    · rw [hrdy] at hnrdy
      exact Bool.noConfusion hnrdy
    · exact absurd hq hnq

theorem extends_insert_waiting {S : RuleId → Prop} {p p' : BuildPlan} {r : RuleId} (hS : S r)
    (hnew : r ∉ p.rules) (hwait : (g.rule r).ready = false)
    (hext : Extends g S { p with rules := insert r p.rules } p')
    (hcov : ∀ x ∈ (g.rule r).inputs, Covers g p' x) : Extends g S p p' where
  rules_subset := (Finset.subset_insert _ _).trans hext.rules_subset
  started := hext.started
  sound q hq hnq := by
    by_cases hqr : q = r
    · exact hqr ▸ hS
    · exact hext.sound q hq (by simp [hqr, hnq])
  ready_iff q := by
    rw [hext.ready_iff]
    refine or_congr Iff.rfl (and_congr_right fun hq ↦ ?_)
    simp only [Finset.mem_insert, not_or]
    constructor
    · rintro ⟨⟨-, hnq⟩, hrdy⟩
      exact ⟨hnq, hrdy⟩
    · rintro ⟨hnq, hrdy⟩
      refine ⟨⟨?_, hnq⟩, hrdy⟩
      rintro rfl
      rw [hwait] at hrdy
      exact Bool.noConfusion hrdy
  closed q hq hnq hnrdy x hx := by
    by_cases hqr : q = r
    · subst hqr
      exact hcov x hx
    · exact hext.closed q hq (by simp [hqr, hnq]) hnrdy x hx

section Spec

variable (hchild : ∀ n r, (g.node n).childRule = some r → r ∈ g.rules)
  (hdirty : g.DirtyHasDirtyRule) {S : RuleId → Prop}
  (hSstep : ∀ q x r, S q → (g.rule q).ready = false → x ∈ (g.rule q).inputs →
    (g.node x).isDirty = true → (g.node x).childRule = some r → S r)
include hchild hdirty hSstep

theorem addTarget_spec {fuel : ℕ} {p : BuildPlan} {t : NodeId}
    (hfuel : (g.rules.toFinset \ p.rules).card < fuel)
    (hS : ∀ r, (g.node t).isDirty = true → (g.node t).childRule = some r → S r)
    (hready : p.readyRules ⊆ p.rules) :
    ∃ p', addTarget g fuel p t = .ok p' ∧ Extends g S p p' ∧ Covers g p' t ∧
      p'.readyRules ⊆ p'.rules := by
  induction fuel generalizing p t with
  | zero => omega
  | succ fuel ih =>
      cases hd : (g.node t).isDirty with
      | false =>
          exact ⟨p, by simp [addTarget, hd], Extends.refl g S p, by simp [Covers, hd], hready⟩
      | true =>
          cases hc : (g.node t).childRule with
          | none =>
              exact ⟨p, by simp [addTarget, hd, hc], Extends.refl g S p, by simp [Covers, hc],
                hready⟩
          | some rule =>
              have hSr : S rule := hS rule hd hc
              have hcov : ∀ q : BuildPlan, rule ∈ q.rules → Covers g q t := by
                intro q hq _ r hr
                rw [hc] at hr
                exact Option.some.inj hr ▸ hq
              by_cases hin : rule ∈ p.rules
              · exact ⟨p, by simp [addTarget, hd, hc, hin], Extends.refl g S p, hcov p hin, hready⟩
              · have hrd : (g.rule rule).isDirty = true := hdirty t rule hc hd
                cases hrdy : (g.rule rule).ready with
                | true =>
                    have hnr : rule ∉ p.readyRules := fun h ↦ hin (hready h)
                    refine ⟨{ p with
                      rules := insert rule p.rules, readyRules := insert rule p.readyRules },
                      ?_, extends_insert_ready hSr hin hrdy, hcov _ (by simp), ?_⟩
                    · simp [addTarget, hd, hc, hin, hrd, hrdy, hnr]
                    · exact Finset.insert_subset_insert _ hready
                | false =>
                    have hcard : (g.rules.toFinset \ insert rule p.rules).card < fuel := by
                      have hmem : rule ∈ g.rules.toFinset \ p.rules := by
                        simp [hchild t rule hc, hin]
                      rw [Finset.sdiff_insert, Finset.card_erase_of_mem hmem]
                      have := Finset.card_pos.mpr ⟨rule, hmem⟩
                      omega
                    have hinputs : ∀ x ∈ (g.rule rule).inputs, ∀ q : BuildPlan,
                        insert rule p.rules ⊆ q.rules → q.readyRules ⊆ q.rules →
                        ∃ q', addTarget g fuel q x = .ok q' ∧ Extends g S q q' ∧ Covers g q' x ∧
                          q'.readyRules ⊆ q'.rules := by
                      intro x hx q hsub hqr
                      refine ih ?_ (fun r hdx hcx ↦ hSstep rule x r hSr hrdy hx hdx hcx) hqr
                      exact lt_of_le_of_lt
                        (Finset.card_le_card (Finset.sdiff_subset_sdiff subset_rfl hsub)) hcard
                    obtain ⟨p', hrun, hext, hcovs, hrdy'⟩ := foldlM_addTarget
                      (p := { p with rules := insert rule p.rules }) hinputs
                      (hready.trans (Finset.subset_insert _ _))
                    refine ⟨p', ?_, extends_insert_waiting hSr hin hrdy hext hcovs,
                      hcov p' (hext.rules_subset (by simp)), hrdy'⟩
                    simpa [addTarget, hd, hc, hin, hrd, hrdy] using hrun

end Spec

/-- The traversal of the constructor, before its assertion. -/
theorem foldlM_targets_spec (hchild : ∀ n r, (g.node n).childRule = some r → r ∈ g.rules)
    (hdirty : g.DirtyHasDirtyRule) (T : Finset NodeId) :
    ∃ p, (T.sort (· ≤ ·)).foldlM (addTarget g (g.rules.length + 1)) empty = .ok p ∧
      (∀ r, r ∈ p.rules ↔ g.Needed T r) ∧
      (∀ r, r ∈ p.readyRules ↔ g.Needed T r ∧ (g.rule r).ready = true) ∧ p.numStarted = 0 := by
  have htargets : ∀ t ∈ T.sort (· ≤ ·), ∀ q : BuildPlan, empty.rules ⊆ q.rules →
      q.readyRules ⊆ q.rules →
      ∃ q', addTarget g (g.rules.length + 1) q t = .ok q' ∧ Extends g (g.Needed T) q q' ∧
        Covers g q' t ∧ q'.readyRules ⊆ q'.rules := by
    intro t ht q _ hqr
    refine addTarget_spec hchild hdirty (fun _ _ _ ↦ .input) ?_ ?_ hqr
    · have hcard : (g.rules.toFinset \ q.rules).card ≤ g.rules.length :=
        (Finset.card_le_card Finset.sdiff_subset).trans (List.toFinset_card_le _)
      omega
    · exact fun r hd hc ↦ .target ((Finset.mem_sort _).mp ht) hd hc
  obtain ⟨p, hrun, hext, hcov, -⟩ := foldlM_addTarget htargets (by simp [empty])
  have hrules : ∀ r, r ∈ p.rules ↔ g.Needed T r := by
    intro r
    constructor
    · exact fun hr ↦ hext.sound r hr (by simp [empty])
    · intro hr
      induction hr with
      | target ht hd hc => exact hcov _ ((Finset.mem_sort _).mpr ht) hd _ hc
      | input _ hready hx hd hc ih =>
          exact hext.closed _ ih (by simp [empty]) hready _ hx hd _ hc
  refine ⟨p, hrun, hrules, fun r ↦ ?_, hext.started⟩
  rw [hext.ready_iff, hrules]
  simp [empty]

end BuildPlan

namespace Graph

variable {g : Graph}

theorem Exact.ready_iff (hexact : g.Exact) {r : RuleId} (hr : r ∈ g.rules) :
    (g.rule r).ready = true ↔ ∀ x ∈ (g.rule r).inputs, g.inputReady x = true := by
  rw [Rule.ready, hexact r hr, nbReady, decide_eq_true_eq, List.countP_eq_length]

/-- No counter is below the number of ready inputs or above that of inputs. -/
def Counting (g : Graph) : Prop :=
  ∀ r ∈ g.rules, g.nbReady r ≤ (g.rule r).numInputsReady ∧
    (g.rule r).numInputsReady ≤ (g.rule r).inputs.length

theorem Exact.counting (hexact : g.Exact) : g.Counting := by
  intro r hr
  rw [hexact r hr]
  exact ⟨le_rfl, List.countP_le_length⟩

theorem Counting.exists_unready (hcount : g.Counting) {r : RuleId} (hr : r ∈ g.rules)
    (hready : (g.rule r).ready = false) :
    ∃ x ∈ (g.rule r).inputs, ∃ q, (g.node x).childRule = some q ∧ (g.node x).isDirty = true := by
  obtain ⟨hle, hbound⟩ := hcount r hr
  have hlt : g.nbReady r ≠ (g.rule r).inputs.length := by
    simp only [Rule.ready, decide_eq_false_iff_not] at hready
    omega
  have hnot : ¬ ∀ x ∈ (g.rule r).inputs, g.inputReady x = true := by
    rw [← List.countP_eq_length]
    exact hlt
  push Not at hnot
  obtain ⟨x, hx, hxr⟩ := hnot
  obtain ⟨hsrc, hd⟩ := inputReady_eq_false.mp (by simpa using hxr)
  obtain ⟨q, hq⟩ := Option.isSome_iff_exists.mp (by simpa [Node.isSource] using hsrc)
  exact ⟨x, hx, q, hq, hd⟩

/-- The rule of a node belongs to the graph and has the node as an output. -/
def Owned (g : Graph) : Prop :=
  ∀ n r, (g.node n).childRule = some r → r ∈ g.rules ∧ n ∈ (g.rule r).outputs

theorem owned_of_twoWay (hL : g.links.TwoWay) : g.Owned :=
  fun n r h ↦ (hL.child_eq_some n r).mp h

/-- In a nonempty set of rules that contains, with each waiting rule, the rule
of each of its dirty inputs, and each of which has a dirty output, some rule is
ready: there is no circular wait. -/
theorem Owned.exists_ready_rule (hown : g.Owned) (hac : g.links.Acyclic) (hcount : g.Counting)
    {W : Finset RuleId} (hW : W.Nonempty)
    (hout : ∀ r ∈ W, ∃ n, (g.node n).childRule = some r ∧ (g.node n).isDirty = true)
    (hclosed : ∀ r ∈ W, (g.rule r).ready = false → ∀ x ∈ (g.rule r).inputs,
      (g.node x).isDirty = true → ∀ q, (g.node x).childRule = some q → q ∈ W) :
    ∃ r ∈ W, (g.rule r).ready = true := by
  by_contra hnone
  push Not at hnone
  have hrules : ∀ {n r}, (g.node n).childRule = some r → r ∈ g.rules :=
    fun {n r} h ↦ (hown n r h).1
  -- The dirty outputs of the waiting rules have a lowest element.
  classical
  let N := g.links.targets.filter fun n ↦
    (g.node n).isDirty = true ∧ ∃ r ∈ W, (g.node n).childRule = some r
  have hmemN : ∀ n r, (g.node n).childRule = some r → r ∈ W → (g.node n).isDirty = true →
      n ∈ N := by
    intro n r hc hr hd
    refine Finset.mem_filter.mpr ⟨?_, hd, r, hr, hc⟩
    obtain ⟨hrr, hn⟩ := hown n r hc
    exact List.mem_toFinset.mpr (List.mem_flatMap.mpr ⟨r, hrr, hn⟩)
  have hN : N.Nonempty := by
    obtain ⟨r, hr⟩ := hW
    obtain ⟨n, hc, hd⟩ := hout r hr
    exact ⟨n, hmemN n r hc hr hd⟩
  obtain ⟨n, hn, hmin⟩ := Lib.Acyclic.exists_minimal (Lib.Acyclic.swap hac)
    (S := (g.rules.flatMap fun r ↦ (g.rule r).inputs).toFinset)
    (by
      rintro a b ⟨r, hc, hb⟩
      exact List.mem_toFinset.mpr (List.mem_flatMap.mpr ⟨r, hrules hc, hb⟩)) hN
  obtain ⟨-, -, r, hr, hc⟩ := Finset.mem_filter.mp hn
  have hwait : (g.rule r).ready = false := by simpa using hnone r hr
  obtain ⟨x, hx, q, hq, hd⟩ := hcount.exists_unready (hrules hc) hwait
  exact hmin x ⟨r, hc, hx⟩ (hmemN x q hq (hclosed r hr hwait x hx hd q hq) hd)

theorem exists_ready_rule (hL : g.links.TwoWay) (hac : g.links.Acyclic) (hcount : g.Counting)
    {W : Finset RuleId} (hW : W.Nonempty)
    (hout : ∀ r ∈ W, ∃ n, (g.node n).childRule = some r ∧ (g.node n).isDirty = true)
    (hclosed : ∀ r ∈ W, (g.rule r).ready = false → ∀ x ∈ (g.rule r).inputs,
      (g.node x).isDirty = true → ∀ q, (g.node x).childRule = some q → q ∈ W) :
    ∃ r ∈ W, (g.rule r).ready = true :=
  (owned_of_twoWay hL).exists_ready_rule hac hcount hW hout hclosed

end Graph

namespace BuildPlan

variable {g : Graph}

/-- The assertion of the constructor. -/
theorem create_start {T : Finset NodeId} {p : BuildPlan} (h : create g T = .ok p) :
    p.rules.Nonempty → p.readyRules.Nonempty := by
  obtain ⟨p', -, hrest⟩ := Lib.bind_eq_ok.mp h
  obtain ⟨_, hassert, hpure⟩ := Lib.bind_eq_ok.mp hrest
  obtain rfl : p' = p := Except.ok.inj hpure
  rw [assert_eq_ok, Bool.or_eq_true, decide_eq_true_eq, decide_eq_true_eq] at hassert
  intro hne
  exact Finset.nonempty_iff_ne_empty.mpr (hassert.resolve_left hne.ne_empty)

/-- The plan of a graph with exact counters consists of the needed rules; the
ready set holds those that are ready, and there is one if there is any rule. -/
theorem create_owned (hown : g.Owned) (hac : g.links.Acyclic) (hexact : g.Exact)
    (hdirty : g.DirtyHasDirtyRule) (T : Finset NodeId) :
    ∃ p, create g T = .ok p ∧ (∀ r, r ∈ p.rules ↔ g.Needed T r) ∧
      (∀ r, r ∈ p.readyRules ↔ g.Needed T r ∧ (g.rule r).ready = true) ∧ p.numStarted = 0 := by
  have hchild : ∀ n r, (g.node n).childRule = some r → r ∈ g.rules := fun n r h ↦ (hown n r h).1
  obtain ⟨p, hrun, hrules, hready, hstarted⟩ := foldlM_targets_spec hchild hdirty T
  refine ⟨p, ?_, hrules, hready, hstarted⟩
  have hstart : p.rules = ∅ ∨ p.readyRules ≠ ∅ := by
    rcases p.rules.eq_empty_or_nonempty with hempty | hne
    · exact Or.inl hempty
    · right
      obtain ⟨r, hr, hrdy⟩ := hown.exists_ready_rule hac hexact.counting hne
        (fun r hr ↦ ((hrules r).mp hr).exists_dirty_output)
        (by
          intro r hr hwait x hx hd q hq
          rw [hrules] at hr ⊢
          exact .input hr hwait hx hd hq)
      exact Finset.ne_empty_of_mem ((hready r).mpr ⟨(hrules r).mp hr, hrdy⟩)
  simp only [create, hrun, Lib.except_ok_bind]
  have hcond : (decide (p.rules = ∅) || decide (p.readyRules ≠ ∅)) = true := by
    simpa using hstart
  rw [hcond]
  rfl

theorem create_spec (hL : g.links.TwoWay) (hac : g.links.Acyclic) (hexact : g.Exact)
    (hdirty : g.DirtyHasDirtyRule) (T : Finset NodeId) :
    ∃ p, create g T = .ok p ∧ (∀ r, r ∈ p.rules ↔ g.Needed T r) ∧
      (∀ r, r ∈ p.readyRules ↔ g.Needed T r ∧ (g.rule r).ready = true) ∧ p.numStarted = 0 :=
  create_owned (Graph.owned_of_twoWay hL) hac hexact hdirty T

end BuildPlan

end Falcon
