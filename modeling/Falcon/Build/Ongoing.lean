import Mathlib.Algebra.BigOperators.Group.List.Basic
import Falcon.Build.Builder

/-!
# The invariant of a build

While a plan is carried out, the graph is determined by the initial graph and
the set of rules that have been built.  Each rule of the plan has not been
handed out yet, or is in hand, or has been built or has failed.  The counters
are exact except for what reporting an output twice adds to them.
-/

namespace Falcon

open BuildEvent

/-- The plan `p` of the graph `g` before the build starts. -/
structure Planned (g : Graph) (p : BuildPlan) : Prop where
  output : ∀ r ∈ p.rules, ∃ n, (g.node n).childRule = some r ∧ (g.node n).isDirty = true
  closed : ∀ r ∈ p.rules, (g.rule r).ready = false → ∀ x ∈ (g.rule r).inputs,
    (g.node x).isDirty = true → ∀ q, (g.node x).childRule = some q → q ∈ p.rules
  ready_iff : ∀ r, r ∈ p.readyRules ↔ r ∈ p.rules ∧ (g.rule r).ready = true
  numStarted : p.numStarted = 0

theorem Planned.mem_rules {g : Graph} {p : BuildPlan} (h : Planned g p) (hL : g.links.TwoWay) :
    ∀ r ∈ p.rules, r ∈ g.rules := by
  intro r hr
  obtain ⟨n, hn, -⟩ := h.output r hr
  exact ((hL.child_eq_some n r).mp hn).1

/-- The inputs of `q` that building `r` reports although they were clean. -/
def cleanReports (g : Graph) (q r : RuleId) : ℕ :=
  (g.rule q).inputs.countP fun n ↦ decide (n ∈ (g.rule r).outputs) && !(g.node n).isDirty

def excess (g : Graph) (built : List RuleId) (q : RuleId) : ℕ := (built.map (cleanReports g q)).sum

theorem cleanReports_eq_zero {g : Graph} {q r : RuleId} (h : ∀ x ∈ (g.rule q).inputs,
    x ∈ (g.rule r).outputs → (g.node x).isDirty = true) : cleanReports g q r = 0 := by
  refine List.countP_eq_zero.mpr fun x hx hclean ↦ ?_
  simp only [Bool.and_eq_true, decide_eq_true_eq, Bool.not_eq_true'] at hclean
  rw [h x hx hclean.1] at hclean
  cases hclean.2

theorem excess_eq_zero {g : Graph} {built : List RuleId} {q : RuleId}
    (h : ∀ r ∈ built, cleanReports g q r = 0) : excess g built q = 0 := by
  apply List.sum_eq_zero
  intro n hn
  obtain ⟨r, hr, rfl⟩ := List.mem_map.mp hn
  exact h r hr

/-- The build of plan `p₀` on graph `g₀` has handed out the rules `found`: some
have been built, some have failed, and the others are still in hand. -/
structure Ongoing (g₀ : Graph) (p₀ : BuildPlan) (found built failed hand : List RuleId) (g : Graph)
    (p : BuildPlan) : Prop where
  links : g.links = g₀.links
  hashes : g.hashes = g₀.hashes
  rules : p.rules = p₀.rules
  numStarted : p.numStarted = found.length
  found_nodup : found.Nodup
  found_planned : ∀ r ∈ found, r ∈ p₀.rules
  split : found.Perm (built ++ failed ++ hand)
  node : ∀ n r, (g₀.node n).childRule = some r →
    ((g.node n).isDirty = true ↔ (g₀.node n).isDirty = true ∧ r ∉ built)
  source : ∀ n, (g.node n).isDirty = true → (g₀.node n).isDirty = true
  rule : ∀ r, (g.rule r).isDirty = true ↔ (g₀.rule r).isDirty = true ∧ r ∉ built
  numReady : ∀ q ∈ g₀.rules, (g.rule q).numInputsReady = g.nbReady q + excess g₀ built q
  bound : ∀ q ∈ g₀.rules, (g.rule q).numInputsReady ≤ (g₀.rule q).inputs.length
  grows : ∀ q, (g₀.rule q).numInputsReady ≤ (g.rule q).numInputsReady
  ready_iff : ∀ r, r ∈ p.readyRules ↔ r ∈ p₀.rules ∧ r ∉ found ∧ (g.rule r).ready = true
  found_ready : ∀ r ∈ found, (g.rule r).ready = true

namespace Ongoing

variable {g₀ g g' : Graph} {p₀ p p' : BuildPlan} {found built failed hand hand' : List RuleId}
  {r : RuleId}

theorem mem_found (h : Ongoing g₀ p₀ found built failed hand g p) :
    r ∈ found ↔ r ∈ built ∨ r ∈ failed ∨ r ∈ hand := by
  rw [h.split.mem_iff]
  simp

theorem mem_found_of_hand (h : Ongoing g₀ p₀ found built failed hand g p) (hr : r ∈ hand) :
    r ∈ found :=
  h.mem_found.mpr (Or.inr (Or.inr hr))

theorem not_mem_built (h : Ongoing g₀ p₀ found built failed hand g p) (hr : r ∈ hand) :
    r ∉ built := by
  have hnd := h.split.nodup_iff.mp h.found_nodup
  rw [List.append_assoc] at hnd
  exact fun hb ↦ List.disjoint_of_nodup_append hnd hb (by simp [hr])

theorem perm (h : Ongoing g₀ p₀ found built failed hand g p) (hp : hand.Perm hand') :
    Ongoing g₀ p₀ found built failed hand' g p :=
  { h with split := h.split.trans (hp.append_left _) }

theorem fail (h : Ongoing g₀ p₀ found built failed (r :: hand) g p) :
    Ongoing g₀ p₀ found built (failed ++ [r]) hand g p :=
  { h with split := by simpa [List.append_assoc] using h.split }

theorem create (hexact : g₀.Exact) (hplan : Planned g₀ p₀) :
    Ongoing g₀ p₀ [] [] [] [] g₀ p₀ where
  links := rfl
  hashes := rfl
  rules := rfl
  numStarted := hplan.numStarted
  found_nodup := List.nodup_nil
  found_planned := by simp
  split := by simp
  node := by simp
  source := by simp
  rule := by simp
  numReady q hq := by simp [hexact q hq, excess]
  bound q hq := (hexact.counting q hq).2
  grows := by simp
  ready_iff r := by simpa using hplan.ready_iff r
  found_ready := by simp

theorem nbReady_congr (h : g.Cleaned ∅ ∅ 0 g') (q : RuleId) : g'.nbReady q = g.nbReady q := by
  rw [Graph.nbReady, Graph.nbReady, Graph.inputs_of_links h.links]
  apply List.countP_congr
  intro n _
  simp [h.inputReady_iff]

/-- A change of timestamps is not seen. -/
theorem touch (h : Ongoing g₀ p₀ found built failed hand g p) (hg : g.Cleaned ∅ ∅ 0 g') :
    Ongoing g₀ p₀ found built failed hand g' p := by
  have hready : ∀ r, (g'.rule r).ready = (g.rule r).ready := by
    intro r
    rw [Rule.ready, Rule.ready, hg.numReady, Graph.inputs_of_links hg.links]
    rfl
  have hnode : ∀ n, (g'.node n).isDirty = true ↔ (g.node n).isDirty = true := by
    intro n
    simp [hg.node]
  refine { h with
    links := hg.links.trans h.links
    hashes := hg.hashes.trans h.hashes
    node := fun n r hn ↦ (hnode n).trans (h.node n r hn)
    source := fun n hn ↦ h.source n ((hnode n).mp hn)
    rule := fun r ↦ ?_
    numReady := fun q hq ↦ ?_
    bound := fun q hq ↦ ?_
    grows := fun q ↦ ?_
    ready_iff := fun r ↦ by rw [hready, h.ready_iff]
    found_ready := fun r hr ↦ by rw [hready, h.found_ready r hr] }
  · rw [hg.rule, h.rule]
    simp
  · rw [hg.numReady, h.numReady q hq, nbReady_congr hg]
    simp
  · simpa [hg.numReady] using h.bound q hq
  · simpa [hg.numReady] using h.grows q

theorem touch_setTimestamp (h : Ongoing g₀ p₀ found built failed hand g p) (q : RuleId)
    (t : Timestamp) :
    Ongoing g₀ p₀ found built failed hand (g.updateRule q (·.setTimestamp t)) p := by
  apply h.touch
  refine ⟨g.links_setTimestamp q t, Graph.hashes_setRule rfl rfl, ?_, ?_, ?_⟩
  · simp [Graph.updateRule]
  · intro r
    rw [Graph.updateRule, Graph.proj_setRule Rule.isDirty (by rfl)]
    simp
  · intro r
    rw [Graph.updateRule, Graph.proj_setRule Rule.numInputsReady (by rfl)]
    simp

theorem findWork_eq_some {p p' : BuildPlan} {r : RuleId} (h : p.findWork = (some r, p')) :
    r ∈ p.readyRules ∧
      p' = { p with readyRules := p.readyRules.erase r, numStarted := p.numStarted + 1 } := by
  unfold BuildPlan.findWork at h
  split at h
  · cases h
  · rename_i q hq
    cases h
    exact ⟨(Finset.mem_sort (· ≤ ·)).mp (List.mem_of_mem_head? hq), rfl⟩

theorem take (h : Ongoing g₀ p₀ found built failed hand g p)
    (hwork : p.findWork = (some r, p')) :
    r ∈ p₀.rules ∧ r ∉ found ∧ (g.rule r).ready = true ∧
      Ongoing g₀ p₀ (found ++ [r]) built failed (r :: hand) g p' := by
  obtain ⟨hr, rfl⟩ := findWork_eq_some hwork
  obtain ⟨hplanned, hnew, hready⟩ := (h.ready_iff r).mp hr
  refine ⟨hplanned, hnew, hready, { h with
    numStarted := by simp [h.numStarted]
    found_nodup := ?_
    found_planned := ?_
    split := ?_
    ready_iff := fun q ↦ ?_
    found_ready := ?_ }⟩
  · rw [List.nodup_append_comm, List.singleton_append, List.nodup_cons]
    exact ⟨hnew, h.found_nodup⟩
  · intro q hq
    rcases List.mem_append.mp hq with hq | hq
    · exact h.found_planned q hq
    · exact List.mem_singleton.mp hq ▸ hplanned
  · calc (found ++ [r]).Perm (built ++ failed ++ hand ++ [r]) := h.split.append_right [r]
      _ = (built ++ failed) ++ (hand ++ [r]) := by simp
      _ |>.Perm (built ++ failed ++ r :: hand) := (List.perm_append_singleton r hand).append_left _
  · simp only [Finset.mem_erase, h.ready_iff, List.mem_append, List.mem_singleton, not_or]
    tauto
  · intro q hq
    rcases List.mem_append.mp hq with hq | hq
    · exact h.found_ready q hq
    · exact List.mem_singleton.mp hq ▸ hready

theorem notifyParent_foldl (g : Graph) (l : List RuleId) (p : BuildPlan) :
    (l.foldl (BuildPlan.notifyParent g) p).rules = p.rules ∧
    (l.foldl (BuildPlan.notifyParent g) p).numStarted = p.numStarted ∧
    ∀ q, q ∈ (l.foldl (BuildPlan.notifyParent g) p).readyRules ↔
      q ∈ p.readyRules ∨ q ∈ l ∧ (g.rule q).ready = true ∧ q ∈ p.rules := by
  induction l generalizing p with
  | nil => simp
  | cons a l ih =>
      obtain ⟨hrules, hstarted, hready⟩ := ih (BuildPlan.notifyParent g p a)
      rw [List.foldl_cons]
      by_cases ha : ((g.rule a).ready && decide (a ∈ p.rules)) = true
      · have hnotify : BuildPlan.notifyParent g p a =
            { p with readyRules := insert a p.readyRules } := by
          simp only [BuildPlan.notifyParent, ha, if_true]
        rw [hnotify] at hrules hstarted hready ⊢
        refine ⟨hrules, hstarted, fun q ↦ ?_⟩
        simp only [Bool.and_eq_true, decide_eq_true_eq] at ha
        rw [hready]
        simp only [Finset.mem_insert, List.mem_cons]
        constructor
        · rintro ((rfl | hq) | hq)
          · exact Or.inr ⟨Or.inl rfl, ha⟩
          · exact Or.inl hq
          · exact Or.inr ⟨Or.inr hq.1, hq.2⟩
        · rintro (hq | ⟨rfl | hq, hq'⟩)
          · exact Or.inl (Or.inr hq)
          · exact Or.inl (Or.inl rfl)
          · exact Or.inr ⟨hq, hq'⟩
      · have hnotify : BuildPlan.notifyParent g p a = p := by
          simp only [BuildPlan.notifyParent, ha, Bool.false_eq_true, if_false]
        rw [hnotify] at hrules hstarted hready ⊢
        refine ⟨hrules, hstarted, fun q ↦ ?_⟩
        simp only [Bool.and_eq_true, decide_eq_true_eq] at ha
        rw [hready, List.mem_cons]
        constructor
        · rintro (hq | ⟨hq, hq'⟩)
          · exact Or.inl hq
          · exact Or.inr ⟨Or.inr hq, hq'⟩
        · rintro (hq | ⟨rfl | hq, hq'⟩)
          · exact Or.inl hq
          · exact absurd hq' ha
          · exact Or.inr ⟨hq, hq'⟩

section Finish

variable (hL : g₀.links.TwoWay) (hrules : ∀ r ∈ p₀.rules, r ∈ g₀.rules)
include hL

theorem mem_outputs_iff {n : NodeId} {q : RuleId} (hr : r ∈ g₀.rules)
    (hq : (g₀.node n).childRule = some q) : n ∈ (g₀.rule r).outputs ↔ q = r := by
  constructor
  · intro hn
    have hchild : (g₀.node n).childRule = some r := (hL.child_eq_some n r).mpr ⟨hr, hn⟩
    rw [hq] at hchild
    exact Option.some.inj hchild
  · rintro rfl
    exact ((hL.child_eq_some n q).mp hq).2

include hrules

/-- The reports to `q` when `r` has been built, in terms of what they change:
an output that was dirty becomes ready, one that was clean is counted twice. -/
theorem nbReady_add_reports (h : Ongoing g₀ p₀ found built failed (r :: hand) g p) {q : RuleId}
    (hq : q ∈ g₀.rules) :
    (g₀.rule q).inputs.countP (fun n ↦ g.inputReady n || decide (n ∈ (g₀.rule r).outputs)) +
      cleanReports g₀ q r = g.nbReady q + (Graph.reportsOf g₀.links r).count q := by
  have hfound : r ∈ found := h.mem_found_of_hand List.mem_cons_self
  have hr : r ∈ g₀.rules := hrules r (h.found_planned r hfound)
  rw [Graph.count_reportsOf hL hr hq, cleanReports, Graph.nbReady, Graph.inputs_of_links h.links]
  apply Lib.countP_add_countP_congr
  intro n _
  by_cases hn : n ∈ (g₀.rule r).outputs
  · have hchild : (g₀.node n).childRule = some r := (hL.child_eq_some n r).mpr ⟨hr, hn⟩
    have hsrc : (g.node n).isSource = false := by
      rw [Graph.isSource_of_links h.links, Node.isSource, hchild]
      rfl
    have hdirty : (g.node n).isDirty = (g₀.node n).isDirty := by
      rw [Bool.eq_iff_iff, h.node n r hchild]
      exact and_iff_left (h.not_mem_built List.mem_cons_self)
    have hn' : n ∈ g₀.links.outputs r := hn
    cases hd : (g₀.node n).isDirty <;> simp [Graph.inputReady, hsrc, hdirty, hd, hn, hn']
  · have hn' : n ∉ g₀.links.outputs r := hn
    simp [hn, hn']

theorem finish_numReady (h : Ongoing g₀ p₀ found built failed (r :: hand) g p)
    (hg : g.Cleaned (Graph.finishedNodes g.links r) {r}
      (fun q ↦ (Graph.reportsOf g.links r).count q) g') {q : RuleId} (hq : q ∈ g₀.rules) :
    (g'.rule q).numInputsReady = g'.nbReady q + excess g₀ (built ++ [r]) q := by
  have hadd := h.nbReady_add_reports hL hrules hq
  have hnb : g'.nbReady q =
      (g₀.rule q).inputs.countP (fun n ↦ g.inputReady n || decide (n ∈ (g₀.rule r).outputs)) := by
    rw [Graph.nbReady, Graph.inputs_of_links hg.links, Graph.inputs_of_links h.links]
    apply List.countP_congr
    intro n _
    rw [hg.inputReady_iff, Bool.or_eq_true, decide_eq_true_eq, h.links]
    constructor
    · rintro (hn | hn | ⟨-, hn⟩)
      · exact Or.inl hn
      · exact Or.inr hn
      · left
        have hsrc : (g.node n).childRule = none := (Graph.childRule_of_links h.links n).trans hn
        simp [Graph.inputReady, Node.isSource, hsrc]
    · rintro (hn | hn)
      · exact Or.inl hn
      · exact Or.inr (Or.inl hn)
  rw [hg.numReady, h.numReady q hq, h.links, hnb]
  simp only [excess, List.map_append, List.sum_append, List.map_singleton, List.sum_singleton]
  omega

omit hL in
/-- The plan is told about the rules that became ready. -/
theorem finish_ready_iff (h : Ongoing g₀ p₀ found built failed (r :: hand) g p)
    (hg : g.Cleaned (Graph.finishedNodes g.links r) {r}
      (fun q ↦ (Graph.reportsOf g.links r).count q) g')
    (hbound : ∀ q ∈ g₀.rules, (g'.rule q).numInputsReady ≤ (g₀.rule q).inputs.length)
    (q : RuleId) :
    (q ∈ p.readyRules ∨ q ∈ Graph.reportsOf g.links r ∧ (g'.rule q).ready = true ∧ q ∈ p.rules) ↔
      q ∈ p₀.rules ∧ q ∉ found ∧ (g'.rule q).ready = true := by
  have hstay : q ∈ p₀.rules → (g.rule q).ready = true →
      q ∉ Graph.reportsOf g.links r ∧ (g'.rule q).ready = true := by
    intro hq hready
    have hle := hbound q (hrules q hq)
    have hlen : (g.rule q).inputs.length = (g₀.rule q).inputs.length := by
      rw [Graph.inputs_of_links h.links]
    rw [Rule.ready, decide_eq_true_eq] at hready
    rw [hg.numReady] at hle
    refine ⟨fun hmem ↦ ?_, ?_⟩
    · have := List.count_pos_iff.mpr hmem
      omega
    · rw [hg.ready_iff]
      omega
  rw [h.ready_iff, h.rules]
  constructor
  · rintro (⟨hq, hnew, hready⟩ | ⟨hmem, hready, hq⟩)
    · exact ⟨hq, hnew, (hstay hq hready).2⟩
    · exact ⟨hq, fun hf ↦ (hstay hq (h.found_ready q hf)).1 hmem, hready⟩
  · rintro ⟨hq, hnew, hready⟩
    by_cases hmem : q ∈ Graph.reportsOf g.links r
    · exact Or.inr ⟨hmem, hready, hq⟩
    · left
      refine ⟨hq, hnew, ?_⟩
      rw [hg.ready_iff, List.count_eq_zero_of_not_mem hmem] at hready
      simpa [Rule.ready] using hready

theorem finish (h : Ongoing g₀ p₀ found built failed (r :: hand) g p)
    (hroom : g.Room (Graph.reportsOf g.links r))
    (hg : g.Cleaned (Graph.finishedNodes g.links r) {r}
      (fun q ↦ (Graph.reportsOf g.links r).count q) g') :
    ∃ p', p.notifyRuleBuilt g' r = .ok p' ∧
      Ongoing g₀ p₀ found (built ++ [r]) failed hand g' p' := by
  have hfound : r ∈ found := h.mem_found_of_hand List.mem_cons_self
  have hplanned : r ∈ p₀.rules := h.found_planned r hfound
  have hr : r ∈ g₀.rules := hrules r hplanned
  have hbound : ∀ q ∈ g₀.rules, (g'.rule q).numInputsReady ≤ (g₀.rule q).inputs.length := by
    intro q hq
    rw [hg.numReady]
    by_cases hmem : q ∈ Graph.reportsOf g.links r
    · simpa [Graph.inputs_of_links h.links] using hroom q hmem
    · simpa [List.count_eq_zero_of_not_mem hmem] using h.bound q hq
  have hlinks : g'.links = g₀.links := hg.links.trans h.links
  have hnotified : p.notifyRuleBuilt g' r =
      .ok ((Graph.reportsOf g.links r).foldl (BuildPlan.notifyParent g') p) := by
    have hnr : r ∉ p.readyRules := fun hmem ↦ ((h.ready_iff r).mp hmem).2.1 hfound
    have hin : r ∈ p.rules := h.rules ▸ hplanned
    have hparents : ((g'.rule r).outputs.flatMap fun o ↦ (g'.node o).parentRules) =
        Graph.reportsOf g.links r := by
      rw [← hg.links]
      rfl
    simp [BuildPlan.notifyRuleBuilt, hnr, hin, hparents]
  obtain ⟨hrules', hstarted, hready⟩ := notifyParent_foldl g' (Graph.reportsOf g.links r) p
  refine ⟨_, hnotified, {
    links := hlinks
    hashes := hg.hashes.trans h.hashes
    rules := hrules'.trans h.rules
    numStarted := hstarted.trans h.numStarted
    found_nodup := h.found_nodup
    found_planned := h.found_planned
    split := ?_
    node := fun n q hq ↦ ?_
    source := fun n hn ↦ h.source n ((hg.node n).mp hn).1
    rule := fun q ↦ ?_
    numReady := fun q hq ↦ h.finish_numReady hL hrules hg hq
    bound := hbound
    grows := fun q ↦ ?_
    ready_iff := fun q ↦ (hready q).trans (h.finish_ready_iff hrules hg hbound q)
    found_ready := fun q hq ↦ ?_ }⟩
  · have hperm := h.split
    simp only [List.append_assoc, List.singleton_append] at hperm ⊢
    exact hperm.trans ((List.perm_middle).append_left built)
  · have hout := mem_outputs_iff hL hr hq
    rw [hg.node, h.node n q hq, h.links, List.mem_append, List.mem_singleton, not_or, and_assoc]
    refine and_congr_right fun _ ↦ and_congr_right fun _ ↦ not_congr ?_
    rw [Graph.finishedNodes, Set.mem_ofPred_eq]
    change n ∈ (g₀.rule r).outputs ∨ n ∈ (g₀.rule r).inputs ∧ (g₀.node n).childRule = none ↔ _
    rw [hout, hq]
    simp
  · rw [hg.rule, h.rule, List.mem_append, List.mem_singleton, Set.mem_singleton_iff]
    tauto
  · rw [hg.numReady]
    exact (h.grows q).trans (Nat.le_add_right _ _)
  · have hqr := h.found_ready q hq
    have hle := hbound q (hrules q (h.found_planned q hq))
    rw [Rule.ready, decide_eq_true_eq, Graph.inputs_of_links h.links] at hqr
    rw [hg.numReady] at hle
    rw [hg.ready_iff, Graph.inputs_of_links h.links]
    omega

/-- The reports find room unless some output has been reported while clean. -/
theorem excess_of_not_room (h : Ongoing g₀ p₀ found built failed (r :: hand) g p)
    (hroom : ¬ g.Room (Graph.reportsOf g.links r)) :
    ∃ q ∈ g₀.rules, 0 < excess g₀ (built ++ [r]) q := by
  simp only [Graph.Room, not_forall, not_le, exists_prop] at hroom
  obtain ⟨q, hmem, hlt⟩ := hroom
  have hq : q ∈ g₀.rules := by
    rw [h.links, Graph.reportsOf, List.mem_flatMap] at hmem
    obtain ⟨n, -, hn⟩ := hmem
    exact ((hL.mem_parents n q).mp hn).1
  refine ⟨q, hq, ?_⟩
  have hadd := h.nbReady_add_reports hL hrules hq
  have hle : (g₀.rule q).inputs.countP
      (fun n ↦ g.inputReady n || decide (n ∈ (g₀.rule r).outputs)) ≤ (g₀.rule q).inputs.length :=
    List.countP_le_length
  rw [h.numReady q hq, Graph.inputs_of_links h.links, h.links] at hlt
  simp only [excess, List.map_append, List.sum_append, List.map_singleton,
    List.sum_singleton] at hlt ⊢
  omega

end Finish

theorem counting (h : Ongoing g₀ p₀ found built failed hand g p) : g.Counting := by
  intro q hq
  rw [Graph.rules_of_links h.links] at hq
  refine ⟨?_, by simpa [Graph.inputs_of_links h.links] using h.bound q hq⟩
  rw [h.numReady q hq]
  exact Nat.le_add_right _ _

/-- Without failures, an unfinished plan with no rule in hand has a ready rule. -/
theorem hasWork (hL : g₀.links.TwoWay) (hac : g₀.links.Acyclic) (hplan : Planned g₀ p₀)
    (h : Ongoing g₀ p₀ found built [] [] g p) (hdone : p.done = false) : p.hasWork = true := by
  have hfound : ∀ q, q ∈ found ↔ q ∈ built := by
    intro q
    simpa using h.mem_found (r := q)
  have hW : (p₀.rules \ found.toFinset).Nonempty := by
    rw [Finset.nonempty_iff_ne_empty, Ne, Finset.sdiff_eq_empty_iff_subset]
    intro hsub
    have heq : p₀.rules = found.toFinset := by
      apply hsub.antisymm
      intro q hq
      exact h.found_planned q (List.mem_toFinset.mp hq)
    have hcard : p.done = true := by
      simp [BuildPlan.done, h.numStarted, h.rules, heq, List.toFinset_card_of_nodup h.found_nodup]
    rw [hdone] at hcard
    exact Bool.noConfusion hcard
  have hlinks := h.links
  obtain ⟨r, hr, hready⟩ :=
    Graph.exists_ready_rule (g := g) (hlinks ▸ hL) (hlinks ▸ hac) h.counting hW
    (by
      intro r hr
      rw [Finset.mem_sdiff, List.mem_toFinset, hfound] at hr
      obtain ⟨n, hn, hd⟩ := hplan.output r hr.1
      exact ⟨n, (Graph.childRule_of_links hlinks n).trans hn, (h.node n r hn).mpr ⟨hd, hr.2⟩⟩)
    (by
      intro r hr hwait x hx hd q hq
      rw [Finset.mem_sdiff, List.mem_toFinset, hfound] at hr ⊢
      rw [Graph.childRule_of_links hlinks] at hq
      rw [Graph.inputs_of_links hlinks] at hx
      have hwait₀ : (g₀.rule r).ready = false := by
        obtain ⟨n, hn, -⟩ := hplan.output r hr.1
        have hbound := h.bound r ((hL.child_eq_some n r).mp hn).1
        have hgrows := h.grows r
        simp only [Rule.ready, decide_eq_false_iff_not, Graph.inputs_of_links hlinks] at hwait ⊢
        omega
      exact ⟨hplan.closed r hr.1 hwait₀ x hx (h.source x hd) q hq, ((h.node x q hq).mp hd).2⟩)
  rw [Finset.mem_sdiff, List.mem_toFinset] at hr
  have hmem : r ∈ p.readyRules := (h.ready_iff r).mpr ⟨hr.1, hr.2, hready⟩
  simpa [BuildPlan.hasWork] using Finset.ne_empty_of_mem hmem

end Ongoing

end Falcon
