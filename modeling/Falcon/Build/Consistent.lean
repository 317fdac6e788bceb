import Falcon.Build.Complete
import Falcon.Graph.Recount

/-!
# Plans that stay consistent

The build loop can go on as long as every rule of the plan that has not been
started is ready or waits for another rule of the plan.  Starting and finishing
rules keeps this up.  A load keeps it up if it moves the counter of its rule
together with the number of inputs.
-/

namespace Falcon

open BuildEvent Relation

namespace BuildPlan

/-- The plan agrees with the graph after the rules `started` have been started,
the commands of `running` being out.  The build has begun with the plan `p₀` on
the graph `g₀`. -/
structure Consistent (g₀ : Graph) (p₀ : BuildPlan) (started : Finset RuleId)
    (running : List RuleId) (g : Graph) (p : BuildPlan) : Prop where
  wired : g.Wired
  rules : g.rules = g₀.rules
  child : ∀ n, (g.node n).childRule = (g₀.node n).childRule
  planned : p.rules = p₀.rules
  started_subset : started ⊆ p₀.rules
  numStarted : p.numStarted = started.card
  ready_iff : ∀ q, q ∈ p.readyRules ↔ q ∈ p₀.rules ∧ q ∉ started ∧ (g.rule q).ready = true
  counted : ∀ q ∈ p₀.rules, q ∉ started → g.nbReady q ≤ (g.rule q).numInputsReady ∧
    (g.rule q).numInputsReady ≤ (g.rule q).inputs.length
  running_started : ∀ r ∈ running, r ∈ started
  -- A report to a rule that has been started finds no room.
  full : ∀ q ∈ started, (g.rule q).inputs.length ≤ (g.rule q).numInputsReady
  fewer : ∀ q ∈ p₀.rules, q ∉ started → ∀ x ∈ (g.rule q).inputs, g.inputReady x = false →
    x ∈ (g₀.rule q).inputs ∧ g₀.inputReady x = false
  busy : ∀ x r, (g.node x).childRule = some r → g.inputReady x = false → r ∈ started → r ∈ running

/-- The load does not get in the way of the plan: the depfile names no dirty
target that would be a new input, and a rule that has not been started does not
lose one. -/
structure Fits {ω : Type} (P : Platform ω) (p : BuildPlan) (started : Finset RuleId) (g : Graph)
    (r : RuleId) (content : String) : Prop where
  named : r ∈ p.rules → ∀ n, Depfile.NamesNew P g r content n → g.inputReady n = true
  dropped : r ∈ p.rules → r ∉ started → ∀ n ∈ Depfile.implicitDeps (g.rule r),
    g.inputReady n = true

theorem consistent_start {g : Graph} {p : BuildPlan} (hg : g.Tied) (hexact : g.Exact)
    (hplan : Planned g p) : Consistent g p ∅ [] g p where
  wired := hg.wired
  rules := rfl
  child _ := rfl
  planned := rfl
  started_subset := Finset.empty_subset _
  numStarted := hplan.numStarted
  ready_iff q := by simpa using hplan.ready_iff q
  counted q hq _ := by
    rw [hexact q (hplan.mem_rules hg.twoWay q hq)]
    exact ⟨le_rfl, List.countP_le_length⟩
  running_started _ hr := absurd hr List.not_mem_nil
  full q hq := absurd hq (Finset.notMem_empty q)
  fewer _ _ _ _ hx hready := ⟨hx, hready⟩
  busy _ _ _ _ hr := absurd hr (Finset.notMem_empty _)

namespace Consistent

variable {g₀ g g' : Graph} {p₀ p p' : BuildPlan} {started : Finset RuleId}
  {running running' : List RuleId} {r : RuleId}

theorem numStarted_lt (h : Consistent g₀ p₀ started running g p) (hdone : p.done = false) :
    p.numStarted < p₀.rules.card := by
  have hle := Finset.card_le_card h.started_subset
  have hnum := h.numStarted
  simp only [done, h.planned, decide_eq_false_iff_not] at hdone
  omega

/-- A rule that waits does so for a rule of the plan, further down in the graph
as it was in the beginning. -/
theorem waits (h : Consistent g₀ p₀ started running g p) (hexact : g₀.Exact)
    (hrules : ∀ r ∈ p₀.rules, r ∈ g₀.rules) (hplan : Planned g₀ p₀) {q : RuleId}
    (hq : q ∈ p₀.rules) (hnew : q ∉ started) (hwait : q ∉ p.readyRules) :
    ∃ x ∈ (g₀.rule q).inputs, ∃ r ∈ p₀.rules, (g₀.node x).childRule = some r ∧
      (r ∈ started → r ∈ running) := by
  have hcounted := h.counted q hq hnew
  have hnot : (g.rule q).ready = false := by
    rw [h.ready_iff] at hwait
    cases hr : (g.rule q).ready with
    | false => rfl
    | true => exact absurd ⟨hq, hnew, hr⟩ hwait
  obtain ⟨x, hx, hready⟩ : ∃ x ∈ (g.rule q).inputs, g.inputReady x = false := by
    by_contra hall
    push Not at hall
    have hfull : g.nbReady q = (g.rule q).inputs.length :=
      List.countP_eq_length.mpr fun x hx ↦ by simpa using hall x hx
    simp only [Rule.ready, decide_eq_false_iff_not] at hnot
    omega
  obtain ⟨hx₀, hready₀⟩ := h.fewer q hq hnew x hx hready
  obtain ⟨hsource, hdirty⟩ := Graph.inputReady_eq_false.mp hready₀
  obtain ⟨r, hr⟩ := Option.isSome_iff_exists.mp (by simpa [Node.isSource] using hsource)
  have hwait₀ : (g₀.rule q).ready = false := by
    cases hr₀ : (g₀.rule q).ready with
    | false => rfl
    | true =>
        have hall := (hexact.ready_iff (hrules q hq)).mp hr₀ x hx₀
        rw [hready₀] at hall
        cases hall
  exact ⟨x, hx₀, r, hplan.closed q hq hwait₀ x hx₀ hdirty r hr, hr,
    h.busy x r ((h.child x).trans hr) hready⟩

/-- Nobody waits in a circle. -/
theorem hasWork_or_running (h : Consistent g₀ p₀ started running g p) (hL : g₀.links.TwoWay)
    (hac : g₀.links.Acyclic) (hexact : g₀.Exact) (hplan : Planned g₀ p₀)
    (hdone : p.done = false) : p.hasWork = true ∨ running ≠ [] := by
  by_contra hno
  simp only [hasWork, ne_eq, decide_eq_true_eq, not_or, not_not] at hno
  obtain ⟨hready, hrunning⟩ := hno
  have hwait : ∀ q ∈ p₀.rules, q ∉ started → ∃ x ∈ (g₀.rule q).inputs, ∃ r ∈ p₀.rules,
      (g₀.node x).childRule = some r ∧ r ∉ started := by
    intro q hq hnew
    have hnone : q ∉ p.readyRules := hready ▸ Finset.notMem_empty q
    obtain ⟨x, hx, r, hr, hchild, hrun⟩ :=
      h.waits hexact (hplan.mem_rules hL) hplan hq hnew hnone
    refine ⟨x, hx, r, hr, hchild, fun hstarted ↦ ?_⟩
    rw [hrunning] at hrun
    exact List.not_mem_nil (hrun hstarted)
  -- an unstarted rule that makes something leads to one further down
  have hnone : ∀ k, ∀ x r, g₀.links.rankBelow x = k → (g₀.node x).childRule = some r →
      r ∈ p₀.rules → r ∉ started → False := by
    intro k
    induction k using Nat.strong_induction_on with
    | _ k ih =>
        intro x r hk hchild hr hnew
        obtain ⟨y, hy, q, hq, hchild', hnew'⟩ := hwait r hr hnew
        have hlt := Links.rankBelow_lt hL hac (r := r) hchild hy
        exact ih _ (hk ▸ hlt) y q rfl hchild' hq hnew'
  obtain ⟨q, hq, hnew⟩ : ∃ q ∈ p₀.rules, q ∉ started := by
    by_contra hall
    push Not at hall
    have hlt := h.numStarted_lt hdone
    rw [h.numStarted] at hlt
    exact absurd (Finset.card_le_card fun q hq ↦ hall q hq) (by omega)
  obtain ⟨x, -, r, hr, hchild, hnew'⟩ := hwait q hq hnew
  exact hnone _ x r rfl hchild hr hnew'

/-! ## Steps -/

theorem perm (h : Consistent g₀ p₀ started running g p) (hperm : running.Perm running') :
    Consistent g₀ p₀ started running' g p :=
  { h with
    running_started := fun r hr ↦ h.running_started r (hperm.mem_iff.mpr hr)
    busy := fun x r hchild hready hr ↦ hperm.mem_iff.mp (h.busy x r hchild hready hr) }

/-- Hashes and timestamps do not matter. -/
theorem touch (h : Consistent g₀ p₀ started running g p) (hlinks : g'.links = g.links)
    (hready : ∀ n, g'.inputReady n = g.inputReady n)
    (hcounter : ∀ q, (g'.rule q).numInputsReady = (g.rule q).numInputsReady) :
    Consistent g₀ p₀ started running g' p := by
  have hinputs : ∀ q, (g'.rule q).inputs = (g.rule q).inputs := Graph.inputs_of_links hlinks
  have hchild : ∀ n, (g'.node n).childRule = (g.node n).childRule :=
    Graph.childRule_of_links hlinks
  refine { h with
    wired := h.wired.of_links hlinks
    rules := (Graph.rules_of_links hlinks).trans h.rules
    child := fun n ↦ (hchild n).trans (h.child n)
    ready_iff := fun q ↦ ?_
    counted := fun q hq hnew ↦ ?_
    full := fun q hq ↦ ?_
    fewer := fun q hq hnew x hx hr ↦ ?_
    busy := fun x r hc hr ↦ ?_ }
  · rw [h.ready_iff, Rule.ready, Rule.ready, hcounter, hinputs]
  · rw [Graph.nbReady, hinputs, hcounter, funext hready]
    exact h.counted q hq hnew
  · rw [hinputs, hcounter]
    exact h.full q hq
  · exact h.fewer q hq hnew x (hinputs q ▸ hx) (hready x ▸ hr)
  · exact h.busy x r (hchild x ▸ hc) (hready x ▸ hr)

theorem setTimestamp (h : Consistent g₀ p₀ started running g p) (r : RuleId) (t : Timestamp) :
    Consistent g₀ p₀ started running (g.updateRule r (·.setTimestamp t)) p :=
  h.touch (g.links_setTimestamp r t) (fun _ ↦ rfl)
    (fun q ↦ Graph.proj_setRule Rule.numInputsReady (by rfl) q)

/-- A ready rule is started. -/
theorem take (h : Consistent g₀ p₀ started running g p) (hwork : p.findWork = (some r, p')) :
    r ∉ started ∧ Consistent g₀ p₀ (insert r started) (r :: running) g p' := by
  obtain ⟨hr, rfl⟩ := Ongoing.findWork_eq_some hwork
  obtain ⟨hplanned, hnew, hready⟩ := (h.ready_iff r).mp hr
  refine ⟨hnew, { h with
    started_subset := Finset.insert_subset hplanned h.started_subset
    numStarted := ?_
    ready_iff := fun q ↦ ?_
    counted := fun q hq hq' ↦ h.counted q hq fun hs ↦ hq' (Finset.mem_insert_of_mem hs)
    running_started := fun q hq ↦ ?_
    full := fun q hq ↦ ?_
    fewer := fun q hq hq' ↦ h.fewer q hq fun hs ↦ hq' (Finset.mem_insert_of_mem hs)
    busy := fun x q hchild hx hq ↦ ?_ }⟩
  · rw [Finset.card_insert_of_notMem hnew, h.numStarted]
  · rw [Finset.mem_erase, h.ready_iff, Finset.mem_insert, not_or]
    tauto
  · rcases List.mem_cons.mp hq with rfl | hq
    · exact Finset.mem_insert_self _ _
    · exact Finset.mem_insert_of_mem (h.running_started q hq)
  · rcases Finset.mem_insert.mp hq with rfl | hq
    · rw [Rule.ready, decide_eq_true_eq] at hready
      exact hready.ge
    · exact h.full q hq
  · rcases Finset.mem_insert.mp hq with rfl | hq
    · exact List.mem_cons_self
    · exact List.mem_cons_of_mem r (h.busy x q hchild hx hq)

/-- Reporting the outputs of `r` ready reaches every rule that one of them is an
input of. -/
theorem nbReady_le_add_reports (h : Consistent g₀ p₀ started running g p)
    (hg : g.Cleaned (Graph.finishedNodes g.links r) {r}
      (fun q ↦ (Graph.reportsOf g.links r).count q) g') {q : RuleId} (hq : q ∈ g.rules) :
    g'.nbReady q ≤ g.nbReady q + (Graph.reportsOf g.links r).count q := by
  have hinputs : (g'.rule q).inputs = (g.rule q).inputs := Graph.inputs_of_links hg.links q
  have hsplit : g'.nbReady q ≤
      g.nbReady q + (g.rule q).inputs.countP (fun n ↦ decide (n ∈ g.links.outputs r)) := by
    refine le_trans ?_ (Lib.countP_or_le _ _ _)
    rw [Graph.nbReady, hinputs]
    refine List.countP_mono_left fun n _ hn ↦ ?_
    rw [Bool.or_eq_true, decide_eq_true_eq]
    rcases (hg.inputReady_iff n).mp hn with hn | hn | ⟨-, hnone⟩
    · exact Or.inl hn
    · exact Or.inr hn
    · left
      have hsource : (g.node n).childRule = none := hnone
      simp [Graph.inputReady, Node.isSource, hsource]
  refine hsplit.trans (Nat.add_le_add_left ?_ _)
  exact Lib.countP_mem_le_count_flatMap (h.wired.nodup q hq) fun n hn ↦
    (h.wired.inputs q hq n hn).1

/-- A rule in hand has been built. -/
theorem finish (h : Consistent g₀ p₀ started (r :: running) g p)
    (hrules : ∀ q ∈ p₀.rules, q ∈ g₀.rules)
    (hfinish : g.finishRule r = .ok g') (hnotify : p.notifyRuleBuilt g' r = .ok p') :
    Consistent g₀ p₀ started running g' p' := by
  rcases g.finishRule_spec r with ⟨hroom, k, hrun, hg⟩ | ⟨-, hrun⟩
  swap
  · rw [hfinish] at hrun
    cases hrun
  obtain rfl : g' = k := Except.ok.inj (hfinish.symm.trans hrun)
  have hinputs : ∀ q, (g'.rule q).inputs = (g.rule q).inputs := Graph.inputs_of_links hg.links
  have hchild : ∀ n, (g'.node n).childRule = (g.node n).childRule :=
    Graph.childRule_of_links hg.links
  have hkept : ∀ n, g'.inputReady n = false → g.inputReady n = false := by
    intro n hn
    cases hready : g.inputReady n with
    | false => rfl
    | true =>
        rw [(hg.inputReady_iff n).mpr (Or.inl hready)] at hn
        cases hn
  have hfull : ∀ q, (g.rule q).inputs.length ≤ (g.rule q).numInputsReady →
      q ∉ Graph.reportsOf g.links r := by
    intro q hle hmem
    have hpos := List.count_pos_iff.mpr hmem
    have hspace := hroom q hmem
    omega
  have hmember : ∀ q ∈ p₀.rules, q ∈ g.rules := fun q hq ↦ h.rules ▸ hrules q hq
  simp only [notifyRuleBuilt, Lib.bind_eq_ok, Lib.except_pure, Except.ok.injEq] at hnotify
  obtain ⟨-, -, -, -, rfl⟩ := hnotify
  have hparents : ((g'.rule r).outputs.flatMap fun o ↦ (g'.node o).parentRules) =
      Graph.reportsOf g.links r := by
    rw [← hg.links]
    rfl
  rw [hparents]
  obtain ⟨hrules', hstarted, hready⟩ :=
    Ongoing.notifyParent_foldl g' (Graph.reportsOf g.links r) p
  refine {
    wired := h.wired.of_links hg.links
    rules := (Graph.rules_of_links hg.links).trans h.rules
    child := fun n ↦ (hchild n).trans (h.child n)
    planned := hrules'.trans h.planned
    started_subset := h.started_subset
    numStarted := hstarted.trans h.numStarted
    ready_iff := fun q ↦ ?_
    counted := fun q hq hnew ↦ ⟨?_, ?_⟩
    running_started := fun q hq ↦ h.running_started q (List.mem_cons_of_mem r hq)
    full := fun q hq ↦ ?_
    fewer := fun q hq hnew x hx hx' ↦ ?_
    busy := fun x q hc hx hq ↦ ?_ }
  · rw [hready, h.ready_iff, h.planned, hg.ready_iff, Rule.ready, decide_eq_true_eq]
    constructor
    · rintro (⟨hq, hnew, heq⟩ | ⟨hmem, heq, hq⟩)
      · refine ⟨hq, hnew, ?_⟩
        rw [List.count_eq_zero_of_not_mem (hfull q heq.ge), heq, Nat.add_zero]
      · exact ⟨hq, fun hs ↦ hfull q (h.full q hs) hmem, heq⟩
    · rintro ⟨hq, hnew, heq⟩
      by_cases hmem : q ∈ Graph.reportsOf g.links r
      · exact Or.inr ⟨hmem, heq, hq⟩
      · rw [List.count_eq_zero_of_not_mem hmem, Nat.add_zero] at heq
        exact Or.inl ⟨hq, hnew, heq⟩
  · have hle := (h.counted q hq hnew).1
    have hreports := h.nbReady_le_add_reports hg (hmember q hq)
    rw [hg.numReady]
    omega
  · rw [hg.numReady, hinputs]
    by_cases hmem : q ∈ Graph.reportsOf g.links r
    · exact hroom q hmem
    · rw [List.count_eq_zero_of_not_mem hmem]
      exact (h.counted q hq hnew).2
  · rw [hg.numReady, hinputs]
    exact (h.full q hq).trans (Nat.le_add_right _ _)
  · exact h.fewer q hq hnew x (hinputs q ▸ hx) (hkept x hx')
  · have hold : (g.node x).childRule = some q := (hchild x).symm.trans hc
    rcases List.mem_cons.mp (h.busy x q hold (hkept x hx) hq) with rfl | hrun'
    · -- the outputs of the rule are clean
      have hout : x ∈ Graph.finishedNodes g.links q := Or.inl (h.wired.child x q hold).2.1
      rw [(hg.inputReady_iff x).mpr (Or.inr hout)] at hx
      cases hx
    · exact hrun'

/-- A load that fits. -/
theorem load {ω : Type} {P : Platform ω} {w : ω} {content : String} {loaded : Bool}
    (h : Consistent g₀ p₀ started running g p) (hr : r ∈ g.rules)
    (hfits : Fits P p started g r content)
    (hload : Depfile.load P w g r content = .ok (loaded, g')) :
    Consistent g₀ p₀ started running g' p := by
  obtain ⟨added, hcount, hnamed⟩ := Depfile.load_recounted h.wired hr hload
  have hrelinks := Depfile.load_relinks h.wired hr hload
  obtain ⟨hchild, hready⟩ := h.wired.inputReady_edits (Graph.edits_of_relinks hrelinks)
  have hother := hcount.other
  have hlength := hcount.length_inputs
  have hle : (Depfile.implicitDeps (g.rule r)).countP g.inputReady ≤
      (Depfile.implicitDeps (g.rule r)).length := List.countP_le_length
  have hadded : r ∈ p₀.rules → ∀ n ∈ added, g.inputReady n = true :=
    fun hmem n hn ↦ (hnamed n hn).elim id (hfits.named (h.planned ▸ hmem) n)
  have hcounter := fun hmem ↦ hcount.counter_of_ready (hadded hmem)
  have hdropped : r ∈ p₀.rules → r ∉ started →
      (Depfile.implicitDeps (g.rule r)).countP g.inputReady =
        (Depfile.implicitDeps (g.rule r)).length :=
    fun hmem hnew ↦ List.countP_eq_length.mpr (hfits.dropped (h.planned ▸ hmem) hnew)
  refine { h with
    wired := h.wired.relinks hrelinks
    rules := (Graph.rules_of_relinks hrelinks).trans h.rules
    child := fun n ↦ (hchild n).trans (h.child n)
    ready_iff := fun q ↦ ?_
    counted := fun q hq hnew ↦ ?_
    full := fun q hq ↦ ?_
    fewer := fun q hq hnew x hx hx' ↦ ?_
    busy := fun x q hc hx ↦ h.busy x q (hchild x ▸ hc) (hready x ▸ hx) }
  all_goals by_cases hqr : q = r
  · subst hqr
    rw [h.ready_iff]
    refine and_congr_right fun hq ↦ and_congr_right fun hnew ↦ ?_
    have hcounter' := hcounter hq
    have hdropped' := hdropped hq hnew
    rw [Rule.ready, Rule.ready, decide_eq_true_eq, decide_eq_true_eq]
    omega
  · rw [h.ready_iff, hother q hqr]
  · subst hqr
    have hcounter' := hcounter hq
    have hdropped' := hdropped hq hnew
    have hnb := hcount.nbReady hready
    rw [List.countP_eq_length.mpr (hadded hq)] at hnb
    have hcounted := h.counted q hq hnew
    omega
  · rw [Graph.nbReady, hother q hqr, funext hready]
    exact h.counted q hq hnew
  · subst hqr
    have hcounter' := hcounter (h.started_subset hq)
    have hfull := h.full q hq
    omega
  · rw [hother q hqr]
    exact h.full q hq
  · subst hqr
    rw [hready] at hx'
    rw [hcount.inputs] at hx
    rcases List.mem_append.mp hx with hx | hx
    · exact h.fewer q hq hnew x (List.mem_of_mem_take hx) hx'
    · rw [hadded hq x hx] at hx'
      cases hx'
  · rw [hready] at hx'
    rw [hother q hqr] at hx
    exact h.fewer q hq hnew x hx hx'

/-! ## Loading and rehashing -/

section Hashing

variable {ω : Type} {P : Platform ω} {s s' : Graph × ω} {w : ω} {a b : Bool}

theorem hashRule (h : Consistent g₀ p₀ started running g p)
    (hrun : Hash.updateRuleHash P g r a b = .ok g') : Consistent g₀ p₀ started running g' p := by
  obtain ⟨hash, deps, rfl⟩ := Hash.updateRuleHash_frame hrun
  exact h.touch (Hash.updateRuleHash_links hrun).1 (fun _ ↦ rfl)
    fun q ↦ Graph.proj_setRule Rule.numInputsReady (by rfl) q

theorem hashNode {n : NodeId} {changed : Bool} (h : Consistent g₀ p₀ started running g p)
    (hrun : Hash.updateNodeHash P w g n a b = .ok (changed, g')) :
    Consistent g₀ p₀ started running g' p := by
  have hstep : Graph.Edit P g g' := .hashNode hrun
  obtain ⟨hash, deps, rfl⟩ := Hash.updateNodeHash_frame hrun
  exact h.touch (Hash.updateNodeHash_links hrun).1
    (fun m ↦ (h.wired.inputReady_edit hstep m).2) fun _ ↦ rfl

theorem hashSteps (h : Consistent g₀ p₀ started running s.1 p)
    (hfits : ∀ k u, ReflTransGen (Hash.HashStep P) s (k, u) → ∀ q ∈ k.rules, ∀ k₁ u' content,
      Hash.Restores P k u q k₁ u' content → Fits P p started k₁ q content)
    (hrun : ReflTransGen (Hash.HashStep P) s s') :
    Consistent g₀ p₀ started running s'.1 p := by
  induction hrun with
  | refl => exact h
  | tail hrun hstep ih =>
      cases hstep with
      | node hupdate => exact ih.hashNode hupdate
      | @rule k u q k₁ _ hq hupdate hrestore =>
          have hhashed := ih.hashRule hupdate
          have hrules : k₁.rules = k.rules :=
            Graph.rules_of_links (Hash.updateRuleHash_links hupdate).1
          obtain ⟨heq, -⟩ | ⟨loaded, k₂, hdep, hchanged, hrestored, hload, hagain⟩ :=
            Hash.restoreDepfile_ok hrestore
          · exact heq ▸ hhashed
          · refine hashRule ?_ hagain
            obtain ⟨-, rfl, -⟩ | ⟨content, hread, hne, hload⟩ := Depfile.loadFromfile_ok hload
            · exact hhashed
            · exact hhashed.load (hrules ▸ hq) (hfits k u hrun q hq k₁ _ content
                ⟨hupdate, hdep, hchanged, hrestored, hne, hread⟩) hload

end Hashing

end Consistent

end BuildPlan

namespace Builder

variable {ω : Type} {P : Platform ω} {s s' : Builder ω} {c : Choice ω} {evs evs' : List BuildEvent}
  {g₀ g g' : Graph} {p₀ p : BuildPlan} {w w' : ω} {r : RuleId}

/-- The depfiles that are loaded once the command of `r` has succeeded: its own,
and those that come out of the cache when the hashes above are brought up to
date. -/
inductive Loads (P : Platform ω) (g : Graph) (w : ω) (r : RuleId) :
    Graph → RuleId → String → Prop
  | own {content} (hdepfile : (g.rule r).hasDepfile = true)
    (hread : P.readFile w (g.rule r).depfile = some content) : Loads P g w r g r content
  | restored {g' k u q k₁ u' content} (hdepfile : (g.rule r).hasDepfile = true)
    (hload : Depfile.loadFromfile P w g r = .ok (true, g'))
    (hsteps : ReflTransGen (Hash.HashStep P) (g', w) (k, u)) (hq : q ∈ k.rules)
    (hrestore : Hash.Restores P k u q k₁ u' content) : Loads P g w r k₁ q content

theorem Loads.hasDepfile {k : Graph} {q : RuleId} {content : String}
    (h : Loads P g w r k q content) : (g.rule r).hasDepfile = true := by
  cases h with
  | own hdepfile => exact hdepfile
  | restored hdepfile => exact hdepfile

theorem NoLoad.not_loads (h : s.NoLoad c) (hstatus : c.status = .succeeded)
    (hr : s.running[c.next % s.running.length]? = some r) {t : Timestamp} {k : Graph} {q : RuleId}
    {content : String} : ¬ Loads P (s.graph.updateRule r (·.setTimestamp t)) w r k q content := by
  intro hload
  have hdepfile := hload.hasDepfile
  rw [Graph.hasDepfile_of_links (s.graph.links_setTimestamp r t), h hstatus r hr] at hdepfile
  cases hdepfile

theorem loadDepfile_edits {loaded : Bool} (hg : g.Wired) (hr : r ∈ g.rules)
    (hrun : loadDepfile P g w r = .ok (loaded, g', w')) : Graph.Edits P g g' := by
  rw [loadDepfile] at hrun
  split at hrun
  · obtain ⟨⟨loaded, g₁⟩, hload, hrest⟩ := Lib.bind_eq_ok.mp hrun
    have h₁ := Graph.edits_of_relinks (Depfile.loadFromfile_relinks hg hr hload)
    cases loaded with
    | false =>
        simp only [Bool.false_eq_true, if_false, Lib.except_pure, Except.ok.injEq,
          Prod.mk.injEq] at hrest
        exact hrest.2.1 ▸ h₁
    | true =>
        obtain ⟨⟨g₂, w₂⟩, hhash, hpure⟩ := Lib.bind_eq_ok.mp hrest
        simp only [Lib.except_pure, Except.ok.injEq, Prod.mk.injEq] at hpure
        have hr₁ : r ∈ g₁.rules := Graph.rules_of_edits h₁ ▸ hr
        refine hpure.2.1 ▸ h₁.trans (Hash.recomputeRuleHash_edits ?_ (hg.edits h₁) hr₁ hhash)
        intro s m s' hs hm
        obtain ⟨⟨changed, s₁⟩, hrec, hpure⟩ := Lib.bind_eq_ok.mp hm
        rw [← Except.ok.inj hpure]
        exact Hash.recomputeNodeHash_edits hs hrec
  · simp only [Lib.except_pure, Except.ok.injEq, Prod.mk.injEq] at hrun
    exact hrun.2.1 ▸ .refl

theorem loadDepfile_consistent {started : Finset RuleId} {running : List RuleId} {loaded : Bool}
    (h : BuildPlan.Consistent g₀ p₀ started running g p) (hr : r ∈ g.rules)
    (hfits : ∀ k q content, Loads P g w r k q content → BuildPlan.Fits P p started k q content)
    (hrun : loadDepfile P g w r = .ok (loaded, g', w')) :
    BuildPlan.Consistent g₀ p₀ started running g' p := by
  rw [loadDepfile] at hrun
  split at hrun
  · rename_i hdepfile
    obtain ⟨⟨ok, k⟩, hload, hrun⟩ := Lib.bind_eq_ok.mp hrun
    have hown : BuildPlan.Consistent g₀ p₀ started running k p := by
      obtain ⟨-, rfl, -⟩ | ⟨content, hread, -, hcontent⟩ := Depfile.loadFromfile_ok hload
      · exact h
      · exact h.load hr (hfits g r content (.own hdepfile hread)) hcontent
    have hrules : k.rules = g.rules :=
      Graph.rules_of_relinks (Depfile.loadFromfile_relinks h.wired hr hload)
    cases ok with
    | false =>
        simp only [Bool.false_eq_true, if_false, Lib.except_pure, Except.ok.injEq,
          Prod.mk.injEq] at hrun
        exact hrun.2.1 ▸ hown
    | true =>
        simp only [if_true, Lib.bind_eq_ok, Lib.except_pure, Except.ok.injEq,
          Prod.mk.injEq] at hrun
        obtain ⟨⟨k', u'⟩, hhash, -, rfl, -⟩ := hrun
        suffices hsteps : ReflTransGen (Hash.HashStep P) (k, w) (k', u') from
          BuildPlan.Consistent.hashSteps hown
            (fun k₁ u hsteps q hq k₂ u' content hrestore ↦
              hfits k₂ q content (.restored hdepfile hload hsteps hq hrestore)) hsteps
        refine Hash.recomputeRuleHash_hashSteps ?_ hown.wired (hrules ▸ hr) hhash
        intro t n t' ht hnode
        obtain ⟨⟨changed, t₁⟩, hrec, hpure⟩ := Lib.bind_eq_ok.mp hnode
        rw [← Except.ok.inj hpure]
        exact Hash.recomputeNodeHash_hashSteps ht hrec
  · simp only [Lib.except_pure, Except.ok.injEq, Prod.mk.injEq] at hrun
    exact hrun.2.1 ▸ h

/-- What `waitForNext` has done if it says that all is well. -/
theorem waitForNext_succeeded (h : waitForNext P s c = .ok (.succeeded, evs, s')) :
    ∃ r g w w' g' p', s.running[c.next % s.running.length]? = some r ∧ c.status = .succeeded ∧
      loadDepfile P (s.graph.updateRule r (·.setTimestamp (P.now s.world))) s.world r =
        .ok (true, g, w) ∧
      g.finishRule r = .ok g' ∧ s.plan.notifyRuleBuilt g' r = .ok p' ∧ evs = [.built r] ∧
      s' = { s with
        running := s.running.eraseIdx (c.next % s.running.length)
        graph := g'
        plan := p'
        world := w' } := by
  rw [waitForNext] at h
  split at h
  · cases h
  · rename_i r hr
    simp only [reap] at h
    split at h
    · simp only [Lib.except_pure, Except.ok.injEq, Prod.mk.injEq] at h
      obtain ⟨hres, -, -⟩ := h
      split at hres <;> cases hres
    · rename_i hstatus
      simp only [Lib.bind_eq_ok] at h
      obtain ⟨⟨loaded, g, w⟩, hload, h⟩ := h
      cases loaded with
      | false =>
          simp only [Bool.not_false, if_true, Lib.except_pure, Except.ok.injEq,
            Prod.mk.injEq] at h
          cases h.1
      | true =>
          simp only [Bool.not_true, Bool.false_eq_true, if_false, Lib.bind_eq_ok, onRuleFinished,
            Lib.except_pure, Except.ok.injEq, Prod.mk.injEq] at h
          obtain ⟨w', -, s₁, ⟨g', hfinish, p', hnotify, rfl⟩, -, rfl, rfl⟩ := h
          exact ⟨r, g, w, w', g', p', hr, by simpa using hstatus, hload, hfinish, hnotify, rfl,
            rfl⟩

/-- The depfiles that a step of the main loop loads fit the plan; `evs` are the
events before it. -/
def Fitting (P : Platform ω) (evs : List BuildEvent) (s : Builder ω) (c : Choice ω) : Prop :=
  s.phase = .spawn → (s.plan.hasWork = false ∨ s.numThreads ≤ s.running.length) →
    c.status = .succeeded → ∀ r, s.running[c.next % s.running.length]? = some r →
      ∀ k q content,
        Loads P (s.graph.updateRule r (·.setTimestamp (P.now (c.environment s.world))))
          (c.environment s.world) r k q content →
        BuildPlan.Fits P s.plan (foundRules evs).toFinset k q content

/-- The depfiles that the main loop loads in the course of the run fit the plan. -/
def FittingRun (P : Platform ω) : List BuildEvent → List (Choice ω) → Builder ω → Prop
  | _, [], _ => True
  | evs, c :: cs, s =>
    Fitting P evs s c ∧ ∀ evs' s', step P s c = .ok (evs', s') → FittingRun P (evs ++ evs') cs s'

theorem fittingRun_of_loadFree {cs : List (Choice ω)} (h : LoadFree P cs s) :
    FittingRun P evs cs s := by
  induction cs generalizing s evs with
  | nil => trivial
  | cons c cs ih =>
      refine ⟨fun _ _ hstatus r hr k q content hload ↦ ?_,
        fun evs' s' hstep ↦ ih (h.2 evs' s' hstep)⟩
      exact absurd hload (h.1.not_loads hstatus hr)

/-- The main loop is not over, and nothing has failed. -/
def InLoop (s : Builder ω) : Prop := s.phase = .main ∧ s.result = .succeeded ∨ s.phase = .spawn

/-- While the main loop runs, its plan is consistent. -/
def Steady (g₀ : Graph) (p₀ : BuildPlan) (evs : List BuildEvent) (s : Builder ω) : Prop :=
  s.InLoop → BuildPlan.Consistent g₀ p₀ (foundRules evs).toFinset s.running s.graph s.plan

theorem steady_create (hg : g₀.Tied) (hexact : g₀.Exact) (hplan : Planned g₀ p₀) (w : ω) (n : ℕ) :
    Steady g₀ p₀ [] (create g₀ p₀ w n) :=
  fun _ ↦ BuildPlan.consistent_start hg hexact hplan

theorem toFinset_foundRules_snoc (evs evs' : List BuildEvent) (r : RuleId)
    (hfound : foundRules evs' = [r]) :
    (foundRules (evs ++ evs')).toFinset = insert r (foundRules evs).toFinset := by
  rw [foundRules_append, hfound, List.toFinset_append, List.toFinset_cons, List.toFinset_nil,
    Finset.insert_empty, Finset.union_comm, Finset.singleton_union]

/-- A rule is finished as soon as it has been started. -/
theorem Steady.taken {t : Builder ω} (h : Steady g₀ p₀ evs s)
    (hrules : ∀ q ∈ p₀.rules, q ∈ g₀.rules) (hphase : s.phase = .spawn)
    (hwork : s.plan.findWork = (some r, p)) (hplan : t.plan = p) (hrunning : t.running = s.running)
    (hgraph : t.graph = s.graph ∨ ∃ stamp, t.graph = s.graph.updateRule r (·.setTimestamp stamp))
    (hfinish : t.onRuleFinished r = .ok s') :
    Steady g₀ p₀ (evs ++ [.found r, .built r]) s' := by
  intro _
  have htake := ((h (Or.inr hphase)).take hwork).2
  have hready : BuildPlan.Consistent g₀ p₀ (insert r (foundRules evs).toFinset)
      (r :: t.running) t.graph t.plan := by
    rw [hplan, hrunning]
    rcases hgraph with hgraph | ⟨stamp, hgraph⟩
    · rw [hgraph]
      exact htake
    · rw [hgraph]
      exact htake.setTimestamp r stamp
  simp only [onRuleFinished, Lib.bind_eq_ok, Lib.except_pure, Except.ok.injEq] at hfinish
  obtain ⟨g', hg', p', hp', rfl⟩ := hfinish
  rw [toFinset_foundRules_snoc evs [.found r, .built r] r rfl]
  exact hready.finish hrules hg' hp'

theorem Steady.act (h : Steady g₀ p₀ evs s) (hrules : ∀ q ∈ p₀.rules, q ∈ g₀.rules)
    (hfits : s.phase = .spawn → (s.plan.hasWork = false ∨ s.numThreads ≤ s.running.length) →
      c.status = .succeeded → ∀ r, s.running[c.next % s.running.length]? = some r →
        ∀ k q content, Loads P (s.graph.updateRule r (·.setTimestamp (P.now s.world))) s.world r
          k q content → BuildPlan.Fits P s.plan (foundRules evs).toFinset k q content)
    (ha : Act P s c evs' s') : Steady g₀ p₀ (evs ++ evs') s' := by
  cases ha with
  | enter hphase hresult =>
      rw [List.append_nil]
      exact fun _ ↦ h (Or.inl ⟨hphase, hresult⟩)
  | leave =>
      rintro (⟨hphase, -⟩ | hphase) <;> cases hphase
  | phony hphase _ hwork _ hfinish =>
      refine h.taken hrules hphase hwork ?_ ?_ ?_ hfinish
      · rfl
      · rfl
      · exact Or.inl rfl
  | restored hphase _ hwork _ _ hfinish =>
      refine h.taken hrules hphase hwork ?_ ?_ ?_ hfinish
      · rfl
      · rfl
      · exact Or.inr ⟨_, rfl⟩
  | @spawned r p w hphase _ hwork =>
      intro _
      rw [toFinset_foundRules_snoc evs [.found r] r rfl]
      exact ((h (Or.inr hphase)).take hwork).2
  | @reaped res _ _ hphase hwork hwait =>
      rintro (⟨-, hres⟩ | hspawn)
      · obtain rfl : res = .succeeded := hres
        obtain ⟨r, g, w, w', g', p', hr, hstatus, hload, hfinish, hnotify, rfl, rfl⟩ :=
          waitForNext_succeeded hwait
        have hperm := perm_eraseIdx hr
        have hready := ((h (Or.inr hphase)).perm hperm).setTimestamp r (P.now s.world)
        have hstarted := hready.running_started r List.mem_cons_self
        have hmem : r ∈ (s.graph.updateRule r (·.setTimestamp (P.now s.world))).rules := by
          rw [hready.rules]
          exact hrules r (hready.started_subset hstarted)
        have hloaded := loadDepfile_consistent hready hmem
          (hfits hphase hwork hstatus r hr) hload
        rw [foundRules_append]
        simpa using hloaded.finish hrules hfinish hnotify
      · cases hspawn
  | idle hphase =>
      rw [List.append_nil]
      exact fun _ ↦ h (Or.inr hphase)
  | flushed hphase hwait =>
      obtain ⟨r, hw⟩ := Waited.of_waitForNext hwait
      have hflush : _ = Phase.flush := hw.phase.trans hphase
      rintro (⟨hmain, -⟩ | hspawn)
      · cases hflush.symm.trans hmain
      · cases hflush.symm.trans hspawn
  | finish => rintro (⟨hphase, -⟩ | hphase) <;> cases hphase
  | stay hphase =>
      rintro (⟨hmain, -⟩ | hspawn)
      · cases hphase.symm.trans hmain
      · cases hphase.symm.trans hspawn

/-- A step that loads fitting depfiles keeps the plan consistent. -/
theorem Steady.step (h : Steady g₀ p₀ evs s) (hrules : ∀ q ∈ p₀.rules, q ∈ g₀.rules)
    (hfits : Fitting P evs s c) (hstep : step P s c = .ok (evs', s')) :
    Steady g₀ p₀ (evs ++ evs') s' :=
  Steady.act (s := s.perturb c) h hrules hfits (.of_step hstep)

end Builder

end Falcon
