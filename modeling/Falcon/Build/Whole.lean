import Falcon.Build.Consistent

/-!
# Builds of whole rules

When every rule that is still to be built has dirty outputs only, each input is
reported ready once at most.  No counter gets ahead of the inputs that are
ready, whatever depfiles are loaded on the way, and none is overrun.
-/

namespace Falcon

open BuildEvent Relation Lib

namespace BuildPlan

/-- The plan after the rules `started` have been started, the commands of
`running` being out.  The outputs of every rule that is still to be built are
dirty. -/
structure Whole (p₀ : BuildPlan) (started : Finset RuleId) (running : List RuleId) (g : Graph)
    (p : BuildPlan) : Prop where
  lagging : g.Lagging {q | q ∈ started ∨ q ∈ p.readyRules}
  mem_rules : ∀ q ∈ p₀.rules, q ∈ g.rules
  planned : p.rules = p₀.rules
  started_subset : started ⊆ p₀.rules
  ready_new : ∀ q ∈ p.readyRules, q ∈ p₀.rules ∧ q ∉ started
  running_started : ∀ q ∈ running, q ∈ started
  nodup : running.Nodup
  dirty : ∀ x q, (g.node x).childRule = some q → q ∈ p₀.rules → (q ∈ started → q ∈ running) →
    g.inputReady x = false

namespace Whole

variable {g g' : Graph} {p₀ p p' : BuildPlan} {started : Finset RuleId}
  {running running' : List RuleId} {r : RuleId}

theorem perm (h : Whole p₀ started running g p) (hperm : running.Perm running') :
    Whole p₀ started running' g p :=
  { h with
    running_started := fun q hq ↦ h.running_started q (hperm.mem_iff.mpr hq)
    nodup := hperm.nodup_iff.mp h.nodup
    dirty := fun x q hchild hq hrun ↦
      h.dirty x q hchild hq fun hs ↦ hperm.mem_iff.mpr (hrun hs) }

/-- Loads and hashes change neither the rules nor what is ready. -/
theorem replace (h : Whole p₀ started running g p)
    (hlagging : g'.Lagging {q | q ∈ started ∨ q ∈ p.readyRules}) (hrules : g'.rules = g.rules)
    (hchild : ∀ n, (g'.node n).childRule = (g.node n).childRule)
    (hready : ∀ n, g'.inputReady n = g.inputReady n) : Whole p₀ started running g' p :=
  { h with
    lagging := hlagging
    mem_rules := fun q hq ↦ hrules ▸ h.mem_rules q hq
    dirty := fun x q hc hq hrun ↦ hready x ▸ h.dirty x q (hchild x ▸ hc) hq hrun }

theorem setTimestamp (h : Whole p₀ started running g p) (r : RuleId) (t : Timestamp) :
    Whole p₀ started running (g.updateRule r (·.setTimestamp t)) p := by
  have hlinks := g.links_setTimestamp r t
  refine h.replace (h.lagging.touch hlinks (fun _ ↦ rfl) fun q ↦ ?_)
    (Graph.rules_of_links hlinks) (Graph.childRule_of_links hlinks) fun _ ↦ rfl
  exact Graph.proj_setRule Rule.numInputsReady (by rfl) q

/-- A rule is started. -/
theorem take (h : Whole p₀ started running g p) (hwork : p.findWork = (some r, p')) :
    Whole p₀ (insert r started) (r :: running) g p' := by
  obtain ⟨hr, rfl⟩ := Ongoing.findWork_eq_some hwork
  obtain ⟨hplanned, hnew⟩ := h.ready_new r hr
  refine { h with
    lagging := { h.lagging with settled := fun q hq hS ↦ h.lagging.settled q hq ?_ }
    started_subset := Finset.insert_subset hplanned h.started_subset
    ready_new := fun q hq ↦ ?_
    running_started := fun q hq ↦ ?_
    nodup := List.nodup_cons.mpr ⟨fun hrun ↦ hnew (h.running_started r hrun), h.nodup⟩
    dirty := fun x q hchild hq hrun ↦ h.dirty x q hchild hq fun hs ↦ ?_ }
  · rcases hS with hS | hS
    · rcases Finset.mem_insert.mp hS with rfl | hS
      · exact Or.inr hr
      · exact Or.inl hS
    · exact Or.inr (Finset.mem_of_mem_erase hS)
  · obtain ⟨hne, hq⟩ := Finset.mem_erase.mp hq
    refine ⟨(h.ready_new q hq).1, fun hs ↦ ?_⟩
    exact (Finset.mem_insert.mp hs).elim hne (h.ready_new q hq).2
  · rcases List.mem_cons.mp hq with rfl | hq
    · exact Finset.mem_insert_self _ _
    · exact Finset.mem_insert_of_mem (h.running_started q hq)
  · rcases List.mem_cons.mp (hrun (Finset.mem_insert_of_mem hs)) with rfl | hq'
    · exact absurd hs hnew
    · exact hq'

/-- A command has failed. -/
theorem fail (h : Whole p₀ started (r :: running) g p) : Whole p₀ started running g p :=
  { h with
    running_started := fun q hq ↦ h.running_started q (List.mem_cons_of_mem r hq)
    nodup := (List.nodup_cons.mp h.nodup).2
    dirty := fun x q hchild hq hrun ↦
      h.dirty x q hchild hq fun hs ↦ List.mem_cons_of_mem r (hrun hs) }

/-! ## Finishing a rule -/

/-- The reports to `q` are inputs that were not ready. -/
theorem nbReady_add_reports (h : Whole p₀ started (r :: running) g p) {q : RuleId}
    (hq : q ∈ g.rules) : (g.rule q).inputs.countP
        (fun n ↦ g.inputReady n || decide (n ∈ (g.rule r).outputs)) =
      g.nbReady q + (Graph.reportsOf g.links r).count q := by
  have hstarted := h.running_started r List.mem_cons_self
  have hr := h.mem_rules r (h.started_subset hstarted)
  have hsplit : (g.rule q).inputs.countP
      (fun n ↦ g.inputReady n || decide (n ∈ (g.rule r).outputs)) +
        (g.rule q).inputs.countP (fun _ ↦ false) =
      (g.rule q).inputs.countP g.inputReady +
        (g.rule q).inputs.countP fun n ↦ decide (n ∈ g.links.outputs r) :=
    Lib.countP_add_countP_congr fun n _ ↦ by
      by_cases hn : n ∈ (g.rule r).outputs
      · have hchild : (g.node n).childRule = some r :=
          (h.lagging.joined.twoWay.child_eq_some n r).mpr ⟨hr, hn⟩
        have hdirty := h.dirty n r hchild (h.started_subset hstarted) fun _ ↦ List.mem_cons_self
        have hn' : n ∈ g.links.outputs r := hn
        simp [hdirty, hn, hn']
      · have hn' : n ∉ g.links.outputs r := hn
        simp [hn, hn']
  rw [Graph.count_reportsOf h.lagging.joined.twoWay hr hq, Graph.nbReady]
  rw [List.countP_false] at hsplit
  exact hsplit

/-- A rule in hand is reported without an overrun. -/
theorem finish (h : Whole p₀ started (r :: running) g p) :
    ∃ g' p', g.finishRule r = .ok g' ∧ p.notifyRuleBuilt g' r = .ok p' ∧
      Whole p₀ started running g' p' := by
  have hstarted := h.running_started r List.mem_cons_self
  have hbound : ∀ q ∈ g.rules,
      g.nbReady q + (Graph.reportsOf g.links r).count q ≤ (g.rule q).inputs.length := by
    intro q hq
    rw [← h.nbReady_add_reports hq]
    exact List.countP_le_length
  have hmem : ∀ q ∈ Graph.reportsOf g.links r, q ∈ g.rules := by
    intro q hq
    obtain ⟨n, -, hn⟩ := List.mem_flatMap.mp hq
    exact ((h.lagging.joined.twoWay.mem_parents n q).mp hn).1
  rcases g.finishRule_spec r with ⟨-, g', hrun, hg⟩ | ⟨hroom, -⟩
  swap
  · refine absurd (fun q hq ↦ ?_) hroom
    have hle := h.lagging.counted q (hmem q hq)
    have hlt := hbound q (hmem q hq)
    omega
  have hinputs : ∀ q, (g'.rule q).inputs = (g.rule q).inputs := Graph.inputs_of_links hg.links
  have hrules : g'.rules = g.rules := Graph.rules_of_links hg.links
  have hchild : ∀ n, (g'.node n).childRule = (g.node n).childRule :=
    Graph.childRule_of_links hg.links
  have hnb : ∀ q ∈ g.rules,
      g'.nbReady q = g.nbReady q + (Graph.reportsOf g.links r).count q := by
    intro q hq
    rw [← h.nbReady_add_reports hq, Graph.nbReady, hinputs]
    refine List.countP_congr fun n _ ↦ ?_
    rw [hg.inputReady_iff, Bool.or_eq_true, decide_eq_true_eq]
    constructor
    · rintro (hn | hn | ⟨-, hnone⟩)
      · exact Or.inl hn
      · exact Or.inr hn
      · have hsource : (g.node n).childRule = none := hnone
        exact Or.inl (by simp [Graph.inputReady, Node.isSource, hsource])
    · rintro (hn | hn)
      · exact Or.inl hn
      · exact Or.inr (Or.inl hn)
  -- who is told has waited for an input
  have hsettled : ∀ q ∈ g.rules, q ∈ started ∨ q ∈ p.readyRules →
      (g'.rule q).numInputsReady < g'.nbReady q ∨
        g'.nbReady q = (g'.rule q).inputs.length ∧ q ∉ Graph.reportsOf g.links r := by
    intro q hq hS
    have hle := hbound q hq
    rw [hg.numReady, hnb q hq, hinputs]
    rcases h.lagging.settled q hq hS with hlt | heq
    · exact Or.inl (by omega)
    · exact Or.inr ⟨by omega, List.count_eq_zero.mp (by omega)⟩
  have hnotReady : r ∉ p.readyRules := fun hr ↦ (h.ready_new r hr).2 hstarted
  have hplanned : r ∈ p.rules := h.planned ▸ h.started_subset hstarted
  have hparents : ((g'.rule r).outputs.flatMap fun o ↦ (g'.node o).parentRules) =
      Graph.reportsOf g.links r := by
    rw [← hg.links]
    rfl
  obtain ⟨hrules', -, hready⟩ := Ongoing.notifyParent_foldl g' (Graph.reportsOf g.links r) p
  refine ⟨g', _, hrun, by simp [notifyRuleBuilt, hnotReady, hplanned, hparents], {
    lagging := ⟨h.lagging.joined.of_links hg.links, fun q hq ↦ ?_, fun q hq hS ↦ ?_⟩
    mem_rules := fun q hq ↦ hrules ▸ h.mem_rules q hq
    planned := hrules'.trans h.planned
    started_subset := h.started_subset
    ready_new := fun q hq ↦ ?_
    running_started := fun q hq ↦ h.running_started q (List.mem_cons_of_mem r hq)
    nodup := (List.nodup_cons.mp h.nodup).2
    dirty := fun x q hc hq hopen ↦ ?_ }⟩
  · rw [hrules] at hq
    have hle := h.lagging.counted q hq
    rw [hg.numReady, hnb q hq]
    omega
  · rw [hrules] at hq
    rcases hS with hS | hS
    · exact (hsettled q hq (Or.inl hS)).imp_right And.left
    · rcases (hready q).mp hS with hS | ⟨-, hfull, -⟩
      · exact (hsettled q hq (Or.inr hS)).imp_right And.left
      · have hle := h.lagging.counted q hq
        have hlt := hbound q hq
        rw [Rule.ready, decide_eq_true_eq, hg.numReady, hinputs] at hfull
        rw [hnb q hq, hinputs]
        exact Or.inr (by omega)
  · rcases (hready q).mp hq with hq | ⟨htold, hfull, hplan⟩
    · exact h.ready_new q hq
    · refine ⟨h.planned ▸ hplan, fun hs ↦ ?_⟩
      rcases hsettled q (hmem q htold) (Or.inl hs) with hlt | ⟨-, hnot⟩
      · have hle := hbound q (hmem q htold)
        rw [hnb q (hmem q htold)] at hlt
        rw [Rule.ready, decide_eq_true_eq, hinputs] at hfull
        omega
      · exact hnot htold
  · have hold : (g.node x).childRule = some q := hchild x ▸ hc
    by_cases hqr : q = r
    · subst hqr
      exact absurd (hopen hstarted) (List.nodup_cons.mp h.nodup).1
    · have hbefore := h.dirty x q hold hq fun hs ↦ List.mem_cons_of_mem r (hopen hs)
      rw [← Bool.not_eq_true, hg.inputReady_iff, hbefore]
      rintro (hno | hout | ⟨-, hnone⟩)
      · cases hno
      · have hr := h.mem_rules r (h.started_subset hstarted)
        have hout' := (h.lagging.joined.twoWay.child_eq_some x r).mpr ⟨hr, hout⟩
        exact hqr (Option.some.inj (hold.symm.trans hout'))
      · exact absurd (hold.symm.trans hnone) (Option.some_ne_none q)

end Whole

end BuildPlan

namespace Builder

variable {ω : Type} {P : Platform ω} {s s' : Builder ω} {c : Choice ω} {evs evs' : List BuildEvent}
  {g g' : Graph} {p₀ p : BuildPlan} {w : ω} {r : RuleId}

/-- The cache fails in other ways only. -/
structure CacheAvoids (P : Platform ω) (f : Fault) : Prop where
  restoreRule : ∀ g r w, P.restoreRule g r w ≠ .error f
  saveRule : ∀ g r w, P.saveRule g r w ≠ .error f
  restoreDepfile : ∀ g r w, P.restoreDepfile g r w ≠ .error f

/-- Every depfile that is loaded once the command of `r` has succeeded is one
of its rule. -/
def Accepts (P : Platform ω) (g : Graph) (w : ω) (r : RuleId) : Prop :=
  ∀ k q content, Loads P g w r k q content → content ≠ "" →
    ∃ ins, Depfile.Names P k q content ins

theorem avoids_loadDepfile {S : Set RuleId}
    (hP : CacheAvoids P (.assertion .inputReadyBound)) (h : g.Lagging S) (hr : r ∈ g.rules)
    (haccepts : Accepts P g w r) :
    Avoids (.assertion .inputReadyBound) (loadDepfile P g w r) fun x ↦ x.2.1.Lagging S := by
  rw [loadDepfile]
  split
  · rename_i hdepfile
    refine (Depfile.avoids_loadFromfile h.joined.wired hr (h.counted r hr)).bind
      fun x hload _ ↦ ?_
    obtain ⟨loaded, k⟩ := x
    have hloaded : k.Lagging S := by
      obtain ⟨-, rfl, -⟩ | ⟨content, hread, hne, hcontent⟩ := Depfile.loadFromfile_ok hload
      · exact h
      · obtain ⟨ins, hnames⟩ := haccepts g r content (.own hdepfile hread) hne
        exact h.load hr hnames hcontent
    have hrules : k.rules = g.rules :=
      Graph.rules_of_relinks (Depfile.loadFromfile_relinks h.joined.wired hr hload)
    cases loaded with
    | false => exact .ok hloaded
    | true =>
        have haccepting : Hash.Accepting P (k, w) := fun k' u hsteps q hq k₁ u' content hrestore ↦
          haccepts k₁ q content (.restored hdepfile hload hsteps hq hrestore) hrestore.nonempty
        refine (Hash.avoids_recomputeRuleHash hP.restoreDepfile (fun t n ht ↦ ?_)
          ⟨hloaded, haccepting⟩ (hrules ▸ hr)).bind fun t _ ht ↦ .ok ht.lagging
        exact (Hash.avoids_recomputeNodeHash hP.restoreDepfile ht).bind fun x _ hx ↦ .ok hx
  · exact .ok h

/-- The build, after the events `evs`, reports whole rules. -/
def Whole (p₀ : BuildPlan) (evs : List BuildEvent) (s : Builder ω) : Prop :=
  BuildPlan.Whole p₀ (foundRules evs).toFinset s.running s.graph s.plan

theorem onRuleFinished_whole {started : Finset RuleId}
    (h : BuildPlan.Whole p₀ started (r :: s.running) s.graph s.plan) :
    ∃ g' p', s.onRuleFinished r = .ok { s with graph := g', plan := p' } ∧
      BuildPlan.Whole p₀ started s.running g' p' := by
  obtain ⟨g', p', hfinish, hnotify, hwhole⟩ := h.finish
  exact ⟨g', p', by simp [onRuleFinished, hfinish, hnotify], hwhole⟩

section Step

variable (hP : CacheAvoids P (.assertion .inputReadyBound))
include hP

theorem avoids_buildRule (h : Whole p₀ evs s) (hwork : s.plan.findWork = (some r, p)) :
    Avoids (.assertion .inputReadyBound) (buildRule P { s with plan := p } r)
      fun x ↦ Whole p₀ (evs ++ x.1) x.2 := by
  have htake := BuildPlan.Whole.take h hwork
  have hfound : ∀ rest, foundRules rest = [] →
      (foundRules (evs ++ .found r :: rest)).toFinset = insert r (foundRules evs).toFinset :=
    fun rest hrest ↦ toFinset_foundRules_snoc evs _ r (by simp [hrest])
  have hfinish : ∀ t : Builder ω,
      BuildPlan.Whole p₀ (insert r (foundRules evs).toFinset) (r :: t.running) t.graph t.plan →
      Avoids (.assertion .inputReadyBound) (t.onRuleFinished r >>= fun t' ↦
        pure ([.found r, .built r], t')) fun x ↦ Whole p₀ (evs ++ x.1) x.2 := by
    intro t ht
    obtain ⟨g', p', hrun, hwhole⟩ := onRuleFinished_whole ht
    rw [hrun]
    refine .ok ?_
    rw [Whole, hfound [.built r] rfl]
    exact hwhole
  cases hphony : (s.graph.rule r).isPhony with
  | true =>
      simp only [buildRule, hphony, if_true]
      exact hfinish { s with plan := p } htake
  | false =>
      simp only [buildRule, hphony, Bool.false_eq_true, if_false]
      refine Avoids.bind (Q := fun _ ↦ True) ⟨hP.restoreRule _ _ _, fun _ _ ↦ trivial⟩
        fun x _ _ ↦ ?_
      obtain ⟨hit, w⟩ := x
      cases hit with
      | true => exact hfinish { s with
          plan := p
          graph := s.graph.updateRule r (·.setTimestamp (P.now w))
          world := w } (htake.setTimestamp r (P.now w))
      | false =>
          have hcommand : (s.graph.rule r).command ≠ "" := by simpa [Rule.isPhony] using hphony
          simp only [hcommand, ne_eq, not_false_eq_true, decide_true, assert_true,
            Bool.false_eq_true, if_false, except_ok_bind]
          refine .ok ?_
          rw [Whole, hfound [] rfl]
          exact htake

theorem avoids_waitForNext (h : Whole p₀ evs s)
    (haccepts : c.status = .succeeded → ∀ r, s.running[c.next % s.running.length]? = some r →
      Accepts P (s.graph.updateRule r (·.setTimestamp (P.now s.world))) s.world r) :
    Avoids (.assertion .inputReadyBound) (waitForNext P s c)
      fun x ↦ Whole p₀ (evs ++ x.2.1) x.2.2 := by
  rw [waitForNext]
  split
  · exact .error (by simp)
  · rename_i r hr
    have hhand := (BuildPlan.Whole.perm h (perm_eraseIdx hr)).setTimestamp r (P.now s.world)
    have hsame : ∀ evs', foundRules evs' = [] →
        (foundRules (evs ++ evs')).toFinset = (foundRules evs).toFinset :=
      fun evs' hnone ↦ by rw [foundRules_append, hnone, List.append_nil]
    rw [reap]
    split
    · refine .ok ?_
      rw [Whole, hsame [.failed r] rfl]
      exact hhand.fail
    · rename_i hstatus
      have hmem := hhand.mem_rules r
        (hhand.started_subset (hhand.running_started r List.mem_cons_self))
      refine (avoids_loadDepfile hP hhand.lagging hmem
        (haccepts (by simpa using hstatus) r hr)).bind fun x hload hlag ↦ ?_
      obtain ⟨loaded, g, w⟩ := x
      have hedits := loadDepfile_edits hhand.lagging.joined.wired hmem hload
      obtain ⟨hchild, hready⟩ := hhand.lagging.joined.wired.inputReady_edits hedits
      have hloaded := hhand.replace hlag (Graph.rules_of_edits hedits) hchild hready
      cases loaded with
      | false =>
          refine .ok ?_
          rw [Whole, hsame [.failed r] rfl]
          exact hloaded.fail
      | true =>
          refine Avoids.bind (Q := fun _ ↦ True) ⟨hP.saveRule _ _ _, fun _ _ ↦ trivial⟩
            fun w' _ _ ↦ ?_
          obtain ⟨g', p', hrun, hwhole⟩ := onRuleFinished_whole (s := { s with
            running := s.running.eraseIdx (c.next % s.running.length)
            graph := g
            world := w' }) hloaded
          simp only [hrun, except_ok_bind]
          refine .ok ?_
          rw [Whole, hsame [.built r] rfl]
          exact hwhole

end Step

/-- Every depfile that the step loads is one of its rule. -/
def Accepted (P : Platform ω) (s : Builder ω) (c : Choice ω) : Prop :=
  c.status = .succeeded → ∀ r, s.running[c.next % s.running.length]? = some r →
    Accepts P (s.graph.updateRule r (·.setTimestamp (P.now (c.environment s.world))))
      (c.environment s.world) r

/-- A step that reports whole rules overruns no counter. -/
theorem avoids_step (hP : CacheAvoids P (.assertion .inputReadyBound)) (h : Whole p₀ evs s)
    (haccepts : Accepted P s c) :
    Avoids (.assertion .inputReadyBound) (step P s c) fun x ↦ Whole p₀ (evs ++ x.1) x.2 := by
  have h₁ : Whole p₀ evs (s.perturb c) := h
  have haccepts₁ : c.status = .succeeded → ∀ r,
      (s.perturb c).running[c.next % (s.perturb c).running.length]? = some r →
        Accepts P ((s.perturb c).graph.updateRule r (·.setTimestamp (P.now (s.perturb c).world)))
          (s.perturb c).world r := haccepts
  have hquiet : ∀ {t : Builder ω}, Whole p₀ evs t → Whole p₀ (evs ++ []) t :=
    fun ht ↦ by rwa [List.append_nil]
  simp only [step]
  generalize s.perturb c = s₁ at h₁ haccepts₁
  cases hphase : s₁.phase with
  | main =>
      simp only
      split
      · exact .ok (hquiet h₁)
      · exact .ok (hquiet h₁)
  | spawn =>
      simp only
      split
      · split
        · exact .error (by simp)
        · rename_i r p hwork
          exact hphase ▸ avoids_buildRule hP h₁ hwork
      · split
        · exact (avoids_waitForNext hP h₁ haccepts₁).bind fun x _ hx ↦ .ok hx
        · exact .ok (hquiet h₁)
  | flush =>
      simp only
      split
      · exact (avoids_waitForNext hP h₁ haccepts₁).bind fun x _ hx ↦ .ok hx
      · exact .ok (hquiet h₁)
  | finished => exact .ok (hquiet h₁)

/-- Every depfile that the run loads is one of its rule. -/
def AcceptedRun (P : Platform ω) : List (Choice ω) → Builder ω → Prop
  | [], _ => True
  | c :: cs, s =>
    Accepted P s c ∧ ∀ evs s', step P s c = .ok (evs, s') → AcceptedRun P cs s'

theorem acceptedRun_of_loadFree {cs : List (Choice ω)} (h : LoadFree P cs s) :
    AcceptedRun P cs s := by
  induction cs generalizing s with
  | nil => trivial
  | cons c cs ih =>
      refine ⟨fun hstatus r hr k q content hload _ ↦ ?_, fun evs s' hstep ↦ ih (h.2 evs s' hstep)⟩
      exact absurd hload (h.1.not_loads hstatus hr)

end Builder

/-! ## Rules that are left half dirty -/

namespace Graph

/-- While the nodes of `D` are out of date, `q` cannot be started before `r` has
been built. -/
def Follows (g : Graph) (D : Set NodeId) : RuleId → RuleId → Prop :=
  TransGen fun r q ↦ ∃ x ∈ D, (g.node x).childRule = some r ∧ x ∈ (g.rule q).inputs

/-- A build of nodes of `D` can run the command of `q` and load its depfile. -/
def MayLoad (g : Graph) (D : Set NodeId) (q : RuleId) : Prop :=
  q ∈ g.rules ∧ (g.rule q).isPhony = false ∧ (g.rule q).hasDepfile = true ∧
    ∃ x ∈ (g.rule q).outputs, x ∈ D

/-- Nothing uses an output outside of `D` of a rule with an output in `D`. -/
def Unused (g : Graph) (D : Set NodeId) : Prop :=
  ∀ r ∈ g.rules, ∀ m ∈ (g.rule r).outputs, m ∈ D → ∀ o ∈ (g.rule r).outputs, o ∉ D →
    (g.node o).parentRules = []

/-- Nothing uses such an output, nor can a depfile that names it be loaded
before the rule has been built. -/
def Reportable (g : Graph) (D : Set NodeId) : Prop :=
  ∀ r ∈ g.rules, ∀ m ∈ (g.rule r).outputs, m ∈ D → ∀ o ∈ (g.rule r).outputs, o ∉ D →
    (g.node o).parentRules = [] ∧ ∀ q, g.MayLoad D q → g.Follows D r q

def dirtyNodes (g : Graph) : Set NodeId := {n | (g.node n).isDirty = true}

section Links

variable {g g' : Graph} {D : Set NodeId} (hl : g'.links = g.links)
include hl

theorem follows_of_links (r q : RuleId) : g'.Follows D r q ↔ g.Follows D r q := by
  rw [Follows, Follows]
  simp only [childRule_of_links hl, inputs_of_links hl]

theorem reportable_of_links : g'.Reportable D ↔ g.Reportable D := by
  simp only [Reportable, MayLoad, follows_of_links hl, rules_of_links hl, outputs_of_links hl,
    parentRules_of_links hl, isPhony_of_links hl, hasDepfile_of_links hl]

end Links

end Graph

namespace Builder

variable {ω : Type} {P : Platform ω} {s : Builder ω} {evs : List BuildEvent}
  {g₀ : Graph} {p₀ : BuildPlan} {r q : RuleId}

/-- No build without failing commands overruns a counter, whatever depfiles of
their rules it loads. -/
def WithinBounds (g : Graph) : Prop :=
  ∀ T p, BuildPlan.create g T = .ok p → ∀ (ω : Type) (P : Platform ω) (w : ω) (n : ℕ)
    (cs : List (Choice ω)), (∀ c ∈ cs, c.Quiet) → CacheAvoids P (.assertion .inputReadyBound) →
      AcceptedRun P cs (create g p w n) →
        run P cs (create g p w n) ≠ .error (.assertion .inputReadyBound)

section Reportable

variable (hg : g₀.Joined) (hplan : Planned g₀ p₀)
  (hreport : g₀.Reportable g₀.dirtyNodes)
include hg hplan hreport

theorem not_overrun_of_reportable : ¬ Overrun g₀ p₀ := by
  rintro ⟨r, hr, q, hq, hpos⟩
  obtain ⟨o, ho, hclean⟩ := List.countP_pos_iff.mp hpos
  simp only [Bool.and_eq_true, decide_eq_true_eq, Bool.not_eq_true'] at hclean
  obtain ⟨m, hchild, hm⟩ := hplan.output r hr
  obtain ⟨hrules, hout⟩ := (hg.twoWay.child_eq_some m r).mp hchild
  have hnone := (hreport r hrules m hout hm o hclean.1 (by simp [Graph.dirtyNodes, hclean.2])).1
  have hparent : q ∈ (g₀.node o).parentRules := (hg.twoWay.mem_parents o q).mpr ⟨hq, ho⟩
  rw [hnone] at hparent
  cases hparent

/-- A rule that has been started has what it needs. -/
theorem Live.built_of_follows (h : Live g₀ p₀ evs s) (hfollows : g₀.Follows g₀.dirtyNodes r q)
    (hq : q ∈ foundRules evs) : r ∈ builtRules evs := by
  have hsingle : ∀ j k, k ∈ foundRules evs →
      (∃ x ∈ g₀.dirtyNodes, (g₀.node x).childRule = some j ∧ x ∈ (g₀.rule k).inputs) →
      j ∈ builtRules evs := by
    rintro j k hk ⟨x, hx, hchild, hin⟩
    have hrules : k ∈ s.graph.rules := by
      rw [Graph.rules_of_links h.links]
      exact hplan.mem_rules hg.twoWay k (h.found_planned k hk)
    have hnow := h.exact (not_overrun_of_reportable hg hplan hreport)
    have hready := (hnow.ready_iff hrules).mp (h.found_ready k hk) x
      (by rwa [Graph.inputs_of_links h.links])
    have hsource : (s.graph.node x).isSource = false := by
      rw [Graph.isSource_of_links h.links, Node.isSource, hchild]
      rfl
    have hclean : (s.graph.node x).isDirty = false := by
      simpa [Graph.inputReady, hsource] using hready
    by_contra hbuilt
    rw [(h.node x j hchild).mpr ⟨hx, hbuilt⟩] at hclean
    cases hclean
  induction hfollows using TransGen.head_induction_on with
  | single hstep => exact hsingle _ _ hq hstep
  | head hstep _ ih => exact hsingle _ _ (h.mem_found.mpr (Or.inl ih)) hstep

/-- When the first depfile is loaded, every rule that is still to be built has
dirty outputs only. -/
theorem Live.whole (h : Live g₀ p₀ evs s) (hq : q ∈ s.running)
    (hdepfile : (g₀.rule q).hasDepfile = true) : Whole p₀ evs s := by
  have hnow := h.exact (not_overrun_of_reportable hg hplan hreport)
  have hrules := hplan.mem_rules hg.twoWay
  have hfound := h.mem_found_of_hand hq
  have hload : g₀.MayLoad g₀.dirtyNodes q := by
    have hplanned := h.found_planned q hfound
    obtain ⟨m, hchild, hm⟩ := hplan.output q hplanned
    exact ⟨hrules q hplanned, h.command q hq, hdepfile, m,
      ((hg.twoWay.child_eq_some m q).mp hchild).2, hm⟩
  have hfull : ∀ k ∈ s.graph.rules, (s.graph.rule k).ready = true →
      s.graph.nbReady k = (s.graph.rule k).inputs.length := by
    intro k hk hready
    rw [← hnow k hk]
    simpa [Rule.ready] using hready
  have hnodup := (h.split.nodup_iff.mp h.found_nodup)
  refine {
    lagging := ⟨⟨h.links ▸ hg.twoWay, ?_, ?_⟩, fun k hk ↦ (hnow k hk).le, fun k hk hS ↦
      Or.inr (hfull k hk ?_)⟩
    mem_rules := fun k hk ↦ by
      rw [Graph.rules_of_links h.links]
      exact hrules k hk
    planned := h.rules
    started_subset := fun k hk ↦ h.found_planned k (List.mem_toFinset.mp hk)
    ready_new := fun k hk ↦ ?_
    running_started := fun k hk ↦ List.mem_toFinset.mpr (h.mem_found_of_hand hk)
    nodup := (List.nodup_append.mp hnodup).2.1
    dirty := fun x k hchild hk hopen ↦ ?_ }
  · exact (hg.of_links h.links).allocated
  · exact (hg.of_links h.links).nodes
  · rcases hS with hS | hS
    · exact h.found_ready k (List.mem_toFinset.mp hS)
    · exact ((h.ready_iff k).mp hS).2.2
  · obtain ⟨hplanned, hnew, -⟩ := (h.ready_iff k).mp hk
    exact ⟨hplanned, fun hmem ↦ hnew (List.mem_toFinset.mp hmem)⟩
  · rw [Graph.childRule_of_links h.links] at hchild
    have hbuilt : k ∉ builtRules evs := fun hb ↦ h.not_mem_built
      (hopen (List.mem_toFinset.mpr (h.mem_found.mpr (Or.inl hb)))) hb
    obtain ⟨hkr, hout⟩ := (hg.twoWay.child_eq_some x k).mp hchild
    obtain ⟨m, hmchild, hm⟩ := hplan.output k hk
    have hdirty : (g₀.node x).isDirty = true := by
      by_contra hclean
      have hfollows := (hreport k hkr m ((hg.twoWay.child_eq_some m k).mp hmchild).2 hm x hout
        hclean).2 q hload
      exact hbuilt (h.built_of_follows hg hplan hreport hfollows hfound)
    rw [Graph.inputReady_eq_false]
    refine ⟨?_, (h.node x k hchild).mpr ⟨hdirty, hbuilt⟩⟩
    rw [Graph.isSource_of_links h.links, Node.isSource, hchild]
    rfl

/-- Until the first depfile is loaded the events account for the counters, and
afterwards the counters lag behind. -/
theorem run_ne_inputReadyBound {cs : List (Choice ω)}
    (hP : CacheAvoids P (.assertion .inputReadyBound)) (haccepts : AcceptedRun P cs s)
    (h : Live g₀ p₀ evs s ∨ Whole p₀ evs s) :
    run P cs s ≠ .error (.assertion .inputReadyBound) := by
  have hrules := hplan.mem_rules hg.twoWay
  induction cs generalizing s evs with
  | nil => exact fun hrun ↦ by cases hrun
  | cons c cs ih =>
      intro hrun
      have hnext : Avoids (.assertion .inputReadyBound) (step P s c)
          fun x ↦ Live g₀ p₀ (evs ++ x.1) x.2 ∨ Whole p₀ (evs ++ x.1) x.2 := by
        have hwhole : Whole p₀ evs s → Avoids (.assertion .inputReadyBound) (step P s c)
            fun x ↦ Live g₀ p₀ (evs ++ x.1) x.2 ∨ Whole p₀ (evs ++ x.1) x.2 :=
          fun hw ↦ (avoids_step hP hw haccepts.1).mono fun _ _ hx ↦ Or.inr hx
        rcases h with hlive | hw
        · by_cases hload : s.NoLoad c
          · refine ⟨fun herr ↦ ?_, fun x hx ↦ Or.inl (hlive.step hg.twoWay hrules hload hx)⟩
            rcases step_error hg.twoWay hrules hlive hload herr with
              (⟨g, r, w, hr⟩ | ⟨g, r, w, hr⟩) | ⟨-, hover⟩
            · exact hP.restoreRule g r w hr
            · exact hP.saveRule g r w hr
            · exact not_overrun_of_reportable hg hplan hreport hover
          · rw [NoLoad] at hload
            push Not at hload
            obtain ⟨-, q, hq, hdepfile⟩ := hload
            rw [Graph.hasDepfile_of_links hlive.links, Bool.ne_false_iff] at hdepfile
            exact hwhole (hlive.whole hg hplan hreport (List.mem_of_getElem? hq) hdepfile)
        · exact hwhole hw
      rw [run] at hrun
      rcases Lib.bind_eq_error.mp hrun with hstep | ⟨⟨evs₁, s₁⟩, hstep, hrun⟩
      · exact hnext.1 hstep
      · rcases Lib.bind_eq_error.mp hrun with hrest | ⟨x, -, hpure⟩
        · exact ih (haccepts.2 evs₁ s₁ hstep) (hnext.2 _ hstep) hrest
        · cases hpure

end Reportable

theorem withinBounds_of_reportable (hg : g₀.Joined) (hac : g₀.links.Acyclic) (hexact : g₀.Exact)
    (hdirty : g₀.DirtyHasDirtyRule) (h : g₀.Reportable g₀.dirtyNodes) : WithinBounds g₀ := by
  intro T p hcreate ω P w n cs _ hP haccepts
  obtain ⟨p', hcreate', hrules, hready, hstarted⟩ :=
    BuildPlan.create_spec hg.twoWay hac hexact hdirty T
  obtain rfl : p' = p := Except.ok.inj (hcreate'.symm.trans hcreate)
  have hplan := planned_of_needed hrules hready hstarted
  exact run_ne_inputReadyBound hg hplan h hP haccepts
    (Or.inl (live_create hexact hplan w n))

end Builder

end Falcon
