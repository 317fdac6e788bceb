import Mathlib.Algebra.Order.BigOperators.Group.List
import Mathlib.Algebra.Order.Group.Nat
import Falcon.Build.LazyCache
import Falcon.Build.Scheduling
import Falcon.Graph.Consistent
import Falcon.Graph.SelfDepfile

/-!
# Building after a lazy fetch

`onRuleFinished` reports every output of a rule, also one that the lazy fetch
has restored and reported before.  The counters stay exact just when no rule of
the build has such an output with a parent, and when no rule of the build
loads a depfile, whose content is out of the builder's control.
-/

namespace Falcon

open BuildEvent

namespace Builder

/-- Every build of the targets `T` keeps the counters exact, starts no rule
twice and starts all of them if no command fails. -/
def KeepsCounters (g : Graph) (T : Finset NodeId) : Prop :=
  ∃ p, BuildPlan.create g T = .ok p ∧
    ∀ (ω : Type) (P : Platform ω) (w : ω) (n : ℕ) (cs : List (Choice ω)), 1 ≤ n →
      (∀ f, run P cs (create g p w n) = .error f → CacheFault P f) ∧
      ∀ evs s, run P cs (create g p w n) = .ok (evs, s) →
        s.graph.Exact ∧ (∀ r, (foundRules evs).count r ≤ 1) ∧
        s.plan.numStarted ≤ s.plan.rules.card ∧
        ((∀ c ∈ cs, c.Quiet) → 8 * p.rules.card + 5 ≤ cs.length →
          s.plan.numStarted = s.plan.rules.card)

/-- The rules that a build of `T` runs load no depfile and have no output that
is up to date and used by another rule. -/
def Unshared (g : Graph) (T : Finset NodeId) : Prop :=
  ∀ r, g.Needed T r → ((g.rule r).isPhony = true ∨ (g.rule r).hasDepfile = false) ∧
    ∀ o ∈ (g.rule r).outputs, (g.node o).isDirty = true ∨ (g.node o).parentRules = []

variable {g : Graph} {p : BuildPlan} {T : Finset NodeId}

theorem not_cacheFault_emptyPlatform (f : Fault) : ¬ CacheFault emptyPlatform f := by
  rintro (⟨g, r, w, h⟩ | ⟨g, r, w, h⟩) <;> cases h

section

variable (hL : g.links.TwoWay) (hac : g.links.Acyclic) (hexact : g.Exact)
include hL hac hexact

theorem keepsCounters_of_unshared (hdirty : g.DirtyHasDirtyRule) (h : Unshared g T) :
    KeepsCounters g T := by
  obtain ⟨p, hcreate, hrules, hready, hstarted⟩ := BuildPlan.create_spec hL hac hexact hdirty T
  have hplan := planned_of_needed hrules hready hstarted
  have hdep : ∀ r ∈ p.rules, (g.rule r).isPhony = false → (g.rule r).hasDepfile = false := by
    intro r hr hphony
    rcases (h r ((hrules r).mp hr)).1 with hp | hd
    · rw [hphony] at hp
      cases hp
    · exact hd
  have hfresh : ¬ Overrun g p := by
    rintro ⟨r, hr, q, hq, hpos⟩
    obtain ⟨o, ho, hclean⟩ := List.countP_pos_iff.mp hpos
    simp only [Bool.and_eq_true, decide_eq_true_eq, Bool.not_eq_true'] at hclean
    rcases (h r ((hrules r).mp hr)).2 o hclean.1 with hd | hnone
    · rw [hclean.2] at hd
      cases hd
    · have hparent : q ∈ (g.node o).parentRules := (hL.mem_parents o q).mpr ⟨hq, ho⟩
      rw [hnone] at hparent
      cases hparent
  refine ⟨p, hcreate, fun ω P w n cs hthreads ↦ ?_⟩
  have hfree : LoadFree P cs (create g p w n) := loadFree_create hL hexact hplan hdep w n cs
  refine ⟨fun f hf ↦ ?_, fun evs s hrun ↦ ?_⟩
  · rcases run_error hL (hplan.mem_rules hL) (live_create hexact hplan w n) hfree hf with
      hfault | ⟨-, hover⟩
    · exact hfault
    · exact absurd hover hfresh
  · obtain ⟨hlive, hcontrol⟩ := run_controlled hL hexact hplan hfree hrun
    refine ⟨run_exact hL hexact hplan hfresh hfree hrun,
      List.nodup_iff_count_le_one.mp hlive.found_nodup, ?_, fun hquiet hlen ↦ ?_⟩
    · rw [hlive.numStarted, hlive.rules]
      exact hlive.found_le
    · obtain ⟨hnone, hint⟩ := run_quiet hL hexact hplan hquiet hfree hrun
      have hfin := finished_of_length hL hac hexact hplan hthreads hlen hfree hrun
      rcases hcontrol.stopped (Or.inr hfin) with hres | hdone | hstop
      · exact absurd (hcontrol.result_iff.mpr hnone) hres
      · simpa [BuildPlan.done] using hdone
      · rw [hint] at hstop
        cases hstop

/-- A build that reports a clean output ends with a wrong counter. -/
theorem not_keepsCounters_of_shared (hdirty : g.DirtyHasDirtyRule)
    (hdep : ∀ r, g.Needed T r → (g.rule r).isPhony = false → (g.rule r).hasDepfile = false)
    {r : RuleId} (hr : g.Needed T r) {o : NodeId} (ho : o ∈ (g.rule r).outputs)
    (hclean : (g.node o).isDirty = false) (hparent : (g.node o).parentRules ≠ []) :
    ¬ KeepsCounters g T := by
  rintro ⟨p, hcreate, hkeeps⟩
  obtain ⟨p', hcreate', hrules, hready, hstarted⟩ := BuildPlan.create_spec hL hac hexact hdirty T
  obtain rfl : p' = p := Except.ok.inj (hcreate'.symm.trans hcreate)
  have hplan := planned_of_needed hrules hready hstarted
  have hdep' : ∀ r ∈ p'.rules, (g.rule r).isPhony = false → (g.rule r).hasDepfile = false :=
    fun r hr ↦ hdep r ((hrules r).mp hr)
  obtain ⟨q, hq⟩ := List.exists_mem_of_ne_nil _ hparent
  obtain ⟨hqr, hqo⟩ := (hL.mem_parents o q).mp hq
  let c : Choice Unit := ⟨id, false, 0, .succeeded⟩
  let cs := List.replicate (8 * p'.rules.card + 5) c
  have hfree : LoadFree emptyPlatform cs (create g p' () 1) :=
    loadFree_create hL hexact hplan hdep' () 1 cs
  obtain ⟨hfault, hok⟩ := hkeeps Unit emptyPlatform () 1 cs le_rfl
  cases hrun : run emptyPlatform cs (create g p' () 1) with
  | error f => exact not_cacheFault_emptyPlatform f (hfault f hrun)
  | ok v =>
      obtain ⟨evs, s⟩ := v
      have hquiet : ∀ d ∈ cs, d.Quiet := by
        intro d hd
        rw [List.eq_of_mem_replicate hd]
        exact ⟨rfl, rfl⟩
      obtain ⟨hlive, hcontrol⟩ := run_controlled hL hexact hplan hfree hrun
      obtain ⟨hnone, hint⟩ := run_quiet hL hexact hplan hquiet hfree hrun
      have hfin := finished_of_length hL hac hexact hplan le_rfl (by simp [cs]) hfree hrun
      have hbuilt := hcontrol.built_of_finished hlive hnone hint hfin ((hrules r).mpr hr)
      have hcount := hlive.numReady q hqr
      have hpos : 0 < cleanReports g q r := by
        apply List.countP_pos_iff.mpr
        exact ⟨o, hqo, by simp [ho, hclean]⟩
      have hexcess : cleanReports g q r ≤ excess g (builtRules evs) q :=
        List.le_sum_of_mem (List.mem_map.mpr ⟨r, hbuilt, rfl⟩)
      have hexact' := (hok evs s hrun).1 q (by rw [Graph.rules_of_links hlive.links]; exact hqr)
      omega

end

/-- An outside world without a cache in which all depfiles have the content
that the world consists of: they name one path as their output and input. -/
def selfNaming : Platform String where
  readFile w _ := some w
  mtime _ _ := none
  now _ := 0
  sha256 _ := List.replicate 32 0
  parseDepfile content :=
    some (String.ofList (content.toList.drop 1), [String.ofList (content.toList.drop 1)])
  newNode used := used.sup id + 1
  newNode_fresh := fresh_above
  uninitialised _ := false
  restoreNode _ _ w := .ok (false, w)
  restoreRule _ _ w := .ok (false, w)
  restoreDepfile _ _ w := .ok (false, w)
  saveRule _ _ w := .ok w

theorem not_cacheFault_selfNaming (f : Fault) : ¬ CacheFault selfNaming f := by
  rintro (⟨g, r, w, h⟩ | ⟨g, r, w, h⟩) <;> cases h

theorem noRestore_selfNaming (L : Links) : Hash.NoRestore selfNaming L := by
  intro g r w restored w' _ _ h
  cases h
  rfl

theorem parseDepfile_selfNaming (path : String) :
    selfNaming.parseDepfile ("x" ++ path) = some (path, [path]) := by
  simp [selfNaming]

section Depfile

variable (hL : g.links.TwoWay) (hac : g.links.Acyclic)
  (hlookup : ∀ r ∈ g.rules, ∀ o ∈ (g.rule r).outputs,
    g.nodes.lookup (g.node o).path = some o)
  {evs evs' : List BuildEvent} {s s' : Builder String} {c : Choice String} {res : BuildResult}
  {r : RuleId}

include hL hac hlookup in
/-- Reaping a command whose depfile names its own first output spoils the
counter of its rule, unless it fails. -/
theorem not_exact_of_reap (hplan : Planned g p) (hlive : Live g p evs s) (hexact : s.graph.Exact)
    (hhead : s.running[c.next % s.running.length]? = some r)
    (hdep : (s.graph.rule r).hasDepfile = true) (hstatus : c.status = .succeeded) {o : NodeId}
    (ho : (s.graph.rule r).outputs.head? = some o) (hworld : s.world = "x" ++ (g.node o).path)
    (hwait : waitForNext selfNaming s c = .ok (res, evs', s')) : ¬ s'.graph.Exact := by
  have hmem : r ∈ s.running := List.mem_of_getElem? hhead
  have hfound : r ∈ foundRules evs := hlive.mem_found_of_hand hmem
  have hr : r ∈ g.rules := hplan.mem_rules hL r (hlive.found_planned r hfound)
  generalize hg₁ : s.graph.updateRule r (·.setTimestamp (selfNaming.now s.world)) = g₁
  have hlinks₁ : g₁.links = g.links := by
    rw [← hg₁]
    exact (s.graph.links_setTimestamp r _).trans hlive.links
  have hrule₁ : ∀ q, (g₁.rule q).numInputsReady = (s.graph.rule q).numInputsReady := by
    rw [← hg₁]
    exact Graph.proj_setRule Rule.numInputsReady (by rfl)
  have hready₁ : ∀ n ∈ (g₁.rule r).inputs, g₁.inputReady n = true := by
    have hall := (hexact.ready_iff (by rw [Graph.rules_of_links hlive.links]; exact hr)).mp
      (hlive.found_ready r hfound)
    intro n hn
    rw [Graph.inputs_of_links hlinks₁, ← Graph.inputs_of_links hlive.links] at hn
    rw [← hg₁]
    exact hall n hn
  have hcount₁ : (g₁.rule r).numInputsReady = (g₁.rule r).inputs.length := by
    have hrdy := hlive.found_ready r hfound
    rw [Rule.ready, decide_eq_true_eq, Graph.inputs_of_links hlive.links] at hrdy
    rw [hrule₁, hrdy, Graph.inputs_of_links hlinks₁]
  have hout₁ : (g₁.rule r).outputs = (s.graph.rule r).outputs := by
    rw [Graph.outputs_of_links hlinks₁, Graph.outputs_of_links hlive.links]
  have hoGraph : o ∈ (g.rule r).outputs := by
    rw [← Graph.outputs_of_links hlive.links]
    exact List.mem_of_mem_head? ho
  have hpath₁ : (g₁.node o).path = (g.node o).path := Graph.path_of_links hlinks₁ o
  have hnodes₁ : g₁.nodes = g.nodes := congrArg Links.nodes hlinks₁
  have hdep₁ : (g₁.rule r).hasDepfile = true := by
    rw [Graph.hasDepfile_of_links hlinks₁, ← Graph.hasDepfile_of_links hlive.links]
    exact hdep
  simp only [waitForNext, hhead, reap, hg₁, hstatus, ne_eq, not_true_eq_false, if_false,
    loadDepfile, hdep₁, if_true, Lib.bind_eq_ok] at hwait
  obtain ⟨⟨loaded, g₃, w₃⟩, ⟨⟨loaded', g₂⟩, hload, hrehash⟩, hwait⟩ := hwait
  have hload' : Depfile.load selfNaming s.world g₁ r s.world = .ok (loaded', g₂) := by
    have hne : s.world ≠ "" := by simp [hworld]
    simpa [Depfile.loadFromfile, selfNaming, hne] using hload
  obtain ⟨rfl, hself⟩ := Depfile.load_self (o := o) (hlinks₁ ▸ hL) (hlinks₁ ▸ hac)
    (by rw [Graph.rules_of_links hlinks₁]; exact hr) hready₁ hcount₁ (by rw [hout₁]; exact ho)
    (by rw [hnodes₁, hpath₁]; exact hlookup r hr o hoGraph)
    (by rw [hworld, hpath₁]; exact parseDepfile_selfNaming _) hload'
  simp only [if_true, Lib.bind_eq_ok, Lib.except_pure, Except.ok.injEq, Prod.mk.injEq] at hrehash
  obtain ⟨⟨g₄, w₄⟩, hrec, rfl, rfl, rfl⟩ := hrehash
  obtain ⟨hl₄, hm₄⟩ := Hash.recomputeRuleHash_frame (noRestore_selfNaming g₂.links)
    (fun g w n g' w' hg hn ↦ by
      obtain ⟨⟨ch, g'', w''⟩, hnode, hpure⟩ := Lib.bind_eq_ok.mp hn
      simp only [Except.ok.injEq, Prod.mk.injEq] at hpure
      obtain ⟨rfl, rfl⟩ := hpure
      exact Hash.recomputeNodeHash_frame (noRestore_selfNaming g₂.links) hg hnode) rfl hrec
  simp only [Bool.not_true, Bool.false_eq_true, if_false, Lib.bind_eq_ok, Lib.except_pure,
    Except.ok.injEq, Prod.mk.injEq, onRuleFinished] at hwait
  obtain ⟨w₅, -, s₅, ⟨g₅, hfinish, p₅, -, rfl⟩, -, -, rfl⟩ := hwait
  exact hself.not_exact (hlinks₁ ▸ hL) (hlinks₁ ▸ hac)
    (by rw [Graph.rules_of_links hlinks₁]; exact hr) hready₁
    (by rw [hout₁]; exact List.mem_of_mem_head? ho) hl₄ hm₄ hfinish

/-- Some continuation of the build fails or spoils a counter. -/
def Violates (s : Builder String) : Prop :=
  ∃ cs, (∃ f, run selfNaming cs s = .error f) ∨
    ∃ evs s', run selfNaming cs s = .ok (evs, s') ∧ ¬ s'.graph.Exact

theorem Violates.of_step (h : ∀ evs s', step selfNaming s c = .ok (evs, s') → Violates s') :
    Violates s := by
  cases hstep : step selfNaming s c with
  | error f => exact ⟨[c], Or.inl ⟨f, by simp [run, hstep]⟩⟩
  | ok v =>
      obtain ⟨evs, s'⟩ := v
      obtain ⟨cs, ⟨f, hf⟩ | ⟨evs', s'', hrun, hbad⟩⟩ := h evs s' hstep
      · exact ⟨c :: cs, Or.inl ⟨f, by simp [run, hstep, hf]⟩⟩
      · exact ⟨c :: cs, Or.inr ⟨evs ++ evs', s'', by simp [run, hstep, hrun], hbad⟩⟩

/-- The next step of the builder waits for a command. -/
def Reaping (s : Builder String) : Prop :=
  s.running ≠ [] ∧ (s.phase = .flush ∨
    s.phase = .spawn ∧ (s.plan.hasWork = false ∨ s.numThreads ≤ s.running.length))

/-- Without a cache, a rule with a command is built by reaping it. -/
theorem Act.builtRules (hload : s.NoLoad c) (ha : Act selfNaming s c evs' s') :
    ∀ q ∈ BuildEvent.builtRules evs',
      (s.graph.rule q).isPhony = true ∨ (s.graph.rule q).hasDepfile = false := by
  cases ha with
  | phony _ _ _ hphony =>
      intro q hq
      obtain rfl : q = _ := by simpa using hq
      exact Or.inl hphony
  | restored _ _ _ _ hrestore => cases hrestore
  | reaped _ _ hwait =>
      obtain ⟨r, rest, -, -, hr⟩ := Reaped.of_waitForNext hload hwait
      cases hr with
      | failed => simp
      | built _ hdep =>
          intro q hq
          obtain rfl : q = r := by simpa using hq
          exact Or.inr hdep
  | flushed _ hwait =>
      obtain ⟨r, rest, -, -, hr⟩ := Reaped.of_waitForNext hload hwait
      cases hr with
      | failed => simp
      | built _ hdep =>
          intro q hq
          obtain rfl : q = r := by simpa using hq
          exact Or.inr hdep
  | enter => simp
  | leave => simp
  | spawned => simp
  | idle => simp
  | finish => simp
  | stay => simp

include hL in
/-- A step without an interruption, in which the command that is reaped succeeds. -/
theorem quiet_of_succeeded (hplan : Planned g p) (hlive : Live g p evs s)
    (hint : s.interrupted = false) (hci : c.interrupt = false) (hload : s.NoLoad c)
    (hreap : Reaping s → c.status = .succeeded) (ha : Act selfNaming (s.perturb c) c evs' s') :
    failedRules evs' = [] ∧ s'.interrupted = false ∧ s'.numThreads = s.numThreads := by
  have hint' : (s.perturb c).interrupted = false := by simp [perturb, hint, hci]
  have hload' : (s.perturb c).NoLoad c := hload
  rcases (hlive.perturb c).control_cases hL (hplan.mem_rules hL) (fun _ ↦ hload') ha with
    ⟨q, -, -, hfailed, -, -, hsame, hnum, -⟩ |
    ⟨res, -, hres, hok, hsame, hnum, hlen, hcase⟩ | ⟨rfl, phase, rfl, -⟩
  · exact ⟨hfailed, hsame.trans hint', hnum⟩
  · refine ⟨hres.mp (hok (hreap ⟨?_, ?_⟩)), hsame.trans hint', hnum⟩
    · intro hnil
      have hnil' : (s.perturb c).running.length = 0 := by simp [perturb, hnil]
      omega
    · rcases hcase with ⟨hspawn, hwork, -⟩ | ⟨hflush, -⟩
      · exact Or.inr ⟨hspawn, hwork⟩
      · exact Or.inl hflush
  · exact ⟨rfl, hint', rfl⟩

include hL hac hlookup in
/-- The depfile of the command that is reaped next can name its own output. -/
theorem violates_of_reaping (hplan : Planned g p) (hlive : Live g p evs s)
    (hexact : s.graph.Exact) (hreap : Reaping s) {rest : List RuleId} (hrun : s.running = r :: rest)
    (hdep : (s.graph.rule r).hasDepfile = true) : Violates s := by
  have hhead : s.running[0 % s.running.length]? = some r := by simp [hrun]
  have hr : r ∈ p.rules := hlive.found_planned r (hlive.mem_found_of_hand (by simp [hrun]))
  obtain ⟨n, hn, -⟩ := hplan.output r hr
  have hout : (s.graph.rule r).outputs ≠ [] := by
    rw [Graph.outputs_of_links hlive.links]
    exact List.ne_nil_of_mem ((hL.child_eq_some n r).mp hn).2
  obtain ⟨o, tail, ho⟩ := List.exists_cons_of_ne_nil hout
  let c : Choice String := ⟨fun _ ↦ "x" ++ (g.node o).path, false, 0, .succeeded⟩
  apply Violates.of_step (c := c)
  intro evs' s' hstep
  obtain ⟨res, s₁, hwait, hgraph⟩ :=
    Act.wait_of_reaps (s := s.perturb c) hreap.2 hreap.1 (.of_step hstep)
  have hfirst : ((s.perturb c).graph.rule r).outputs.head? = some o := by
    change (s.graph.rule r).outputs.head? = some o
    rw [ho]
    rfl
  refine ⟨[], Or.inr ⟨[], s', rfl, ?_⟩⟩
  rw [hgraph]
  exact not_exact_of_reap (c := c) hL hac hlookup hplan (hlive.perturb c) hexact hhead hdep rfl
    hfirst rfl hwait

include hL hac hlookup in
/-- A build that reaps a rule with a depfile sooner or later can go wrong. -/
theorem violates_of_depfile (hplan : Planned g p) (hr : r ∈ p.rules)
    (hphony : (g.rule r).isPhony = false) (hdep : (g.rule r).hasDepfile = true) (k : ℕ)
    (hk : s.remaining ≤ k) (hlive : Live g p evs s) (hc : Controlled evs s)
    (hthreads : 1 ≤ s.numThreads) (hnone : failedRules evs = []) (hint : s.interrupted = false)
    (hbuilt : ∀ q ∈ builtRules evs,
      (g.rule q).isPhony = true ∨ (g.rule q).hasDepfile = false) : Violates s := by
  have hrules := hplan.mem_rules hL
  induction k generalizing s evs with
  | zero =>
      have hfin : s.phase = .finished := by
        have hzero : s.remaining = 0 := by omega
        unfold remaining at hzero
        split at hzero
        · assumption
        all_goals omega
      have hmem := hc.built_of_finished hlive hnone hint hfin hr
      rcases hbuilt r hmem with hp | hd <;> simp_all
  | succ k ih =>
      by_cases hexact : s.graph.Exact
      swap
      · exact ⟨[], Or.inr ⟨[], s, rfl, hexact⟩⟩
      by_cases hfin : s.phase = .finished
      · have hmem := hc.built_of_finished hlive hnone hint hfin hr
        rcases hbuilt r hmem with hp | hd <;> simp_all
      have hadvance : ∀ c : Choice String, c.interrupt = false → s.NoLoad c →
          (Reaping s → c.status = .succeeded) → Violates s := by
        intro c hci hload hreap
        apply Violates.of_step (c := c)
        intro evs' s' hstep
        have ha := Act.of_step hstep
        have hload' : (s.perturb c).NoLoad c := hload
        have hlt := remaining_lt hL hac hplan (hc.perturb c) (hlive.perturb c) hthreads hload' ha
          hfin
        obtain ⟨hfailed, hint₁, hnum⟩ :=
          quiet_of_succeeded hL hplan hlive hint hci hload hreap ha
        have hlt' : s'.remaining < s.remaining := hlt
        have hlive' : Live g p (evs ++ evs') s' := hlive.step hL hrules hload hstep
        refine ih (by omega) hlive'
          ((hc.perturb c).act hL hrules (fun _ ↦ hload') (hlive.perturb c) ha) (by omega)
          (by rw [failedRules_append, hnone, hfailed]; rfl) hint₁ ?_
        intro q hq
        rw [builtRules_append, List.mem_append] at hq
        rcases hq with hq | hq
        · exact hbuilt q hq
        · rw [← Graph.isPhony_of_links hlive.links, ← Graph.hasDepfile_of_links hlive.links]
          exact Act.builtRules hload' ha q hq
      by_cases hreap : Reaping s
      swap
      · exact hadvance ⟨id, false, 0, .failed⟩ rfl (fun h ↦ by cases h) fun h ↦ absurd h hreap
      obtain ⟨q, rest, hrun⟩ := List.exists_cons_of_ne_nil hreap.1
      have hhead : s.running[0 % s.running.length]? = some q := by simp [hrun]
      cases hq : (s.graph.rule q).hasDepfile with
      | false =>
          refine hadvance ⟨id, false, 0, .succeeded⟩ rfl (fun _ x hx ↦ ?_) fun _ ↦ rfl
          rw [hhead] at hx
          exact Option.some.inj hx ▸ hq
      | true => exact violates_of_reaping hL hac hlookup hplan hlive hexact hreap hrun hq

end Depfile

/-- The condition is exact. -/
theorem keepsCounters_iff_unshared (hL : g.links.TwoWay) (hac : g.links.Acyclic)
    (hexact : g.Exact) (hdirty : g.DirtyHasDirtyRule)
    (hlookup : ∀ r ∈ g.rules, ∀ o ∈ (g.rule r).outputs,
      g.nodes.lookup (g.node o).path = some o) : KeepsCounters g T ↔ Unshared g T := by
  refine ⟨fun hkeeps ↦ ?_, keepsCounters_of_unshared hL hac hexact hdirty⟩
  have hdep : ∀ r, g.Needed T r → (g.rule r).isPhony = false →
      (g.rule r).hasDepfile = false := by
    intro r hr hphony
    by_contra hload
    obtain ⟨p, hcreate, hrun⟩ := hkeeps
    obtain ⟨p', hcreate', hrules, hready, hstarted⟩ := BuildPlan.create_spec hL hac hexact hdirty T
    obtain rfl : p' = p := Except.ok.inj (hcreate'.symm.trans hcreate)
    have hplan := planned_of_needed hrules hready hstarted
    obtain ⟨cs, ⟨f, hf⟩ | ⟨evs, s, hok, hbad⟩⟩ := violates_of_depfile hL hac hlookup hplan
      ((hrules r).mpr hr) hphony (by simpa using hload) _ le_rfl (live_create hexact hplan "" 1)
      (controlled_create g p' "" 1) le_rfl rfl rfl (by simp)
    · exact not_cacheFault_selfNaming f ((hrun String selfNaming "" 1 cs le_rfl).1 f hf)
    · exact hbad ((hrun String selfNaming "" 1 cs le_rfl).2 evs s hok).1
  intro r hr
  refine ⟨?_, fun o ho ↦ ?_⟩
  · cases hphony : (g.rule r).isPhony with
    | true => exact Or.inl rfl
    | false => exact Or.inr (hdep r hr hphony)
  · by_contra hno
    push Not at hno
    exact not_keepsCounters_of_shared hL hac hexact hdirty hdep hr ho (by simpa using hno.1) hno.2
      hkeeps

end Builder

theorem keepsCounters_iff_of_fetched {g g' : Graph} {T : Finset NodeId} (hg : g.Consistent)
    (h : g.Fetched g') : Builder.KeepsCounters g' T ↔ Builder.Unshared g' T := by
  have hlinks := h.links
  refine Builder.keepsCounters_iff_unshared (hlinks ▸ hg.twoWay) (hlinks ▸ hg.acyclic) h.exact
    (h.dirtyHasDirtyRule hg.dirty_node) ?_
  intro r hr o ho
  rw [Graph.rules_of_links hlinks] at hr
  rw [Graph.outputs_of_links hlinks] at ho
  have hnodes : g'.nodes = g.nodes := congrArg Links.nodes hlinks
  rw [hnodes, Graph.path_of_links hlinks]
  exact hg.lookup o (hg.allocated r hr o (Or.inr ho))

/-- After a lazy fetch from a consistent graph, the counters stay exact in every
build of the same targets just when no rule it runs shares a fetched output. -/
theorem keepsCounters_after_fetch {ω : Type} {P : Platform ω} {w w' : ω} {g g' : Graph}
    {T : Finset NodeId} (hg : g.Consistent) (hfetch : LazyCache.fetch P g w T = .ok (g', w')) :
    Builder.KeepsCounters g' T ↔ Builder.Unshared g' T :=
  keepsCounters_iff_of_fetched hg (LazyCache.fetch_fetched hg.twoWay hg.exact hfetch)

/-! ## A rule with two outputs -/

/-- The makefile of a parser: `parse.y -> parse.c, parse.h` and
`parse.c -> parse.o`, with everything to be built. -/
def parserGraph : Graph where
  node
    | 0 => { Node.create "parse.y" true false with
        parentRules := [0], hash := "h0", hashDepfile := "d0" }
    | 1 => { Node.create "parse.c" true false with
        childRule := some 0, parentRules := [1], state := .outOfDate, hash := "h1",
        hashDepfile := "d1" }
    | 2 => { Node.create "parse.h" true false with
        childRule := some 0, state := .outOfDate, hash := "h2", hashDepfile := "d2" }
    | 3 => { Node.create "parse.o" true false with
        childRule := some 1, state := .outOfDate, hash := "h3", hashDepfile := "d3" }
    | _ => Node.create "" true false
  rule
    | 0 => { Rule.create [0] [1, 2] with
        command := "yacc -d parse.y", state := .outOfDate, numInputsReady := 1, hash := "r0",
        hashDepfile := "e0" }
    | 1 => { Rule.create [1] [3] with
        command := "cc -c parse.c", state := .outOfDate, hash := "r1", hashDepfile := "e1" }
    | _ => Rule.create [] []
  roots := {2, 3}
  sources := {0}
  nodes := [("parse.y", 0), ("parse.c", 1), ("parse.h", 2), ("parse.o", 3)]
  rules := [0, 1]
  allocated := {0, 1, 2, 3}

theorem parserGraph_rules {r : RuleId} (hr : r ∈ parserGraph.rules) : r = 0 ∨ r = 1 := by
  simpa [parserGraph] using hr

theorem parserGraph_allocated {n : NodeId} (hn : n ∈ parserGraph.allocated) :
    n = 0 ∨ n = 1 ∨ n = 2 ∨ n = 3 := by
  simpa [parserGraph] using hn

theorem twoWay_parserGraph : parserGraph.links.TwoWay :=
  @Links.twoWay_of_bounded _ 4 (fun _ ↦ ⟨rfl, rfl⟩) (by decide) (by decide)

theorem acyclic_parserGraph : parserGraph.links.Acyclic :=
  twoWay_parserGraph.acyclic_of_rank id (by decide)

theorem consistent_parserGraph : parserGraph.Consistent where
  twoWay := twoWay_parserGraph
  acyclic := acyclic_parserGraph
  allocated := by
    intro r hr n hn
    rcases parserGraph_rules hr with rfl | rfl <;>
      simp [parserGraph, Rule.create] at hn ⊢ <;> tauto
  lookup := by
    intro n hn
    rcases parserGraph_allocated hn with rfl | rfl | rfl | rfl <;> decide
  nodes := by decide
  roots := by
    rintro (_ | _ | _ | _ | n) <;> simp [parserGraph, Node.create]
  sources := by
    rintro (_ | _ | _ | _ | n) <;> simp [parserGraph, Node.create]
  output := by
    intro r hr
    rcases parserGraph_rules hr with rfl | rfl <;> decide
  phony_output := by
    intro r hr
    rcases parserGraph_rules hr with rfl | rfl <;> decide
  node_hash := by
    intro n hn
    rcases parserGraph_allocated hn with rfl | rfl | rfl | rfl <;> decide
  rule_hash := by
    intro r hr
    rcases parserGraph_rules hr with rfl | rfl <;> decide
  dirty_node := by
    rintro (_ | _ | _ | _ | n) r hr <;>
      simp [parserGraph, Node.create] at hr <;> subst hr <;> decide
  dirty_rule := by
    intro r hr
    rcases parserGraph_rules hr with rfl | rfl <;> decide
  dirty_input := by
    intro r hr
    rcases parserGraph_rules hr with rfl | rfl <;> decide
  exact := by
    intro r hr
    rcases parserGraph_rules hr with rfl | rfl <;> decide

/-- A cache that holds `parse.c` only. -/
def parserCache : Platform Unit :=
  { emptyPlatform with restoreNode := fun g n w ↦ .ok ((g.node n).hash = "h1", w) }

/-- The graph once `parse.c` has been fetched. -/
def parserFetched : Graph :=
  (parserGraph.setNode 1 { parserGraph.node 1 with
    state := .upToDate, isLazyFetched := true }).setRule 1 { parserGraph.rule 1 with
      numInputsReady := 1 }

theorem fetch_parserGraph :
    LazyCache.fetch parserCache parserGraph () {2, 3} = .ok (parserFetched, ()) := by
  have hsort : ({2, 3} : Finset NodeId).sort (· ≤ ·) = [2, 3] := by
    rw [Finset.sort_insert] <;> simp
  rw [LazyCache.fetch, hsort]
  rfl

theorem fetch_parserGraph_object :
    LazyCache.fetch parserCache parserGraph () {3} = .ok (parserFetched, ()) := by
  rw [LazyCache.fetch, Finset.sort_singleton]
  rfl

/-- Building `parse.o` from the fetched `parse.c` does not run `yacc`. -/
theorem keepsCounters_parse_object : Builder.KeepsCounters parserFetched {3} := by
  refine (keepsCounters_after_fetch consistent_parserGraph fetch_parserGraph_object).mpr ?_
  have hneeded : ∀ r, parserFetched.Needed {3} r → r = 1 := by
    intro r hr
    induction hr with
    | target ht _ hchild =>
        rw [Finset.mem_singleton.mp ht] at hchild
        exact (Option.some.inj hchild).symm
    | input _ hready _ _ _ ih =>
        rw [ih] at hready
        cases hready
  intro r hr
  rw [hneeded r hr]
  decide

/-- `parse.h` was not in the cache, so `yacc` runs and reports `parse.c` again. -/
theorem not_keepsCounters_of_fetched_source :
    parserGraph.Consistent ∧
      LazyCache.fetch parserCache parserGraph () {2, 3} = .ok (parserFetched, ()) ∧
      ¬ Builder.KeepsCounters parserFetched {2, 3} := by
  have hfetched := LazyCache.fetch_fetched twoWay_parserGraph consistent_parserGraph.exact
    fetch_parserGraph
  refine ⟨consistent_parserGraph, fetch_parserGraph, fun hkeeps ↦ ?_⟩
  have hunshared := (keepsCounters_iff_of_fetched consistent_parserGraph hfetched).mp hkeeps
  have hneeded : parserFetched.Needed {2, 3} 0 := .target (t := 2) (by simp) rfl rfl
  have hshared := (hunshared 0 hneeded).2 1 (by decide)
  revert hshared
  decide

end Falcon
