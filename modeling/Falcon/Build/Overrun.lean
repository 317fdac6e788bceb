import Falcon.Build.Impending
import Falcon.Graph.Consistent

/-!
# Builds that report a clean output

From a graph in which a clean output may come to be used before its rule has
been built, there is a build that reports this output once too often.
-/

namespace Falcon

open BuildEvent Relation

namespace Builder

variable {ω : Type} {g₀ b k : Graph} {p₀ p : BuildPlan} {q r : RuleId} {o : NodeId}
  {s s' : Builder Unit} {c : Choice Unit} {evs evs' : List BuildEvent}

/-! ## The depfile of `q` -/

section Exposed

variable (he : Exposed g₀ q r o) (hplan : Planned g₀ p₀) {rest : List RuleId} {g : Graph}
  (hhand : Ongoing g₀ p₀ (foundRules evs) (builtRules evs) (failedRules evs) (q :: rest) g p)
include he hhand

/-- The hashes are those with which the build started. -/
theorem Exposed.hashed_of_ongoing :
    g.Hashed ∧ (g.node o).hash ≠ "" ∧ (g.node o).hashDepfile ≠ "" := by
  have hhash : ∀ n, (g.node n).hash = (g₀.node n).hash ∧
      (g.node n).hashDepfile = (g₀.node n).hashDepfile := fun n ↦
    ⟨congrFun (congrArg Hashes.nodeHash hhand.hashes) n,
      congrFun (congrArg Hashes.nodeHashDepfile hhand.hashes) n⟩
  refine ⟨he.hashed.congr hhand.links (fun n hn ↦ ?_) fun j hj ↦ ?_, ?_⟩
  · rw [(hhash n).1, (hhash n).2]
    exact hn
  · have hrule : (g.rule j).hash = (g₀.rule j).hash :=
      congrFun (congrArg Hashes.ruleHash hhand.hashes) j
    rw [hrule]
    exact hj
  · rw [(hhash o).1, (hhash o).2]
    exact he.hash

theorem Exposed.ready_of_ongoing : g.inputReady o = true := by
  have hclean : (g.node o).isDirty = false := by
    rw [← Bool.not_eq_true, hhand.node o r he.output, he.clean]
    simp
  simp [Graph.inputReady, hclean]

include hplan

/-- The depfile of `q` names `o`, and `q` gets it for an input. -/
theorem Exposed.loadDepfile {w : Unit}
    (hcounted : (g.rule q).numInputsReady = g.nbReady q) :
    ∃ k, loadDepfile (exposingPlatform g₀ q r o) g w q = .ok (true, k, w) ∧ g.Exposes q o k := by
  have hL := he.joined.twoWay
  have hl := hhand.links
  have hplanned := hhand.found_planned q (hhand.mem_found_of_hand List.mem_cons_self)
  have hq := hplan.mem_rules hL q hplanned
  obtain ⟨m, hm, -⟩ := hplan.output q hplanned
  obtain ⟨first, hfirst⟩ : ∃ first, (g₀.rule q).outputs.head? = some first :=
    ⟨_, List.head?_eq_some_head (List.ne_nil_of_mem ((hL.child_eq_some m q).mp hm).2)⟩
  have hnames : Depfile.Names (exposingPlatform g₀ q r o) g q "depfile" [(g₀.node o).path] := by
    refine ⟨first, by rw [Graph.outputs_of_links hl, hfirst], ?_⟩
    rw [Graph.path_of_links hl]
    simp [exposingPlatform, hfirst]
  have hallocated : o ∈ g.allocated := by
    have hout := (hL.child_eq_some o r).mp he.output
    rw [Graph.allocated_of_links hl]
    exact he.joined.allocated r hout.1 o (Or.inr hout.2)
  have hlookup : g.nodes.lookup (g₀.node o).path = some o := by
    have hnodes : g.nodes = g₀.nodes := congrArg Links.nodes hl
    rw [hnodes]
    exact he.lookup
  obtain ⟨hhashed, hhash⟩ := he.hashed_of_ongoing hhand
  exact loadDepfile_exposes (fun _ ↦ rfl) (show "00" ≠ "" by decide) (fun _ _ _ ↦ rfl)
    (he.joined.of_links hl) hhashed ⟨hallocated, hhash⟩ (Graph.rules_of_links hl ▸ hq)
    ((Graph.hasDepfile_of_links hl q).trans he.depfile) rfl (show "depfile" ≠ "" by decide)
    hcounted hnames hlookup (he.ready_of_ongoing hhand)

/-- The build goes on as if `q` had used `o` from the beginning. -/
theorem Exposed.ongoing (hcounted : (g.rule q).numInputsReady = g.nbReady q)
    (hunbuilt : r ∉ builtRules evs) (hk : g.Exposes q o k) :
    Ongoing (g₀.restated k) p₀ (foundRules evs) (builtRules evs) (failedRules evs) (q :: rest) k
        p ∧
      ∀ x ∈ (k.rule q).inputs, k.inputReady x = true := by
  have hL := he.joined.twoWay
  have hrules := hplan.mem_rules hL
  have hq := hhand.mem_found_of_hand List.mem_cons_self
  have hfull : ∀ x ∈ (k.rule q).inputs, k.inputReady x = true := by
    intro x hx
    rw [hk.ready]
    rcases hk.inputs x hx with hin | rfl
    · have hcount := hhand.found_ready q hq
      rw [Rule.ready, decide_eq_true_eq, hcounted] at hcount
      exact List.countP_eq_length.mp hcount x hin
    · exact he.ready_of_ongoing hhand
  refine ⟨hhand.expose hL hrules hk hfull fun j hj x hx hout ↦ ?_, hfull⟩
  have hplanned := hhand.found_planned j (hhand.mem_found.mpr (Or.inl hj))
  rcases hk.inputs x hx with hin | rfl
  · rw [Graph.inputs_of_links hhand.links] at hin
    exact he.dirty_of_used hplan hplanned (hrules q (hhand.found_planned q hq)) hin hout
  · have hchild := (hL.child_eq_some x j).mpr ⟨hrules j hplanned, hout⟩
    obtain rfl : j = r := Option.some.inj (hchild.symm.trans he.output)
    exact absurd hj hunbuilt

end Exposed

/-- Loading a depfile and saving the rule, and then reporting its outputs. -/
theorem waitForNext_of_load {P : Platform ω} {s : Builder ω} {c : Choice ω} {g k : Graph}
    (hget : s.running[c.next % s.running.length]? = some q) (hstatus : c.status = .succeeded)
    (hg : s.graph.updateRule q (·.setTimestamp (P.now s.world)) = g)
    (hload : loadDepfile P g s.world q = .ok (true, k, s.world))
    (hsave : P.saveRule k q s.world = .ok s.world) :
    waitForNext P s c = ({ s with
      running := s.running.eraseIdx (c.next % s.running.length)
      graph := k }.onRuleFinished q >>= fun t ↦ pure (.succeeded, [.built q], t)) := by
  subst hg
  rw [waitForNext, hget]
  simp only [reap, hstatus, ne_eq, not_true_eq_false, if_false]
  rw [hload]
  simp only [Lib.except_ok_bind, Bool.not_true, Bool.false_eq_true, if_false, hsave]

/-- The command of `q` has ended.  Its depfile names `o`, and `q` is finished
with `o` for an input. -/
theorem waitForNext_exposes (he : Exposed g₀ q r o) (hplan : Planned g₀ p₀)
    (h : Impending g₀ p₀ q r o g₀ evs s)
    (hget : s.running[c.next % s.running.length]? = some q) (hstatus : c.status = .succeeded) :
    waitForNext (exposingPlatform g₀ q r o) s c = .error (.assertion .inputReadyBound) ∨
      ∃ b g p, waitForNext (exposingPlatform g₀ q r o) s c = .ok (.succeeded, [.built q], { s with
          running := s.running.eraseIdx (c.next % s.running.length), graph := g, plan := p }) ∧
        Base g₀ p₀ q r b ∧ o ∈ (b.rule q).inputs ∧
        (∀ x ∈ (b.rule q).inputs, g.inputReady x = true) ∧
        Live b p₀ (evs ++ [.built q]) { s with
          running := s.running.eraseIdx (c.next % s.running.length), graph := g, plan := p } := by
  have hL := he.joined.twoWay
  have hrules := hplan.mem_rules hL
  generalize hg : s.graph.updateRule q
    (·.setTimestamp ((exposingPlatform g₀ q r o).now s.world)) = g
  have hhand : Ongoing g₀ p₀ (foundRules evs) (builtRules evs) (failedRules evs)
      (q :: s.running.eraseIdx (c.next % s.running.length)) g s.plan := by
    rw [← hg]
    exact (h.live.toOngoing.perm (perm_eraseIdx hget)).touch_setTimestamp q _
  have hq : q ∈ g.rules := by
    rw [Graph.rules_of_links hhand.links]
    exact hrules q (hhand.found_planned q (hhand.mem_found_of_hand List.mem_cons_self))
  have hcounted := h.exact_of_ongoing hhand q hq
  obtain ⟨k, hload, hk⟩ := he.loadDepfile hplan hhand hcounted
  obtain ⟨hongoing, hfull⟩ := he.ongoing hplan hhand hcounted h.unbuilt hk
  have hbase : Base g₀ p₀ q r (g₀.restated k) := he.base_restated hplan hhand.links hk
  have hrun := waitForNext_of_load hget hstatus hg hload rfl
  rcases onRuleFinished_spec (s := { s with
      running := s.running.eraseIdx (c.next % s.running.length)
      graph := k }) hbase.twoWay (fun j hj ↦ hbase.rules ▸ hrules j hj) hongoing with
    ⟨g', p', hok, hclean, hnext⟩ | ⟨herr, -⟩
  · refine Or.inr ⟨g₀.restated k, g', p', by rw [hrun, hok]; rfl, hbase, hk.mem, fun x hx ↦ ?_, ?_⟩
    · exact (hclean.inputReady_iff x).mpr (Or.inl (hfull x hx))
    · refine ⟨by simpa using hnext, fun j hj ↦ ?_⟩
      rw [(hbase.rule j).1]
      exact h.live.command j (List.mem_of_mem_eraseIdx hj)
  · exact Or.inl (by rw [hrun, herr]; rfl)

/-! ## The run -/

/-- A step that waits does what `waitForNext` does. -/
theorem step_of_reaps {P : Platform ω} {s : Builder ω} {c : Choice ω}
    (hreaps : (s.perturb c).Reaps) (hrun : s.running ≠ []) :
    step P s c = waitForNext P (s.perturb c) c >>= fun x ↦
      pure (x.2.1, if s.phase = .flush then
          { x.2.2 with result := if x.2.2.result = .succeeded then x.1 else x.2.2.result }
        else { x.2.2 with result := x.1, phase := .main }) := by
  have hpos : 0 < (s.perturb c).running.length := List.length_pos_of_ne_nil hrun
  have hphase : (s.perturb c).phase = s.phase := rfl
  simp only [step]
  rcases hreaps with hflush | ⟨hspawn, hwork⟩
  · rw [← hphase, hflush]
    simp only [hpos, if_true]
  · have hno : ((s.perturb c).plan.hasWork &&
        decide ((s.perturb c).running.length < (s.perturb c).numThreads)) = false := by
      rcases hwork with hwork | hfull
      · rw [hwork, Bool.false_and]
      · rw [decide_eq_false (Nat.not_lt.mpr hfull), Bool.and_false]
    rw [← hphase, hspawn]
    simp only [hno, hpos, Bool.false_eq_true, if_false, if_true, reduceCtorEq]

theorem Impending.not_finished (h : Impending g₀ p₀ q r o b evs s) (hr : r ∈ p₀.rules) :
    s.phase ≠ .finished := by
  intro hfinished
  have hfound : r ∈ foundRules evs := by
    rcases h.controlled.stopped (Or.inr hfinished) with hres | hdone | hint
    · exact absurd (h.controlled.result_iff.mpr h.failed) hres
    · exact h.live.found_of_done hdone hr
    · rw [h.interrupted] at hint
      cases hint
  have hrun := (h.built_or_running hfound).resolve_left h.unbuilt
  rw [h.controlled.drained hfinished] at hrun
  cases hrun

section Exposed

variable (he : Exposed g₀ q r o) (hplan : Planned g₀ p₀) (hr : r ∈ p₀.rules)
include he hplan hr

/-- A rule is started, or the phase changes. -/
theorem Impending.act (h : Impending g₀ p₀ q r o b evs s) (hnot : ¬ s.Reaps)
    (ha : Act (exposingPlatform g₀ q r o) s c evs' s') :
    Impending g₀ p₀ q r o b (evs ++ evs') s' ∧ s'.remaining < s.remaining := by
  have hrules : ∀ j ∈ p₀.rules, j ∈ b.rules := fun j hj ↦
    h.base.rules ▸ hplan.mem_rules he.joined.twoWay j hj
  have hload : s.Reaps → s.NoLoad c := fun hreaps ↦ absurd hreaps hnot
  have hlive : Live b p₀ (evs ++ evs') s' :=
    h.live.act_of_reaps h.base.twoWay hrules hload ha
  have hcontrolled : Controlled (evs ++ evs') s' :=
    h.controlled.act h.base.twoWay hrules hload h.live ha
  have hphony : ∀ j, (s.graph.rule j).isPhony = (g₀.rule j).isPhony := fun j ↦
    (Graph.isPhony_of_links h.live.links j).trans (h.base.rule j).1
  refine ⟨?_, remaining_lt_of_idle h.base.twoWay hrules h.live hload
    (fun hspawn hwork ↦ absurd (Or.inr ⟨hspawn, hwork⟩) hnot) ha (h.not_finished hr)⟩
  -- what a rule that is not `q` or `r` leaves alone
  have hother : ∀ {j}, evs' = [.found j, .built j] → j ≠ q → j ≠ r →
      s'.interrupted = s.interrupted → s'.numThreads = s.numThreads → s'.running = s.running →
      Impending g₀ p₀ q r o b (evs ++ evs') s' := by
    rintro j rfl hjq hjr hint hthreads hrunning
    refine ⟨h.base, hlive, hcontrolled, by simp [h.failed], hint.trans h.interrupted,
      hthreads.trans h.threads, fun i hi ↦ h.running i (hrunning ▸ hi), ?_, ?_⟩
    · simp [h.unbuilt, hjr.symm]
    · refine h.turn.imp (fun hturn ↦ ⟨hturn.1, by simp [hturn.2, hjq.symm]⟩) fun hturn ↦ ?_
      exact ⟨by simp [hturn.1], hturn.2.1, fun x hx ↦
        h.live.inputReady_mono hlive (hturn.2.2 x hx)⟩
  have hphase : ∀ phase, s' = { s with phase := phase } → evs' = [] →
      Impending g₀ p₀ q r o b (evs ++ evs') s' := by
    rintro phase rfl rfl
    rw [List.append_nil] at hlive hcontrolled ⊢
    exact { h with live := hlive, controlled := hcontrolled }
  cases ha with
  | enter => exact hphase .spawn rfl rfl
  | leave => exact hphase .flush rfl rfl
  | phony _ _ _ hp hfinish =>
      obtain ⟨g', p', rfl, -⟩ := onRuleFinished_keeps hfinish
      rw [hphony] at hp
      refine hother rfl ?_ ?_ rfl rfl rfl
      · rintro rfl
        rw [he.command.1] at hp
        cases hp
      · rintro rfl
        rw [he.command.2] at hp
        cases hp
  | @restored j _ _ _ _ _ _ _ hrestore hfinish =>
      obtain ⟨g', p', rfl, -⟩ := onRuleFinished_keeps hfinish
      have hne : j ≠ q ∧ j ≠ r := by
        simpa [exposingPlatform] using (Prod.mk.inj (Except.ok.inj hrestore)).1
      exact hother rfl hne.1 hne.2 rfl rfl rfl
  | @spawned j _ _ _ _ _ _ hrestore =>
      have hj : j = q ∨ j = r := by
        have hmiss := (Prod.mk.inj (Except.ok.inj hrestore)).1
        by_contra hno
        push Not at hno
        simp [hno] at hmiss
      refine ⟨h.base, hlive, hcontrolled, by simp [h.failed], h.interrupted, h.threads,
        fun i hi ↦ ?_, by simpa using h.unbuilt, ?_⟩
      · rcases List.mem_cons.mp hi with rfl | hi
        · exact hj
        · exact h.running i hi
      · refine h.turn.imp (fun hturn ↦ by simpa using hturn) fun hturn ↦ ?_
        exact ⟨by simpa using hturn.1, hturn.2.1, hturn.2.2⟩
  | reaped hspawn hwork => exact absurd (Or.inr ⟨hspawn, hwork⟩) hnot
  | idle hspawn hwork => exact absurd (Or.inr ⟨hspawn, hwork⟩) hnot
  | flushed hflush => exact absurd (Or.inl hflush) hnot
  | finish hflush => exact absurd (Or.inl hflush) hnot
  | stay hfinished => exact absurd hfinished (h.not_finished hr)

end Exposed

/-- `q` has been built. -/
theorem Impending.reaped (h : Impending g₀ p₀ q r o g₀ evs s)
    (hreaps : s.Reaps) {i : ℕ} (hi : i < s.running.length) {g : Graph} (hbase : Base g₀ p₀ q r b)
    (ho : o ∈ (b.rule q).inputs) (hfull : ∀ x ∈ (b.rule q).inputs, g.inputReady x = true)
    (hlive : Live b p₀ (evs ++ [.built q])
      { s with running := s.running.eraseIdx i, graph := g, plan := p })
    (hunbuilt : r ∉ builtRules (evs ++ [.built q])) :
    let t : Builder Unit := { s with running := s.running.eraseIdx i, graph := g, plan := p }
    let s' := if s.phase = .flush then
        { t with result := if t.result = .succeeded then .succeeded else t.result }
      else { t with result := .succeeded, phase := .main }
    Impending g₀ p₀ q r o b (evs ++ [.built q]) s' ∧ s'.remaining < s.remaining := by
  intro t s'
  have hresult : s.result = .succeeded := h.controlled.result_iff.mpr h.failed
  have hnone : failedRules (evs ++ [.built q]) = [] := by simp [h.failed]
  have hs' : s' = t ∧ s.phase = .flush ∨ s' = { t with phase := .main } ∧ s.phase = .spawn := by
    rcases hreaps with hflush | ⟨hspawn, -⟩
    · refine Or.inl ⟨?_, hflush⟩
      simp [s', t, hflush, hresult]
    · refine Or.inr ⟨?_, hspawn⟩
      simp [s', t, hspawn, hresult]
  have hlive' : Live b p₀ (evs ++ [.built q]) s' := by
    rcases hs' with ⟨heq, -⟩ | ⟨heq, -⟩
    · exact heq ▸ hlive
    · rw [heq]
      exact ⟨hlive.toOngoing, hlive.command⟩
  have hsame : s'.result = .succeeded ∧ s'.interrupted = s.interrupted ∧
      s'.numThreads = s.numThreads ∧ s'.running = s.running.eraseIdx i ∧ s'.graph = g := by
    rcases hs' with ⟨heq, -⟩ | ⟨heq, -⟩ <;> rw [heq] <;> exact ⟨hresult, rfl, rfl, rfl, rfl⟩
  obtain ⟨hresult', hint, hthreads, hrunning, hgraph⟩ := hsame
  have hcontrolled : Controlled (evs ++ [.built q]) s' := by
    refine ⟨by simp [hresult', hnone], fun _ ↦ hresult', fun hphase ↦ ?_, fun hphase ↦ ?_⟩
    · rcases hs' with ⟨heq, hflush⟩ | ⟨heq, -⟩
      · rcases h.controlled.stopped (Or.inl hflush) with hstop | hstop | hstop
        · exact absurd hresult hstop
        · refine Or.inr (Or.inl ?_)
          rw [hlive'.done_iff]
          rw [h.live.done_iff] at hstop
          simpa using hstop
        · exact Or.inr (Or.inr (hint.trans hstop))
      · rw [heq] at hphase
        simp at hphase
    · rcases hs' with ⟨heq, hflush⟩ | ⟨heq, -⟩
      · rw [heq] at hphase
        exact nomatch hflush.symm.trans hphase
      · rw [heq] at hphase
        cases hphase
  refine ⟨⟨hbase, hlive', hcontrolled, hnone, hint.trans h.interrupted, hthreads.trans h.threads,
    fun j hj ↦ h.running j ?_, hunbuilt, Or.inr ⟨by simp, ho, hgraph ▸ hfull⟩⟩, ?_⟩
  · rw [hrunning] at hj
    exact List.mem_of_mem_eraseIdx hj
  · have hlen : (s.running.eraseIdx i).length = s.running.length - 1 :=
      List.length_eraseIdx_of_lt hi
    have hsame : s'.plan.done = s.plan.done := by
      rw [Bool.eq_iff_iff, hlive'.done_iff, h.live.done_iff]
      simp
    simp only [remaining, hlive'.rules, h.live.rules, hlive'.numStarted, h.live.numStarted,
      hrunning, hlen, hsame]
    rcases hs' with ⟨heq, hflush⟩ | ⟨heq, hspawn⟩
    · have hphase : s'.phase = .flush := by rw [heq]; exact hflush
      simp [hphase, hflush]
      omega
    · have hphase : s'.phase = .main := by rw [heq]
      cases s.plan.done <;> simp [hphase, hspawn] <;> omega

/-- The scheduler can pick any command, and nobody else does anything. -/
theorem exists_quiet_choice (s : Builder Unit) (i : ℕ) :
    ∃ c : Choice Unit, c.next = i ∧ c.Quiet ∧ s.perturb c = s := by
  refine ⟨⟨id, false, i, .succeeded⟩, rfl, ⟨rfl, rfl⟩, ?_⟩
  rw [perturb, Bool.or_false]

theorem not_cacheFault_exposing (f : Fault) : ¬ CacheFault (exposingPlatform g₀ q r o) f := by
  rintro (⟨g, j, w, herr⟩ | ⟨g, j, w, herr⟩) <;> cases herr

section Exposed

variable (he : Exposed g₀ q r o) (hplan : Planned g₀ p₀) (hq : q ∈ p₀.rules) (hr : r ∈ p₀.rules)
include he hplan hq

/-- The only depfile that is loaded is the one of `q`. -/
theorem Impending.accepted (h : Impending g₀ p₀ q r o b evs s) :
    Accepted (exposingPlatform g₀ q r o) s c := by
  intro _ j hj k i content hloads _
  have hdepfile := hloads.hasDepfile
  have hrun := List.mem_of_getElem? hj
  have hl := s.graph.links_setTimestamp j
    ((exposingPlatform g₀ q r o).now (c.environment s.world))
  rw [Graph.hasDepfile_of_links hl, Graph.hasDepfile_of_links h.live.links,
    (h.base.rule j).2] at hdepfile
  obtain rfl : j = q := by
    rcases h.running j hrun with rfl | rfl
    · rfl
    · exact (he.single hdepfile).symm
  obtain rfl : b = g₀ := (h.turn.resolve_right fun hturn ↦ h.live.not_mem_built hrun hturn.1).1
  cases hloads with
  | own =>
      have hl' := hl.trans h.live.links
      obtain ⟨m, hm, -⟩ := hplan.output j hq
      obtain ⟨first, hfirst⟩ : ∃ first, (b.rule j).outputs.head? = some first :=
        ⟨_, List.head?_eq_some_head
          (List.ne_nil_of_mem ((he.joined.twoWay.child_eq_some m j).mp hm).2)⟩
      refine ⟨[(b.node o).path], first, by rw [Graph.outputs_of_links hl', hfirst], ?_⟩
      rw [Graph.path_of_links hl']
      simp [exposingPlatform, hfirst]
  | restored _ _ _ _ hrestore =>
      have hmiss := hrestore.restored
      cases (Prod.mk.inj (Except.ok.inj hmiss)).1

/-- The command of `r` ends, and `o` is reported to `q`, which has it already. -/
theorem Impending.overruns_of_built (h : Impending g₀ p₀ q r o b evs s) (hreaps : s.Reaps)
    (hrun : s.running ≠ []) (hbuilt : q ∈ builtRules evs) :
    Overruns (exposingPlatform g₀ q r o) s := by
  have hrules := hplan.mem_rules he.joined.twoWay
  have hrulesb : ∀ j ∈ p₀.rules, j ∈ b.rules := fun j hj ↦ h.base.rules ▸ hrules j hj
  obtain ⟨c, -, hquiet, hsame⟩ := exists_quiet_choice s 0
  have hall : ∀ j ∈ s.running, j = r := fun j hj ↦ (h.running j hj).resolve_left
    fun hjq ↦ h.live.not_mem_built (hjq ▸ hj) hbuilt
  have hload : s.NoLoad c := by
    intro _ j hj
    rw [Graph.hasDepfile_of_links h.live.links, (h.base.rule j).2,
      hall j (List.mem_of_getElem? hj), ← Bool.not_eq_true]
    exact fun hdep ↦ h.unbuilt (he.single hdep ▸ hbuilt)
  cases hstep : step (exposingPlatform g₀ q r o) s c with
  | error f =>
      rcases step_error h.base.twoWay hrulesb h.live hload hstep with hcache | ⟨rfl, -⟩
      · exact absurd hcache (not_cacheFault_exposing f)
      · exact .of_error hquiet (h.accepted he hplan hq) hstep
  | ok x =>
      -- then `r` would have been built
      obtain ⟨evs', s'⟩ := x
      have hlive := h.live.step h.base.twoWay hrulesb hload hstep
      obtain ⟨-, ho, hfull⟩ := h.turn.resolve_left fun hturn ↦ hturn.2 hbuilt
      refine absurd ?_ (not_mem_built h.base hlive hq hrules ho he.output he.clean
        fun x hx ↦ h.live.inputReady_mono hlive (hfull x hx))
      have ha := Act.of_step hstep
      rw [hsame] at ha
      obtain ⟨res, s₁, hwait, -⟩ := ha.wait_of_reaps hreaps hrun
      obtain ⟨j, rest, hj, -, hreaped⟩ := Reaped.of_waitForNext hload hwait
      cases hreaped with
      | failed hstatus => exact absurd hquiet.1 hstatus
      | built => simp [hall j (List.mem_of_getElem? hj)]

include hr

/-- From here on the build can run into a report that does not fit.  The
induction is on the turns of the loops that remain. -/
theorem Impending.overruns (h : Impending g₀ p₀ q r o b evs s) :
    Overruns (exposingPlatform g₀ q r o) s := by
  have hrules := hplan.mem_rules he.joined.twoWay
  generalize hn : s.remaining = n
  induction n using Nat.strong_induction_on generalizing b evs s with
  | _ n ih =>
      have haccepts : ∀ c, Accepted (exposingPlatform g₀ q r o) s c :=
        fun c ↦ h.accepted he hplan hq
      by_cases hreaps : s.Reaps
      · have hrun := h.exists_running_of_reaps he hplan hr hreaps
        by_cases hbuilt : q ∈ builtRules evs
        · exact h.overruns_of_built he hplan hq hreaps hrun hbuilt
        · -- the command of `q` ends
          have hmem := h.mem_running he hplan hq hreaps hbuilt
          obtain rfl : b = g₀ := (h.turn.resolve_right fun hturn ↦ hbuilt hturn.1).1
          obtain ⟨i, hi, hiq⟩ := List.mem_iff_getElem.mp hmem
          obtain ⟨c, rfl, hquiet, hsame⟩ := exists_quiet_choice s i
          have hget : s.running[c.next % s.running.length]? = some q := by
            rw [Nat.mod_eq_of_lt hi, List.getElem?_eq_getElem hi, hiq]
          have hstep := step_of_reaps (P := exposingPlatform b q r o) (c := c) (by rwa [hsame]) hrun
          rw [hsame] at hstep
          rcases waitForNext_exposes he hplan h hget hquiet.1 with
            herr | ⟨b', g, p, hwait, hbase, ho, hfull, hlive⟩
          · rw [herr] at hstep
            exact .of_error hquiet (haccepts c) hstep
          · rw [hwait] at hstep
            obtain ⟨h', hlt⟩ := h.reaped hreaps (Nat.mod_lt _ (Nat.zero_lt_of_lt hi)) hbase ho
              hfull hlive (not_mem_built hbase hlive hq hrules ho he.output he.clean hfull)
            exact .of_step hquiet (haccepts c) hstep (ih _ (hn ▸ hlt) h' rfl)
      · -- nothing is waited for
        obtain ⟨c, -, hquiet, hsame⟩ := exists_quiet_choice s 0
        cases hstep : step (exposingPlatform g₀ q r o) s c with
        | error f =>
            rcases step_error_of_reaps h.base.twoWay (fun j hj ↦ h.base.rules ▸ hrules j hj)
              h.live (fun hno ↦ absurd hno hreaps) hstep with hcache | ⟨rfl, -⟩
            · exact absurd hcache (not_cacheFault_exposing f)
            · exact .of_error hquiet (haccepts c) hstep
        | ok x =>
            obtain ⟨evs', s'⟩ := x
            have ha := Act.of_step hstep
            rw [hsame] at ha
            obtain ⟨h', hlt⟩ := h.act he hplan hr hreaps ha
            exact .of_step hquiet (haccepts c) hstep (ih _ (hn ▸ hlt) h' rfl)

end Exposed

/-! ## A cache that holds everything -/

/-- A world whose cache holds the outputs of every rule. -/
def fullCache : Platform Unit :=
  { emptyPlatform with restoreRule := fun _ _ w ↦ .ok (true, w) }

theorem cacheAvoids_fullCache (f : Fault) : CacheAvoids fullCache f where
  restoreRule _ _ _ h := by cases h
  saveRule _ _ _ h := by cases h
  restoreDepfile _ _ _ h := by cases h

theorem not_cacheFault_fullCache (f : Fault) : ¬ CacheFault fullCache f := by
  rintro (⟨g, r, w, h⟩ | ⟨g, r, w, h⟩) <;> cases h

theorem onRuleFinished_running {ω : Type} {s s' : Builder ω} {r : RuleId}
    (h : s.onRuleFinished r = .ok s') : s'.running = s.running := by
  obtain ⟨g, -, h⟩ := Lib.bind_eq_ok.mp h
  obtain ⟨p, -, h⟩ := Lib.bind_eq_ok.mp h
  rw [← Except.ok.inj h]

/-- Where every rule is in the cache, nothing is spawned and no depfile loaded. -/
theorem loadFree_fullCache (cs : List (Choice Unit)) {s : Builder Unit} (hs : s.running = []) :
    LoadFree fullCache cs s := by
  induction cs generalizing s with
  | nil => trivial
  | cons c cs ih =>
      refine ⟨fun _ r hr ↦ ?_, fun evs s' hstep ↦ ih ?_⟩
      · rw [hs] at hr
        cases hr
      · have hs₁ : (s.perturb c).running = [] := hs
        cases Act.of_step hstep with
        | enter => exact hs₁
        | leave => exact hs₁
        | idle => exact hs₁
        | finish => exact hs₁
        | stay => exact hs₁
        | phony _ _ _ _ hfinish => exact (onRuleFinished_running hfinish).trans hs₁
        | restored _ _ _ _ _ hfinish => exact (onRuleFinished_running hfinish).trans hs₁
        | spawned _ _ _ _ hrestore => cases hrestore
        | reaped _ _ hwait =>
            rw [waitForNext, hs₁] at hwait
            cases hwait
        | flushed _ hwait =>
            rw [waitForNext, hs₁] at hwait
            cases hwait


/-! ## Graphs whose builds stay within bounds -/

section WithinBounds

variable {g : Graph}

/-- All dirty targets can be built at once. -/
theorem exists_plan_of_dirty (hL : g.links.TwoWay) (hac : g.links.Acyclic) (hexact : g.Exact)
    (hdirty : g.DirtyHasDirtyRule) : ∃ T p, BuildPlan.create g T = .ok p ∧ Planned g p ∧
      ∀ x j, (g.node x).childRule = some j → (g.node x).isDirty = true → j ∈ p.rules := by
  let T := g.links.targets.filter fun n ↦ (g.node n).isDirty
  obtain ⟨p, hcreate, hrules, hready, hstarted⟩ := BuildPlan.create_spec hL hac hexact hdirty T
  refine ⟨T, p, hcreate, planned_of_needed hrules hready hstarted, fun x j hx hd ↦ ?_⟩
  obtain ⟨hj, hout⟩ := (hL.child_eq_some x j).mp hx
  refine (hrules j).mpr (.target (t := x) (Finset.mem_filter.mpr ⟨?_, hd⟩) hd hx)
  exact List.mem_toFinset.mpr (List.mem_flatMap.mpr ⟨j, hj, hout⟩)

theorem Impending.create (he : Exposed g q r o) (hplan : Planned g p) :
    Impending g p q r o g [] (create g p () 2) where
  base := he.base hplan
  live := live_create he.exact hplan () 2
  controlled := controlled_create g p () 2
  failed := rfl
  interrupted := rfl
  threads := rfl
  running := by simp [Builder.create]
  unbuilt := by simp
  turn := Or.inl ⟨rfl, by simp⟩

theorem not_withinBounds_of_exposed (he : Exposed g q r o) (hdirty : g.DirtyHasDirtyRule)
    (hq : ∃ x, (g.node x).childRule = some q ∧ (g.node x).isDirty = true)
    (hr : ∃ x, (g.node x).childRule = some r ∧ (g.node x).isDirty = true) : ¬ WithinBounds g := by
  intro h
  obtain ⟨T, p, hcreate, hplan, hall⟩ :=
    exists_plan_of_dirty he.joined.twoWay he.acyclic he.exact hdirty
  obtain ⟨x, hx, hdx⟩ := hq
  obtain ⟨y, hy, hdy⟩ := hr
  obtain ⟨cs, hquiet, haccepts, hrun⟩ :=
    (Impending.create he hplan).overruns he hplan (hall x q hx hdx) (hall y r hy hdy)
  refine h T p hcreate Unit (exposingPlatform g q r o) () 2 cs hquiet ?_ haccepts hrun
  constructor <;> intro g r w hfault <;> cases hfault

/-- A build of all dirty targets fills every counter, so one report too many
overruns it. -/
theorem unused_of_withinBounds (hL : g.links.TwoWay) (hac : g.links.Acyclic)
    (hexact : g.Exact) (hdirty : g.DirtyHasDirtyRule) (h : WithinBounds g) :
    g.Unused g.dirtyNodes := by
  intro r hr m hmout hd o ho hclean
  have hm : (g.node m).childRule = some r := (hL.child_eq_some m r).mpr ⟨hr, hmout⟩
  by_contra hparents
  obtain ⟨q, hq⟩ := List.exists_mem_of_ne_nil _ hparents
  obtain ⟨hqr, hqo⟩ := (hL.mem_parents o q).mp hq
  obtain ⟨T, p, hcreate, hplan, hmem⟩ := exists_plan_of_dirty hL hac hexact hdirty
  let c : Choice Unit := ⟨id, false, 0, .succeeded⟩
  let cs := List.replicate (8 * p.rules.card + 5) c
  have hquiet : ∀ d ∈ cs, d.Quiet := by
    intro d hd
    rw [List.eq_of_mem_replicate hd]
    exact ⟨rfl, rfl⟩
  have hfree : LoadFree fullCache cs (create g p () 1) := loadFree_fullCache cs rfl
  cases hrun : run fullCache cs (create g p () 1) with
  | error f =>
      rcases run_error hL (hplan.mem_rules hL) (live_create hexact hplan () 1) hfree hrun with
        hfault | ⟨rfl, -⟩
      · exact not_cacheFault_fullCache f hfault
      · exact h T p hcreate Unit fullCache () 1 cs hquiet (cacheAvoids_fullCache _)
          (acceptedRun_of_loadFree hfree) hrun
  | ok v =>
      obtain ⟨evs, s⟩ := v
      obtain ⟨hlive, hcontrol⟩ := run_controlled hL hexact hplan hfree hrun
      obtain ⟨hnone, hint⟩ := run_quiet hL hexact hplan hquiet hfree hrun
      have hfin := finished_of_length hL hac hexact hplan le_rfl (by simp [cs]) hfree hrun
      have hbuilt : ∀ k ∈ p.rules, k ∈ builtRules evs :=
        fun k hk ↦ hcontrol.built_of_finished hlive hnone hint hfin hk
      have hfull : s.graph.nbReady q = (g.rule q).inputs.length := by
        rw [Graph.nbReady, Graph.inputs_of_links hlive.links, List.countP_eq_length]
        intro x _
        rw [Graph.inputReady, Graph.isSource_of_links hlive.links]
        cases hx : (g.node x).childRule with
        | none => simp [Node.isSource, hx]
        | some k =>
            have hclean : (s.graph.node x).isDirty = false := by
              rw [← Bool.not_eq_true, hlive.node x k hx]
              exact fun hdx ↦ hdx.2 (hbuilt k (hmem x k hx hdx.1))
            simp [hclean]
      have hpos : 0 < cleanReports g q r := by
        apply List.countP_pos_iff.mpr
        exact ⟨o, hqo, by simpa [ho, Graph.dirtyNodes] using hclean⟩
      have hexcess : cleanReports g q r ≤ excess g (builtRules evs) q :=
        List.le_sum_of_mem (List.mem_map.mpr ⟨r, hbuilt r (hmem m r hm hd), rfl⟩)
      have hcount := hlive.numReady q hqr
      have hbound := hlive.bound q hqr
      omega

/-- A rule does not come after itself. -/
theorem not_follows_self (hac : g.links.Acyclic) {D : Set NodeId} {n : NodeId}
    (hn : (g.node n).childRule = some r) : ¬ g.Follows D r r := by
  have habove : ∀ {i j}, g.Follows D i j → ∀ y, (g.node y).childRule = some j →
      ∃ x, (g.node x).childRule = some i ∧ TransGen g.links.Feeds x y := by
    intro i j hfollows
    induction hfollows with
    | single hstep =>
        obtain ⟨x, -, hx, hin⟩ := hstep
        exact fun y hy ↦ ⟨x, hx, .single ⟨_, hy, hin⟩⟩
    | tail _ hstep ih =>
        obtain ⟨x, -, hx, hin⟩ := hstep
        obtain ⟨z, hz, hzx⟩ := ih x hx
        exact fun y hy ↦ ⟨z, hz, hzx.tail ⟨_, hy, hin⟩⟩
  intro hfollows
  obtain ⟨x, hx, hxn⟩ := habove hfollows n hn
  obtain ⟨m, hxm, j, hj, hin⟩ := TransGen.tail'_iff.mp hxn
  obtain rfl : j = r := Option.some.inj (hj.symm.trans hn)
  exact hac x (TransGen.tail' hxm ⟨j, hx, hin⟩)

/-- Where every build stays within the bounds, no depfile can name an output
that is clean while its rule is still to be built. -/
theorem reportable_of_withinBounds (hg : g.Linked) (hexact : g.Exact)
    (hdirty : g.DirtyHasDirtyRule)
    (hnode : ∀ n ∈ g.allocated, (g.node n).hash ≠ "" ∧ (g.node n).hashDepfile ≠ "")
    (hrule : ∀ j ∈ g.rules, (g.rule j).hash ≠ "") (h : WithinBounds g) :
    g.Reportable g.dirtyNodes := by
  have hunused := unused_of_withinBounds hg.twoWay hg.acyclic hexact hdirty h
  refine fun r hr m hmout hm o ho hclean ↦ ⟨hunused r hr m hmout hm o ho hclean, fun q hq ↦ ?_⟩
  have hchild : ∀ n ∈ (g.rule r).outputs, (g.node n).childRule = some r :=
    fun n hn ↦ (hg.twoWay.child_eq_some n r).mpr ⟨hr, hn⟩
  have hcommand : (g.rule r).isPhony = false := by
    by_contra hphony
    obtain ⟨x, hx⟩ := List.length_eq_one_iff.mp
      (hg.phony_output r hr (Bool.not_eq_false _ ▸ hphony))
    rw [hx, List.mem_singleton] at hmout ho
    exact hclean (ho ▸ hmout ▸ hm)
  by_contra hfree
  -- the depfile of `r` itself would do as well, and it is the only one then
  obtain ⟨q, ⟨hqr, hphony, hdepfile, x, hxout, hx⟩, hsingle, hfree⟩ :
      ∃ q, g.MayLoad g.dirtyNodes q ∧ ((g.rule r).hasDepfile = true → q = r) ∧
        ¬ g.Follows g.dirtyNodes r q := by
    by_cases hown : (g.rule r).hasDepfile = true
    · exact ⟨r, ⟨hr, hcommand, hown, m, hmout, hm⟩, fun _ ↦ rfl,
        not_follows_self hg.acyclic (hchild m hmout)⟩
    · exact ⟨q, hq, fun hdep ↦ absurd hdep hown, hfree⟩
  have hallocated := hg.allocated r hr o (Or.inr ho)
  refine not_withinBounds_of_exposed (q := q) (r := r) (o := o) {
    joined := ⟨hg.twoWay, hg.allocated, hg.nodes⟩
    acyclic := hg.acyclic
    exact := hexact
    hashed := ⟨fun j hj n hn ↦ hnode n (hg.allocated j hj n (Or.inl hn)), hrule⟩
    unused := hunused
    output := hchild o ho
    clean := by simpa [Graph.dirtyNodes] using hclean
    hash := hnode o hallocated
    lookup := hg.lookup o hallocated
    depfile := hdepfile
    command := ⟨hphony, hcommand⟩
    single := hsingle
    free := hfree } hdirty ⟨x, (hg.twoWay.child_eq_some x q).mpr ⟨hqr, hxout⟩, hx⟩
    ⟨m, hchild m hmout, hm⟩ h

theorem withinBounds_iff (hg : g.Linked) (hexact : g.Exact) (hdirty : g.DirtyHasDirtyRule)
    (hnode : ∀ n ∈ g.allocated, (g.node n).hash ≠ "" ∧ (g.node n).hashDepfile ≠ "")
    (hrule : ∀ j ∈ g.rules, (g.rule j).hash ≠ "") :
    WithinBounds g ↔ g.Reportable g.dirtyNodes :=
  ⟨reportable_of_withinBounds hg hexact hdirty hnode hrule,
    withinBounds_of_reportable ⟨hg.twoWay, hg.allocated, hg.nodes⟩ hg.acyclic hexact hdirty⟩

end WithinBounds

end Builder

end Falcon
