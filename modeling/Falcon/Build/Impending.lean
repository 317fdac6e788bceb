import Falcon.Build.Exposed
import Falcon.Build.Whole

/-!
# Builds that are about to report a clean output

A rule `r` with a clean output is to be built, and the command of a rule `q`
can end before it.  In the build of this module all other rules are in the
cache, and the depfile of `q` names the output.
-/

namespace Falcon

open BuildEvent Relation

namespace Builder

variable {ω : Type}

/-- Some run that only loads depfiles of their rules, without a failing command,
ends with one report too many. -/
def Overruns (P : Platform ω) (s : Builder ω) : Prop :=
  ∃ cs : List (Choice ω), (∀ c ∈ cs, c.Quiet) ∧ AcceptedRun P cs s ∧
    run P cs s = .error (.assertion .inputReadyBound)

section Overruns

variable {P : Platform ω} {s s' : Builder ω} {c : Choice ω} {evs : List BuildEvent}

theorem Overruns.of_error (hc : c.Quiet) (haccepts : Accepted P s c)
    (hstep : step P s c = .error (.assertion .inputReadyBound)) : Overruns P s := by
  refine ⟨[c], by simpa using hc, ⟨haccepts, fun _ _ _ ↦ trivial⟩, ?_⟩
  rw [run, hstep]
  rfl

theorem Overruns.of_step (hc : c.Quiet) (haccepts : Accepted P s c)
    (hstep : step P s c = .ok (evs, s')) (h : Overruns P s') : Overruns P s := by
  obtain ⟨cs, hquiet, hrest, hrun⟩ := h
  refine ⟨c :: cs, List.forall_mem_cons.mpr ⟨hc, hquiet⟩, ⟨haccepts, fun evs₁ s₁ h₁ ↦ ?_⟩, ?_⟩
  · rw [hstep] at h₁
    obtain ⟨-, rfl⟩ := Prod.mk.inj (Except.ok.inj h₁)
    exact hrest
  · rw [run, hstep]
    simp only [Lib.except_ok_bind, hrun]
    rfl

end Overruns

/-! ## The situation -/

/-- Everything is in the cache but what `q` and `r` make.  Every depfile is one
of `q` and names `o`, and every digest is the same. -/
def exposingPlatform (g : Graph) (q r : RuleId) (o : NodeId) : Platform Unit :=
  { emptyPlatform with
    readFile := fun _ _ ↦ some "depfile"
    sha256 := fun _ ↦ [0]
    parseDepfile := fun _ ↦
      (g.rule q).outputs.head?.map fun first ↦ ((g.node first).path, [(g.node o).path])
    restoreRule := fun _ j w ↦ .ok (decide (j ≠ q ∧ j ≠ r), w) }

/-- The output `o` of `r` is clean, and the command of `q` does not have to wait
for `r`. -/
structure Exposed (g : Graph) (q r : RuleId) (o : NodeId) : Prop where
  joined : g.Joined
  acyclic : g.links.Acyclic
  exact : g.Exact
  hashed : g.Hashed
  unused : g.Unused g.dirtyNodes
  output : (g.node o).childRule = some r
  clean : (g.node o).isDirty = false
  hash : (g.node o).hash ≠ "" ∧ (g.node o).hashDepfile ≠ ""
  lookup : g.nodes.lookup (g.node o).path = some o
  depfile : (g.rule q).hasDepfile = true
  command : (g.rule q).isPhony = false ∧ (g.rule r).isPhony = false
  single : (g.rule r).hasDepfile = true → q = r
  free : ¬ g.Follows g.dirtyNodes r q

/-- The graph `b` that a build started on as far as its rules can tell: the
given one, or the one in which `q` uses `o`. -/
structure Base (g₀ : Graph) (p₀ : BuildPlan) (q r : RuleId) (b : Graph) : Prop where
  twoWay : b.links.TwoWay
  rules : b.rules = g₀.rules
  child : ∀ n, (b.node n).childRule = (g₀.node n).childRule
  dirty : ∀ n j, (g₀.node n).childRule = some j → (b.node n).isDirty = (g₀.node n).isDirty
  rule : ∀ j, (b.rule j).isPhony = (g₀.rule j).isPhony ∧
    (b.rule j).hasDepfile = (g₀.rule j).hasDepfile
  other : ∀ j ≠ q, (b.rule j).inputs = (g₀.rule j).inputs
  fresh : ∀ i ∈ p₀.rules, i ≠ r → ∀ j ∈ b.rules, cleanReports b j i = 0

/-- The build is on its way to the report of `o`: `q` is still to be built, or
has been built and uses `o`. -/
structure Impending (g₀ : Graph) (p₀ : BuildPlan) (q r : RuleId) (o : NodeId) (b : Graph)
    (evs : List BuildEvent) (s : Builder ω) : Prop where
  base : Base g₀ p₀ q r b
  live : Live b p₀ evs s
  controlled : Controlled evs s
  failed : failedRules evs = []
  interrupted : s.interrupted = false
  threads : s.numThreads = 2
  running : ∀ j ∈ s.running, j = q ∨ j = r
  unbuilt : r ∉ builtRules evs
  turn : b = g₀ ∧ q ∉ builtRules evs ∨ q ∈ builtRules evs ∧ o ∈ (b.rule q).inputs ∧
    ∀ x ∈ (b.rule q).inputs, s.graph.inputReady x = true

variable {g₀ b k : Graph} {p₀ p : BuildPlan} {q r : RuleId} {o : NodeId} {s s' : Builder Unit}
  {c : Choice Unit} {evs evs' : List BuildEvent}

/-- What is ready stays ready. -/
theorem Live.inputReady_mono {s s' : Builder ω} {evs evs' : List BuildEvent}
    (h : Live b p₀ evs s) (h' : Live b p₀ (evs ++ evs') s') {x : NodeId}
    (hx : s.graph.inputReady x = true) : s'.graph.inputReady x = true := by
  by_contra hno
  obtain ⟨hsource, hdirty⟩ := Graph.inputReady_eq_false.mp (Bool.not_eq_true _ ▸ hno)
  rw [Graph.isSource_of_links h'.links] at hsource
  obtain ⟨j, hj⟩ := Option.isSome_iff_exists.mp (by simpa [Node.isSource] using hsource)
  obtain ⟨hb, hnot⟩ := (h'.node x j hj).mp hdirty
  have hold : (s.graph.node x).isDirty = true := (h.node x j hj).mpr
    ⟨hb, fun hbuilt ↦ hnot (by rw [builtRules_append]; exact List.mem_append_left _ hbuilt)⟩
  rw [Graph.inputReady, Graph.isSource_of_links h.links, hsource, hold] at hx
  cases hx

section Exposed

variable (he : Exposed g₀ q r o) (hplan : Planned g₀ p₀)
include he hplan

/-- An output that is used is dirty before its rule is built. -/
theorem Exposed.dirty_of_used {i j : RuleId} {x : NodeId} (hi : i ∈ p₀.rules)
    (hj : j ∈ g₀.rules) (hx : x ∈ (g₀.rule j).inputs) (hout : x ∈ (g₀.rule i).outputs) :
    (g₀.node x).isDirty = true := by
  have hL := he.joined.twoWay
  obtain ⟨m, hchild, hm⟩ := hplan.output i hi
  obtain ⟨hi₀, hmout⟩ := (hL.child_eq_some m i).mp hchild
  by_contra hclean
  have hnone := he.unused i hi₀ m hmout hm x hout hclean
  have hparent : j ∈ (g₀.node x).parentRules := (hL.mem_parents x j).mpr ⟨hj, hx⟩
  rw [hnone] at hparent
  cases hparent

theorem Exposed.base : Base g₀ p₀ q r g₀ where
  twoWay := he.joined.twoWay
  rules := rfl
  child _ := rfl
  dirty _ _ _ := rfl
  rule _ := ⟨rfl, rfl⟩
  other _ _ := rfl
  fresh _ hi _ _ hj := cleanReports_eq_zero fun _ hx hout ↦ he.dirty_of_used hplan hi hj hx hout

theorem Exposed.base_restated {g : Graph} (hl : g.links = g₀.links) (hk : g.Exposes q o k) :
    Base g₀ p₀ q r (g₀.restated k) := by
  have hL := he.joined.twoWay
  have hchild : ∀ n, (k.node n).childRule = (g₀.node n).childRule :=
    fun n ↦ (hk.child n).trans (Graph.childRule_of_links hl n)
  have hdirty : ∀ n j, (g₀.node n).childRule = some j →
      ((g₀.restated k).node n).isDirty = (g₀.node n).isDirty :=
    fun n j hn ↦ Graph.restated_isDirty g₀ ((hchild n).trans hn)
  refine {
    twoWay := hk.joined.twoWay
    rules := hk.rules.trans (Graph.rules_of_links hl)
    child := hchild
    dirty := hdirty
    rule := fun j ↦ ?_
    other := fun j hj ↦ (hk.other j hj).1.trans (Graph.inputs_of_links hl j)
    fresh := fun i hi hir j hj ↦ ?_ }
  · obtain ⟨-, hphony, hdepfile, -⟩ := hk.rule j
    exact ⟨hphony.trans (Graph.isPhony_of_links hl j),
      hdepfile.trans (Graph.hasDepfile_of_links hl j)⟩
  · refine cleanReports_eq_zero fun x hx hx' ↦ ?_
    have hi₀ := hplan.mem_rules hL i hi
    have hj₀ : j ∈ g₀.rules := by
      rw [← Graph.rules_of_links hl, ← hk.rules]
      exact hj
    have hout : x ∈ (g₀.rule i).outputs := by
      rw [← Graph.outputs_of_links hl, ← (hk.rule i).1]
      exact hx'
    have hxi : (g₀.node x).childRule = some i := (hL.child_eq_some x i).mpr ⟨hi₀, hout⟩
    rcases ne_or_eq x o with hxo | rfl
    · have hin : x ∈ (g₀.rule j).inputs := by
        rw [← Graph.inputs_of_links hl]
        by_cases hjq : j = q
        · rw [hjq]
          exact (hk.inputs x (hjq ▸ hx)).resolve_right hxo
        · rw [← (hk.other j hjq).1]
          exact hx
      rw [hdirty x i hxi]
      exact he.dirty_of_used hplan hi hj₀ hin hout
    · exact absurd (Option.some.inj (hxi.symm.trans he.output)) hir

end Exposed

/-! ## The build goes on -/

namespace Impending

theorem built_or_running (h : Impending g₀ p₀ q r o b evs s) {j : RuleId}
    (hj : j ∈ foundRules evs) : j ∈ builtRules evs ∨ j ∈ s.running := by
  have hcases := h.live.mem_found.mp hj
  rw [h.failed] at hcases
  simpa using hcases

theorem exact_of_ongoing (h : Impending g₀ p₀ q r o b evs s) {hand : List RuleId} {g : Graph}
    (hongoing : Ongoing b p₀ (foundRules evs) (builtRules evs) (failedRules evs) hand g p) :
    g.Exact := by
  intro j hj
  rw [Graph.rules_of_links hongoing.links] at hj
  have hzero : excess b (builtRules evs) j = 0 := excess_eq_zero fun i hi ↦
    h.base.fresh i (hongoing.found_planned i (hongoing.mem_found.mpr (Or.inl hi)))
      (fun hir ↦ h.unbuilt (hir ▸ hi)) j hj
  rw [hongoing.numReady j hj, hzero, Nat.add_zero]

theorem exact (h : Impending g₀ p₀ q r o b evs s) : s.graph.Exact :=
  h.exact_of_ongoing h.live.toOngoing

/-- Once `q` uses `o`, the report of `o` does not fit. -/
theorem not_mem_built (hbase : Base g₀ p₀ q r b) (hlive : Live b p₀ evs s) (hq : q ∈ p₀.rules)
    (hrules : ∀ j ∈ p₀.rules, j ∈ g₀.rules) (ho : o ∈ (b.rule q).inputs)
    (hchild : (g₀.node o).childRule = some r) (hclean : (g₀.node o).isDirty = false)
    (hfull : ∀ x ∈ (b.rule q).inputs, s.graph.inputReady x = true) : r ∉ builtRules evs := by
  intro hbuilt
  have hqb : q ∈ b.rules := hbase.rules ▸ hrules q hq
  have hout : o ∈ (b.rule r).outputs :=
    ((hbase.twoWay.child_eq_some o r).mp ((hbase.child o).trans hchild)).2
  have hpos : 0 < cleanReports b q r := by
    refine List.countP_pos_iff.mpr ⟨o, ho, ?_⟩
    simp [hout, hbase.dirty o r hchild, hclean]
  have hexcess : cleanReports b q r ≤ excess b (builtRules evs) q :=
    List.le_sum_of_mem (List.mem_map.mpr ⟨r, hbuilt, rfl⟩)
  have hnb : s.graph.nbReady q = (b.rule q).inputs.length := by
    rw [Graph.nbReady, Graph.inputs_of_links hlive.links]
    exact List.countP_eq_length.mpr hfull
  have hcount := hlive.numReady q hqb
  have hbound := hlive.bound q hqb
  omega

section Exposed

variable (he : Exposed g₀ q r o) (hplan : Planned g₀ p₀)
include he hplan

/-- A rule that has not been handed out although there is no work needs an output
of a planned rule that has not been built. -/
theorem exists_waiting (h : Impending g₀ p₀ q r o b evs s) (hwork : s.plan.hasWork = false)
    {j : RuleId} (hj : j ∈ p₀.rules) (hnew : j ∉ foundRules evs) :
    ∃ y ∈ (g₀.rule j).inputs, (g₀.node y).isDirty = true ∧
      ∃ i, (g₀.node y).childRule = some i ∧ i ∈ p₀.rules ∧ i ∉ builtRules evs := by
  have hj₀ := hplan.mem_rules he.joined.twoWay j hj
  have hinputs : (s.graph.rule j).inputs = (g₀.rule j).inputs := by
    rw [Graph.inputs_of_links h.live.links]
    rcases h.turn with ⟨rfl, -⟩ | ⟨hq, -⟩
    · rfl
    · refine h.base.other j fun hjq ↦ hnew ?_
      exact h.live.mem_found.mpr (Or.inl (hjq ▸ hq))
  have hjs : j ∈ s.graph.rules := by
    rw [Graph.rules_of_links h.live.links, h.base.rules]
    exact hj₀
  obtain ⟨y, hy, hwait⟩ : ∃ y ∈ (s.graph.rule j).inputs, s.graph.inputReady y = false := by
    by_contra hall
    push Not at hall
    have hready := (h.exact.ready_iff hjs).mpr fun y hy ↦ by simpa using hall y hy
    have hmem : j ∈ s.plan.readyRules := (h.live.ready_iff j).mpr ⟨hj, hnew, hready⟩
    rw [BuildPlan.hasWork, decide_eq_false_iff_not, not_not] at hwork
    rw [hwork] at hmem
    exact Finset.notMem_empty j hmem
  obtain ⟨hsource, hdirty⟩ := Graph.inputReady_eq_false.mp hwait
  rw [Graph.isSource_of_links h.live.links] at hsource
  obtain ⟨i, hi⟩ := Option.isSome_iff_exists.mp (by simpa [Node.isSource] using hsource)
  have hi₀ : (g₀.node y).childRule = some i := (h.base.child y).symm.trans hi
  obtain ⟨hd, hnot⟩ := (h.live.node y i hi).mp hdirty
  rw [h.base.dirty y i hi₀] at hd
  rw [hinputs] at hy
  have hwait₀ : (g₀.rule j).ready = false := by
    cases hr : (g₀.rule j).ready with
    | false => rfl
    | true =>
        have hin := (he.exact.ready_iff hj₀).mp hr y hy
        simp [Graph.inputReady, Node.isSource, hi₀, hd] at hin
  exact ⟨y, hy, hd, i, hi₀, hplan.closed j hj hwait₀ y hy hd i hi₀, hnot⟩

/-- Such a rule waits for a command that is running. -/
theorem exists_running (h : Impending g₀ p₀ q r o b evs s) (hwork : s.plan.hasWork = false)
    {j : RuleId} (hj : j ∈ p₀.rules) (hnew : j ∉ foundRules evs) :
    ∃ i ∈ s.running, g₀.Follows g₀.dirtyNodes i j := by
  obtain ⟨x, hx, -⟩ := hplan.output j hj
  induction hn : g₀.links.rankBelow x using Nat.strong_induction_on generalizing x j with
  | _ n ih =>
      obtain ⟨y, hy, hd, i, hi, hplanned, hnot⟩ := h.exists_waiting he hplan hwork hj hnew
      by_cases hfound : i ∈ foundRules evs
      · exact ⟨i, (h.built_or_running hfound).resolve_left hnot, .single ⟨y, hd, hi, hy⟩⟩
      · have hlt := Links.rankBelow_lt he.joined.twoWay he.acyclic hx hy
        obtain ⟨i', hrun, hfollows⟩ := ih _ (hn ▸ hlt) hplanned hfound y hi rfl
        exact ⟨i', hrun, hfollows.tail ⟨y, hd, hi, hy⟩⟩

omit he hplan in
theorem reaps_cases (h : Impending g₀ p₀ q r o b evs s) (hreaps : s.Reaps) {j : RuleId}
    (hj : j ∈ p₀.rules) (hnew : j ∉ foundRules evs) :
    s.plan.hasWork = false ∨ 2 ≤ s.running.length := by
  rcases hreaps with hflush | ⟨-, hwork⟩
  · rcases h.controlled.stopped (Or.inl hflush) with hres | hdone | hint
    · exact absurd (h.controlled.result_iff.mpr h.failed) hres
    · exact absurd (h.live.found_of_done hdone hj) hnew
    · rw [h.interrupted] at hint
      cases hint
  · rwa [h.threads] at hwork

/-- There is always something to wait for. -/
theorem exists_running_of_reaps (h : Impending g₀ p₀ q r o b evs s) (hr : r ∈ p₀.rules)
    (hreaps : s.Reaps) : s.running ≠ [] := by
  intro hnone
  have hnew : r ∉ foundRules evs := fun hfound ↦ by
    have hrun := (h.built_or_running hfound).resolve_left h.unbuilt
    rw [hnone] at hrun
    cases hrun
  rcases h.reaps_cases hreaps hr hnew with hwork | hfull
  · obtain ⟨i, hi, -⟩ := h.exists_running he hplan hwork hr hnew
    rw [hnone] at hi
    cases hi
  · rw [hnone] at hfull
    simp at hfull

/-- Before `q` has been built, it is running when the build waits. -/
theorem mem_running (h : Impending g₀ p₀ q r o b evs s) (hq : q ∈ p₀.rules) (hreaps : s.Reaps)
    (hnot : q ∉ builtRules evs) : q ∈ s.running := by
  by_contra hrun
  have hnew : q ∉ foundRules evs := fun hfound ↦
    hrun ((h.built_or_running hfound).resolve_left hnot)
  rcases h.reaps_cases hreaps hq hnew with hwork | hfull
  · obtain ⟨i, hi, hfollows⟩ := h.exists_running he hplan hwork hq hnew
    rcases h.running i hi with rfl | rfl
    · exact hrun hi
    · exact he.free hfollows
  · -- two commands are running, and only one of them is that of `r`
    have hall : ∀ j ∈ s.running, j = r := fun j hj ↦
      (h.running j hj).resolve_left fun hjq ↦ hrun (hjq ▸ hj)
    have hnodup : s.running.Nodup :=
      (List.nodup_append.mp (h.live.split.nodup_iff.mp h.live.found_nodup)).2.1
    have hle : s.running.length ≤ [r].length :=
      (hnodup.subperm fun j hj ↦ List.mem_singleton.mpr (hall j hj)).length_le
    simp at hle
    omega

end Exposed

end Impending

end Builder

end Falcon
