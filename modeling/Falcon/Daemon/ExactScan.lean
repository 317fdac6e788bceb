import Falcon.Build.Topmost
import Falcon.Daemon.Startup
import Falcon.Graph.ScanHashes

/-!
# The exact result of the scan

In a graph without depfiles the timestamps decide which rules and nodes the
scan marks, below the roots and in whatever order the roots and the inputs of
a rule are visited.
-/

namespace Falcon

open Relation

namespace Links

/-- Some root is made with the help of `n`. -/
def Reached (L : Links) (n : NodeId) : Prop := ∃ root ∈ L.roots, ReflTransGen L.Feeds n root

def ReachedRule (L : Links) (r : RuleId) : Prop := ∃ o, L.child o = some r ∧ L.Reached o

/-- The rules that make `n` or something that is used for `n`. -/
def RuleBelow (L : Links) (n : NodeId) (r : RuleId) : Prop :=
  ∃ o, L.child o = some r ∧ ReflTransGen L.Feeds o n

variable {L : Links}

theorem Reached.of_feeds {m n : NodeId} (h : L.Reached n) (hfeeds : L.Feeds m n) : L.Reached m := by
  obtain ⟨root, hroot, hpath⟩ := h
  exact ⟨root, hroot, ReflTransGen.head hfeeds hpath⟩

theorem ReachedRule.input {r : RuleId} {n : NodeId} (h : L.ReachedRule r) (hn : n ∈ L.inputs r) :
    L.Reached n := by
  obtain ⟨o, ho, hreached⟩ := h
  exact hreached.of_feeds ⟨r, ho, hn⟩

theorem ReachedRule.mem_rules (hL : L.TwoWay) {r : RuleId} (h : L.ReachedRule r) : r ∈ L.rules := by
  obtain ⟨o, ho, -⟩ := h
  exact ((hL.child_eq_some o r).mp ho).1

end Links

namespace GraphDependencyScan

variable {ω : Type} {P : Platform ω} {L : Links} {t : NodeId → Timestamp}

/-! ## The rules that are entered -/

/-- From `s` to `s'` the links stay, and only rules of `B` are entered. -/
structure Enters (L : Links) (B : RuleId → Prop) (s s' : Scan ω) : Prop where
  links : s'.graph.links = L
  seen : ∀ q ∈ s'.seen, q ∈ s.seen ∨ B q

section Enters

variable {B : RuleId → Prop} {s s' : Scan ω}

theorem Enters.refl (hl : s.graph.links = L) : Enters L B s s := ⟨hl, fun _ ↦ Or.inl⟩

theorem Enters.trans {B' : RuleId → Prop} {s'' : Scan ω} (h : Enters L B s s')
    (h' : Enters L B' s' s'') (hsub : ∀ q, B' q → B q) : Enters L B s s'' where
  links := h'.links
  seen q hq := by
    rcases h'.seen q hq with hq | hq
    · exact h.seen q hq
    · exact Or.inr (hsub q hq)

/-- The graph changes while its links and the set of entered rules stay. -/
theorem Enters.setGraph (h : Enters L B s s') {g : Graph} (hl : g.links = s'.graph.links)
    (w : ω) : Enters L B s ⟨g, w, s'.seen⟩ :=
  ⟨hl.trans h.links, h.seen⟩

theorem updateInput_enters {node : Scan ω → NodeId → Outcome (Bool × Scan ω)} {r : RuleId}
    {n : NodeId} {x x' : Bool × Scan ω}
    (hnode : ∀ b s', node x.2 n = .ok (b, s') → Enters L B x.2 s')
    (hrun : updateInput node r x n = .ok x') : Enters L B x.2 x'.2 := by
  obtain ⟨⟨dirty, s₁⟩, hrec, hrun⟩ := Lib.bind_eq_ok.mp hrun
  have h₁ := hnode dirty s₁ hrec
  cases dirty with
  | false => exact Except.ok.inj hrun ▸ h₁
  | true =>
      simp only [if_true] at hrun
      split at hrun
      · exact Except.ok.inj hrun ▸ h₁
      · obtain ⟨g, hmark, hpure⟩ := Lib.bind_eq_ok.mp hrun
        obtain ⟨numReady, rfl⟩ := Depfile.onRule_ready (fun _ _ ↦ Depfile.markInputDirty_eq) hmark
        rw [← Except.ok.inj hpure]
        refine h₁.setGraph ?_ s₁.world
        exact Graph.links_setRule rfl rfl rfl rfl rfl

theorem updateRule_enters {node : Scan ω → NodeId → Outcome (Bool × Scan ω)} {r : RuleId}
    {dirty : Bool} (hl : s.graph.links = L) (hr : B r) (hdep : L.depfile r = "")
    (hnode : ∀ n ∈ L.inputs r, ∀ s b s', s.graph.links = L → node s n = .ok (b, s') →
      Enters L B s s')
    (hrun : updateRule P node s r = .ok (dirty, s')) : Enters L B s s' := by
  rw [updateRule] at hrun
  split at hrun
  · obtain ⟨-, rfl⟩ := Prod.mk.inj (Except.ok.inj hrun)
    exact .refl hl
  obtain ⟨⟨inputDirty, s₁⟩, hloop, hrun⟩ := Lib.bind_eq_ok.mp hrun
  obtain ⟨g₂, hhash, hrun⟩ := Lib.bind_eq_ok.mp hrun
  obtain ⟨⟨depDirty, g₃, w₃⟩, hdepfile, hrun⟩ := Lib.bind_eq_ok.mp hrun
  obtain ⟨⟨timeDirty, g₄⟩, htimes, hpure⟩ := Lib.bind_eq_ok.mp hrun
  obtain ⟨-, rfl⟩ := Prod.mk.inj (Except.ok.inj hpure)
  have hinputs : (s.graph.rule r).inputs = L.inputs r := by
    rw [← hl]
    rfl
  have h₁ : Enters L B s s₁ := by
    rw [hinputs] at hloop
    refine Lib.foldlM_invariant (fun x : Bool × Scan ω ↦ Enters L B s x.2) ?_ hloop ?_
    · intro n hn x x' hstep hx
      exact hx.trans (updateInput_enters (fun b s' ↦ hnode n hn x.2 b s' hx.links) hstep)
        fun _ hq ↦ hq
    · refine ⟨hl, fun q hq ↦ ?_⟩
      rcases Finset.mem_insert.mp hq with rfl | hq
      · exact Or.inr hr
      · exact Or.inl hq
  have hl₂ : g₂.links = s₁.graph.links := (Hash.updateRuleHash_links hhash).1
  have hno : (g₂.rule r).hasDepfile = false := by
    have hd : (g₂.rule r).depfile = L.depfile r := by
      rw [← h₁.links, ← hl₂]
      rfl
    simp [Rule.hasDepfile, hd, hdep]
  obtain ⟨-, heq⟩ : false = depDirty ∧ (g₂, s₁.world) = (g₃, w₃) := by
    simp only [scanDepfile, hno, Bool.false_eq_true, if_false, Lib.except_pure] at hdepfile
    exact Prod.mk.inj (Except.ok.inj hdepfile)
  obtain ⟨rfl, rfl⟩ := Prod.mk.inj heq
  have hl₄ : g₄.links = g₂.links := (scanTimes_work htimes).1
  have hstate : (g₄.updateRule r (·.setState .outOfDate)).links = g₄.links :=
    Graph.links_setRule rfl rfl rfl rfl rfl
  refine h₁.setGraph ?_ s₁.world
  split
  · exact hstate.trans (hl₄.trans hl₂)
  · exact hl₄.trans hl₂

theorem hashNode_enters {n : NodeId} (hl : s.graph.links = L) (hrun : hashNode P s n = .ok s') :
    Enters L B s s' := by
  rw [hashNode] at hrun
  split at hrun
  · obtain ⟨⟨changed, g⟩, hupdate, hpure⟩ := Lib.bind_eq_ok.mp hrun
    rw [← Except.ok.inj hpure]
    exact (Enters.refl hl).setGraph (Hash.updateNodeHash_links hupdate).1 s.world
  · exact Except.ok.inj hrun ▸ .refl hl

end Enters

theorem updateNode_enters (hL : L.TwoWay) (hdep : ∀ r ∈ L.rules, L.depfile r = "") {fuel : ℕ}
    {s s' : Scan ω} {n : NodeId} {dirty : Bool} (hl : s.graph.links = L)
    (hrun : updateNode P fuel s n = .ok (dirty, s')) : Enters L (L.RuleBelow n) s s' := by
  induction fuel generalizing s n dirty s' with
  | zero => cases hrun
  | succ fuel ih =>
      obtain ⟨⟨dirty₁, s₁⟩, hchild, hrun⟩ := Lib.bind_eq_ok.mp hrun
      obtain ⟨s₂, hhash, hpure⟩ := Lib.bind_eq_ok.mp hrun
      obtain ⟨-, rfl⟩ := Prod.mk.inj (Except.ok.inj hpure)
      have h₁ : Enters L (L.RuleBelow n) s s₁ := by
        rw [updateChild] at hchild
        split at hchild
        · obtain ⟨-, rfl⟩ := Prod.mk.inj (Except.ok.inj hchild)
          exact .refl hl
        · rename_i r hr
          obtain ⟨⟨dirty₂, s₃⟩, hrule, hpure⟩ := Lib.bind_eq_ok.mp hchild
          obtain ⟨-, rfl⟩ := Prod.mk.inj (Except.ok.inj hpure)
          have hc : L.child n = some r := by
            rw [← hl]
            exact hr
          have hmem : r ∈ L.rules := ((hL.child_eq_some n r).mp hc).1
          have h₃ : Enters L (L.RuleBelow n) s s₃ := by
            refine updateRule_enters hl ⟨n, hc, .refl⟩ (hdep r hmem) ?_ hrule
            intro m hm s b s' hs hrec
            refine (Enters.refl hs).trans (ih hs hrec) ?_
            rintro q ⟨o, ho, hpath⟩
            exact ⟨o, ho, hpath.tail ⟨r, hc, hm⟩⟩
          split
          · refine h₃.setGraph ?_ s₃.world
            exact Graph.links_setNode rfl rfl rfl rfl
          · exact h₃
      exact h₁.trans (hashNode_enters (B := L.RuleBelow n) h₁.links hhash) fun _ hq ↦ hq

/-! ## The end of the scan -/

variable (P) in
/-- `scan` with the roots in the order of a list. -/
def scanFrom (g : Graph) (w : ω) (order : List NodeId) : Outcome (Graph × ω) := do
  let g := statNodes P w g
  let s ← order.foldlM (scanRoot P g.depth) ⟨g, w, ∅⟩
  pure (s.graph, s.world)

theorem scan_eq_scanFrom (g : Graph) (w : ω) :
    scan P g w = scanFrom P g w (g.roots.sort (· ≤ ·)) := by
  have hroots : (statNodes P w g).roots = g.roots :=
    congrArg Links.roots (statNodes_spec P w g).links
  rw [scan, scanFrom, hroots]

/-- The rules and nodes below the roots have been visited, and no other rule. -/
structure Visited (L : Links) (t : NodeId → Timestamp) (s : Scan ω) : Prop where
  scanned : Scanned L t ∅ s
  hashed : ∀ n, L.Reached n → (s.graph.node n).hash ≠ ""
  seen : ∀ r, r ∈ s.seen ↔ L.ReachedRule r

theorem scanFrom_visited (hdigest : ∀ data, P.digest data ≠ "") {g : Graph} (hL : g.links.TwoWay)
    (hpristine : Pristine g) (hdep : ∀ r ∈ g.rules, (g.rule r).hasDepfile = false)
    (hno : ∀ n ∈ g.roots, g.links.AcyclicBelow n) {order : List NodeId}
    (horder : ∀ n, n ∈ order ↔ n ∈ g.roots) (w : ω) :
    ∃ s : Scan ω, scanFrom P g w order = .ok (s.graph, w) ∧
      Visited g.links (fileTime P w g) s := by
  have hdep' : ∀ r ∈ g.links.rules, g.links.depfile r = "" := by
    intro r hr
    change (g.rule r).depfile = ""
    simpa [Rule.hasDepfile] using hdep r hr
  have hlinks := (statNodes_spec P w g).links
  have hrank : ∀ n ∈ order, g.links.rankBelow n < (statNodes P w g).depth := by
    intro n _
    have hlt := Graph.rankBelow_lt_depth (statNodes P w g) n
    rwa [hlinks] at hlt
  obtain ⟨s, hrun, hs, hworld, hroots⟩ := scanRoots_spec (P := P) hdigest hL hdep'
    (fun n hn ↦ hno n ((horder n).mp hn)) hrank (scanned_start (P := P) hpristine w)
  have hhashed : ∀ n, g.links.Reached n → (s.graph.node n).hash ≠ "" := by
    rintro n ⟨root, hroot, hpath⟩
    induction hpath using ReflTransGen.head_induction_on with
    | refl => exact hroots root ((horder root).mpr hroot)
    | head hfeeds _ ih =>
        obtain ⟨r, hr, hn⟩ := hfeeds
        have hseen := (hs.hashed _ ih).2.2 r hr
        exact (hs.done r hseen (Set.notMem_empty r)).inputs _ hn
  have henters : Enters g.links g.links.ReachedRule ⟨statNodes P w g, w, ∅⟩ s := by
    refine Lib.foldlM_invariant (Enters g.links g.links.ReachedRule _) ?_ hrun (.refl hlinks)
    intro n hn x x' hstep hx
    obtain ⟨⟨dirty, x₁⟩, hnode, hpure⟩ := Lib.bind_eq_ok.mp hstep
    rw [← Except.ok.inj hpure]
    refine hx.trans (updateNode_enters hL hdep' hx.links hnode) ?_
    rintro q ⟨o, ho, hpath⟩
    exact ⟨o, ho, n, (horder n).mp hn, hpath⟩
  refine ⟨s, ?_, hs, hhashed, fun r ↦ ⟨fun hr ↦ ?_, ?_⟩⟩
  · simp only [scanFrom, hrun, Lib.except_ok_bind, Lib.except_pure, hworld]
  · exact (henters.seen r hr).resolve_left (Finset.notMem_empty r)
  · rintro ⟨o, ho, hreached⟩
    exact (hs.hashed o (hhashed o hreached)).2.2 r ho

namespace Visited

variable {s : Scan ω} (h : Visited L t s)
include h

theorem ruleDone {r : RuleId} (hr : L.ReachedRule r) : RuleDone L t s.graph r :=
  h.scanned.done r ((h.seen r).mpr hr) (Set.notMem_empty r)

theorem upToDate_iff {r : RuleId} (hr : L.ReachedRule r) :
    (s.graph.rule r).state = .upToDate ↔ ¬ L.Stale t r := by
  rw [← (h.ruleDone hr).dirty, Rule.isDirty, decide_eq_true_eq]
  cases (s.graph.rule r).state <;> simp

theorem target_dirty_iff {n : NodeId} {r : RuleId} (hn : L.Reached n) (hr : L.child n = some r) :
    (s.graph.node n).isDirty = true ↔ L.Stale t r := by
  obtain ⟨-, hstale, -⟩ := h.scanned.hashed n (h.hashed n hn)
  constructor
  · intro hdirty
    obtain ⟨q, hq, hs⟩ := h.scanned.dirty n hdirty (by simp [hr])
    rw [hr] at hq
    exact Option.some.inj hq ▸ hs
  · exact fun hs ↦ hstale ⟨r, hr, hs⟩

theorem source_dirty_iff {n : NodeId} (hn : L.child n = none) :
    (s.graph.node n).isDirty = true ↔ ∃ q, L.ReachedRule q ∧ L.Newer t q n := by
  rw [h.scanned.source n hn]
  constructor
  · rintro ⟨q, hq, -, hnewer⟩
    exact ⟨q, (h.seen q).mp hq, hnewer⟩
  · rintro ⟨q, hq, hnewer⟩
    exact ⟨q, (h.seen q).mpr hq, Set.notMem_empty q, hnewer⟩

end Visited

end GraphDependencyScan

/-! ## What the timestamps decide -/

namespace Graph

/-- The timestamp of `n` exceeds the least timestamp of the outputs of `r`. -/
def NewerThanOldest (g : Graph) (r : RuleId) (n : NodeId) : Prop :=
  ∃ oldest, ((g.rule r).outputs.map fun o ↦ (g.node o).timestamp).min? = some oldest ∧
    oldest < (g.node n).timestamp

/-- The marks and counters below the roots follow from the timestamps. -/
structure DecidedByTime (g : Graph) : Prop where
  rule : ∀ r, g.links.ReachedRule r → ((g.rule r).isDirty = true ↔
    (∃ n ∈ (g.rule r).inputs, ∃ q, (g.node n).childRule = some q ∧ (g.rule q).isDirty = true) ∨
      (g.rule r).isPhony = false ∧ ∃ n ∈ (g.rule r).inputs, g.NewerThanOldest r n)
  target : ∀ n r, g.links.Reached n → (g.node n).childRule = some r →
    ((g.node n).isDirty = true ↔ (g.rule r).isDirty = true)
  source : ∀ n, g.links.Reached n → (g.node n).childRule = none → ((g.node n).isDirty = true ↔
    ∃ r, g.links.ReachedRule r ∧ (g.rule r).isPhony = false ∧ n ∈ (g.rule r).inputs ∧
      g.NewerThanOldest r n)
  ready : ∀ r, g.links.ReachedRule r → (g.rule r).numInputsReady =
    (g.rule r).inputs.countP fun n ↦ (g.node n).isSource || !(g.node n).isDirty

theorem newerThanOldest_iff {g : Graph} {r : RuleId} {n : NodeId} :
    g.NewerThanOldest r n ↔
      ∃ o ∈ (g.rule r).outputs, (g.node o).timestamp < (g.node n).timestamp := by
  constructor
  · rintro ⟨oldest, hmin, hlt⟩
    obtain ⟨o, ho, rfl⟩ := List.mem_map.mp (List.min?_mem hmin)
    exact ⟨o, ho, hlt⟩
  · rintro ⟨o, ho, hlt⟩
    have hmem := List.mem_map_of_mem (f := fun o ↦ (g.node o).timestamp) ho
    cases hmin : ((g.rule r).outputs.map fun o ↦ (g.node o).timestamp).min? with
    | none =>
        rw [List.min?_eq_none_iff.mp hmin] at hmem
        exact absurd hmem List.not_mem_nil
    | some oldest => exact ⟨oldest, hmin, ((List.min?_eq_some_iff.mp hmin).2 _ hmem).trans_lt hlt⟩

theorem newer_links_iff {g : Graph} {r : RuleId} {n : NodeId} :
    g.links.Newer (fun n ↦ (g.node n).timestamp) r n ↔
      (g.rule r).isPhony = false ∧ n ∈ (g.rule r).inputs ∧ g.NewerThanOldest r n := by
  rw [newerThanOldest_iff, Rule.isPhony, decide_eq_false_iff_not]
  rfl

end Graph

namespace GraphDependencyScan

variable {ω : Type} {P : Platform ω} {L : Links} {t : NodeId → Timestamp}

theorem Visited.decidedByTime {s : Scan ω} (h : Visited L t s) : s.graph.DecidedByTime := by
  obtain rfl : s.graph.links = L := h.scanned.links
  obtain rfl : (fun n ↦ (s.graph.node n).timestamp) = t := funext h.scanned.time
  have hrule : ∀ r, s.graph.links.ReachedRule r → ((s.graph.rule r).isDirty = true ↔
      s.graph.links.Stale (fun n ↦ (s.graph.node n).timestamp) r) :=
    fun r hr ↦ (h.ruleDone hr).dirty
  refine ⟨fun r hr ↦ ?_, fun n r hn hc ↦ ?_, fun n _ hc ↦ ?_, fun r hr ↦ ?_⟩
  · rw [hrule r hr, Links.stale_iff]
    apply or_congr
    · refine exists_congr fun n ↦ and_congr_right fun hn ↦ exists_congr fun q ↦
        and_congr_right fun hq ↦ ?_
      exact (hrule q ⟨n, hq, hr.input hn⟩).symm
    · simp only [Graph.newer_links_iff]
      constructor
      · rintro ⟨n, hphony, hn, hnewer⟩
        exact ⟨hphony, n, hn, hnewer⟩
      · rintro ⟨hphony, n, hn, hnewer⟩
        exact ⟨n, hphony, hn, hnewer⟩
  · rw [hrule r ⟨n, hc, hn⟩]
    exact h.target_dirty_iff hn hc
  · rw [h.source_dirty_iff hc]
    simp only [Graph.newer_links_iff]
  · exact h.scanned.ready_of_done (h.ruleDone hr)

/-! ## The order of the roots and of the inputs -/

/-- The graphs differ in the order of the inputs and of the node map at most. -/
structure SameUpToOrder (g g₂ : Graph) : Prop extends LazyCache.Reordered g g₂ where
  roots : g₂.roots = g.roots
  nodes : g₂.nodes.Perm g.nodes

namespace SameUpToOrder

variable {g g₂ : Graph} (h : SameUpToOrder g g₂)
include h

omit h in
theorem refl (g : Graph) : SameUpToOrder g g where
  node := rfl
  rules := rfl
  rule r := ⟨(g.rule r).inputs, .refl _, rfl⟩
  roots := rfl
  nodes := .refl _

theorem symm : SameUpToOrder g₂ g where
  node := h.node.symm
  rules := h.rules.symm
  rule r := by
    obtain ⟨inputs, hperm, heq⟩ := h.rule r
    refine ⟨(g.rule r).inputs, ?_, ?_⟩
    · rw [heq]
      exact hperm.symm
    · rw [heq]
  roots := h.roots.symm
  nodes := h.nodes.symm

theorem fileTime (P : Platform ω) (w : ω) : fileTime P w g₂ = fileTime P w g := by
  funext n
  have hphony : isPhonyOutput g₂ n = isPhonyOutput g n := by
    rw [isPhonyOutput, isPhonyOutput, h.node]
    cases (g.node n).childRule with
    | none => rfl
    | some r => exact (h.frame r).2.1
  have hmem := (h.nodes.map Prod.snd).mem_iff (a := n)
  simp only [GraphDependencyScan.fileTime, hphony, hmem, h.node]

theorem newer {r : RuleId} {n : NodeId} (hn : g.links.Newer t r n) : g₂.links.Newer t r n := by
  obtain ⟨hcommand, hin, o, ho, hlt⟩ := hn
  obtain ⟨inputs, hperm, heq⟩ := h.rule r
  have hlinks : g₂.links.command r = g.links.command r ∧
      g₂.links.inputs r = inputs ∧ g₂.links.outputs r = g.links.outputs r := by
    change (g₂.rule r).command = _ ∧ (g₂.rule r).inputs = _ ∧ (g₂.rule r).outputs = _
    rw [heq]
    exact ⟨rfl, rfl, rfl⟩
  exact ⟨hlinks.1 ▸ hcommand, hlinks.2.1 ▸ hperm.mem_iff.mp hin, o, hlinks.2.2 ▸ ho, hlt⟩

theorem stale {r : RuleId} (hr : g.links.Stale t r) : g₂.links.Stale t r := by
  induction hr with
  | newer hn => exact .newer (h.newer hn)
  | @input r q n hn hq _ ih =>
      refine .input ((h.perm r).mem_iff.mp hn) ?_ ih
      change (g₂.node n).childRule = some q
      rw [h.node]
      exact hq

theorem newer_iff {r : RuleId} {n : NodeId} : g₂.links.Newer t r n ↔ g.links.Newer t r n :=
  ⟨h.symm.newer, h.newer⟩

theorem stale_iff {r : RuleId} : g₂.links.Stale t r ↔ g.links.Stale t r :=
  ⟨h.symm.stale, h.stale⟩

theorem child : g₂.links.child = g.links.child := by
  funext n
  change (g₂.node n).childRule = (g.node n).childRule
  rw [h.node]

theorem reached {n : NodeId} : g₂.links.Reached n ↔ g.links.Reached n := by
  have hroots : g₂.links.roots = g.links.roots := h.roots
  rw [Links.Reached, Links.Reached, h.feeds, hroots]

theorem reachedRule {r : RuleId} : g₂.links.ReachedRule r ↔ g.links.ReachedRule r := by
  simp only [Links.ReachedRule, h.child, h.reached]

theorem staleNode_iff {n : NodeId} : g₂.links.StaleNode t n ↔ g.links.StaleNode t n := by
  simp only [Links.StaleNode, h.child, h.stale_iff]

end SameUpToOrder

/-- Two scans have come to the same marks, counters and timestamps below the roots. -/
structure SameResult (L : Links) (g g₂ : Graph) : Prop where
  rule : ∀ r, L.ReachedRule r → (g₂.rule r).state = (g.rule r).state ∧
    (g₂.rule r).numInputsReady = (g.rule r).numInputsReady
  node : ∀ n, L.Reached n → (g₂.node n).state = (g.node n).state ∧
    (g₂.node n).timestamp = (g.node n).timestamp

theorem SameUpToOrder.sameResult {g g₂ : Graph} (h : SameUpToOrder g g₂) {s s₂ : Scan ω}
    (hs : Visited g.links t s) (hs₂ : Visited g₂.links t s₂) :
    SameResult g.links s.graph s₂.graph := by
  classical
  have hstate : ∀ {x y : State}, (x = .outOfDate ↔ y = .outOfDate) → x = y :=
    fun hxy ↦ LazyCache.state_eq_of_isDirty (decide_eq_decide.mpr hxy)
  refine ⟨fun r hr ↦ ⟨hstate ?_, ?_⟩, fun n hn ↦ ⟨hstate ?_, ?_⟩⟩
  · have hdirty := (hs.ruleDone hr).dirty
    have hdirty₂ := (hs₂.ruleDone (h.reachedRule.mpr hr)).dirty
    rw [h.stale_iff, ← hdirty] at hdirty₂
    simpa only [Rule.isDirty, decide_eq_true_eq] using hdirty₂
  · have hready := (hs.ruleDone hr).ready
    have hready₂ := (hs₂.ruleDone (h.reachedRule.mpr hr)).ready
    have hperm : (g.links.inputs r).Perm (g₂.links.inputs r) := h.perm r
    have hcount : (g₂.links.inputs r).countP (fun n ↦ decide (g₂.links.StaleNode t n)) =
        (g.links.inputs r).countP (fun n ↦ decide (g.links.StaleNode t n)) := by
      simp only [h.staleNode_iff]
      exact (hperm.countP_eq _).symm
    have hlength := hperm.length_eq
    omega
  · have hiff : (s₂.graph.node n).isDirty = true ↔ (s.graph.node n).isDirty = true := by
      cases hc : g.links.child n with
      | none =>
          have hc₂ : g₂.links.child n = none := by rw [h.child, hc]
          rw [hs.source_dirty_iff hc, hs₂.source_dirty_iff hc₂]
          simp only [h.reachedRule, h.newer_iff]
      | some r =>
          have hc₂ : g₂.links.child n = some r := by rw [h.child, hc]
          rw [hs.target_dirty_iff hn hc, hs₂.target_dirty_iff (h.reached.mpr hn) hc₂, h.stale_iff]
    simpa only [Node.isDirty, decide_eq_true_eq] using hiff
  · rw [hs.scanned.time, hs₂.scanned.time]

theorem SameUpToOrder.pristine {g g₂ : Graph} (h : SameUpToOrder g g₂) (hg : Pristine g) :
    Pristine g₂ where
  node := by
    rw [h.node]
    exact hg.node
  rule r hr := by
    obtain ⟨hclean, hready⟩ := hg.rule r (h.rules ▸ hr)
    obtain ⟨-, -, hdirty, hcount⟩ := h.frame r
    rw [hdirty, hcount, ← (h.perm r).length_eq]
    exact ⟨hclean, hready⟩

theorem acyclicBelow_roots {g : Graph} (hloop : checkGraphLoop g = .ok ()) :
    ∀ n ∈ g.roots, g.links.AcyclicBelow n := by
  intro n hn m hm
  have hcycle := Lib.forM_eq_ok.mp hloop n ((Finset.mem_sort _).mpr hn)
  exact (Graph.isCycle_ok hcycle hm).2

theorem scan_visited {A : Allocator} {graphFilePath : String} {rules : List JsonVal} {g : Graph}
    (hparse : GraphParser.processJson A graphFilePath rules = .ok g)
    (hloop : checkGraphLoop g = .ok ()) (hdep : ∀ r ∈ g.rules, (g.rule r).hasDepfile = false)
    (hsha : ∀ s, (P.sha256 s).length = 32) (w : ω) :
    ∃ s : Scan ω, scan P g w = .ok (s.graph, w) ∧ Visited g.links (fileTime P w g) s := by
  rw [scan_eq_scanFrom]
  exact scanFrom_visited (Platform.digest_ne_empty hsha)
    (GraphParser.processJson_accepted hparse).twoWay (GraphParser.processJson_pristine hparse) hdep
    (acyclicBelow_roots hloop) (fun n ↦ Finset.mem_sort _) w

end GraphDependencyScan

/-- The scan of a freshly parsed graph without depfiles: it comes to its end,
the timestamps decide everything below the roots, and every order of the roots
and of the inputs of the rules leads to the same result. -/
theorem scan_exact {A : Allocator} {graphFilePath : String} {rules : List JsonVal} {g : Graph}
    {ω : Type} {P : Platform ω} (hparse : GraphParser.processJson A graphFilePath rules = .ok g)
    (hloop : checkGraphLoop g = .ok ()) (hdep : ∀ r ∈ g.rules, (g.rule r).hasDepfile = false)
    (hsha : ∀ s, (P.sha256 s).length = 32) (w : ω) :
    ∃ g', GraphDependencyScan.scan P g w = .ok (g', w) ∧ g'.links = g.links ∧
      (∀ n, (g'.node n).timestamp = GraphDependencyScan.fileTime P w g n) ∧ g'.DecidedByTime ∧
      ∀ g₂ order, GraphDependencyScan.SameUpToOrder g g₂ → order.Perm (g.roots.sort (· ≤ ·)) →
        ∃ g₂', GraphDependencyScan.scanFrom P g₂ w order = .ok (g₂', w) ∧
          GraphDependencyScan.SameResult g.links g' g₂' := by
  open GraphDependencyScan in
  have hL := (GraphParser.processJson_accepted hparse).twoWay
  have hpristine := GraphParser.processJson_pristine hparse
  have hno := acyclicBelow_roots hloop
  obtain ⟨s, hscan, hs⟩ := scan_visited hparse hloop hdep hsha w
  refine ⟨s.graph, hscan, hs.scanned.links, hs.scanned.time, hs.decidedByTime, ?_⟩
  intro g₂ order h horder
  have hdep₂ : ∀ r ∈ g₂.rules, (g₂.rule r).hasDepfile = false := by
    intro r hr
    obtain ⟨inputs, -, heq⟩ := h.rule r
    rw [heq]
    exact hdep r (h.rules ▸ hr)
  have hno₂ : ∀ n ∈ g₂.roots, g₂.links.AcyclicBelow n := by
    intro n hn
    rw [Links.AcyclicBelow, h.feeds]
    exact hno n (h.roots ▸ hn)
  have hroots : ∀ n, n ∈ order ↔ n ∈ g₂.roots := by
    intro n
    rw [horder.mem_iff, Finset.mem_sort, h.roots]
  obtain ⟨s₂, hscan₂, hs₂⟩ := scanFrom_visited (Platform.digest_ne_empty hsha) (h.twoWay hL)
    (h.pristine hpristine) hdep₂ hno₂ hroots w
  rw [h.fileTime P w] at hs₂
  exact ⟨s₂.graph, hscan₂, h.sameResult hs hs₂⟩

/-- Two files that are made from one, with the roots in either order. -/
theorem scan_exact_touch :
    ∃ g g', GraphParser.processJson bumpAllocator "falcon.json" touchMakefile = .ok g ∧
      GraphDependencyScan.scan touchHost.platform g (touchDisk 3) = .ok (g', touchDisk 3) ∧
      g'.DecidedByTime ∧ (g'.node 1).timestamp = 2 ∧
      ∃ g₂', GraphDependencyScan.scanFrom touchHost.platform g (touchDisk 3)
          (g.roots.sort (· ≤ ·)).reverse = .ok (g₂', touchDisk 3) ∧
        GraphDependencyScan.SameResult g.links g' g₂' := by
  obtain ⟨g, hg, htimes⟩ := exists_touchGraph
  have hloop := checkGraphLoop_of_acyclic (GraphParser.processJson_accepted hg.parse)
    hg.startable.acyclic
  obtain ⟨g', hscan, -, htime, hdecided, horder⟩ := scan_exact hg.parse hloop
    hg.startable.noDepfile length_touchHost (touchDisk 3)
  refine ⟨g, g', hg.parse, hscan, hdecided, ?_, horder g _ (.refl g) (List.reverse_perm _)⟩
  rw [htime]
  exact (htimes 3 (by decide)).1

end Falcon
