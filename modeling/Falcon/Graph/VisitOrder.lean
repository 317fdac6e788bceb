import Falcon.Graph.Visits
import Falcon.Lib.PostOrder

/-!
# The order of the visits

The scan follows the inputs that the makefile lists, so that the order in which
it visits the nodes can be told from the parsed graph.  At the turn of a rule
the nodes of that graph that have a hash are those that come before the outputs
of the rule.
-/

namespace Falcon

open Relation

/-- The nodes that are visited for a node. -/
def Links.below (L : Links) (n : NodeId) : List NodeId :=
  match L.child n with
  | none => []
  | some r => L.inputs r

theorem Links.below_of_child {L : Links} {n : NodeId} {r : RuleId} (h : L.child n = some r) :
    L.below n = L.inputs r := by
  rw [below, h]

theorem Links.mem_below {L : Links} {m n : NodeId} : m ∈ L.below n ↔ L.Feeds m n := by
  rw [below]
  cases hr : L.child n with
  | none => simp [Feeds, hr]
  | some r => simp [Feeds, hr]

namespace Graph

/-- The nodes below the roots, in the order in which they are left. -/
def visitOrder (g : Graph) (order : List NodeId) : List NodeId :=
  order.foldl (Lib.postOrder g.links.below g.depth) []

/-- The node comes before the outputs of the rule. -/
def VisitedBefore (g : Graph) (order : List NodeId) (r : RuleId) (n : NodeId) : Prop :=
  n ∈ (g.visitOrder order).takeWhile fun m ↦ g.links.child m ≠ some r

instance (g : Graph) (order : List NodeId) (r : RuleId) (n : NodeId) :
    Decidable (g.VisitedBefore order r n) :=
  inferInstanceAs (Decidable (n ∈ (g.visitOrder order).takeWhile _))

theorem depth_of_links {g g' : Graph} (h : g'.links = g.links) : g'.depth = g.depth := by
  have hrules : g'.rules = g.rules := congrArg Links.rules h
  have houtputs : ∀ r, (g'.rule r).outputs = (g.rule r).outputs :=
    congrFun (congrArg Links.outputs h)
  simp only [depth, hrules, houtputs]

end Graph

namespace GraphDependencyScan

open Graph Depfile

variable {ω : Type} {P : Platform ω} {g₀ g g' : Graph} {t : NodeId → Timestamp}
  {done : List NodeId}

/-- Of the nodes of `g₀`, whose timestamps are `t`, those of `done` have a hash.
All other nodes that can be looked up have one, too, and have no timestamp. -/
structure Visiting (g₀ : Graph) (t : NodeId → Timestamp) (done : List NodeId) (g : Graph) :
    Prop where
  allocated : g₀.allocated ⊆ g.allocated
  mem_allocated : ∀ n ∈ done, n ∈ g₀.allocated
  hashed : ∀ n ∈ g₀.allocated, (g.node n).hash ≠ "" ↔ n ∈ done
  time : ∀ n ∈ g₀.allocated, (g.node n).timestamp = t n
  lookup : ∀ path n, g₀.nodes.lookup path = some n → g.nodes.lookup path = some n
  named : ∀ path n, g.nodes.lookup path = some n → g₀.nodes.lookup path = some n ∨
    n ∉ g₀.allocated ∧ (g.node n).hash ≠ "" ∧ (g.node n).timestamp = 0

namespace Visiting

variable (h : Visiting g₀ t done g)
include h

theorem congr (hl : g'.links = g.links) (hhash : ∀ n, (g'.node n).hash = (g.node n).hash)
    (htime : ∀ n, (g'.node n).timestamp = (g.node n).timestamp) :
    Visiting g₀ t done g' where
  allocated := allocated_of_links hl ▸ h.allocated
  mem_allocated := h.mem_allocated
  hashed n hn := by
    rw [hhash]
    exact h.hashed n hn
  time n hn := (htime n).trans (h.time n hn)
  lookup path n hn := by
    rw [show g'.nodes = g.nodes from congrArg Links.nodes hl]
    exact h.lookup path n hn
  named path n hn := by
    rw [show g'.nodes = g.nodes from congrArg Links.nodes hl] at hn
    rw [hhash, htime]
    exact h.named path n hn

theorem setRule {r : RuleId} {x : Rule} (hl : (g.setRule r x).links = g.links) :
    Visiting g₀ t done (g.setRule r x) :=
  h.congr hl (fun _ ↦ rfl) fun _ ↦ rfl

/-- A depfile is loaded; the files that are new get their hashes at once. -/
theorem load {r : RuleId} {ins : List String} {more : List NodeId} (htied : g.Tied)
    (hkeys : (g.nodes.map Prod.fst).Nodup) (hload : Installed P g r ins more g') :
    Visiting g₀ t done g' where
  allocated := h.allocated.trans hload.grown.allocated
  mem_allocated := h.mem_allocated
  hashed n hn := by
    rw [hload.grown.proj Node.hash (fun _ ↦ rfl) (h.allocated hn)]
    exact h.hashed n hn
  time n hn :=
    (hload.grown.proj Node.timestamp (fun _ ↦ rfl) (h.allocated hn)).trans (h.time n hn)
  lookup path n hn := hload.lookup_old (h.lookup path n hn)
  named path n hn := by
    rcases hload.old_or_new htied hkeys hn with ⟨hold, hmem⟩ | ⟨-, hfree⟩
    · rw [hload.grown.proj Node.hash (fun _ ↦ rfl) hmem,
        hload.grown.proj Node.timestamp (fun _ ↦ rfl) hmem]
      exact h.named path n hold
    · have he := (Lib.lookup_eq_some_iff_mem hload.adds.keys).mp hn
      have hmem := ((hload.loading.tied htied).nodes _ he).1
      exact Or.inr ⟨fun hin ↦ hfree (h.allocated hin), (hload.adds.created n hmem hfree).2.1,
        (hload.grown.new n hmem hfree).2⟩

/-- A node is hashed, unless it has been before. -/
theorem setHash {n : NodeId} {a b : String} (hn : n ∈ g₀.allocated) (ha : a ≠ "") :
    Visiting g₀ t (done ++ [n])
      (g.setNode n { g.node n with hash := a, hashDepfile := b }) where
  allocated := h.allocated
  mem_allocated m hm := by
    rcases List.mem_append.mp hm with hm | hm
    · exact h.mem_allocated m hm
    · exact List.mem_singleton.mp hm ▸ hn
  hashed m hm := by
    rw [List.mem_append, List.mem_singleton, setNode_node]
    by_cases hmn : m = n
    · rw [if_pos hmn]
      exact iff_of_true ha (Or.inr hmn)
    · rw [if_neg hmn, or_iff_left hmn]
      exact h.hashed m hm
  time m hm := (proj_setNode Node.timestamp (by rfl) m).trans (h.time m hm)
  lookup := h.lookup
  named path m hm := by
    rw [proj_setNode Node.timestamp (by rfl) m, setNode_node]
    by_cases hmn : m = n
    · rw [if_pos hmn]
      exact (h.named path m hm).imp_right fun hin ↦ ⟨hin.1, ha, hin.2.2⟩
    · rw [if_neg hmn]
      exact h.named path m hm

end Visiting

/-! ## One turn -/

section Turn

variable {O : Set RuleId} {m : Turn ω}

theorem Visiting.hashRule {a b : Bool} {r : RuleId} (h : Visiting g₀ t done g)
    (hrun : Hash.updateRuleHash P g r a b = .ok g') : Visiting g₀ t done g' := by
  obtain ⟨hash, hashDepfile, rfl⟩ := Hash.updateRuleHash_frame hrun
  exact h.setRule (links_setRule rfl rfl rfl rfl rfl)

theorem Visiting.scanDepfile (hdigest : ∀ data, P.digest data ≠ "") (hm : AtTurn g₀ O m)
    (h : Visiting g₀ t done m.scan.graph) {dirty : Bool} {w' : ω}
    (hrun : scanDepfile P m.scan.graph m.scan.world m.rule = .ok (dirty, g', w')) :
    Visiting g₀ t done g' := by
  rw [GraphDependencyScan.scanDepfile] at hrun
  split at hrun
  · obtain ⟨⟨loaded, g₁, w₁⟩, hload, hrest⟩ := Lib.bind_eq_ok.mp hrun
    cases loaded with
    | false =>
        obtain ⟨-, hpair⟩ := Prod.mk.inj (Except.ok.inj hrest)
        obtain ⟨rfl, -⟩ := Prod.mk.inj hpair
        rcases ruleLoadDepfile_none hm.none hload with ⟨-, rfl⟩ | ⟨htrue, -⟩
        · exact h
        · cases htrue
    | true =>
        obtain ⟨g₂, hhash, hpure⟩ := Lib.bind_eq_ok.mp hrest
        obtain ⟨-, hpair⟩ := Prod.mk.inj (Except.ok.inj hpure)
        obtain ⟨rfl, -⟩ := Prod.mk.inj hpair
        obtain ⟨ins, more, -, hinstalled⟩ := hm.loaded hdigest hload
        exact (h.load hm.walk.tied hm.walk.keys hinstalled).hashRule hhash
  · obtain ⟨-, hpair⟩ := Prod.mk.inj (Except.ok.inj hrun)
    obtain ⟨rfl, -⟩ := Prod.mk.inj hpair
    exact h

/-- No node is hashed after the turn of a rule has come and before it is over. -/
theorem Visiting.finishRule (hdigest : ∀ data, P.digest data ≠ "") (hm : AtTurn g₀ O m)
    (hne : g₀.links.outputs m.rule ≠ []) (h : Visiting g₀ t done m.scan.graph) {dirty : Bool}
    {s' : Scan ω} (hrun : finishRule P m = .ok (dirty, s')) : Visiting g₀ t done s'.graph := by
  obtain ⟨g₁, hhash, hrest⟩ := Lib.bind_eq_ok.mp hrun
  obtain ⟨⟨depDirty, g₂, w₂⟩, hdepfile, hrest⟩ := Lib.bind_eq_ok.mp hrest
  obtain ⟨⟨timeDirty, g₃⟩, htimes, hpure⟩ := Lib.bind_eq_ok.mp hrest
  obtain ⟨-, rfl⟩ := Prod.mk.inj (Except.ok.inj hpure)
  have h₁ := hm.hashRule hhash
  have h₂ : Visiting g₀ t done g₂ := (h.hashRule hhash).scanDepfile hdigest h₁ hdepfile
  have houtputs : g₂.links.outputs m.rule ≠ [] := by
    change (g₂.rule m.rule).outputs ≠ []
    rw [(h₁.scanDepfile hdigest hdepfile).1.explicit.outputs]
    exact hne
  obtain ⟨b, g', htimes', -, hcompared⟩ := scanTimes_spec (g := g₂) rfl (fun _ ↦ rfl) houtputs
  obtain ⟨-, rfl⟩ : timeDirty = b ∧ g₃ = g' :=
    Prod.mk.inj (Except.ok.inj (htimes.symm.trans htimes'))
  have h₃ := h₂.congr hcompared.links hcompared.hash hcompared.time
  change Visiting g₀ t done (if _ then _ else _)
  split
  · exact h₃.setRule (links_setRule rfl rfl rfl rfl rfl)
  · exact h₃

end Turn

/-! ## The recursion -/

/-- What the recursion adds to the nodes that have been visited. -/
def Visits (g₀ : Graph) (node : Scan ω → NodeId → Outcome (Bool × Scan ω))
    (visit : List NodeId → NodeId → List NodeId) (n : NodeId) : Prop :=
  ∀ O s b s' t done, Walk g₀ O s → (∀ q ∈ O, q ∈ s.seen ∧ g₀.links.Uses q n) →
    Visiting g₀ t done s.graph → node s n = .ok (b, s') → Visiting g₀ t (visit done n) s'.graph

section Recursion

variable {O : Set RuleId} {s s₀ s' : Scan ω} {r : RuleId}
  {node : Scan ω → NodeId → Outcome (Bool × Scan ω)} {visit : List NodeId → NodeId → List NodeId}

theorem updateInput_visiting {n : NodeId} {done' : List NodeId} {x x' : Bool × Scan ω}
    (hnode : ∀ b s', node x.2 n = .ok (b, s') → Visiting g₀ t done' s'.graph)
    (hrun : updateInput node r x n = .ok x') : Visiting g₀ t done' x'.2.graph := by
  obtain ⟨⟨b, s₁⟩, hrec, hrest⟩ := Lib.bind_eq_ok.mp hrun
  have h₁ := hnode b s₁ hrec
  cases b with
  | false => exact Except.ok.inj hrest ▸ h₁
  | true =>
      simp only [if_true] at hrest
      split at hrest
      · exact Except.ok.inj hrest ▸ h₁
      · obtain ⟨g₂, hmark, hpure⟩ := Lib.bind_eq_ok.mp hrest
        obtain ⟨-, rfl⟩ := markInputDirty_eq_ok hmark
        rw [← Except.ok.inj hpure]
        exact h₁.setRule (links_setRule rfl rfl rfl rfl rfl)

/-- The loop over the inputs, of which `pre` is done, visits one after the other. -/
theorem updateInputs_visiting (hr : r ∈ g₀.rules) (hnew : r ∉ s₀.seen)
    (hO : ∀ q ∈ O, q ∈ s₀.seen ∧ ∀ n ∈ g₀.links.inputs r, g₀.links.Uses q n)
    (hin : (s₀.graph.rule r).inputs = g₀.links.inputs r)
    (hnode : ∀ n ∈ g₀.links.inputs r, Walks g₀ node n ∧ Visits g₀ node visit n)
    {pre post : List NodeId} (rest : List NodeId) {x x' : Bool × Scan ω}
    (hinputs : g₀.links.inputs r = pre ++ (post ++ rest))
    (h : InputsWalked g₀ O r s₀ pre x) (hv : Visiting g₀ t done x.2.graph)
    (hrun : post.foldlM (updateInput node r) x = .ok x') :
    Visiting g₀ t (post.foldl visit done) x'.2.graph := by
  induction post generalizing pre done x with
  | nil => exact Except.ok.inj hrun ▸ hv
  | cons n post ih =>
      rw [List.foldlM_cons] at hrun
      obtain ⟨x₁, hstep, hrest⟩ := Lib.bind_eq_ok.mp hrun
      have hmem : n ∈ g₀.links.inputs r := by simp [hinputs]
      obtain ⟨h₁, -⟩ := updateInput_walked hr hnew
        (fun q hq ↦ ⟨(hO q hq).1, (hO q hq).2 n hmem⟩) hmem (hin.trans hinputs)
        (hnode n hmem).1 h hstep
      have huses : ∀ q ∈ insert r O, q ∈ x.2.seen ∧ g₀.links.Uses q n := by
        rintro q (rfl | hq)
        · exact ⟨h.seen, Links.uses_input hmem⟩
        · exact ⟨h.later.seen (hO q hq).1, (hO q hq).2 n hmem⟩
      have hv₁ := updateInput_visiting
        (fun b s' ↦ (hnode n hmem).2 (insert r O) x.2 b s' t done h.walk huses hv) hstep
      exact ih (by simp [hinputs]) h₁ hv₁ hrest

/-- The inputs have been visited when a rule is left. -/
theorem Visiting.inputs_subset (hg : Scannable g₀) (hs : Walk g₀ O s)
    (hv : Visiting g₀ t done s.graph) (hseen : r ∈ s.seen) (hrO : r ∉ O) :
    g₀.links.inputs r ⊆ done := by
  intro n hn
  obtain ⟨hr, hhashed⟩ := hs.inputs r hseen hrO
  have hin : n ∈ Hash.explicitInputs (g₀.rule r) := by
    rw [Hash.explicitInputs_none (hg.explicit r hr)]
    exact hn
  rw [← hs.explicit.inputs] at hin
  exact (hv.hashed n (hg.tied.allocated r hr n (Or.inl hn))).mp
    (hhashed n (List.mem_of_mem_take hin))

theorem updateRule_visiting (hdigest : ∀ data, P.digest data ≠ "") (hg : Scannable g₀)
    (hs : Walk g₀ O s) (hr : r ∈ g₀.rules) (hrO : r ∉ O) (hne : g₀.links.outputs r ≠ [])
    (hO : ∀ q ∈ O, q ∈ s.seen ∧ ∀ n ∈ g₀.links.inputs r, g₀.links.Uses q n) {fuel : ℕ}
    (hnode : ∀ n ∈ g₀.links.inputs r, Walks g₀ node n ∧
      Visits g₀ node (Lib.postOrder g₀.links.below fuel) n)
    (hv : Visiting g₀ t done s.graph) {dirty : Bool}
    (hrun : updateRule P node s r = .ok (dirty, s')) :
    Visiting g₀ t ((g₀.links.inputs r).foldl (Lib.postOrder g₀.links.below fuel) done)
      s'.graph := by
  by_cases hnew : r ∈ s.seen
  · rw [updateRule, if_pos hnew] at hrun
    obtain ⟨-, rfl⟩ := Prod.mk.inj (Except.ok.inj hrun)
    rw [Lib.foldl_postOrder_of_subset fuel (hv.inputs_subset hg hs hnew hrO)]
    exact hv
  · have hin := hs.inputs_of_new hg.explicit hr hnew
    rw [updateRule_of_new P node hnew, hin] at hrun
    obtain ⟨x, hloop, hfinish⟩ := Lib.bind_eq_ok.mp hrun
    obtain ⟨hinputs, -⟩ := updateInputs_walked hr hnew hO hin (fun n hn ↦ (hnode n hn).1)
      [] (by simp) (.start hs hr hnew) hloop
    rw [List.nil_append] at hinputs
    have hv' := updateInputs_visiting hr hnew hO hin hnode [] (by simp) (.start hs hr hnew) hv hloop
    exact hv'.finishRule hdigest (hinputs.atTurn hs hr hnew hin) hne hfinish

theorem hashNode_visiting (hdigest : ∀ data, P.digest data ≠ "") {n : NodeId}
    (hn : n ∈ g₀.allocated) (hv : Visiting g₀ t done s.graph) (hrun : hashNode P s n = .ok s') :
    Visiting g₀ t (if n ∈ done then done else done ++ [n]) s'.graph := by
  rw [hashNode] at hrun
  split at hrun
  · rename_i hempty
    obtain ⟨⟨changed, g⟩, hupdate, hpure⟩ := Lib.bind_eq_ok.mp hrun
    rw [← Except.ok.inj hpure, if_neg fun hin ↦ (hv.hashed n hn).mpr hin hempty]
    obtain ⟨ha, -, -⟩ := updateNodeHash_hashed hdigest hupdate
    obtain ⟨hash, hashDepfile, rfl⟩ := Hash.updateNodeHash_frame hupdate
    rw [setNode_node, if_pos rfl] at ha
    exact hv.setHash hn ha
  · rename_i hne
    obtain rfl := Except.ok.inj hrun
    rw [if_pos ((hv.hashed n hn).mp hne)]
    exact hv

/-- The nodes below a node are visited in postorder. -/
theorem updateNode_visits (hdigest : ∀ data, P.digest data ≠ "") (hg : Scannable g₀) {fuel : ℕ}
    {n : NodeId} (hno : g₀.links.AcyclicBelow n) (hn : n ∈ g₀.allocated) :
    Visits g₀ (updateNode P fuel) (Lib.postOrder g₀.links.below fuel) n := by
  induction fuel generalizing n with
  | zero =>
      intro O s b s' t done _ _ _ hrun
      cases hrun
  | succ fuel ih =>
      intro O s b s' t done hs huses hv hrun
      have hc := hs.childRule hg.tied.twoWay n
      have hcycle : ¬ TransGen (fun x y ↦ x ∈ g₀.links.below y) n n := by
        simpa only [Links.mem_below] using hno n .refl
      -- What comes before the hash of the node is computed.
      suffices h : ∃ s₁, Visiting g₀ t
          ((g₀.links.below n).foldl (Lib.postOrder g₀.links.below fuel) done) s₁.graph ∧
          hashNode P s₁ n = .ok s' ∧ (n ∈ done → g₀.links.below n ⊆ done) by
        obtain ⟨s₁, hv₁, hhash, hsub⟩ := h
        have hv' := hashNode_visiting hdigest hn hv₁ hhash
        by_cases hin : n ∈ done
        · rw [Lib.foldl_postOrder_of_subset fuel (hsub hin), if_pos hin] at hv'
          rw [Lib.postOrder_of_mem _ hin]
          exact hv'
        · have hnot := Lib.notMem_foldl_postOrder fuel hcycle hin
          rw [if_neg hnot] at hv'
          rw [Lib.postOrder_of_notMem fuel hin]
          exact hv'
      cases hr : g₀.links.child n with
      | none =>
          rw [hr] at hc
          obtain ⟨⟨dirty, s₁⟩, hchild, hrest⟩ := Lib.bind_eq_ok.mp hrun
          obtain ⟨s₂, hhash, hpure⟩ := Lib.bind_eq_ok.mp hrest
          obtain ⟨rfl, rfl⟩ := Prod.mk.inj (Except.ok.inj hpure)
          simp only [updateChild, hc] at hchild
          obtain ⟨rfl, rfl⟩ := Prod.mk.inj (Except.ok.inj hchild)
          have hbelow : g₀.links.below n = [] := by rw [Links.below, hr]
          rw [hbelow]
          exact ⟨s, hv, hhash, fun _ ↦ List.nil_subset _⟩
      | some r =>
          rw [hr] at hc
          obtain ⟨s₁, hrule, hhash⟩ := updateNode_target hc hrun
          obtain ⟨hmem, hout⟩ := (hg.tied.twoWay.child_eq_some n r).mp hr
          have hO : r ∉ O := fun hin ↦ Links.not_uses_of_child (hno n .refl) hr (huses r hin).2
          have huses' : ∀ q ∈ O, q ∈ s.seen ∧ ∀ n ∈ g₀.links.inputs r, g₀.links.Uses q n :=
            fun q hq ↦ ⟨(huses q hq).1, fun x hx ↦ (huses q hq).2.of_feeds ⟨r, hr, hx⟩⟩
          have hrec : ∀ x ∈ g₀.links.inputs r, Walks g₀ (updateNode P fuel) x ∧
              Visits g₀ (updateNode P fuel) (Lib.postOrder g₀.links.below fuel) x := by
            intro x hx
            have hno' := hno.of_feeds ⟨r, hr, hx⟩
            exact ⟨updateNode_walks hdigest hg hno',
              ih hno' (hg.tied.allocated r hmem x (Or.inl hx))⟩
          have hv₁ := updateRule_visiting hdigest hg hs hmem hO (List.ne_nil_of_mem hout) huses'
            hrec hv hrule
          rw [Links.below_of_child hr]
          refine ⟨_, ?_, hhash, fun hin ↦ ?_⟩
          · split
            · have hstate := compared_setState s₁.graph n
              exact hv₁.congr hstate.links hstate.hash hstate.time
            · exact hv₁
          · obtain ⟨hseen, hrO, -⟩ := hs.target n r hc ((hv.hashed n hn).mpr hin)
            exact hv.inputs_subset hg hs hseen hrO

end Recursion

/-! ## The order at a turn -/

/-- The turn `m` comes when `done` has been visited, directly before an output of
its rule. -/
structure TurnVisited (g₀ : Graph) (t : NodeId → Timestamp) (m : Turn ω)
    (done visited : List NodeId) : Prop where
  visiting : Visiting g₀ t done m.scan.graph
  next : ∃ n, g₀.links.child n = some m.rule ∧ g₀.links.AcyclicBelow n ∧ done ++ [n] <+: visited
  target : ∃ O, AtTurn g₀ O m

theorem TurnVisited.mono {m : Turn ω} {visited visited' : List NodeId}
    (h : TurnVisited g₀ t m done visited) (hbefore : visited <+: visited') :
    TurnVisited g₀ t m done visited' := by
  obtain ⟨n, hn, hno, hnext⟩ := h.next
  exact { h with next := ⟨n, hn, hno, hnext.trans hbefore⟩ }

/-- What has been visited at the turn comes before the outputs of the rule. -/
theorem TurnVisited.takeWhile (hg : Scannable g₀) {m : Turn ω} {visited : List NodeId}
    (h : TurnVisited g₀ t m done visited) :
    visited.takeWhile (fun n ↦ g₀.links.child n ≠ some m.rule) = done := by
  obtain ⟨n, hn, -, hnext⟩ := h.next
  obtain ⟨O, hm⟩ := h.target
  refine Lib.takeWhile_of_prefix hnext (fun k hk ↦ ?_) (by simp [hn])
  rw [decide_eq_true_eq]
  intro hc
  have hhash := (h.visiting.hashed k (h.visiting.mem_allocated k hk)).mpr hk
  rw [← hm.walk.childRule hg.tied.twoWay] at hc
  exact (hm.walk.target k m.rule hc hhash).2.1 (Set.mem_insert m.rule O)

section Turns

variable {O : Set RuleId} {s : Scan ω} {m : Turn ω}

theorem NodeTurn.visited (hdigest : ∀ data, P.digest data ≠ "") (hg : Scannable g₀) {fuel : ℕ}
    {n : NodeId} (hno : g₀.links.AcyclicBelow n) (hs : Walk g₀ O s)
    (huses : ∀ q ∈ O, q ∈ s.seen ∧ g₀.links.Uses q n) (hn : n ∈ g₀.allocated)
    (hv : Visiting g₀ t done s.graph) (h : NodeTurn P fuel s n m) :
    ∃ done', TurnVisited g₀ t m done' (Lib.postOrder g₀.links.below fuel done n) := by
  induction fuel generalizing n O s done with
  | zero => exact h.elim
  | succ fuel ih =>
      have hturn := h.atTurn hdigest hg hno hs huses
      obtain ⟨r, hc, hnew, hcases⟩ := h
      have hr : g₀.links.child n = some r := by rw [← hs.childRule hg.tied.twoWay, hc]
      obtain ⟨hmem, hout⟩ := (hg.tied.twoWay.child_eq_some n r).mp hr
      have hnot : n ∉ done := fun hin ↦
        hnew (hs.target n r hc ((hv.hashed n hn).mpr hin)).1
      have hin := hs.inputs_of_new hg.explicit hmem hnew
      have huses' : ∀ q ∈ O, q ∈ s.seen ∧ ∀ n ∈ g₀.links.inputs r, g₀.links.Uses q n :=
        fun q hq ↦ ⟨(huses q hq).1, fun x hx ↦ (huses q hq).2.of_feeds ⟨r, hr, hx⟩⟩
      have hrec : ∀ x ∈ g₀.links.inputs r, Walks g₀ (updateNode P fuel) x ∧
          Visits g₀ (updateNode P fuel) (Lib.postOrder g₀.links.below fuel) x := by
        intro x hx
        have hno' := hno.of_feeds ⟨r, hr, hx⟩
        exact ⟨updateNode_walks hdigest hg hno',
          updateNode_visits hdigest hg hno' (hg.tied.allocated r hmem x (Or.inl hx))⟩
      rw [Lib.postOrder_of_notMem fuel hnot, Links.below_of_child hr]
      rcases hcases with ⟨pre, k, post, x, hsplit, hloop, hk⟩ | ⟨x, hloop, rfl⟩
      · have hsplit' : g₀.links.inputs r = pre ++ k :: post := hin.symm.trans hsplit
        have hkmem : k ∈ g₀.links.inputs r := by simp [hsplit']
        obtain ⟨hinputs, -⟩ := updateInputs_walked hmem hnew huses' hin
          (fun x hx ↦ (hrec x hx).1) (k :: post) (by simpa using hsplit') (.start hs hmem hnew)
          hloop
        have hv' := updateInputs_visiting hmem hnew huses' hin hrec (k :: post)
          (by simpa using hsplit') (.start hs hmem hnew) hv hloop
        obtain ⟨done', hvisited⟩ := ih (hno.of_feeds ⟨r, hr, hkmem⟩) hinputs.walk (by
          rintro q (rfl | hq)
          · exact ⟨hinputs.seen, Links.uses_input hkmem⟩
          · exact ⟨hinputs.later.seen (huses' q hq).1, (huses' q hq).2 k hkmem⟩)
          (hg.tied.allocated r hmem k (Or.inl hkmem)) hv' hk
        refine ⟨done', hvisited.mono ?_⟩
        rw [hsplit', List.foldl_append, List.foldl_cons]
        exact (Lib.prefix_foldl (Lib.prefix_postOrder fuel) post _).trans (List.prefix_append _ _)
      · rw [hin] at hloop
        have hv' := updateInputs_visiting hmem hnew huses' hin hrec [] (by simp)
          (.start hs hmem hnew) hv hloop
        exact ⟨_, hv', ⟨n, hr, hno, List.prefix_refl _⟩, hturn.2⟩

theorem scanRoots_visiting (hdigest : ∀ data, P.digest data ≠ "") (hg : Scannable g₀) {fuel : ℕ}
    {l : List NodeId} (hno : ∀ n ∈ l, g₀.links.AcyclicBelow n) (hl : ∀ n ∈ l, n ∈ g₀.allocated)
    (hs : Walk g₀ ∅ s) (hv : Visiting g₀ t done s.graph) {s' : Scan ω}
    (hrun : l.foldlM (scanRoot P fuel) s = .ok s') :
    Visiting g₀ t (l.foldl (Lib.postOrder g₀.links.below fuel) done) s'.graph := by
  induction l generalizing s done with
  | nil => exact Except.ok.inj hrun ▸ hv
  | cons n l ih =>
      rw [List.foldlM_cons] at hrun
      obtain ⟨s₁, hroot, hrest⟩ := Lib.bind_eq_ok.mp hrun
      obtain ⟨⟨b, s₂⟩, hnode, hpure⟩ := Lib.bind_eq_ok.mp hroot
      obtain rfl := Except.ok.inj hpure
      have hn : n ∈ n :: l := List.mem_cons_self
      have hwalked := updateNode_walks hdigest hg (hno n hn) ∅ s b s₂ hs (fun q hq ↦ hq.elim) hnode
      have hv₁ := updateNode_visits hdigest hg (hno n hn) (hl n hn) ∅ s b s₂ t done hs
        (fun q hq ↦ hq.elim) hv hnode
      exact ih (fun k hk ↦ hno k (List.mem_cons_of_mem n hk))
        (fun k hk ↦ hl k (List.mem_cons_of_mem n hk)) hwalked.walk hv₁ hrest

theorem Scannable.visiting (hg : Scannable g₀) (w : ω) :
    Visiting g₀ (fileTime P w g₀) [] (statNodes P w g₀) := by
  have hstat := statNodes_spec P w g₀
  have hnodes : (statNodes P w g₀).nodes = g₀.nodes := congrArg Links.nodes hstat.links
  refine ⟨allocated_of_links hstat.links ▸ Finset.Subset.refl _,
    fun n hn ↦ absurd hn List.not_mem_nil, fun n _ ↦ ?_, fun n _ ↦ ?_,
    fun path n hn ↦ hnodes ▸ hn, fun path n hn ↦ Or.inl (hnodes ▸ hn)⟩
  · rw [hstat.node]
    exact iff_of_false (fun hne ↦ hne (hg.pristine.node n).2) List.not_mem_nil
  · rw [hstat.node]

theorem ScanTurn.visited (hdigest : ∀ data, P.digest data ≠ "") (hg : Scannable g₀)
    {order : List NodeId} (hno : ∀ n ∈ order, g₀.links.AcyclicBelow n)
    (horder : ∀ n ∈ order, n ∈ g₀.allocated) {w : ω} (h : ScanTurn P g₀ w order m) :
    ∃ done, TurnVisited g₀ (fileTime P w g₀) m done (g₀.visitOrder order) := by
  obtain ⟨pre, n, post, s, rfl, hpre, hturn⟩ := h
  have hpre' : ∀ k ∈ pre, k ∈ pre ++ n :: post := fun k hk ↦ List.mem_append_left _ hk
  have hn : n ∈ pre ++ n :: post := by simp
  have hs := (scanRoots_walked hdigest hg (fun k hk ↦ hno k (hpre' k hk)) (hg.walk w) hpre).1
  have hv := scanRoots_visiting hdigest hg (fun k hk ↦ hno k (hpre' k hk))
    (fun k hk ↦ horder k (hpre' k hk)) (hg.walk w) (hg.visiting w) hpre
  obtain ⟨done, hvisited⟩ := hturn.visited hdigest hg (hno n hn) hs (fun q hq ↦ hq.elim)
    (horder n hn) hv
  refine ⟨done, ?_⟩
  rw [depth_of_links (statNodes_spec P w g₀).links] at hvisited
  rw [visitOrder, List.foldl_append, List.foldl_cons]
  exact hvisited.mono (Lib.prefix_foldl (Lib.prefix_postOrder g₀.depth) post _)

/-- At its turn a rule finds a node of the parsed graph hashed if and only if the
node is visited before. -/
theorem ScanTurn.visiting (hdigest : ∀ data, P.digest data ≠ "") (hg : Scannable g₀)
    {order : List NodeId} (hno : ∀ n ∈ order, g₀.links.AcyclicBelow n)
    (horder : ∀ n ∈ order, n ∈ g₀.allocated) {w : ω} (h : ScanTurn P g₀ w order m) :
    ∃ done, Visiting g₀ (fileTime P w g₀) done m.scan.graph ∧
      ∀ n, n ∈ done ↔ g₀.VisitedBefore order m.rule n := by
  obtain ⟨done, hvisited⟩ := h.visited hdigest hg hno horder
  refine ⟨done, hvisited.visiting, fun k ↦ ?_⟩
  rw [VisitedBefore, hvisited.takeWhile hg]

end Turns

end GraphDependencyScan

end Falcon
