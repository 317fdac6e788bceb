import Falcon.Graph.FirstLoad
import Falcon.Graph.ScanHashes

/-!
# A scan that loads depfiles

The turn of a rule comes when all its inputs have been visited: its hash is
computed and its depfile is loaded.  The load may add files to the graph and
inputs to the rule, but the rules that are still to come have nothing but their
explicit inputs, and what has been visited is final.
-/

namespace Falcon

open Relation

namespace GraphDependencyScan

open Graph Depfile

variable {ω : Type} {P : Platform ω} {w w' : ω} {g g' : Graph} {r : RuleId}

/-! ## The turns of the rules -/

/-- The loop over the inputs of a rule is over. -/
structure Turn (ω : Type) where
  inputDirty : Bool
  scan : Scan ω
  rule : RuleId

section Turns

variable (P)

/-- What `updateRule` does after the loop. -/
def finishRule (m : Turn ω) : Outcome (Bool × Scan ω) := do
  let g ← Hash.updateRuleHash P m.scan.graph m.rule true true
  let (depDirty, g, w) ← scanDepfile P g m.scan.world m.rule
  let (timeDirty, g) ← scanTimes g m.rule
  let isDirty := m.inputDirty || depDirty || timeDirty
  pure (isDirty, { m.scan with
    graph := if isDirty then g.updateRule m.rule (·.setState .outOfDate) else g, world := w })

/-- The rule is entered. -/
def Scan.enter (s : Scan ω) (r : RuleId) : Bool × Scan ω :=
  (false, { s with seen := insert r s.seen })

theorem updateRule_of_new (node : Scan ω → NodeId → Outcome (Bool × Scan ω)) {s : Scan ω}
    (h : r ∉ s.seen) : updateRule P node s r = (do
      let (inputDirty, s) ← (s.graph.rule r).inputs.foldlM (updateInput node r) (s.enter r)
      finishRule P ⟨inputDirty, s, r⟩) := by
  rw [updateRule, if_neg h]
  rfl

/-- The turn comes while `updateRule` runs for the rule `r`, given what comes
while the recursion runs. -/
def RuleTurn (node : Scan ω → NodeId → Outcome (Bool × Scan ω))
    (turn : Scan ω → NodeId → Turn ω → Prop) (s : Scan ω) (r : RuleId) (m : Turn ω) : Prop :=
  r ∉ s.seen ∧
    ((∃ pre n post x, (s.graph.rule r).inputs = pre ++ n :: post ∧
        pre.foldlM (updateInput node r) (s.enter r) = .ok x ∧ turn x.2 n m) ∨
      ∃ x, (s.graph.rule r).inputs.foldlM (updateInput node r) (s.enter r) = .ok x ∧
        m = ⟨x.1, x.2, r⟩)

def NodeTurn : ℕ → Scan ω → NodeId → Turn ω → Prop
  | 0, _, _, _ => False
  | fuel + 1, s, n, m => ∃ r, (s.graph.node n).childRule = some r ∧
      RuleTurn (updateNode P fuel) (NodeTurn fuel) s r m

/-- The turn comes in the scan, which may come to its end or not. -/
def ScanTurn (g : Graph) (w : ω) (order : List NodeId) (m : Turn ω) : Prop :=
  ∃ pre n post s, order = pre ++ n :: post ∧
    pre.foldlM (scanRoot P (statNodes P w g).depth) ⟨statNodes P w g, w, ∅⟩ = .ok s ∧
      NodeTurn P (statNodes P w g).depth s n m

end Turns

/-! ## The invariant -/

/-- The invariant of a scan of `g₀` that loads depfiles; the rules of `O` have
been entered and not yet left. -/
structure Walk (g₀ : Graph) (O : Set RuleId) (s : Scan ω) : Prop where
  tied : s.graph.Tied
  explicit : Explicit g₀ s.graph
  keys : (s.graph.nodes.map Prod.fst).Nodup
  hashed : ∀ n ∈ s.graph.allocated, (s.graph.node n).hash ≠ "" →
    (s.graph.node n).hashDepfile ≠ ""
  target : ∀ n q, (s.graph.node n).childRule = some q → (s.graph.node n).hash ≠ "" →
    q ∈ s.seen ∧ q ∉ O ∧ ((s.graph.rule q).isDirty = true → (s.graph.node n).isDirty = true)
  dirty : ∀ n q, (s.graph.node n).childRule = some q → (s.graph.node n).isDirty = true →
    (s.graph.rule q).isDirty = true
  fresh : ∀ r ∈ g₀.rules, r ∉ s.seen → (s.graph.rule r).isDirty = false ∧
    (s.graph.rule r).numInputsReady = (s.graph.rule r).inputs.length ∧
      (s.graph.rule r).numImplicitDeps = 0
  inputs : ∀ r ∈ s.seen, r ∉ O → r ∈ g₀.rules ∧
    ∀ n ∈ (s.graph.rule r).inputs, (s.graph.node n).hash ≠ ""

section Walk

variable {g₀ : Graph} {O : Set RuleId} {s : Scan ω}

/-- Of an open rule everything may change but its links and its state. -/
theorem Walk.setRule (h : Walk g₀ O s) (hr : r ∈ O) (hseen : r ∈ s.seen) {x : Rule}
    (hlinks : (s.graph.setRule r x).links = s.graph.links)
    (hstate : x.isDirty = (s.graph.rule r).isDirty) :
    Walk g₀ O { s with graph := s.graph.setRule r x } where
  tied := h.tied.of_links hlinks
  explicit := h.explicit.of_links hlinks
  keys := h.keys
  hashed := h.hashed
  target n q hq hne := by
    obtain ⟨hseen, hO, hdirty⟩ := h.target n q hq hne
    refine ⟨hseen, hO, fun hq ↦ hdirty ?_⟩
    rw [← proj_setRule Rule.isDirty hstate q]
    exact hq
  dirty n q hq hn := by
    rw [proj_setRule Rule.isDirty hstate q]
    exact h.dirty n q hq hn
  fresh q hq hnot := by
    have hne : q ≠ r := fun heq ↦ hnot (heq ▸ hseen)
    rw [setRule_rule, if_neg hne]
    exact h.fresh q hq hnot
  inputs q hq hO := by
    have hne : q ≠ r := fun heq ↦ hO (heq ▸ hr)
    rw [setRule_rule, if_neg hne]
    exact h.inputs q hq hO

theorem Walk.enter (h : Walk g₀ O s) (hnew : r ∉ s.seen) :
    Walk g₀ (insert r O) (s.enter r).2 where
  tied := h.tied
  explicit := h.explicit
  keys := h.keys
  hashed := h.hashed
  target n q hq hne := by
    obtain ⟨hseen, hO, hdirty⟩ := h.target n q hq hne
    refine ⟨Finset.mem_insert_of_mem hseen, ?_, hdirty⟩
    rintro (rfl | hmem)
    · exact hnew hseen
    · exact hO hmem
  dirty := h.dirty
  fresh q hq hnot := h.fresh q hq fun hmem ↦ hnot (Finset.mem_insert_of_mem hmem)
  inputs q hq hO := by
    rw [Set.mem_insert_iff, not_or] at hO
    exact h.inputs q ((Finset.mem_insert.mp hq).resolve_left hO.1) hO.2

/-- A node is hashed whose rule has been left. -/
theorem Walk.setHash (h : Walk g₀ O s) {n : NodeId} {a b : String} (ha : a ≠ "") (hb : b ≠ "")
    (hrule : ∀ q, (s.graph.node n).childRule = some q → q ∈ s.seen ∧ q ∉ O ∧
      ((s.graph.rule q).isDirty = true → (s.graph.node n).isDirty = true)) :
    Walk g₀ O { s with
      graph := s.graph.setNode n { s.graph.node n with hash := a, hashDepfile := b } } := by
  have hlinks : (s.graph.setNode n { s.graph.node n with hash := a, hashDepfile := b }).links =
      s.graph.links := links_setNode rfl rfl rfl rfl
  have hdirty : ∀ m, ((s.graph.setNode n { s.graph.node n with hash := a, hashDepfile := b }).node
      m).isDirty = (s.graph.node m).isDirty := proj_setNode Node.isDirty (by rfl)
  refine ⟨h.tied.of_links hlinks, h.explicit.of_links hlinks, h.keys, fun m hm hne ↦ ?_,
    fun m q hq hne ↦ ?_, fun m q hq hm ↦ ?_, h.fresh, fun r hr hO ↦ ⟨(h.inputs r hr hO).1, ?_⟩⟩
  · rw [setNode_node] at hne ⊢
    by_cases hmn : m = n
    · rw [if_pos hmn]
      exact hb
    · rw [if_neg hmn] at hne ⊢
      exact h.hashed m hm hne
  · rw [childRule_of_links hlinks] at hq
    rw [hdirty]
    by_cases hmn : m = n
    · subst hmn
      exact hrule q hq
    · rw [setNode_node, if_neg hmn] at hne
      exact h.target m q hq hne
  · rw [childRule_of_links hlinks] at hq
    rw [hdirty] at hm
    exact h.dirty m q hq hm
  · intro m hm
    rw [setNode_node]
    by_cases hmn : m = n
    · rw [if_pos hmn]
      exact ha
    · rw [if_neg hmn]
      exact (h.inputs r hr hO).2 m hm

/-- A target whose rule is dirty and has been left is marked. -/
theorem Walk.setDirty (h : Walk g₀ O s) {n : NodeId} {r : RuleId}
    (hr : (s.graph.node n).childRule = some r) (hdirty : (s.graph.rule r).isDirty = true) :
    Walk g₀ O { s with graph := s.graph.updateNode n (·.setState .outOfDate) } := by
  have hc := compared_setState s.graph n
  refine ⟨h.tied.of_links hc.links, h.explicit.of_links hc.links, h.keys, fun m hm hne ↦ ?_,
    fun m q hq hne ↦ ?_, fun m q hq hm ↦ ?_, h.fresh, fun q hq hO ↦ ⟨(h.inputs q hq hO).1, ?_⟩⟩
  · rw [hc.hash] at hne
    rw [hc.hashDepfile]
    exact h.hashed m hm hne
  · rw [childRule_of_links hc.links] at hq
    rw [hc.hash] at hne
    obtain ⟨hseen, hO, hmark⟩ := h.target m q hq hne
    exact ⟨hseen, hO, fun hd ↦ (hc.dirty m).mpr (Or.inl (hmark hd))⟩
  · rw [childRule_of_links hc.links] at hq
    rcases (hc.dirty m).mp hm with hm | rfl
    · exact h.dirty m q hq hm
    · obtain rfl : r = q := Option.some.inj (hr.symm.trans hq)
      exact hdirty
  · intro m hm
    rw [hc.hash]
    exact (h.inputs q hq hO).2 m hm

/-- The rule `r` is left: sources have been marked, and its state is final. -/
theorem Walk.leave {U : Set NodeId} {g : Graph} {x : Rule} (h : Walk g₀ (insert r O) s)
    (hr : r ∈ g₀.rules) (hseen : r ∈ s.seen) (hg : Compared s.graph U g)
    (hU : ∀ n ∈ U, (s.graph.node n).childRule = none)
    (hlinks : (g.setRule r x).links = g.links)
    (hmark : (s.graph.rule r).isDirty = true → x.isDirty = true)
    (hhashed : ∀ n ∈ (s.graph.rule r).inputs, (s.graph.node n).hash ≠ "") :
    Walk g₀ O { s with graph := g.setRule r x } := by
  have hl : (g.setRule r x).links = s.graph.links := hlinks.trans hg.links
  -- No output of the rule has been hashed, since the rule was open.
  have hopen : ∀ n q, (s.graph.node n).childRule = some q → (s.graph.node n).hash ≠ "" → q ≠ r := by
    intro n q hq hne heq
    exact (h.target n q hq hne).2.1 (heq ▸ Set.mem_insert r O)
  refine ⟨h.tied.of_links hl, h.explicit.of_links hl, ?_, fun m hm hne ↦ ?_,
    fun m q hq hne ↦ ?_, fun m q hq hm ↦ ?_, fun q hq hnot ↦ ?_, fun q hq hO ↦ ?_⟩
  · have hnodes : g.nodes = s.graph.nodes := congrArg Links.nodes hg.links
    rw [show (g.setRule r x).nodes = g.nodes from rfl, hnodes]
    exact h.keys
  · rw [setRule_node, hg.hash] at hne
    rw [setRule_node, hg.hashDepfile]
    exact h.hashed m (allocated_of_links hl ▸ hm) hne
  · rw [childRule_of_links hl] at hq
    rw [setRule_node, hg.hash] at hne
    have hne' := hopen m q hq hne
    obtain ⟨hseen, hO, hd⟩ := h.target m q hq hne
    refine ⟨hseen, fun hmem ↦ hO (Set.mem_insert_of_mem r hmem), fun hq ↦ ?_⟩
    rw [setRule_rule, if_neg hne', hg.rule] at hq
    rw [setRule_node, hg.dirty]
    exact Or.inl (hd hq)
  · rw [childRule_of_links hl] at hq
    rw [setRule_node, hg.dirty] at hm
    have hdirty : (s.graph.rule q).isDirty = true := by
      rcases hm with hm | hm
      · exact h.dirty m q hq hm
      · rw [hU m hm] at hq
        cases hq
    by_cases hqr : q = r
    · rw [setRule_rule, if_pos hqr]
      exact hmark (hqr ▸ hdirty)
    · rw [setRule_rule, if_neg hqr, hg.rule]
      exact hdirty
  · have hqr : q ≠ r := fun heq ↦ hnot (heq ▸ hseen)
    rw [setRule_rule, if_neg hqr, hg.rule]
    exact h.fresh q hq hnot
  · have hinputs : ((g.setRule r x).rule q).inputs = (s.graph.rule q).inputs :=
      inputs_of_links hl q
    have hhash : ∀ n, ((g.setRule r x).node n).hash = (s.graph.node n).hash := hg.hash
    simp only [hinputs, hhash]
    by_cases hqr : q = r
    · subst hqr
      exact ⟨hr, hhashed⟩
    · refine h.inputs q hq ?_
      rw [Set.mem_insert_iff, not_or]
      exact ⟨hqr, hO⟩

/-- A depfile is loaded for an open rule. -/
theorem Walk.load (h : Walk g₀ O s) (hr : r ∈ O) (hseen : r ∈ s.seen)
    {ins : List String} {more : List NodeId} (hload : Installed P s.graph r ins more g') (w : ω) :
    Walk g₀ O ⟨g', w, s.seen⟩ := by
  have hold : ∀ n q, (g'.node n).childRule = some q → (s.graph.node n).childRule = some q ∧
      n ∈ s.graph.allocated := by
    intro n q hq
    rw [hload.loading.child] at hq
    refine ⟨hq, ?_⟩
    by_contra hfree
    rw [h.tied.childRule_of_free hfree] at hq
    cases hq
  refine ⟨hload.loading.tied h.tied, ?_, hload.adds.keys, fun n hn hne ↦ ?_, fun n q hq hne ↦ ?_,
    fun n q hq hn ↦ ?_, fun q hq hnot ↦ ?_, fun q hq hO ↦ ?_⟩
  · exact h.explicit.edits h.tied.wired (edits_of_relinks hload.relinks)
  · by_cases hmem : n ∈ s.graph.allocated
    · rw [hload.grown.proj Node.hash (fun _ ↦ rfl) hmem] at hne
      rw [hload.grown.proj Node.hashDepfile (fun _ ↦ rfl) hmem]
      exact h.hashed n hmem hne
    · exact (hload.adds.created n hn hmem).2.2
  · obtain ⟨hq', hmem⟩ := hold n q hq
    rw [hload.grown.proj Node.hash (fun _ ↦ rfl) hmem] at hne
    rw [hload.grown.proj Node.isDirty (fun _ ↦ rfl) hmem, hload.isDirty_rule]
    exact h.target n q hq' hne
  · obtain ⟨hq', hmem⟩ := hold n q hq
    rw [hload.grown.proj Node.isDirty (fun _ ↦ rfl) hmem] at hn
    rw [hload.isDirty_rule]
    exact h.dirty n q hq' hn
  · have hne : q ≠ r := fun heq ↦ hnot (heq ▸ hseen)
    rw [hload.grown.other q hne]
    exact h.fresh q hq hnot
  · have hne : q ≠ r := fun heq ↦ hO (heq ▸ hr)
    obtain ⟨hrules, hinputs⟩ := h.inputs q hq hO
    refine ⟨hrules, fun n hn ↦ ?_⟩
    rw [hload.grown.other q hne] at hn
    have hmem := h.tied.allocated q (h.explicit.rules ▸ hrules) n (Or.inl hn)
    rw [hload.grown.proj Node.hash (fun _ ↦ rfl) hmem]
    exact hinputs n hn

end Walk

/-! ## The loop over the inputs -/

/-- The scan has gone on; the rules of `K` have not been touched. -/
structure Later (K : Set RuleId) (s s' : Scan ω) : Prop where
  seen : s.seen ⊆ s'.seen
  kept : Kept K s.graph s'.graph

theorem Later.refl (K : Set RuleId) (s : Scan ω) : Later K s s :=
  ⟨Finset.Subset.refl _, .refl K _⟩

theorem Later.trans {K : Set RuleId} {s s' s'' : Scan ω} (h : Later K s s') (h' : Later K s' s'') :
    Later K s s'' :=
  ⟨h.seen.trans h'.seen, h.kept.trans h'.kept⟩

theorem Later.mono {K K' : Set RuleId} {s s' : Scan ω} (h : Later K s s') (hsub : K' ⊆ K) :
    Later K' s s' :=
  ⟨h.seen, h.kept.mono hsub⟩

/-- The rules that have been entered, but for `r`. -/
def Scan.others (s : Scan ω) (r : RuleId) : Set RuleId := {q | q ∈ s.seen ∧ q ≠ r}

theorem Later.others {r : RuleId} {K : Set RuleId} {s s' : Scan ω} (h : Later K s s') :
    s.others r ⊆ s'.others r :=
  fun _ hq ↦ ⟨h.seen hq.1, hq.2⟩

/-- A part of the traversal has visited the node `n`. -/
structure Walked (g₀ : Graph) (O : Set RuleId) (s : Scan ω) (n : NodeId) (dirty : Bool)
    (s' : Scan ω) : Prop where
  walk : Walk g₀ O s'
  later : Later ↑s.seen s s'
  hashed : (s'.graph.node n).hash ≠ ""
  dirty : dirty = true ↔ s'.graph.inputReady n = false

/-- What the recursion does for one input, if it returns. -/
def Walks (g₀ : Graph) (node : Scan ω → NodeId → Outcome (Bool × Scan ω)) (n : NodeId) : Prop :=
  ∀ O s b s', Walk g₀ O s → (∀ q ∈ O, q ∈ s.seen ∧ g₀.links.Uses q n) →
    node s n = .ok (b, s') → Walked g₀ O s n b s'

/-- The inputs of `pre` have been visited for the rule `r`, which was entered in
the state `s₀`. -/
structure InputsWalked (g₀ : Graph) (O : Set RuleId) (r : RuleId) (s₀ : Scan ω)
    (pre : List NodeId) (x : Bool × Scan ω) : Prop where
  walk : Walk g₀ (insert r O) x.2
  seen : r ∈ x.2.seen
  later : Later ↑s₀.seen s₀ x.2
  self : ∃ numReady, x.2.graph.rule r = { s₀.graph.rule r with numInputsReady := numReady }
  ready : (x.2.graph.rule r).numInputsReady + pre.countP (fun n ↦ !x.2.graph.inputReady n) =
    (s₀.graph.rule r).inputs.length
  hashed : ∀ n ∈ pre, (x.2.graph.node n).hash ≠ ""
  dirty : x.1 = true ↔ ∃ n ∈ pre, x.2.graph.inputReady n = false

theorem markInputDirty_eq_ok {g : Graph} (hrun : g.onRule r Rule.markInputDirty = .ok g') :
    0 < (g.rule r).numInputsReady ∧ g' = g.setRule r { g.rule r with
      numInputsReady := (g.rule r).numInputsReady - 1 } := by
  by_cases hpos : 0 < (g.rule r).numInputsReady
  · rw [markInputDirty_ok hpos] at hrun
    exact ⟨hpos, (Except.ok.inj hrun).symm⟩
  · simp [Graph.onRule, Rule.markInputDirty, hpos, assert, Except.map] at hrun

section Inputs

variable {g₀ : Graph} {O : Set RuleId} {s₀ : Scan ω}
  {node : Scan ω → NodeId → Outcome (Bool × Scan ω)}

theorem InputsWalked.start {s : Scan ω} (h : Walk g₀ O s) (hr : r ∈ g₀.rules) (hnew : r ∉ s.seen) :
    InputsWalked g₀ O r s [] (s.enter r) where
  walk := h.enter hnew
  seen := Finset.mem_insert_self r _
  later := ⟨Finset.subset_insert r _, .refl _ _⟩
  self := ⟨(s.graph.rule r).numInputsReady, rfl⟩
  ready := (h.fresh r hr hnew).2.1
  hashed n hn := absurd hn List.not_mem_nil
  dirty := by simp [Scan.enter]

theorem InputsWalked.mem_allocated {pre : List NodeId} {x : Bool × Scan ω}
    (h : InputsWalked g₀ O r s₀ pre x) (hr : r ∈ g₀.rules) {n : NodeId}
    (hn : n ∈ (s₀.graph.rule r).inputs) : n ∈ x.2.graph.allocated := by
  obtain ⟨numReady, hself⟩ := h.self
  apply h.walk.tied.allocated r (h.walk.explicit.rules ▸ hr) n
  rw [hself]
  exact Or.inl hn

theorem updateInput_walked {pre post : List NodeId} {n : NodeId} {x x' : Bool × Scan ω}
    (hr : r ∈ g₀.rules) (hnew : r ∉ s₀.seen) (hO : ∀ q ∈ O, q ∈ s₀.seen ∧ g₀.links.Uses q n)
    (hin : n ∈ g₀.links.inputs r) (hinputs : (s₀.graph.rule r).inputs = pre ++ n :: post)
    (hnode : Walks g₀ node n) (h : InputsWalked g₀ O r s₀ pre x)
    (hrun : updateInput node r x n = .ok x') :
    InputsWalked g₀ O r s₀ (pre ++ [n]) x' ∧ Later (x.2.others r) x.2 x'.2 := by
  obtain ⟨⟨b, s₁⟩, hrec, hrest⟩ := Lib.bind_eq_ok.mp hrun
  have hw := hnode (insert r O) x.2 b s₁ h.walk (by
    rintro q (rfl | hq)
    · exact ⟨h.seen, Links.uses_input hin⟩
    · exact ⟨h.later.seen (hO q hq).1, (hO q hq).2⟩) hrec
  have hseen : r ∈ s₁.seen := hw.later.seen h.seen
  have hrule : s₁.graph.rule r = x.2.graph.rule r := hw.later.kept.rule r h.seen
  obtain ⟨numReady, hself⟩ := h.self
  have hmem : ∀ m ∈ pre, m ∈ x.2.graph.allocated :=
    fun m hm ↦ h.mem_allocated hr (by rw [hinputs]; exact List.mem_append_left _ hm)
  -- What has been visited before stays as it is.
  have hready : ∀ m ∈ pre, s₁.graph.inputReady m = x.2.graph.inputReady m :=
    fun m hm ↦ hw.later.kept.ready m (hmem m hm) (h.hashed m hm)
  have hcount : pre.countP (fun n ↦ !s₁.graph.inputReady n) =
      pre.countP (fun n ↦ !x.2.graph.inputReady n) :=
    List.countP_congr fun m hm ↦ by rw [hready m hm]
  have hhashed : ∀ m ∈ pre ++ [n], (s₁.graph.node m).hash ≠ "" := by
    intro m hm
    rcases List.mem_append.mp hm with hm | hm
    · rw [hw.later.kept.hash m (hmem m hm) (h.hashed m hm)]
      exact h.hashed m hm
    · rw [List.mem_singleton.mp hm]
      exact hw.hashed
  have hlater : Later ↑s₀.seen s₀ s₁ := h.later.trans (hw.later.mono fun _ hq ↦ h.later.seen hq)
  have hdirty : (∃ m ∈ pre, s₁.graph.inputReady m = false) ↔ x.1 = true := by
    rw [h.dirty]
    exact exists_congr fun m ↦ and_congr_right fun hm ↦ by rw [hready m hm]
  cases b with
  | false =>
      obtain rfl := Except.ok.inj hrest
      have hn : s₁.graph.inputReady n = true := by
        rw [← Bool.not_eq_false]
        exact fun hn ↦ Bool.false_ne_true (hw.dirty.mpr hn)
      refine ⟨⟨hw.walk, hseen, hlater, ⟨numReady, hrule.trans hself⟩, ?_, hhashed, ?_⟩,
        hw.later.mono fun _ hq ↦ hq.1⟩
      · rw [List.countP_append, List.countP_singleton, hcount, hn, hrule]
        exact h.ready
      · simp [hn, ← hdirty]
  | true =>
      have hn : s₁.graph.inputReady n = false := hw.dirty.mp rfl
      have hsource : (s₁.graph.node n).isSource = false := (inputReady_eq_false.mp hn).1
      simp only [if_true, hsource, Bool.false_eq_true, if_false] at hrest
      obtain ⟨g₂, hmark, hpure⟩ := Lib.bind_eq_ok.mp hrest
      obtain ⟨hpos, rfl⟩ := markInputDirty_eq_ok hmark
      obtain rfl := Except.ok.inj hpure
      have hnot : r ∉ (↑s₀.seen : Set RuleId) := fun hmem ↦ hnew (Finset.mem_coe.mp hmem)
      refine ⟨⟨hw.walk.setRule (Set.mem_insert r O) hseen (links_setRule rfl rfl rfl rfl rfl) rfl,
        hseen, ⟨hlater.seen, hlater.kept.trans (.setRule _ _ hnot)⟩,
        ⟨(s₁.graph.rule r).numInputsReady - 1, ?_⟩, ?_, hhashed, ?_⟩, ?_⟩
      · rw [setRule_rule, if_pos rfl, hrule, hself]
      · rw [setRule_rule, if_pos rfl]
        change (s₁.graph.rule r).numInputsReady - 1 +
          (pre ++ [n]).countP (fun n ↦ !s₁.graph.inputReady n) = _
        rw [List.countP_append, List.countP_singleton, hcount, hn, ← h.ready, ← hrule]
        simp only [Bool.not_false, if_true]
        omega
      · refine iff_of_true rfl ⟨n, ?_, hn⟩
        simp
      · refine ⟨hw.later.seen, ?_⟩
        apply (hw.later.kept.mono fun _ hq ↦ hq.1).trans
        exact .setRule _ _ fun hmem ↦ hmem.2 rfl

/-- The loop goes on, of which `pre` is done. -/
theorem updateInputs_walked (hr : r ∈ g₀.rules) (hnew : r ∉ s₀.seen)
    (hO : ∀ q ∈ O, q ∈ s₀.seen ∧ ∀ n ∈ g₀.links.inputs r, g₀.links.Uses q n)
    (hin : (s₀.graph.rule r).inputs = g₀.links.inputs r)
    (hnode : ∀ n ∈ g₀.links.inputs r, Walks g₀ node n) {pre post : List NodeId}
    (rest : List NodeId) {x x' : Bool × Scan ω}
    (hinputs : g₀.links.inputs r = pre ++ (post ++ rest))
    (h : InputsWalked g₀ O r s₀ pre x)
    (hrun : post.foldlM (updateInput node r) x = .ok x') :
    InputsWalked g₀ O r s₀ (pre ++ post) x' ∧ Later (x.2.others r) x.2 x'.2 := by
  induction post generalizing pre x with
  | nil =>
      obtain rfl := Except.ok.inj hrun
      rw [List.append_nil]
      exact ⟨h, .refl _ _⟩
  | cons n post ih =>
      rw [List.foldlM_cons] at hrun
      obtain ⟨x₁, hstep, hrest⟩ := Lib.bind_eq_ok.mp hrun
      have hmem : n ∈ g₀.links.inputs r := by simp [hinputs]
      obtain ⟨h₁, hlater₁⟩ := updateInput_walked hr hnew
        (fun q hq ↦ ⟨(hO q hq).1, (hO q hq).2 n hmem⟩) hmem (hin.trans hinputs) (hnode n hmem) h
        hstep
      obtain ⟨h', hlater'⟩ := ih (by simp [hinputs]) h₁ hrest
      rw [List.append_assoc, List.singleton_append] at h'
      exact ⟨h', hlater₁.trans (hlater'.mono hlater₁.others)⟩

end Inputs

/-! ## The turn of a rule -/

/-- The turn of a rule has come while the rules of `O` are open: its inputs are
the explicit ones, they all have been visited, and its counter is exact. -/
structure AtTurn (g₀ : Graph) (O : Set RuleId) (m : Turn ω) : Prop where
  walk : Walk g₀ (insert m.rule O) m.scan
  mem : m.rule ∈ g₀.rules
  seen : m.rule ∈ m.scan.seen
  inputs : (m.scan.graph.rule m.rule).inputs = g₀.links.inputs m.rule
  none : (m.scan.graph.rule m.rule).numImplicitDeps = 0
  clean : (m.scan.graph.rule m.rule).isDirty = false
  ready : (m.scan.graph.rule m.rule).numInputsReady = m.scan.graph.nbReady m.rule
  hashed : ∀ n ∈ (m.scan.graph.rule m.rule).inputs, (m.scan.graph.node n).hash ≠ ""
  dirty : m.inputDirty = true ↔
    ∃ n ∈ (m.scan.graph.rule m.rule).inputs, m.scan.graph.inputReady n = false

section AtTurn

variable {g₀ : Graph} {O : Set RuleId} {m : Turn ω}

theorem InputsWalked.atTurn {s₀ : Scan ω} {x : Bool × Scan ω}
    (h : InputsWalked g₀ O r s₀ (g₀.links.inputs r) x) (hs : Walk g₀ O s₀) (hr : r ∈ g₀.rules)
    (hnew : r ∉ s₀.seen) (hin : (s₀.graph.rule r).inputs = g₀.links.inputs r) :
    AtTurn g₀ O ⟨x.1, x.2, r⟩ := by
  obtain ⟨hclean, -, hnone⟩ := hs.fresh r hr hnew
  obtain ⟨numReady, hself⟩ := h.self
  have hinputs : (x.2.graph.rule r).inputs = g₀.links.inputs r := by
    rw [hself]
    exact hin
  refine ⟨h.walk, hr, h.seen, hinputs, ?_, ?_, ?_, hinputs ▸ h.hashed, hinputs ▸ h.dirty⟩
  · rw [hself]
    exact hnone
  · rw [hself]
    exact hclean
  · have hcount := h.ready
    rw [hin] at hcount
    have hsplit : (g₀.links.inputs r).length = (g₀.links.inputs r).countP x.2.graph.inputReady +
        (g₀.links.inputs r).countP (fun n ↦ !x.2.graph.inputReady n) := by
      rw [List.length_eq_countP_add_countP x.2.graph.inputReady]
      simp
    change (x.2.graph.rule r).numInputsReady = x.2.graph.nbReady r
    rw [nbReady, hinputs]
    omega

/-- Once the rule has been hashed it is still its turn. -/
theorem AtTurn.hashRule (h : AtTurn g₀ O m) {a b : Bool}
    (hrun : Hash.updateRuleHash P m.scan.graph m.rule a b = .ok g') :
    AtTurn g₀ O { m with scan := { m.scan with graph := g' } } := by
  obtain ⟨hash, hashDepfile, rfl⟩ := Hash.updateRuleHash_frame hrun
  have hself : (m.scan.graph.setRule m.rule { m.scan.graph.rule m.rule with
      hash := hash, hashDepfile := hashDepfile }).rule m.rule = { m.scan.graph.rule m.rule with
      hash := hash, hashDepfile := hashDepfile } := by
    rw [setRule_rule, if_pos rfl]
  have hwalk := h.walk.setRule (Set.mem_insert m.rule O) h.seen
    (x := { m.scan.graph.rule m.rule with hash := hash, hashDepfile := hashDepfile })
    (links_setRule rfl rfl rfl rfl rfl) rfl
  refine ⟨hwalk, h.mem, h.seen, ?_, ?_, ?_, ?_, ?_, ?_⟩
  · rw [hself]
    exact h.inputs
  · rw [hself]
    exact h.none
  · rw [hself]
    exact h.clean
  · rw [nbReady, hself]
    exact h.ready
  · rw [hself]
    exact h.hashed
  · rw [hself]
    exact h.dirty

/-- A load that succeeds installs the dependencies that are found. -/
theorem AtTurn.loaded (h : AtTurn g₀ O m) (hdigest : ∀ data, P.digest data ≠ "")
    (hrun : ruleLoadDepfile P m.scan.graph m.scan.world m.rule = .ok (true, g', w')) :
    ∃ ins more, loadedNames P m.scan.graph m.scan.world m.rule = some ins ∧
      Installed P m.scan.graph m.rule ins more g' := by
  rcases ruleLoadDepfile_none h.none hrun with ⟨hfalse, -⟩ | ⟨-, ins, v, hnames, hadd⟩
  · cases hfalse
  · obtain ⟨more, hload⟩ := addDependencies_installed hdigest h.walk.tied
      (h.walk.explicit.rules ▸ h.mem) h.walk.keys h.none hadd
    exact ⟨ins, more, hnames, hload⟩

/-- The part of the turn about the depfile, if it comes to its end. -/
theorem AtTurn.scanDepfile (h : AtTurn g₀ O m) (hdigest : ∀ data, P.digest data ≠ "")
    {dirty : Bool}
    (hrun : scanDepfile P m.scan.graph m.scan.world m.rule = .ok (dirty, g', w')) :
    Walk g₀ (insert m.rule O) ⟨g', w', m.scan.seen⟩ ∧
      Kept (m.scan.others m.rule) m.scan.graph g' ∧
      (∀ n ∈ (g'.rule m.rule).inputs, (g'.node n).hash ≠ "") ∧
      (g'.rule m.rule).isDirty = false := by
  have hnot : m.rule ∉ m.scan.others m.rule := fun hmem ↦ hmem.2 rfl
  have hkeep (v : ω) : Walk g₀ (insert m.rule O) ⟨m.scan.graph, v, m.scan.seen⟩ :=
    { h.walk with }
  rw [GraphDependencyScan.scanDepfile] at hrun
  split at hrun
  · obtain ⟨⟨loaded, g₁, w₁⟩, hload, hrest⟩ := Lib.bind_eq_ok.mp hrun
    cases loaded with
    | false =>
        obtain ⟨-, hpair⟩ := Prod.mk.inj (Except.ok.inj hrest)
        obtain ⟨rfl, rfl⟩ := Prod.mk.inj hpair
        rcases ruleLoadDepfile_none h.none hload with ⟨-, rfl⟩ | ⟨htrue, -⟩
        · exact ⟨hkeep _, .refl _ _, h.hashed, h.clean⟩
        · cases htrue
    | true =>
        obtain ⟨g₂, hhash, hpure⟩ := Lib.bind_eq_ok.mp hrest
        obtain ⟨-, hpair⟩ := Prod.mk.inj (Except.ok.inj hpure)
        obtain ⟨rfl, rfl⟩ := Prod.mk.inj hpair
        obtain ⟨ins, more, -, hinstalled⟩ := h.loaded hdigest hload
        have hwalk := h.walk.load (Set.mem_insert m.rule O) h.seen hinstalled w₁
        obtain ⟨hinputs, -, -⟩ := Hash.updateRuleHash_eq_ok.mp hhash
        obtain ⟨hash, hashDepfile, rfl⟩ := Hash.updateRuleHash_frame hhash
        refine ⟨hwalk.setRule (Set.mem_insert m.rule O) h.seen
          (links_setRule rfl rfl rfl rfl rfl) rfl, ?_, ?_, ?_⟩
        · exact (hinstalled.kept hnot).trans (.setRule _ _ hnot)
        · rw [setRule_rule, if_pos rfl]
          exact hinputs rfl
        · rw [setRule_rule, if_pos rfl]
          exact (hinstalled.isDirty_rule m.rule).trans h.clean
  · obtain ⟨-, hpair⟩ := Prod.mk.inj (Except.ok.inj hrun)
    obtain ⟨rfl, rfl⟩ := Prod.mk.inj hpair
    exact ⟨hkeep _, .refl _ _, h.hashed, h.clean⟩

theorem Compared.kept {K : Set RuleId} {U : Set NodeId} {g g' : Graph} (h : Compared g U g')
    (hU : ∀ n ∈ U, (g.node n).childRule = Option.none) : Kept K g g' where
  rule q _ := congrFun h.rule q
  allocated := (allocated_of_links h.links).symm ▸ Finset.Subset.refl _
  path n _ := path_of_links h.links n
  child n _ := childRule_of_links h.links n
  time n _ := h.time n
  hash n _ _ := h.hash n
  ready n _ _ := by
    have hsource := isSource_of_links h.links n
    have hdirty := h.dirty n
    rw [inputReady, inputReady, hsource]
    by_cases hn : n ∈ U
    · have htrue : (g.node n).isSource = true := by simp [Node.isSource, hU n hn]
      rw [htrue, Bool.true_or, Bool.true_or]
    · rw [or_iff_left hn] at hdirty
      rw [Bool.eq_iff_iff.mpr hdirty]
  lookup path n hn := by
    rw [show g'.nodes = g.nodes from congrArg Links.nodes h.links]
    exact hn

/-- The rule is left when its turn is over. -/
theorem AtTurn.finish (h : AtTurn g₀ O m) (hdigest : ∀ data, P.digest data ≠ "")
    (hne : g₀.links.outputs m.rule ≠ []) {dirty : Bool} {s' : Scan ω}
    (hrun : finishRule P m = .ok (dirty, s')) :
    Walk g₀ O s' ∧ Later (m.scan.others m.rule) m.scan s' ∧
      (dirty = true ↔ (s'.graph.rule m.rule).isDirty = true) := by
  have hnot : m.rule ∉ m.scan.others m.rule := fun hmem ↦ hmem.2 rfl
  obtain ⟨g₁, hhash, hrest⟩ := Lib.bind_eq_ok.mp hrun
  obtain ⟨⟨depDirty, g₂, w₂⟩, hdepfile, hrest⟩ := Lib.bind_eq_ok.mp hrest
  obtain ⟨⟨timeDirty, g₃⟩, htimes, hpure⟩ := Lib.bind_eq_ok.mp hrest
  obtain ⟨rfl, rfl⟩ := Prod.mk.inj (Except.ok.inj hpure)
  have h₁ := h.hashRule hhash
  have hkept₁ : Kept (m.scan.others m.rule) m.scan.graph g₁ := by
    obtain ⟨hash, hashDepfile, rfl⟩ := Hash.updateRuleHash_frame hhash
    exact .setRule _ _ hnot
  obtain ⟨hwalk₂, hkept₂, hinputs₂, hclean₂⟩ := h₁.scanDepfile hdigest hdepfile
  have houtputs : g₂.links.outputs m.rule ≠ [] := by
    change (g₂.rule m.rule).outputs ≠ []
    rw [hwalk₂.explicit.outputs]
    exact hne
  obtain ⟨b, g', htimes', -, hcompared⟩ := scanTimes_spec (g := g₂) rfl (fun _ ↦ rfl) houtputs
  obtain ⟨rfl, rfl⟩ : timeDirty = b ∧ g₃ = g' :=
    Prod.mk.inj (Except.ok.inj (htimes.symm.trans htimes'))
  have hU : ∀ n ∈ {n | g₂.links.child n = Option.none ∧
      g₂.links.Newer (fun n ↦ (g₂.node n).timestamp) m.rule n},
      (g₂.node n).childRule = Option.none := fun n hn ↦ hn.1
  -- The state is written only if the rule is dirty.
  generalize (m.inputDirty || depDirty || timeDirty) = d
  let y : Rule := { g₃.rule m.rule with
    state := if d then .outOfDate else (g₃.rule m.rule).state }
  have hgraph : (if d then g₃.updateRule m.rule (·.setState .outOfDate) else g₃) =
      g₃.setRule m.rule y := by
    cases d with
    | true => rfl
    | false => simp only [y, Bool.false_eq_true, if_false, setRule, Function.update_eq_self]
  have hrule₃ : (g₃.rule m.rule).isDirty = false := by
    rw [hcompared.rule]
    exact hclean₂
  refine ⟨?_, ⟨Finset.Subset.refl _, ?_⟩, ?_⟩
  · rw [hgraph]
    apply hwalk₂.leave h.mem h.seen hcompared hU _ _ hinputs₂
    · exact links_setRule rfl rfl rfl rfl rfl
    · intro hd
      rw [hclean₂] at hd
      cases hd
  · rw [hgraph]
    exact ((hkept₁.trans hkept₂).trans (Compared.kept hcompared hU)).trans (.setRule _ _ hnot)
  · rw [hgraph, setRule_rule, if_pos rfl]
    cases d with
    | true => simp [y, Rule.isDirty]
    | false =>
        change false = true ↔ (g₃.rule m.rule).isDirty = true
        rw [hrule₃]

end AtTurn

/-! ## The recursion -/

section Recursion

variable {g₀ : Graph} {O : Set RuleId} {s s' : Scan ω}

/-- A target keeps its rule, whatever is loaded. -/
theorem Walk.childRule (h : Walk g₀ O s) (hL : g₀.links.TwoWay) (n : NodeId) :
    (s.graph.node n).childRule = g₀.links.child n := by
  apply Option.ext
  intro q
  rw [show (s.graph.node n).childRule = s.graph.links.child n from rfl,
    h.tied.twoWay.child_eq_some, hL.child_eq_some]
  change q ∈ s.graph.rules ∧ n ∈ (s.graph.rule q).outputs ↔ q ∈ g₀.rules ∧ n ∈ (g₀.rule q).outputs
  rw [h.explicit.rules, h.explicit.outputs]

theorem Walk.inputs_of_new (h : Walk g₀ O s)
    (hnone : ∀ r ∈ g₀.rules, (g₀.rule r).numImplicitDeps = 0) (hr : r ∈ g₀.rules)
    (hnew : r ∉ s.seen) : (s.graph.rule r).inputs = g₀.links.inputs r := by
  have hinputs := h.explicit.inputs r
  rw [Hash.explicitInputs_none (h.fresh r hr hnew).2.2, Hash.explicitInputs_none (hnone r hr)]
    at hinputs
  exact hinputs

/-- A graph as the parser makes it: nothing has been looked at or loaded yet. -/
structure Scannable (g₀ : Graph) : Prop where
  tied : g₀.Tied
  keys : (g₀.nodes.map Prod.fst).Nodup
  explicit : ∀ r ∈ g₀.rules, (g₀.rule r).numImplicitDeps = 0
  pristine : Pristine g₀

/-- The traversal has come to the end of the rule `r`. -/
structure RuleWalked (g₀ : Graph) (O : Set RuleId) (s : Scan ω) (r : RuleId) (dirty : Bool)
    (s' : Scan ω) : Prop where
  walk : Walk g₀ O s'
  later : Later ↑s.seen s s'
  seen : r ∈ s'.seen
  dirty : dirty = true ↔ (s'.graph.rule r).isDirty = true

theorem updateRule_walked (hdigest : ∀ data, P.digest data ≠ "") (hg : Scannable g₀)
    {node : Scan ω → NodeId → Outcome (Bool × Scan ω)} (hs : Walk g₀ O s) (hr : r ∈ g₀.rules)
    (hne : g₀.links.outputs r ≠ [])
    (hO : ∀ q ∈ O, q ∈ s.seen ∧ ∀ n ∈ g₀.links.inputs r, g₀.links.Uses q n)
    (hnode : ∀ n ∈ g₀.links.inputs r, Walks g₀ node n) {dirty : Bool}
    (hrun : updateRule P node s r = .ok (dirty, s')) : RuleWalked g₀ O s r dirty s' := by
  by_cases hnew : r ∈ s.seen
  · rw [updateRule, if_pos hnew] at hrun
    obtain ⟨rfl, rfl⟩ := Prod.mk.inj (Except.ok.inj hrun)
    exact ⟨hs, .refl _ _, hnew, Iff.rfl⟩
  · have hin := hs.inputs_of_new hg.explicit hr hnew
    rw [updateRule_of_new P node hnew, hin] at hrun
    obtain ⟨x, hloop, hfinish⟩ := Lib.bind_eq_ok.mp hrun
    obtain ⟨hinputs, hlater⟩ := updateInputs_walked hr hnew hO hin hnode
      [] (by simp) (.start hs hr hnew) hloop
    rw [List.nil_append] at hinputs
    have hturn := hinputs.atTurn hs hr hnew hin
    obtain ⟨hwalk, hafter, hdirty⟩ := hturn.finish hdigest hne hfinish
    refine ⟨hwalk, hinputs.later.trans (hafter.mono ?_), hafter.seen hinputs.seen, hdirty⟩
    intro q hq
    refine ⟨hinputs.later.seen hq, ?_⟩
    rintro rfl
    exact hnew hq

/-- A node is hashed whose rule has been left and has told its targets. -/
theorem hashNode_walked (hdigest : ∀ data, P.digest data ≠ "") {n : NodeId} (hs : Walk g₀ O s)
    (hrule : ∀ q, (s.graph.node n).childRule = some q → q ∈ s.seen ∧ q ∉ O ∧
      ((s.graph.rule q).isDirty = true → (s.graph.node n).isDirty = true))
    (hrun : hashNode P s n = .ok s') : Walk g₀ O s' ∧ Later Set.univ s s' ∧
      (s'.graph.node n).hash ≠ "" ∧ s'.graph.inputReady n = s.graph.inputReady n := by
  rw [hashNode] at hrun
  split at hrun
  · rename_i hempty
    obtain ⟨⟨changed, g⟩, hupdate, hpure⟩ := Lib.bind_eq_ok.mp hrun
    rw [← Except.ok.inj hpure]
    obtain ⟨ha, hb, -⟩ := updateNodeHash_hashed hdigest hupdate
    obtain ⟨hash, hashDepfile, rfl⟩ := Hash.updateNodeHash_frame hupdate
    rw [setNode_node, if_pos rfl] at ha hb
    refine ⟨hs.setHash ha hb hrule, ⟨Finset.Subset.refl _, ?_⟩, ?_, ?_⟩
    · exact .setNode _ rfl rfl rfl fun hne ↦ absurd hempty hne
    · rw [setNode_node, if_pos rfl]
      exact ha
    · rw [inputReady, inputReady, setNode_node, if_pos rfl]
      rfl
  · rename_i hne
    obtain rfl := Except.ok.inj hrun
    exact ⟨hs, .refl _ _, hne, rfl⟩

/-- One target, given what happens to its rule. -/
theorem updateTarget_walked (hdigest : ∀ data, P.digest data ≠ "") {n : NodeId} {r : RuleId}
    {s₁ : Scan ω} {dirty : Bool} (hrule : RuleWalked g₀ O s r dirty s₁) (hO : r ∉ O)
    (hc : (s₁.graph.node n).childRule = some r)
    (hrun : hashNode P (if dirty then
      { s₁ with graph := s₁.graph.updateNode n (·.setState .outOfDate) } else s₁) n = .ok s') :
    Walked g₀ O s n dirty s' ∧ Later Set.univ s₁ s' := by
  have hready : ∀ {g : Graph}, (g.node n).childRule = some r →
      (g.inputReady n = false ↔ (g.node n).isDirty = true) := by
    intro g hg
    rw [inputReady_eq_false]
    exact and_iff_right (by simp [Node.isSource, hg])
  cases dirty with
  | false =>
      have hclean : (s₁.graph.rule r).isDirty ≠ true := fun hd ↦
        Bool.false_ne_true (hrule.dirty.mpr hd)
      simp only [Bool.false_eq_true, if_false] at hrun
      obtain ⟨hwalk, hlater, hhash, hsame⟩ := hashNode_walked hdigest hrule.walk
        (fun q hq ↦ by
          obtain rfl : r = q := Option.some.inj (hc.symm.trans hq)
          exact ⟨hrule.seen, hO, fun hd ↦ absurd hd hclean⟩) hrun
      refine ⟨⟨hwalk, hrule.later.trans (hlater.mono (Set.subset_univ _)), hhash, ?_⟩, hlater⟩
      rw [hsame, hready hc]
      refine iff_of_false Bool.false_ne_true fun hd ↦ hclean ?_
      exact hrule.walk.dirty n r hc hd
  | true =>
      have hdirty : (s₁.graph.rule r).isDirty = true := hrule.dirty.mp rfl
      simp only [if_true] at hrun
      have hmark := hrule.walk.setDirty hc hdirty
      have hstate := compared_setState s₁.graph n
      have hself : ((s₁.graph.updateNode n (·.setState .outOfDate)).node n).isDirty = true :=
        (hstate.dirty n).mpr (Or.inr rfl)
      have hc' : ((s₁.graph.updateNode n (·.setState .outOfDate)).node n).childRule = some r := by
        rw [childRule_of_links hstate.links, hc]
      have hkept : Later Set.univ s₁
          { s₁ with graph := s₁.graph.updateNode n (·.setState .outOfDate) } := by
        refine ⟨Finset.Subset.refl _, .setNode _ rfl rfl rfl fun hne ↦ ⟨rfl, Or.inl ?_⟩⟩
        have hold := (hrule.walk.target n r hc hne).2.2 hdirty
        rw [hold]
        rfl
      obtain ⟨hwalk, hlater, hhash, hsame⟩ := hashNode_walked hdigest hmark
        (fun q hq ↦ by
          obtain rfl : r = q := Option.some.inj (hc'.symm.trans hq)
          exact ⟨hrule.seen, hO, fun _ ↦ hself⟩) hrun
      refine ⟨⟨hwalk, ?_, hhash, ?_⟩, hkept.trans hlater⟩
      · exact hrule.later.trans ((hkept.trans hlater).mono (Set.subset_univ _))
      rw [hsame, hready hc']
      exact iff_of_true rfl hself

theorem updateNode_target {fuel : ℕ} {n : NodeId} {r : RuleId} {dirty : Bool}
    (hc : (s.graph.node n).childRule = some r)
    (hrun : updateNode P (fuel + 1) s n = .ok (dirty, s')) :
    ∃ s₁, updateRule P (updateNode P fuel) s r = .ok (dirty, s₁) ∧ hashNode P (if dirty then
      { s₁ with graph := s₁.graph.updateNode n (·.setState .outOfDate) } else s₁) n = .ok s' := by
  obtain ⟨⟨dirty₁, s₁⟩, hchild, hrest⟩ := Lib.bind_eq_ok.mp hrun
  obtain ⟨s₂, hhash, hpure⟩ := Lib.bind_eq_ok.mp hrest
  obtain ⟨rfl, rfl⟩ := Prod.mk.inj (Except.ok.inj hpure)
  simp only [updateChild, hc] at hchild
  obtain ⟨⟨dirty₂, s₃⟩, hrule, hpure⟩ := Lib.bind_eq_ok.mp hchild
  obtain ⟨rfl, rfl⟩ := Prod.mk.inj (Except.ok.inj hpure)
  exact ⟨s₃, hrule, hhash⟩

theorem updateNode_walks (hdigest : ∀ data, P.digest data ≠ "") (hg : Scannable g₀) {fuel : ℕ}
    {n : NodeId} (hno : g₀.links.AcyclicBelow n) : Walks g₀ (updateNode P fuel) n := by
  induction fuel generalizing n with
  | zero =>
      intro O s b s' _ _ hrun
      cases hrun
  | succ fuel ih =>
      intro O s b s' hs huses hrun
      have hc := hs.childRule hg.tied.twoWay n
      cases hr : g₀.links.child n with
      | none =>
          rw [hr] at hc
          obtain ⟨⟨dirty, s₁⟩, hchild, hrest⟩ := Lib.bind_eq_ok.mp hrun
          obtain ⟨s₂, hhash, hpure⟩ := Lib.bind_eq_ok.mp hrest
          obtain ⟨rfl, rfl⟩ := Prod.mk.inj (Except.ok.inj hpure)
          simp only [updateChild, hc] at hchild
          obtain ⟨rfl, rfl⟩ := Prod.mk.inj (Except.ok.inj hchild)
          obtain ⟨hwalk, hlater, hhash, hsame⟩ := hashNode_walked hdigest hs
            (fun q hq ↦ by rw [hc] at hq; cases hq) hhash
          refine ⟨hwalk, hlater.mono (Set.subset_univ _), hhash, ?_⟩
          have hsource : s.graph.inputReady n = true := by simp [inputReady, Node.isSource, hc]
          rw [hsame, hsource]
          exact iff_of_false Bool.false_ne_true (Bool.true_eq_false ▸ id)
      | some r =>
          rw [hr] at hc
          obtain ⟨s₁, hrule, hhash⟩ := updateNode_target hc hrun
          obtain ⟨hmem, hout⟩ := (hg.tied.twoWay.child_eq_some n r).mp hr
          have hO : r ∉ O :=
            fun hin ↦ Links.not_uses_of_child (hno n .refl) hr (huses r hin).2
          have hwalked := updateRule_walked hdigest hg hs hmem (List.ne_nil_of_mem hout)
            (fun q hq ↦ ⟨(huses q hq).1, fun x hx ↦ (huses q hq).2.of_feeds ⟨r, hr, hx⟩⟩)
            (fun x hx ↦ ih (hno.of_feeds ⟨r, hr, hx⟩)) hrule
          refine (updateTarget_walked hdigest hwalked hO ?_ hhash).1
          rw [hwalked.walk.childRule hg.tied.twoWay, hr]

end Recursion

/-! ## The turns of a run -/

/-- The turn `m` has come and gone between `s` and `s'`. -/
structure Passed (P : Platform ω) (m : Turn ω) (s s' : Scan ω) : Prop where
  new : m.rule ∉ s.seen
  finished : ∃ dirty s₁, finishRule P m = .ok (dirty, s₁) ∧ m.rule ∈ s₁.seen ∧ Later {m.rule} s₁ s'

theorem Passed.later {m : Turn ω} {s s' s'' : Scan ω} (h : Passed P m s s') {K : Set RuleId}
    (hlater : Later K s' s'') (hK : m.rule ∈ s'.seen → m.rule ∈ K) : Passed P m s s'' := by
  obtain ⟨dirty, s₁, hfinish, hseen, hafter⟩ := h.finished
  refine ⟨h.new, dirty, s₁, hfinish, hseen, hafter.trans (hlater.mono ?_)⟩
  exact Set.singleton_subset_iff.mpr (hK (hafter.seen hseen))

theorem updateInput_after {node : Scan ω → NodeId → Outcome (Bool × Scan ω)} {n : NodeId}
    {x x' : Bool × Scan ω} (hrun : updateInput node r x n = .ok x') :
    ∃ b s₁, node x.2 n = .ok (b, s₁) ∧ Later {q | q ≠ r} s₁ x'.2 := by
  obtain ⟨⟨b, s₁⟩, hrec, hrest⟩ := Lib.bind_eq_ok.mp hrun
  refine ⟨b, s₁, hrec, ?_⟩
  cases b with
  | false =>
      obtain rfl := Except.ok.inj hrest
      exact .refl _ _
  | true =>
      simp only [if_true] at hrest
      split at hrest
      · obtain rfl := Except.ok.inj hrest
        exact .refl _ _
      · obtain ⟨g₂, hmark, hpure⟩ := Lib.bind_eq_ok.mp hrest
        obtain ⟨-, rfl⟩ := markInputDirty_eq_ok hmark
        obtain rfl := Except.ok.inj hpure
        exact ⟨Finset.Subset.refl _, .setRule _ _ fun hr ↦ hr rfl⟩

section Turns

variable {g₀ : Graph} {O : Set RuleId} {s s' : Scan ω} {m : Turn ω}
  {node : Scan ω → NodeId → Outcome (Bool × Scan ω)} {turn : Scan ω → NodeId → Turn ω → Prop}

/-- The state at a turn that comes while the rule `r` is updated, given the
state at those that come while its inputs are. -/
theorem RuleTurn.atTurn (hg : Scannable g₀) (hs : Walk g₀ O s) (hr : r ∈ g₀.rules)
    (hne : g₀.links.outputs r ≠ [])
    (hO : ∀ q ∈ O, q ∈ s.seen ∧ ∀ n ∈ g₀.links.inputs r, g₀.links.Uses q n)
    (hnode : ∀ n ∈ g₀.links.inputs r, Walks g₀ node n)
    (hturn : ∀ n ∈ g₀.links.inputs r, ∀ O s, Walk g₀ O s →
      (∀ q ∈ O, q ∈ s.seen ∧ g₀.links.Uses q n) → turn s n m →
      g₀.links.outputs m.rule ≠ [] ∧ ∃ O, AtTurn g₀ O m)
    (h : RuleTurn node turn s r m) : g₀.links.outputs m.rule ≠ [] ∧ ∃ O, AtTurn g₀ O m := by
  obtain ⟨hnew, h⟩ := h
  have hin := hs.inputs_of_new hg.explicit hr hnew
  rcases h with ⟨pre, n, post, x, hsplit, hloop, hrec⟩ | ⟨x, hloop, rfl⟩
  · have hsplit' : g₀.links.inputs r = pre ++ n :: post := hin.symm.trans hsplit
    obtain ⟨hinputs, hlater⟩ := updateInputs_walked hr hnew hO hin hnode (n :: post)
      (by simpa using hsplit') (.start hs hr hnew) hloop
    have hmem : n ∈ g₀.links.inputs r := by simp [hsplit']
    refine hturn n hmem _ _ hinputs.walk ?_ hrec
    rintro q (rfl | hq)
    · exact ⟨hinputs.seen, Links.uses_input hmem⟩
    · exact ⟨hinputs.later.seen (hO q hq).1, (hO q hq).2 n hmem⟩
  · rw [hin] at hloop
    obtain ⟨hinputs, -⟩ := updateInputs_walked hr hnew hO hin hnode [] (by simp)
      (.start hs hr hnew) hloop
    rw [List.nil_append] at hinputs
    exact ⟨hne, O, hinputs.atTurn hs hr hnew hin⟩

theorem NodeTurn.atTurn (hdigest : ∀ data, P.digest data ≠ "") (hg : Scannable g₀) {fuel : ℕ}
    {n : NodeId} (hno : g₀.links.AcyclicBelow n) (hs : Walk g₀ O s)
    (huses : ∀ q ∈ O, q ∈ s.seen ∧ g₀.links.Uses q n) (h : NodeTurn P fuel s n m) :
    g₀.links.outputs m.rule ≠ [] ∧ ∃ O, AtTurn g₀ O m := by
  induction fuel generalizing n O s with
  | zero => exact h.elim
  | succ fuel ih =>
      obtain ⟨r, hc, hturn⟩ := h
      have hr : g₀.links.child n = some r := by rw [← hs.childRule hg.tied.twoWay, hc]
      obtain ⟨hmem, hout⟩ := (hg.tied.twoWay.child_eq_some n r).mp hr
      refine hturn.atTurn hg hs hmem (List.ne_nil_of_mem hout)
        (fun q hq ↦ ⟨(huses q hq).1, fun x hx ↦ (huses q hq).2.of_feeds ⟨r, hr, hx⟩⟩) ?_ ?_
      · exact fun x hx ↦ updateNode_walks hdigest hg (hno.of_feeds ⟨r, hr, hx⟩)
      · exact fun x hx O s hs huses hrec ↦ ih (hno.of_feeds ⟨r, hr, hx⟩) hs huses hrec

/-- A turn that comes while the rule `r` is updated is over when `r` is, given
the same of the inputs of `r`. -/
theorem RuleTurn.passed (hdigest : ∀ data, P.digest data ≠ "") (hg : Scannable g₀)
    (hs : Walk g₀ O s) (hr : r ∈ g₀.rules) (hne : g₀.links.outputs r ≠ [])
    (hO : ∀ q ∈ O, q ∈ s.seen ∧ ∀ n ∈ g₀.links.inputs r, g₀.links.Uses q n)
    (hnode : ∀ n ∈ g₀.links.inputs r, Walks g₀ node n)
    (hturn : ∀ n ∈ g₀.links.inputs r, ∀ O s b s', Walk g₀ O s →
      (∀ q ∈ O, q ∈ s.seen ∧ g₀.links.Uses q n) → turn s n m → node s n = .ok (b, s') →
      Passed P m s s')
    {dirty : Bool} (hrun : updateRule P node s r = .ok (dirty, s'))
    (h : RuleTurn node turn s r m) : Passed P m s s' := by
  obtain ⟨hnew, h⟩ := h
  have hin := hs.inputs_of_new hg.explicit hr hnew
  rw [updateRule_of_new P node hnew] at hrun
  obtain ⟨x', hall, hfinish⟩ := Lib.bind_eq_ok.mp hrun
  rcases h with ⟨pre, n, post, x, hsplit, hloop, hrec⟩ | ⟨x, hloop, rfl⟩
  · have hsplit' : g₀.links.inputs r = pre ++ n :: post := hin.symm.trans hsplit
    have hmem : n ∈ g₀.links.inputs r := by simp [hsplit']
    rw [hsplit, List.foldlM_append, hloop, Lib.except_ok_bind, List.foldlM_cons] at hall
    obtain ⟨x₁, hstep, hrest⟩ := Lib.bind_eq_ok.mp hall
    obtain ⟨hinputs, -⟩ := updateInputs_walked hr hnew hO hin hnode (n :: post)
      (by simpa using hsplit') (.start hs hr hnew) hloop
    rw [List.nil_append] at hinputs
    obtain ⟨hinputs₁, -⟩ := updateInput_walked hr hnew
      (fun q hq ↦ ⟨(hO q hq).1, (hO q hq).2 n hmem⟩) hmem hsplit (hnode n hmem) hinputs hstep
    obtain ⟨hinputs', hlater'⟩ := updateInputs_walked hr hnew hO hin hnode []
      (by simp [hsplit']) hinputs₁ hrest
    obtain ⟨b, s₁, hnode₁, hafter⟩ := updateInput_after hstep
    have hpassed := hturn n hmem (insert r O) x.2 b s₁ hinputs.walk (by
      rintro q (rfl | hq)
      · exact ⟨hinputs.seen, Links.uses_input hmem⟩
      · exact ⟨hinputs.later.seen (hO q hq).1, (hO q hq).2 n hmem⟩) hrec hnode₁
    have hmr : m.rule ≠ r := fun heq ↦ hpassed.new (heq ▸ hinputs.seen)
    rw [show pre ++ [n] ++ post = g₀.links.inputs r by simp [hsplit']] at hinputs'
    have hlast := ((hinputs'.atTurn hs hr hnew hin).finish hdigest hne hfinish).2.1
    have hend := ((hpassed.later hafter fun _ ↦ hmr).later hlater' fun hseen ↦ ⟨hseen, hmr⟩).later
      hlast fun hseen ↦ ⟨hseen, hmr⟩
    exact { hend with new := fun hseen ↦ hpassed.new (hinputs.later.seen hseen) }
  · obtain rfl : x' = x := Except.ok.inj (hall.symm.trans hloop)
    rw [hin] at hloop
    obtain ⟨hinputs, -⟩ := updateInputs_walked hr hnew hO hin hnode [] (by simp)
      (.start hs hr hnew) hloop
    rw [List.nil_append] at hinputs
    have hlast := ((hinputs.atTurn hs hr hnew hin).finish hdigest hne hfinish).2.1
    exact ⟨hnew, dirty, s', hfinish, hlast.seen hinputs.seen, .refl _ _⟩

theorem NodeTurn.passed (hdigest : ∀ data, P.digest data ≠ "") (hg : Scannable g₀) {fuel : ℕ}
    {n : NodeId} (hno : g₀.links.AcyclicBelow n) (hs : Walk g₀ O s)
    (huses : ∀ q ∈ O, q ∈ s.seen ∧ g₀.links.Uses q n) {dirty : Bool}
    (hrun : updateNode P fuel s n = .ok (dirty, s')) (h : NodeTurn P fuel s n m) :
    Passed P m s s' := by
  induction fuel generalizing n O s dirty s' with
  | zero => exact h.elim
  | succ fuel ih =>
      obtain ⟨r, hc, hturn⟩ := h
      obtain ⟨s₁, hrule, hhash⟩ := updateNode_target hc hrun
      have hr : g₀.links.child n = some r := by rw [← hs.childRule hg.tied.twoWay, hc]
      obtain ⟨hmem, hout⟩ := (hg.tied.twoWay.child_eq_some n r).mp hr
      have hO : r ∉ O := fun hin ↦ Links.not_uses_of_child (hno n .refl) hr (huses r hin).2
      have huses' : ∀ q ∈ O, q ∈ s.seen ∧ ∀ n ∈ g₀.links.inputs r, g₀.links.Uses q n :=
        fun q hq ↦ ⟨(huses q hq).1, fun x hx ↦ (huses q hq).2.of_feeds ⟨r, hr, hx⟩⟩
      have hrec : ∀ x ∈ g₀.links.inputs r, Walks g₀ (updateNode P fuel) x :=
        fun x hx ↦ updateNode_walks hdigest hg (hno.of_feeds ⟨r, hr, hx⟩)
      have hpassed := hturn.passed hdigest hg hs hmem (List.ne_nil_of_mem hout) huses' hrec
        (fun x hx O s b s' hs huses hturn hrun ↦
          ih (hno.of_feeds ⟨r, hr, hx⟩) hs huses hrun hturn) hrule
      have hwalked := updateRule_walked hdigest hg hs hmem (List.ne_nil_of_mem hout) huses' hrec
        hrule
      refine hpassed.later (updateTarget_walked hdigest hwalked hO ?_ hhash).2 fun _ ↦ trivial
      rw [hwalked.walk.childRule hg.tied.twoWay, hr]

/-! ## The roots in turn -/

theorem scanRoots_walked (hdigest : ∀ data, P.digest data ≠ "") (hg : Scannable g₀) {fuel : ℕ}
    {l : List NodeId} (hno : ∀ n ∈ l, g₀.links.AcyclicBelow n) (hs : Walk g₀ ∅ s)
    (hrun : l.foldlM (scanRoot P fuel) s = .ok s') : Walk g₀ ∅ s' ∧ Later ↑s.seen s s' := by
  refine Lib.foldlM_invariant (fun s' ↦ Walk g₀ ∅ s' ∧ Later ↑s.seen s s') ?_ hrun
    ⟨hs, .refl _ _⟩
  rintro n hn s₁ s₂ hstep ⟨hs₁, hlater₁⟩
  obtain ⟨⟨b, s₃⟩, hnode, hpure⟩ := Lib.bind_eq_ok.mp hstep
  obtain rfl := Except.ok.inj hpure
  have hwalked := updateNode_walks hdigest hg (hno n hn) ∅ s₁ b s₃ hs₁ (fun q hq ↦ hq.elim) hnode
  exact ⟨hwalked.walk, hlater₁.trans (hwalked.later.mono hlater₁.seen)⟩

/-- The state in which the traversal starts. -/
theorem Scannable.walk (hg : Scannable g₀) (w : ω) : Walk g₀ ∅ ⟨statNodes P w g₀, w, ∅⟩ := by
  have hstat := statNodes_spec P w g₀
  have hdirty : ∀ n, ((statNodes P w g₀).node n).isDirty = false := by
    intro n
    rw [hstat.node]
    exact (hg.pristine.node n).1
  have hhash : ∀ n, ((statNodes P w g₀).node n).hash = "" := by
    intro n
    rw [hstat.node]
    exact (hg.pristine.node n).2
  refine ⟨hg.tied.of_links hstat.links, (Explicit.refl g₀).of_links hstat.links, ?_,
    fun n _ hne ↦ absurd (hhash n) hne, fun n _ _ hne ↦ absurd (hhash n) hne, fun n _ _ hd ↦ ?_,
    fun r hr _ ↦ ?_, fun r hr ↦ absurd hr (Finset.notMem_empty r)⟩
  · rw [show (statNodes P w g₀).nodes = g₀.nodes from congrArg Links.nodes hstat.links]
    exact hg.keys
  · rw [hdirty] at hd
    cases hd
  · rw [hstat.rule]
    exact ⟨(hg.pristine.rule r hr).1, (hg.pristine.rule r hr).2, hg.explicit r hr⟩

/-- Every turn of a scan finds its rule as `AtTurn` says, whatever has been
loaded before. -/
theorem ScanTurn.atTurn (hdigest : ∀ data, P.digest data ≠ "") (hg : Scannable g₀)
    {order : List NodeId} (hno : ∀ n ∈ order, g₀.links.AcyclicBelow n) {w : ω}
    (h : ScanTurn P g₀ w order m) :
    g₀.links.outputs m.rule ≠ [] ∧ ∃ O, AtTurn g₀ O m := by
  obtain ⟨pre, n, post, s, rfl, hpre, hturn⟩ := h
  have hs := (scanRoots_walked hdigest hg (fun n hn ↦ hno n (List.mem_append_left _ hn))
    (hg.walk w) hpre).1
  exact hturn.atTurn hdigest hg (hno n (by simp)) hs fun q hq ↦ hq.elim

/-- In a scan that comes to its end every turn is over, and the rule stays as
its turn has left it. -/
theorem ScanTurn.passed (hdigest : ∀ data, P.digest data ≠ "") (hg : Scannable g₀)
    {order : List NodeId} (hno : ∀ n ∈ order, g₀.links.AcyclicBelow n) {w : ω}
    (hrun : order.foldlM (scanRoot P (statNodes P w g₀).depth) ⟨statNodes P w g₀, w, ∅⟩ = .ok s')
    (h : ScanTurn P g₀ w order m) : Passed P m ⟨statNodes P w g₀, w, ∅⟩ s' := by
  obtain ⟨pre, n, post, s, rfl, hpre, hturn⟩ := h
  have hs := (scanRoots_walked hdigest hg (fun n hn ↦ hno n (List.mem_append_left _ hn))
    (hg.walk w) hpre).1
  rw [List.foldlM_append, hpre, Lib.except_ok_bind, List.foldlM_cons] at hrun
  obtain ⟨s₁, hroot, hpost⟩ := Lib.bind_eq_ok.mp hrun
  obtain ⟨⟨b, s₂⟩, hnode, hpure⟩ := Lib.bind_eq_ok.mp hroot
  obtain rfl := Except.ok.inj hpure
  have hpassed := hturn.passed hdigest hg (hno n (by simp)) hs (fun q hq ↦ hq.elim) hnode
  have hwalked := updateNode_walks hdigest hg (hno n (by simp)) ∅ s b s₂ hs (fun q hq ↦ hq.elim)
    hnode
  have hlater := (scanRoots_walked hdigest hg (fun n hn ↦ hno n (by simp [hn])) hwalked.walk
    hpost).2
  have hend := hpassed.later hlater fun hseen ↦ hseen
  exact { hend with new := Finset.notMem_empty m.rule }

end Turns

end GraphDependencyScan

end Falcon
