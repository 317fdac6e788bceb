import Mathlib.Data.Finset.Sort
import Mathlib.Tactic.Tauto
import Falcon.Lib.Lists
import Falcon.Graph.Consistent

/-!
# The consistency checker

`GraphConsistencyChecker::check` walks over the graph from its roots, looks at
every node and rule once and counts what it has seen.  On a well-linked graph
its verdict is about the states, hashes and counters alone.
-/

namespace Falcon

namespace GraphConsistencyChecker

structure Checker where
  nodesSeen : Finset NodeId
  rulesSeen : Finset RuleId
  nbRootsSeen : ℕ
  nbSourcesSeen : ℕ
  isConsistent : Bool

def Checker.create : Checker := ⟨∅, ∅, 0, 0, true⟩

/-- `FCHECK(cond)`. -/
def Checker.fcheck (c : Checker) (cond : Bool) : Checker :=
  { c with isConsistent := c.isConsistent && cond }

variable (g : Graph)

/-- The part of `checkNode` before the child rule is looked at. -/
def enterNode (c : Checker) (n : NodeId) : Checker :=
  let c := { c with nodesSeen := insert n c.nodesSeen }
  let c := c.fcheck ((g.node n).hash ≠ "")
  let c := c.fcheck ((g.node n).hashDepfile ≠ "")
  let c := c.fcheck (g.nodes.lookup (g.node n).path).isSome
  if (g.node n).parentRules.isEmpty then
    { c.fcheck (n ∈ g.roots) with nbRootsSeen := c.nbRootsSeen + 1 }
  else c

/-- The child rule of a node, given the recursion of the rules. -/
def checkChild (rule : Checker → RuleId → Outcome Checker) (c : Checker) (n : NodeId) :
    Outcome Checker :=
  match (g.node n).childRule with
  | none => pure { c.fcheck (n ∈ g.sources) with nbSourcesSeen := c.nbSourcesSeen + 1 }
  | some r => rule (if (g.node n).isDirty then c.fcheck (g.rule r).isDirty else c) r

/-- The part of `checkRule` before the inputs are looked at. -/
def enterRule (c : Checker) (r : RuleId) : Checker :=
  let c := { c with rulesSeen := insert r c.rulesSeen }
  let c := c.fcheck ((g.rule r).hash ≠ "")
  let c := c.fcheck ((g.rule r).hashDepfile ≠ "")
  let c := c.fcheck ((g.rule r).outputs ≠ [])
  let c := c.fcheck ((g.rule r).isPhony = decide ((g.rule r).command = ""))
  let c := if (g.rule r).isPhony then c.fcheck ((g.rule r).outputs.length = 1) else c
  if (g.rule r).isDirty then
    (g.rule r).outputs.foldl (fun c o ↦
      c.fcheck ((g.node o).isLazyFetched || (g.node o).isDirty)) c
  else c

/-- The state of the loop over the inputs of a rule. -/
structure InputLoop where
  seen : Finset NodeId
  nbReady : ℕ
  checker : Checker

/-- `getOutputs()[0]->getPath()` in the text of a check, which is put together
whether or not the check fails. -/
def firstOutput (r : RuleId) : Outcome Unit :=
  if (g.rule r).outputs = [] then .error .nullDereference else .ok ()

def checkInput (node : Checker → NodeId → Outcome Checker) (r : RuleId) (s : InputLoop)
    (n : NodeId) : Outcome InputLoop := do
  let c := s.checker.fcheck (n ∉ s.seen)
  firstOutput g r
  let c := if (g.node n).isDirty then c.fcheck (g.rule r).isDirty else c
  let nbReady := if g.inputReady n then s.nbReady + 1 else s.nbReady
  let c ← node c n
  pure ⟨insert n s.seen, nbReady, c⟩

def checkRule (node : Checker → NodeId → Outcome Checker) (c : Checker) (r : RuleId) :
    Outcome Checker :=
  if r ∈ c.rulesSeen then pure c
  else do
    let s ← (g.rule r).inputs.foldlM (checkInput g node r) ⟨∅, 0, enterRule g c r⟩
    pure (s.checker.fcheck (s.nbReady = (g.rule r).numInputsReady))

/-- A node is entered once; the loop at the end looks for a parent that is
listed twice. -/
def checkNode : ℕ → Checker → NodeId → Outcome Checker
  | 0, _, _ => .error .outOfFuel
  | fuel + 1, c, n =>
    if n ∈ c.nodesSeen then pure c
    else do
      let c ← checkChild g (checkRule g (checkNode fuel)) (enterNode g c n) n
      forM (g.node n).parentRules (firstOutput g)
      pure (c.fcheck (g.node n).parentRules.Nodup)

/-- The verdict `isConsistent_`. -/
def check : Outcome Bool := do
  let c ← (g.roots.sort (· ≤ ·)).foldlM (checkNode g g.depth) Checker.create
  let c := c.fcheck (c.nodesSeen.card = g.nodes.length)
  let c := c.fcheck (c.nbRootsSeen = g.roots.card)
  let c := c.fcheck (c.nbSourcesSeen = g.sources.card)
  let c := c.fcheck (c.rulesSeen.card = g.rules.length)
  pure c.isConsistent

variable {g}

/-- What the checker finds out about the state of a node. -/
structure NodeOk (g : Graph) (n : NodeId) : Prop where
  hash : (g.node n).hash ≠ ""
  hashDepfile : (g.node n).hashDepfile ≠ ""
  dirty : ∀ r, (g.node n).childRule = some r → (g.node n).isDirty = true →
    (g.rule r).isDirty = true

structure RuleOk (g : Graph) (r : RuleId) : Prop where
  hash : (g.rule r).hash ≠ ""
  hashDepfile : (g.rule r).hashDepfile ≠ ""
  outputs : (g.rule r).isDirty = true → ∀ o ∈ (g.rule r).outputs,
    (g.node o).isLazyFetched = true ∨ (g.node o).isDirty = true
  inputs : ∀ n ∈ (g.rule r).inputs, (g.node n).isDirty = true → (g.rule r).isDirty = true
  ready : (g.rule r).numInputsReady = g.nbReady r

/-- The counters of the checker agree with its sets. -/
structure Counted (g : Graph) (c : Checker) : Prop where
  nodes : c.nodesSeen ⊆ g.allocated
  rules : ∀ r ∈ c.rulesSeen, r ∈ g.rules
  roots : c.nbRootsSeen = (c.nodesSeen ∩ g.roots).card
  sources : c.nbSourcesSeen = (c.nodesSeen ∩ g.sources).card

/-- What a part of the walk from `c` to `c'` has done: everything new has been
checked and followed, and the checks of what had been entered before it found
out whether `X` holds. -/
structure Checked (g : Graph) (X : Prop) (c c' : Checker) : Prop where
  nodes : c.nodesSeen ⊆ c'.nodesSeen
  rules : c.rulesSeen ⊆ c'.rulesSeen
  flag : c'.isConsistent = true ↔ c.isConsistent = true ∧ X ∧
    (∀ n ∈ c'.nodesSeen, n ∉ c.nodesSeen → NodeOk g n) ∧
    ∀ r ∈ c'.rulesSeen, r ∉ c.rulesSeen → RuleOk g r
  child : ∀ n ∈ c'.nodesSeen, n ∉ c.nodesSeen → ∀ r, (g.node n).childRule = some r →
    r ∈ c'.rulesSeen
  inputs : ∀ r ∈ c'.rulesSeen, r ∉ c.rulesSeen → ∀ n ∈ (g.rule r).inputs, n ∈ c'.nodesSeen

theorem Checked.of_flag {X : Prop} {c c' : Checker} (hnodes : c'.nodesSeen = c.nodesSeen)
    (hrules : c'.rulesSeen = c.rulesSeen)
    (hflag : c'.isConsistent = true ↔ c.isConsistent = true ∧ X) : Checked g X c c' where
  nodes := hnodes.symm.subset
  rules := hrules.symm.subset
  flag := by
    rw [hflag, hnodes, hrules]
    refine and_congr_right fun _ ↦ ⟨fun h ↦ ⟨h, ?_, ?_⟩, fun h ↦ h.1⟩
    · exact fun n hn hnot ↦ absurd hn hnot
    · exact fun r hr hnot ↦ absurd hr hnot
  child n hn hnot := absurd (hnodes ▸ hn) hnot
  inputs r hr hnot := absurd (hrules ▸ hr) hnot

theorem Checked.refl (g : Graph) (c : Checker) : Checked g True c c :=
  .of_flag rfl rfl (by simp)

theorem Checked.congr {X Y : Prop} {c c' : Checker} (h : Checked g X c c') (hXY : X ↔ Y) :
    Checked g Y c c' :=
  propext hXY ▸ h

theorem Checked.trans {X Y : Prop} {c c' c'' : Checker} (h : Checked g X c c')
    (h' : Checked g Y c' c'') : Checked g (X ∧ Y) c c'' where
  nodes := h.nodes.trans h'.nodes
  rules := h.rules.trans h'.rules
  flag := by
    rw [h'.flag, h.flag]
    constructor
    · rintro ⟨⟨hc, hx, hn, hr⟩, hy, hn', hr'⟩
      refine ⟨hc, ⟨hx, hy⟩, fun n hmem hnot ↦ ?_, fun r hmem hnot ↦ ?_⟩
      · by_cases hmid : n ∈ c'.nodesSeen
        · exact hn n hmid hnot
        · exact hn' n hmem hmid
      · by_cases hmid : r ∈ c'.rulesSeen
        · exact hr r hmid hnot
        · exact hr' r hmem hmid
    · rintro ⟨hc, ⟨hx, hy⟩, hn, hr⟩
      refine ⟨⟨hc, hx, fun n hmem hnot ↦ hn n (h'.nodes hmem) hnot,
        fun r hmem hnot ↦ hr r (h'.rules hmem) hnot⟩, hy, fun n hmem hnot ↦ ?_,
        fun r hmem hnot ↦ ?_⟩
      · exact hn n hmem fun hin ↦ hnot (h.nodes hin)
      · exact hr r hmem fun hin ↦ hnot (h.rules hin)
  child n hn hnot r hr := by
    by_cases hmid : n ∈ c'.nodesSeen
    · exact h'.rules (h.child n hmid hnot r hr)
    · exact h'.child n hn hmid r hr
  inputs r hr hnot n hn := by
    by_cases hmid : r ∈ c'.rulesSeen
    · exact h'.nodes (h.inputs r hmid hnot n hn)
    · exact h'.inputs r hr hmid n hn

/-- The node `n` is entered in the step to `c₁` and checked on the way to `c'`. -/
theorem Checked.enterNode {X Y : Prop} {c c₁ c' : Checker} {n : NodeId} (hn : n ∉ c.nodesSeen)
    (hnodes : c₁.nodesSeen = insert n c.nodesSeen) (hrules : c₁.rulesSeen = c.rulesSeen)
    (hflag : c₁.isConsistent = true ↔ c.isConsistent = true ∧ X) (h : Checked g Y c₁ c')
    (hok : X ∧ Y ↔ NodeOk g n) (hchild : ∀ r, (g.node n).childRule = some r → r ∈ c'.rulesSeen) :
    Checked g True c c' where
  nodes := (Finset.subset_insert n c.nodesSeen).trans (hnodes ▸ h.nodes)
  rules := hrules ▸ h.rules
  flag := by
    have hmem : n ∈ c'.nodesSeen := h.nodes (hnodes ▸ Finset.mem_insert_self n c.nodesSeen)
    rw [h.flag, hflag, hnodes, hrules]
    constructor
    · rintro ⟨⟨hc, hx⟩, hy, hns, hrs⟩
      refine ⟨hc, trivial, fun m hm hnot ↦ ?_, hrs⟩
      by_cases heq : m = n
      · rw [heq]
        exact hok.mp ⟨hx, hy⟩
      · exact hns m hm (by simp [heq, hnot])
    · rintro ⟨hc, -, hns, hrs⟩
      obtain ⟨hx, hy⟩ := hok.mpr (hns n hmem hn)
      refine ⟨⟨hc, hx⟩, hy, fun m hm hnot ↦ hns m hm fun hin ↦ hnot ?_, hrs⟩
      exact Finset.mem_insert_of_mem hin
  child m hm hnot r hr := by
    by_cases heq : m = n
    · exact hchild r (heq ▸ hr)
    · exact h.child m hm (by simp [hnodes, heq, hnot]) r hr
  inputs r hr hnot := h.inputs r hr (hrules ▸ hnot)

/-- The rule `r` is entered in the step to `c₁` and checked on the way to `c'`. -/
theorem Checked.enterRule {X Y : Prop} {c c₁ c' : Checker} {r : RuleId} (hr : r ∉ c.rulesSeen)
    (hnodes : c₁.nodesSeen = c.nodesSeen) (hrules : c₁.rulesSeen = insert r c.rulesSeen)
    (hflag : c₁.isConsistent = true ↔ c.isConsistent = true ∧ X) (h : Checked g Y c₁ c')
    (hok : X ∧ Y ↔ RuleOk g r) (hinputs : ∀ n ∈ (g.rule r).inputs, n ∈ c'.nodesSeen) :
    Checked g True c c' where
  nodes := hnodes ▸ h.nodes
  rules := (Finset.subset_insert r c.rulesSeen).trans (hrules ▸ h.rules)
  flag := by
    have hmem : r ∈ c'.rulesSeen := h.rules (hrules ▸ Finset.mem_insert_self r c.rulesSeen)
    rw [h.flag, hflag, hnodes, hrules]
    constructor
    · rintro ⟨⟨hc, hx⟩, hy, hns, hrs⟩
      refine ⟨hc, trivial, hns, fun q hq hnot ↦ ?_⟩
      by_cases heq : q = r
      · rw [heq]
        exact hok.mp ⟨hx, hy⟩
      · exact hrs q hq (by simp [heq, hnot])
    · rintro ⟨hc, -, hns, hrs⟩
      obtain ⟨hx, hy⟩ := hok.mpr (hrs r hmem hr)
      refine ⟨⟨hc, hx⟩, hy, hns, fun q hq hnot ↦ hrs q hq fun hin ↦ hnot ?_⟩
      exact Finset.mem_insert_of_mem hin
  child n hn hnot := h.child n hn (hnodes ▸ hnot)
  inputs q hq hnot n hn := by
    by_cases heq : q = r
    · exact hinputs n (heq ▸ hn)
    · exact h.inputs q hq (by simp [hrules, heq, hnot]) n hn

theorem checked_fcheck (g : Graph) (c : Checker) (b : Bool) :
    Checked g (b = true) c (c.fcheck b) :=
  .of_flag rfl rfl (by simp [Checker.fcheck])

/-- A check that is made under a condition. -/
theorem checked_ite (g : Graph) (c : Checker) (a b : Bool) :
    Checked g (a = true → b = true) c (if a then c.fcheck b else c) := by
  cases a with
  | true => exact (checked_fcheck g c b).congr (by simp)
  | false => exact (Checked.refl g c).congr (by simp)

theorem firstOutput_eq_ok {r : RuleId} : firstOutput g r = .ok () ↔ (g.rule r).outputs ≠ [] := by
  simp only [firstOutput]
  split <;> simp_all

theorem forM_firstOutput {l : List RuleId} :
    forM l (firstOutput g) = .ok () ↔ ∀ r ∈ l, (g.rule r).outputs ≠ [] := by
  induction l with
  | nil => simp
  | cons r l ih =>
      rw [List.forM_cons, Lib.bind_eq_ok, List.forall_mem_cons, ← firstOutput_eq_ok, ← ih]
      exact ⟨fun ⟨_, hr, hl⟩ ↦ ⟨hr, hl⟩, fun ⟨hr, hl⟩ ↦ ⟨(), hr, hl⟩⟩

theorem Counted.fcheck {c : Checker} (h : Counted g c) (b : Bool) : Counted g (c.fcheck b) :=
  ⟨h.nodes, h.rules, h.roots, h.sources⟩

theorem Counted.ite {c : Checker} (h : Counted g c) (a b : Bool) :
    Counted g (if a then c.fcheck b else c) := by
  cases a with
  | true => exact h.fcheck b
  | false => exact h

/-- The outputs of a rule are checked in turn. -/
theorem foldl_fcheck (f : NodeId → Bool) (l : List NodeId) (c : Checker) :
    l.foldl (fun c n ↦ c.fcheck (f n)) c = c.fcheck (l.all f) := by
  induction l generalizing c with
  | nil => simp [Checker.fcheck]
  | cons n l ih =>
      rw [List.foldl_cons, ih]
      simp [Checker.fcheck, Bool.and_assoc]

section Linked

variable (hg : g.Linked)
include hg

/-- A rule is entered: only its own state can be wrong. -/
theorem enterRule_spec {c : Checker} {r : RuleId} (hr : r ∈ g.rules) :
    (enterRule g c r).nodesSeen = c.nodesSeen ∧
      (enterRule g c r).rulesSeen = insert r c.rulesSeen ∧
      (enterRule g c r).nbRootsSeen = c.nbRootsSeen ∧
      (enterRule g c r).nbSourcesSeen = c.nbSourcesSeen ∧
      ((enterRule g c r).isConsistent = true ↔ c.isConsistent = true ∧
        (g.rule r).hash ≠ "" ∧ (g.rule r).hashDepfile ≠ "" ∧
        ((g.rule r).isDirty = true → ∀ o ∈ (g.rule r).outputs,
          (g.node o).isLazyFetched = true ∨ (g.node o).isDirty = true)) := by
  have hout := hg.output r hr
  have hphony := hg.phony_output r hr
  have hcommand : (g.rule r).isPhony = decide ((g.rule r).command = "") := rfl
  simp only [enterRule, foldl_fcheck]
  cases hp : (g.rule r).isPhony with
  | true =>
      have hlen := hphony hp
      cases hd : (g.rule r).isDirty <;>
        simp [Checker.fcheck, hout, hlen, ← hcommand, hp, and_assoc]
  | false =>
      cases hd : (g.rule r).isDirty <;>
        simp [Checker.fcheck, hout, ← hcommand, hp, and_assoc]

/-- A node is entered: its place in the map and in the set of roots is right. -/
theorem enterNode_spec {c : Checker} {n : NodeId} (h : Counted g c) (hn : n ∈ g.allocated)
    (hnew : n ∉ c.nodesSeen) :
    (enterNode g c n).nodesSeen = insert n c.nodesSeen ∧
      (enterNode g c n).rulesSeen = c.rulesSeen ∧
      (enterNode g c n).nbRootsSeen = (insert n c.nodesSeen ∩ g.roots).card ∧
      (enterNode g c n).nbSourcesSeen = c.nbSourcesSeen ∧
      ((enterNode g c n).isConsistent = true ↔ c.isConsistent = true ∧
        (g.node n).hash ≠ "" ∧ (g.node n).hashDepfile ≠ "") := by
  have hlookup := hg.lookup n hn
  have hroot := hg.roots n
  simp only [enterNode]
  split
  · rename_i hparents
    have hmem : n ∈ g.roots := hroot.mpr ⟨hn, List.isEmpty_iff.mp hparents⟩
    have hcard : (insert n c.nodesSeen ∩ g.roots).card = (c.nodesSeen ∩ g.roots).card + 1 := by
      rw [Finset.insert_inter_of_mem hmem, Finset.card_insert_of_notMem (by simp [hnew])]
    refine ⟨rfl, rfl, ?_, rfl, ?_⟩
    · simp [Checker.fcheck, hcard, h.roots]
    · simp [Checker.fcheck, hlookup, hmem, and_assoc]
  · rename_i hparents
    have hmem : n ∉ g.roots := fun hin ↦ hparents (List.isEmpty_iff.mpr (hroot.mp hin).2)
    refine ⟨rfl, rfl, ?_, rfl, ?_⟩
    · rw [Finset.insert_inter_of_notMem hmem]
      exact h.roots
    · simp [Checker.fcheck, hlookup, and_assoc]

/-- What the recursion does for one node. -/
def NodeSpec (g : Graph) (node : Checker → NodeId → Outcome Checker) (n : NodeId) : Prop :=
  ∀ c, Counted g c → ∃ c', node c n = .ok c' ∧ Counted g c' ∧ Checked g True c c' ∧
    n ∈ c'.nodesSeen

/-- The inputs of `pre` have been looked at for the rule `r`. -/
structure InputsChecked (g : Graph) (r : RuleId) (c : Checker) (pre : List NodeId)
    (s : InputLoop) : Prop where
  seen : s.seen = pre.toFinset
  nbReady : s.nbReady = pre.countP g.inputReady
  counted : Counted g s.checker
  checked : Checked g (∀ n ∈ pre, (g.node n).isDirty = true → (g.rule r).isDirty = true) c
    s.checker
  inputs : ∀ n ∈ pre, n ∈ s.checker.nodesSeen

omit hg in
theorem checkInput_spec {node : Checker → NodeId → Outcome Checker} {r : RuleId} {c : Checker}
    {pre post : List NodeId} {n : NodeId} {s : InputLoop} (hnodup : (pre ++ n :: post).Nodup)
    (hout : (g.rule r).outputs ≠ []) (hnode : NodeSpec g node n) (h : InputsChecked g r c pre s) :
    ∃ s', checkInput g node r s n = .ok s' ∧ InputsChecked g r c (pre ++ [n]) s' := by
  have hnew : n ∉ s.seen := by
    rw [h.seen, List.mem_toFinset]
    intro hmem
    exact (List.nodup_append.mp hnodup).2.2 n hmem n List.mem_cons_self rfl
  have hc₁ := checked_fcheck g s.checker (decide (n ∉ s.seen))
  have hc₂ := checked_ite g (s.checker.fcheck (decide (n ∉ s.seen))) (g.node n).isDirty
    (g.rule r).isDirty
  obtain ⟨c', hrun, hcounted, hc', hmem⟩ := hnode _
    ((h.counted.fcheck (decide (n ∉ s.seen))).ite (g.node n).isDirty (g.rule r).isDirty)
  refine ⟨⟨insert n s.seen, if g.inputReady n then s.nbReady + 1 else s.nbReady, c'⟩, ?_, {
    seen := ?_
    nbReady := ?_
    counted := hcounted
    checked := (h.checked.trans ((hc₁.trans hc₂).trans hc')).congr ?_
    inputs := ?_ }⟩
  · simp only [checkInput, firstOutput_eq_ok.mpr hout, hrun, Lib.except_ok_bind, Lib.except_pure]
  · ext m
    simp [h.seen]
  · cases hready : g.inputReady n <;> simp [h.nbReady, List.countP_append, hready]
  · simp only [hnew, not_false_eq_true, decide_true, true_and, and_true, List.mem_append,
      List.mem_singleton, or_imp, forall_and, forall_eq]
  · intro m hm
    rcases List.mem_append.mp hm with hm | hm
    · exact hc'.nodes ((hc₁.trans hc₂).nodes (h.inputs m hm))
    · rw [List.mem_singleton.mp hm]
      exact hmem

theorem checkRule_spec {node : Checker → NodeId → Outcome Checker} {c : Checker} {r : RuleId}
    (h : Counted g c) (hr : r ∈ g.rules) (hnode : ∀ n ∈ (g.rule r).inputs, NodeSpec g node n) :
    ∃ c', checkRule g node c r = .ok c' ∧ Counted g c' ∧ Checked g True c c' ∧
      r ∈ c'.rulesSeen := by
  by_cases hseen : r ∈ c.rulesSeen
  · refine ⟨c, ?_, h, .refl g c, hseen⟩
    simp only [checkRule, hseen, if_true, Lib.except_pure]
  · obtain ⟨hnodes, hrules, hroots, hsources, hflag⟩ := enterRule_spec hg (c := c) hr
    have hcounted : Counted g (enterRule g c r) := by
      refine ⟨hnodes ▸ h.nodes, ?_, ?_, ?_⟩
      · intro q hq
        rw [hrules] at hq
        rcases Finset.mem_insert.mp hq with rfl | hq
        · exact hr
        · exact h.rules q hq
      · rw [hroots, hnodes, h.roots]
      · rw [hsources, hnodes, h.sources]
    have hnodup : (g.rule r).inputs.Nodup := hg.twoWay.inputs_nodup r hr
    have hstart : InputsChecked g r (enterRule g c r) [] ⟨∅, 0, enterRule g c r⟩ :=
      ⟨rfl, rfl, hcounted, (Checked.refl g _).congr (by simp), by simp⟩
    obtain ⟨s, hrun, hs⟩ := Lib.foldlM_rule (f := checkInput g node r) (l := (g.rule r).inputs)
      (InputsChecked g r (enterRule g c r)) hstart fun pre n post s' hl hs' ↦
        checkInput_spec (hl ▸ hnodup) (hg.output r hr) (hnode n (by simp [hl])) hs'
    have hready := checked_fcheck g s.checker (decide (s.nbReady = (g.rule r).numInputsReady))
    have hchecked := hs.checked.trans hready
    refine ⟨s.checker.fcheck (decide (s.nbReady = (g.rule r).numInputsReady)), ?_,
      hs.counted.fcheck _, ?_, ?_⟩
    · simp only [checkRule, hseen, if_false, hrun, Lib.except_ok_bind, Lib.except_pure]
    · refine Checked.enterRule hseen hnodes hrules hflag hchecked ?_ hs.inputs
      rw [decide_eq_true_eq, hs.nbReady]
      constructor
      · rintro ⟨⟨hhash, hdep, hout⟩, hin, hcount⟩
        exact ⟨hhash, hdep, hout, hin, hcount.symm⟩
      · rintro ⟨hhash, hdep, hout, hin, hcount⟩
        exact ⟨⟨hhash, hdep, hout⟩, hin, hcount.symm⟩
    · exact hchecked.rules (hrules ▸ Finset.mem_insert_self r c.rulesSeen)

theorem checkNode_spec {fuel : ℕ} {n : NodeId} (hfuel : g.links.rankBelow n < fuel)
    (hn : n ∈ g.allocated) : NodeSpec g (checkNode g fuel) n := by
  induction fuel generalizing n with
  | zero => exact absurd hfuel (Nat.not_lt_zero _)
  | succ fuel ih =>
      intro c h
      by_cases hseen : n ∈ c.nodesSeen
      · refine ⟨c, ?_, h, .refl g c, hseen⟩
        simp only [checkNode, hseen, if_true, Lib.except_pure]
      · obtain ⟨hnodes, hrules, hroots, hsources, hflag⟩ := enterNode_spec hg h hn hseen
        have hnodup : (g.node n).parentRules.Nodup := hg.twoWay.parents_nodup n
        have hparents : forM (g.node n).parentRules (firstOutput g) = .ok () :=
          forM_firstOutput.mpr fun r hr ↦ hg.output r ((hg.twoWay.mem_parents n r).mp hr).1
        have hsub : insert n c.nodesSeen ⊆ g.allocated := Finset.insert_subset hn h.nodes
        cases hc : (g.node n).childRule with
        | none =>
            have hsource : n ∈ g.sources := (hg.sources n).mpr ⟨hn, hc⟩
            let c₁ : Checker := { (enterNode g c n).fcheck (decide (n ∈ g.sources)) with
              nbSourcesSeen := (enterNode g c n).nbSourcesSeen + 1 }
            have hstep : Checked g True (enterNode g c n) c₁ := by
              refine .of_flag rfl rfl ?_
              simp [c₁, Checker.fcheck, hsource]
            have hlast := checked_fcheck g c₁ (decide (g.node n).parentRules.Nodup)
            refine ⟨c₁.fcheck (decide (g.node n).parentRules.Nodup), ?_, Counted.fcheck ?_ _,
              Checked.enterNode hseen hnodes hrules hflag (hstep.trans hlast) ?_ (by simp [hc]), ?_⟩
            · simp only [checkNode, hseen, if_false, checkChild, hc, hparents, Lib.except_pure,
                Lib.except_ok_bind, c₁]
            · refine ⟨hnodes ▸ hsub, hrules ▸ h.rules, ?_, ?_⟩
              · change (enterNode g c n).nbRootsSeen = ((enterNode g c n).nodesSeen ∩ _).card
                rw [hroots, hnodes]
              · change (enterNode g c n).nbSourcesSeen + 1 =
                  ((enterNode g c n).nodesSeen ∩ _).card
                rw [hsources, hnodes, h.sources, Finset.insert_inter_of_mem hsource,
                  Finset.card_insert_of_notMem (by simp [hseen])]
            · simp only [hnodup, decide_true, and_true]
              constructor
              · exact fun hok ↦ ⟨hok.1, hok.2, by simp [hc]⟩
              · exact fun hok ↦ ⟨hok.hash, hok.hashDepfile⟩
            · change n ∈ (enterNode g c n).nodesSeen
              rw [hnodes]
              exact Finset.mem_insert_self n _
        | some r =>
            obtain ⟨hr, -⟩ := (hg.twoWay.child_eq_some n r).mp hc
            have hsource : n ∉ g.sources := by
              intro hin
              rw [((hg.sources n).mp hin).2] at hc
              cases hc
            have hdirty := checked_ite g (enterNode g c n) (g.node n).isDirty (g.rule r).isDirty
            have hcounted : Counted g (enterNode g c n) := by
              refine ⟨hnodes ▸ hsub, hrules ▸ h.rules, hnodes ▸ hroots, ?_⟩
              rw [hsources, hnodes, h.sources, Finset.insert_inter_of_notMem hsource]
            have hrec : ∀ x ∈ (g.rule r).inputs, NodeSpec g (checkNode g fuel) x := by
              intro x hx
              exact ih ((Links.rankBelow_lt hg.twoWay hg.acyclic hc hx).trans_le
                (Nat.lt_succ_iff.mp hfuel)) (hg.allocated r hr x (Or.inl hx))
            obtain ⟨c', hrun, hcounted', hc', hmem⟩ := checkRule_spec hg
              (hcounted.ite (g.node n).isDirty (g.rule r).isDirty) hr hrec
            have hlast := checked_fcheck g c' (decide (g.node n).parentRules.Nodup)
            have hall := (hdirty.trans hc').trans hlast
            refine ⟨c'.fcheck (decide (g.node n).parentRules.Nodup), ?_, hcounted'.fcheck _,
              Checked.enterNode hseen hnodes hrules hflag hall ?_ ?_, ?_⟩
            · simp only [checkNode, hseen, if_false, checkChild, hc, hrun, hparents,
                Lib.except_ok_bind, Lib.except_pure]
            · simp only [hnodup, decide_true, and_true]
              constructor
              · rintro ⟨⟨hhash, hdep⟩, hd⟩
                refine ⟨hhash, hdep, fun q hq ↦ ?_⟩
                rw [hc] at hq
                exact Option.some.inj hq ▸ hd
              · exact fun hok ↦ ⟨⟨hok.hash, hok.hashDepfile⟩, hok.dirty r hc⟩
            · intro q hq
              rw [hc] at hq
              exact Option.some.inj hq ▸ hmem
            · exact hall.nodes (hnodes ▸ Finset.mem_insert_self n _)

/-- The map of nodes has one entry for each allocated node. -/
theorem length_nodes (hnodes : (g.nodes.map Prod.fst).Nodup) :
    g.nodes.length = g.allocated.card := by
  have hinj : (g.nodes.map Prod.snd).Nodup := by
    refine List.Nodup.map_on ?_ hnodes.of_map
    intro e he e' he' heq
    apply Prod.ext _ heq
    rw [← (hg.nodes e he).2, ← (hg.nodes e' he').2, heq]
  have hset : (g.nodes.map Prod.snd).toFinset = g.allocated := by
    ext n
    rw [List.mem_toFinset, List.mem_map]
    constructor
    · rintro ⟨e, he, rfl⟩
      exact (hg.nodes e he).1
    · intro hn
      exact ⟨((g.node n).path, n), Lib.mem_of_lookup_eq_some (hg.lookup n hn), rfl⟩
  rw [← hset, List.toFinset_card_of_nodup hinj, List.length_map]

/-- The walk from the roots sees everything. -/
theorem walk_complete {c : Checker} (hcounted : Counted g c)
    (hchecked : Checked g True Checker.create c) (hroots : ∀ n ∈ g.roots, n ∈ c.nodesSeen) :
    c.nodesSeen = g.allocated ∧ c.rulesSeen = g.rules.toFinset := by
  have hchild : ∀ n ∈ c.nodesSeen, ∀ r, (g.node n).childRule = some r → r ∈ c.rulesSeen :=
    fun n hn ↦ hchecked.child n hn (Finset.notMem_empty n)
  have hnodes : c.nodesSeen = g.allocated := by
    refine hcounted.nodes.antisymm ?_
    refine Links.mem_of_roots hg.twoWay hg.acyclic hg.output (A := {n | n ∈ g.allocated})
      (S := {n | n ∈ c.nodesSeen}) ?_ ?_ ?_
    · exact fun r hr o ho ↦ hg.allocated r hr o (Or.inr ho)
    · exact fun n hn hp ↦ hroots n ((hg.roots n).mpr ⟨hn, hp⟩)
    · intro r hr o ho hmem n hn
      have hseen := hchild o hmem r ((hg.twoWay.child_eq_some o r).mpr ⟨hr, ho⟩)
      exact hchecked.inputs r hseen (Finset.notMem_empty r) n hn
  refine ⟨hnodes, ?_⟩
  ext r
  rw [List.mem_toFinset]
  refine ⟨hcounted.rules r, fun hr ↦ ?_⟩
  obtain ⟨o, ho⟩ := List.exists_mem_of_ne_nil _ (hg.output r hr)
  refine hchild o ?_ r ((hg.twoWay.child_eq_some o r).mpr ⟨hr, ho⟩)
  rw [hnodes]
  exact hg.allocated r hr o (Or.inr ho)

/-- The verdict on a well-linked graph. -/
theorem check_spec (hnodes : (g.nodes.map Prod.fst).Nodup) (hrules : g.rules.Nodup) :
    ∃ b, check g = .ok b ∧ (b = true ↔
      (∀ n ∈ g.allocated, NodeOk g n) ∧ ∀ r ∈ g.rules, RuleOk g r) := by
  have hcreate : Counted g Checker.create :=
    ⟨Finset.empty_subset _, by simp [Checker.create], by simp [Checker.create],
      by simp [Checker.create]⟩
  obtain ⟨c, hrun, hcounted, hchecked, hroots⟩ := Lib.foldlM_rule
    (f := checkNode g g.depth) (l := g.roots.sort (· ≤ ·))
    (fun pre c ↦ Counted g c ∧ Checked g True Checker.create c ∧ ∀ n ∈ pre, n ∈ c.nodesSeen)
    ⟨hcreate, .refl g _, by simp⟩ (by
      intro pre n post c hl ⟨hcounted, hchecked, hpre⟩
      have hn : n ∈ g.roots.sort (· ≤ ·) := by simp [hl]
      obtain ⟨c', hrun, hcounted', hchecked', hmem⟩ := checkNode_spec hg
        (Graph.rankBelow_lt_depth g n) ((hg.roots n).mp ((Finset.mem_sort _).mp hn)).1 c hcounted
      refine ⟨c', hrun, hcounted', (hchecked.trans hchecked').congr (by simp), fun m hm ↦ ?_⟩
      rcases List.mem_append.mp hm with hm | hm
      · exact hchecked'.nodes (hpre m hm)
      · rw [List.mem_singleton.mp hm]
        exact hmem)
  obtain ⟨hall, hallRules⟩ := walk_complete hg hcounted hchecked
    fun n hn ↦ hroots n ((Finset.mem_sort _).mpr hn)
  have hrootsSub : g.roots ⊆ g.allocated := fun n hn ↦ ((hg.roots n).mp hn).1
  have hsourcesSub : g.sources ⊆ g.allocated := fun n hn ↦ ((hg.sources n).mp hn).1
  have h₁ : c.nodesSeen.card = g.nodes.length := by rw [hall, length_nodes hg hnodes]
  have h₂ : c.nbRootsSeen = g.roots.card := by
    rw [hcounted.roots, hall, Finset.inter_eq_right.mpr hrootsSub]
  have h₃ : c.nbSourcesSeen = g.sources.card := by
    rw [hcounted.sources, hall, Finset.inter_eq_right.mpr hsourcesSub]
  have h₄ : c.rulesSeen.card = g.rules.length := by
    rw [hallRules, List.toFinset_card_of_nodup hrules]
  refine ⟨c.isConsistent, ?_, ?_⟩
  · simp [check, hrun, Checker.fcheck, h₁, h₂, h₃, h₄]
  · rw [hchecked.flag, hall, hallRules]
    simp [Checker.create]

end Linked

end GraphConsistencyChecker

end Falcon
