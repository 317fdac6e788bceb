import Falcon.Lib.Search
import Falcon.Graph.Checker

/-!
# What the verdict of the consistency checker means

The checker compares sets by their sizes and tests the inclusion in one
direction.  Nothing is assumed of the graph here: links may disagree and close
cycles, nodes and rules may be listed where they do not belong.  For the roots
and the sources the two tests add up to equality.  For the nodes the checker
tests that a path is a key of the map, not that the node is stored there, and
for the rules it only counts.
-/

namespace Falcon

namespace GraphConsistencyChecker

open Lib

/-- What the checker walks over. -/
inductive Item where
  | node (n : NodeId)
  | rule (r : RuleId)
  deriving DecidableEq, Repr

/-- From a node to its child rule, from a rule to its inputs. -/
inductive Next (g : Graph) : Item → Item → Prop
  | child {n : NodeId} {r : RuleId} : (g.node n).childRule = some r → Next g (.node n) (.rule r)
  | input {r : RuleId} {n : NodeId} : n ∈ (g.rule r).inputs → Next g (.rule r) (.node n)

def rootItems (g : Graph) : Set Item := {x | ∃ n ∈ g.roots, x = .node n}

/-- The nodes and the rules that are reached from `roots_`. -/
def Reached (g : Graph) : Set Item := Reach (Next g) (rootItems g)

/-- What the checker stands for, as far as it concerns the sets and the
counters of the graph. -/
structure Sound (g : Graph) : Prop where
  roots : ∀ n, n ∈ g.roots ↔ .node n ∈ Reached g ∧ (g.node n).parentRules = []
  sources : ∀ n, n ∈ g.sources ↔ .node n ∈ Reached g ∧ (g.node n).childRule = none
  nodes : ∀ path n, g.nodes.lookup path = some n ↔ .node n ∈ Reached g ∧ (g.node n).path = path
  rules : ∀ r, r ∈ g.rules ↔ .rule r ∈ Reached g
  inputs : ∀ r, .rule r ∈ Reached g → (g.rule r).inputs.Nodup
  ready : ∀ r, .rule r ∈ Reached g → (g.rule r).numInputsReady = g.nbReady r
  dirty : ∀ n r, .node n ∈ Reached g → (g.node n).childRule = some r →
    (g.node n).isDirty = true → (g.rule r).isDirty = true

/-- The two tests that the checker does not make: no other node is stored under
the path of a reached node, and a reached rule is one of `rules_`. -/
structure Indexed (g : Graph) : Prop where
  nodes : ∀ n, .node n ∈ Reached g → ∀ m, g.nodes.lookup (g.node n).path = some m → m = n
  rules : ∀ r, .rule r ∈ Reached g → r ∈ g.rules

/-- `check` with a budget of its own: on a graph with cycles the recursion is
not bounded by the depth. -/
def checkWithin (fuel : ℕ) (g : Graph) : Outcome Bool := do
  let c ← (g.roots.sort (· ≤ ·)).foldlM (checkNode g fuel) Checker.create
  let c := c.fcheck (c.nodesSeen.card = g.nodes.length)
  let c := c.fcheck (c.nbRootsSeen = g.roots.card)
  let c := c.fcheck (c.nbSourcesSeen = g.sources.card)
  let c := c.fcheck (c.rulesSeen.card = g.rules.length)
  pure c.isConsistent

theorem check_eq (g : Graph) : check g = checkWithin g.depth g := rfl

/-- What the checker leaves in `isConsistent_`. -/
def Verdict (g : Graph) (b : Bool) : Prop := ∃ fuel, checkWithin fuel g = .ok b

variable {g : Graph} {c c' : Checker}

@[simp] theorem fcheck_nodesSeen (c : Checker) (b : Bool) :
    (c.fcheck b).nodesSeen = c.nodesSeen := rfl

@[simp] theorem fcheck_rulesSeen (c : Checker) (b : Bool) :
    (c.fcheck b).rulesSeen = c.rulesSeen := rfl

@[simp] theorem fcheck_nbRootsSeen (c : Checker) (b : Bool) :
    (c.fcheck b).nbRootsSeen = c.nbRootsSeen := rfl

@[simp] theorem fcheck_nbSourcesSeen (c : Checker) (b : Bool) :
    (c.fcheck b).nbSourcesSeen = c.nbSourcesSeen := rfl

@[simp] theorem fcheck_isConsistent (c : Checker) (b : Bool) :
    (c.fcheck b).isConsistent = (c.isConsistent && b) := rfl

def Checker.seen (c : Checker) : Set Item
  | .node n => n ∈ c.nodesSeen
  | .rule r => r ∈ c.rulesSeen

@[simp] theorem node_mem_seen {n : NodeId} : .node n ∈ c.seen ↔ n ∈ c.nodesSeen := Iff.rfl

@[simp] theorem rule_mem_seen {r : RuleId} : .rule r ∈ c.seen ↔ r ∈ c.rulesSeen := Iff.rfl

theorem seen_insert_node {n : NodeId} (hnodes : c'.nodesSeen = insert n c.nodesSeen)
    (hrules : c'.rulesSeen = c.rulesSeen) : c'.seen = insert (.node n) c.seen := by
  ext x
  cases x <;> simp [hnodes, hrules]

theorem seen_insert_rule {r : RuleId} (hnodes : c'.nodesSeen = c.nodesSeen)
    (hrules : c'.rulesSeen = insert r c.rulesSeen) : c'.seen = insert (.rule r) c.seen := by
  ext x
  cases x <;> simp [hnodes, hrules]

/-- What the checker tests of a node. -/
structure NodeTests (g : Graph) (n : NodeId) : Prop where
  key : (g.nodes.lookup (g.node n).path).isSome = true
  root : (g.node n).parentRules = [] → n ∈ g.roots
  source : (g.node n).childRule = none → n ∈ g.sources
  dirty : ∀ r, (g.node n).childRule = some r → (g.node n).isDirty = true →
    (g.rule r).isDirty = true

/-- What the checker tests of a rule. -/
structure RuleTests (g : Graph) (r : RuleId) : Prop where
  inputs : (g.rule r).inputs.Nodup
  ready : (g.rule r).numInputsReady = g.nbReady r

def Tests (g : Graph) : Item → Prop
  | .node n => NodeTests g n
  | .rule r => RuleTests g r

/-- The counters say how many of the nodes that have been seen are at the ends. -/
structure Tally (g : Graph) (c : Checker) : Prop where
  roots : c.nbRootsSeen = (c.nodesSeen.filter fun n ↦ (g.node n).parentRules = []).card
  sources : c.nbSourcesSeen = (c.nodesSeen.filter fun n ↦ (g.node n).childRule = none).card

/-- A part of the walk, from `c` to `c'`. -/
abbrev Part (g : Graph) (c c' : Checker) : Prop :=
  Search (Next g) (Tests g) (rootItems g) c.seen c'.seen (c.isConsistent = true)
    (c'.isConsistent = true)

theorem Tally.congr (h : Tally g c) (hnodes : c'.nodesSeen = c.nodesSeen)
    (hroots : c'.nbRootsSeen = c.nbRootsSeen) (hsources : c'.nbSourcesSeen = c.nbSourcesSeen) :
    Tally g c' :=
  ⟨by rw [hroots, hnodes, h.roots], by rw [hsources, hnodes, h.sources]⟩

theorem Part.fcheck (g : Graph) (c : Checker) (b : Bool) : Part g c (c.fcheck b) :=
  Search.test fun h ↦ by simpa using (Bool.and_eq_true_iff.mp h).1

theorem Part.ite (g : Graph) (c : Checker) (a b : Bool) :
    Part g c (if a then c.fcheck b else c) := by
  cases a with
  | true => exact Part.fcheck g c b
  | false => exact Search.refl

theorem Tally.fcheck (h : Tally g c) (b : Bool) : Tally g (c.fcheck b) := h.congr rfl rfl rfl

theorem Tally.ite (h : Tally g c) (a b : Bool) : Tally g (if a then c.fcheck b else c) := by
  cases a with
  | true => exact h.fcheck b
  | false => exact h

/-! ## Entering a node and a rule -/

section Enter

variable {n : NodeId} {r : RuleId}

@[simp] theorem enterNode_nodesSeen : (enterNode g c n).nodesSeen = insert n c.nodesSeen := by
  simp only [enterNode]
  split <;> rfl

@[simp] theorem enterNode_rulesSeen : (enterNode g c n).rulesSeen = c.rulesSeen := by
  simp only [enterNode]
  split <;> rfl

@[simp] theorem enterNode_nbSourcesSeen :
    (enterNode g c n).nbSourcesSeen = c.nbSourcesSeen := by
  simp only [enterNode]
  split <;> rfl

theorem enterNode_nbRootsSeen : (enterNode g c n).nbRootsSeen =
    if (g.node n).parentRules = [] then c.nbRootsSeen + 1 else c.nbRootsSeen := by
  simp only [enterNode, List.isEmpty_iff]
  split <;> rfl

theorem isConsistent_of_enterNode (h : (enterNode g c n).isConsistent = true) :
    c.isConsistent = true ∧ (g.nodes.lookup (g.node n).path).isSome = true ∧
      ((g.node n).parentRules = [] → n ∈ g.roots) := by
  simp only [enterNode, List.isEmpty_iff] at h
  split at h
  · simp only [fcheck_isConsistent, Bool.and_eq_true, decide_eq_true_eq] at h
    exact ⟨h.1.1.1.1, h.1.2, fun _ ↦ h.2⟩
  · rename_i hparents
    simp only [fcheck_isConsistent, Bool.and_eq_true] at h
    exact ⟨h.1.1.1, h.2, fun hnone ↦ absurd hnone hparents⟩

theorem fcheck_fcheck (c : Checker) (a b : Bool) : (c.fcheck a).fcheck b = c.fcheck (a && b) := by
  simp [Checker.fcheck, Bool.and_assoc]

theorem ite_fcheck (c : Checker) (a b : Bool) :
    (if a then c.fcheck b else c) = c.fcheck (!a || b) := by
  cases a <;> simp [Checker.fcheck]

/-- The tests of the rule itself come down to one. -/
theorem enterRule_eq (g : Graph) (c : Checker) (r : RuleId) :
    ∃ b, enterRule g c r = Checker.fcheck { c with rulesSeen := insert r c.rulesSeen } b := by
  simp only [enterRule, foldl_fcheck, fcheck_fcheck, ite_fcheck]
  split
  · exact ⟨_, fcheck_fcheck _ _ _⟩
  · exact ⟨_, fcheck_fcheck _ _ _⟩

/-- The step into a node, which counts it where it has no parent. -/
theorem enterNode_tally (h : Tally g c) (hnew : n ∉ c.nodesSeen) :
    (enterNode g c n).nbRootsSeen =
      ((insert n c.nodesSeen).filter fun n ↦ (g.node n).parentRules = []).card := by
  rw [enterNode_nbRootsSeen, Finset.filter_insert, h.roots]
  split
  · rw [Finset.card_insert_of_notMem (by simp [hnew])]
  · rfl

end Enter

/-! ## The walk -/

/-- What the recursion does for one node. -/
def NodeRuns (g : Graph) (node : Checker → NodeId → Outcome Checker) : Prop :=
  ∀ c c' n, node c n = .ok c' → Tally g c → .node n ∈ Reached g →
    Tally g c' ∧ Part g c c' ∧ .node n ∈ c'.seen

/-- The inputs of `pre` have been looked at. -/
structure InputsSeen (g : Graph) (c : Checker) (pre : List NodeId) (s : InputLoop) : Prop where
  seen : s.seen = pre.toFinset
  nbReady : s.nbReady = pre.countP g.inputReady
  tally : Tally g s.checker
  part : Part g c s.checker
  nodup : s.checker.isConsistent = true → pre.Nodup
  inputs : ∀ n ∈ pre, .node n ∈ s.checker.seen

theorem checkInput_seen {node : Checker → NodeId → Outcome Checker} {r : RuleId} {n : NodeId}
    {pre : List NodeId} {s s' : InputLoop} (hnode : NodeRuns g node) (hn : .node n ∈ Reached g)
    (h : InputsSeen g c pre s) (hrun : checkInput g node r s n = .ok s') :
    InputsSeen g c (pre ++ [n]) s' := by
  obtain ⟨-, -, hrun⟩ := Lib.bind_eq_ok.mp hrun
  obtain ⟨c', hstep, hs'⟩ := Lib.bind_eq_ok.mp hrun
  obtain rfl := Except.ok.inj hs'
  obtain ⟨htally, hpart, hmem⟩ := hnode _ _ n hstep ((h.tally.fcheck _).ite _ _) hn
  have hite := Part.ite g (s.checker.fcheck (decide (n ∉ s.seen))) (g.node n).isDirty
    (g.rule r).isDirty
  have htests := (Part.fcheck g s.checker (decide (n ∉ s.seen))).trans hite
  refine ⟨?_, ?_, htally, h.part.trans (htests.trans hpart), fun hgood ↦ ?_, fun m hm ↦ ?_⟩
  · ext m
    simp [h.seen]
  · cases hready : g.inputReady n <;> simp [h.nbReady, List.countP_append, hready]
  · have hfirst := hite.verdict (hpart.verdict hgood)
    simp only [fcheck_isConsistent, Bool.and_eq_true, decide_eq_true_eq, h.seen,
      List.mem_toFinset] at hfirst
    rw [List.nodup_append]
    refine ⟨h.nodup hfirst.1, List.nodup_singleton n, fun a ha b hb heq ↦ hfirst.2 ?_⟩
    rwa [← List.mem_singleton.mp hb, ← heq]
  · rcases List.mem_append.mp hm with hm | hm
    · exact hpart.grows (htests.grows (h.inputs m hm))
    · rw [List.mem_singleton.mp hm]
      exact hmem

theorem checkRule_part {node : Checker → NodeId → Outcome Checker} {r : RuleId}
    (hnode : NodeRuns g node) (hr : .rule r ∈ Reached g) (h : Tally g c)
    (hrun : checkRule g node c r = .ok c') :
    Tally g c' ∧ Part g c c' ∧ .rule r ∈ c'.seen := by
  by_cases hseen : r ∈ c.rulesSeen
  · simp only [checkRule, hseen, if_true, Lib.except_pure, Except.ok.injEq] at hrun
    exact hrun ▸ ⟨h, Search.refl, hseen⟩
  · simp only [checkRule, hseen, if_false] at hrun
    obtain ⟨s, hloop, hc'⟩ := Lib.bind_eq_ok.mp hrun
    obtain rfl := Except.ok.inj hc'
    obtain ⟨b, hb⟩ := enterRule_eq g c r
    have hentered : Tally g (enterRule g c r) := by
      rw [hb]
      exact h.congr rfl rfl rfl
    have hinput : ∀ n ∈ (g.rule r).inputs, .node n ∈ Reached g :=
      fun n hn ↦ Reach.tail hr (.input hn)
    have hs : InputsSeen g (enterRule g c r) (g.rule r).inputs s := by
      refine Lib.foldlM_prefix (InputsSeen g (enterRule g c r)) ?_ ?_ hloop
      · exact ⟨rfl, rfl, hentered, Search.refl, fun _ ↦ List.nodup_nil, by simp⟩
      · exact fun pre n post t t' hl ht hstep ↦
          checkInput_seen hnode (hinput n (by simp [hl])) ht hstep
    have hset : (enterRule g c r).seen = insert (.rule r) c.seen := by
      rw [hb]
      exact seen_insert_rule rfl rfl
    have hpart := hs.part.trans
      (Part.fcheck g s.checker (decide (s.nbReady = (g.rule r).numInputsReady)))
    rw [hset] at hpart
    refine ⟨hs.tally.fcheck _, hpart.enter ?_ hr ?_ ?_, hpart.grows (Set.mem_insert _ _)⟩
    · intro hgood
      rw [hb] at hgood
      exact (Bool.and_eq_true_iff.mp hgood).1
    · intro hgood
      simp only [fcheck_isConsistent, Bool.and_eq_true, decide_eq_true_eq] at hgood
      exact ⟨hs.nodup hgood.1, by rw [← hgood.2, hs.nbReady, Graph.nbReady]⟩
    · rintro _ (_ | hn)
      exact hs.inputs _ hn

/-- The child rule of a node that has just been entered. -/
theorem checkChild_part {rule : Checker → RuleId → Outcome Checker} {n : NodeId}
    (hrule : ∀ c c' r, rule c r = .ok c' → Tally g c → .rule r ∈ Reached g →
      Tally g c' ∧ Part g c c' ∧ .rule r ∈ c'.seen)
    (hn : .node n ∈ Reached g) (h : Tally g c) (hnew : n ∉ c.nodesSeen)
    (hrun : checkChild g rule (enterNode g c n) n = .ok c') :
    Tally g c' ∧ Part g (enterNode g c n) c' ∧
      (∀ r, (g.node n).childRule = some r → .rule r ∈ c'.seen) ∧
      (c'.isConsistent = true → ((g.node n).childRule = none → n ∈ g.sources) ∧
        ∀ r, (g.node n).childRule = some r → (g.node n).isDirty = true →
          (g.rule r).isDirty = true) := by
  have hroots := enterNode_tally h hnew
  cases hc : (g.node n).childRule with
  | none =>
      simp only [checkChild, hc, Lib.except_pure, Except.ok.injEq] at hrun
      subst hrun
      have hcount : (enterNode g c n).nbSourcesSeen + 1 =
          ((insert n c.nodesSeen).filter fun n ↦ (g.node n).childRule = none).card := by
        rw [enterNode_nbSourcesSeen, Finset.filter_insert, if_pos hc,
          Finset.card_insert_of_notMem (by simp [hnew]), h.sources]
      refine ⟨⟨?_, ?_⟩, ?_, by simp, fun hgood ↦ ⟨fun _ ↦ ?_, by simp⟩⟩
      · simpa using hroots
      · simpa using hcount
      · exact Part.fcheck g (enterNode g c n) (decide (n ∈ g.sources))
      · simp only [fcheck_isConsistent, Bool.and_eq_true, decide_eq_true_eq] at hgood
        exact hgood.2
  | some r =>
      simp only [checkChild, hc] at hrun
      have hentered : Tally g (enterNode g c n) := by
        refine ⟨by simpa using hroots, ?_⟩
        rw [enterNode_nbSourcesSeen, enterNode_nodesSeen, Finset.filter_insert,
          if_neg (by simp [hc]), h.sources]
      have hite := Part.ite g (enterNode g c n) (g.node n).isDirty (g.rule r).isDirty
      obtain ⟨htally, hpart, hmem⟩ := hrule _ _ r hrun (hentered.ite _ _)
        (Reach.tail hn (.child hc))
      refine ⟨htally, hite.trans hpart, fun q hq ↦ ?_, fun hgood ↦ ⟨by simp, fun q hq hdirty ↦ ?_⟩⟩
      · exact Option.some.inj hq ▸ hmem
      · have hgood := hpart.verdict hgood
        rw [if_pos hdirty, fcheck_isConsistent, Bool.and_eq_true] at hgood
        exact Option.some.inj hq ▸ hgood.2

theorem checkNode_part (g : Graph) (fuel : ℕ) : NodeRuns g (checkNode g fuel) := by
  induction fuel with
  | zero =>
      intro c c' n hrun
      cases hrun
  | succ fuel ih =>
      intro c c' n hrun h hn
      by_cases hseen : n ∈ c.nodesSeen
      · simp only [checkNode, hseen, if_true, Lib.except_pure, Except.ok.injEq] at hrun
        exact hrun ▸ ⟨h, Search.refl, hseen⟩
      · simp only [checkNode, hseen, if_false] at hrun
        obtain ⟨c₁, hchild, hrun⟩ := Lib.bind_eq_ok.mp hrun
        obtain ⟨-, -, hc'⟩ := Lib.bind_eq_ok.mp hrun
        obtain rfl := Except.ok.inj hc'
        obtain ⟨htally, hpart, hfollowed, htests⟩ := checkChild_part
          (fun c c' r hrule hc hr ↦ checkRule_part ih hr hc hrule) hn h hseen hchild
        have hlast := Part.fcheck g c₁ (decide (g.node n).parentRules.Nodup)
        have hset : (enterNode g c n).seen = insert (.node n) c.seen :=
          seen_insert_node enterNode_nodesSeen enterNode_rulesSeen
        have hall := hpart.trans hlast
        rw [hset] at hall
        refine ⟨htally.fcheck _, hall.enter ?_ hn ?_ ?_, hall.grows (Set.mem_insert _ _)⟩
        · exact fun hgood ↦ (isConsistent_of_enterNode hgood).1
        · intro hgood
          obtain ⟨-, hkey, hroot⟩ := isConsistent_of_enterNode (hall.verdict hgood)
          obtain ⟨hsource, hdirty⟩ := htests (hlast.verdict hgood)
          exact ⟨hkey, hroot, hsource, hdirty⟩
        · rintro _ (hr | _)
          exact hfollowed _ hr

/-! ## The verdict -/

theorem checkRule_of_ok {node node' : Checker → NodeId → Outcome Checker} {r : RuleId}
    (hnode : ∀ c n c', node c n = .ok c' → node' c n = .ok c')
    (h : checkRule g node c r = .ok c') : checkRule g node' c r = .ok c' := by
  have hinput : ∀ s n s', checkInput g node r s n = .ok s' →
      checkInput g node' r s n = .ok s' := by
    intro s n s' hrun
    obtain ⟨_, hout, hrun⟩ := Lib.bind_eq_ok.mp hrun
    obtain ⟨c', hstep, hs'⟩ := Lib.bind_eq_ok.mp hrun
    exact Lib.bind_eq_ok.mpr ⟨_, hout, Lib.bind_eq_ok.mpr ⟨c', hnode _ _ _ hstep, hs'⟩⟩
  by_cases hseen : r ∈ c.rulesSeen
  · simpa only [checkRule, hseen, if_true] using h
  · simp only [checkRule, hseen, if_false] at h ⊢
    obtain ⟨s, hloop, hc'⟩ := Lib.bind_eq_ok.mp h
    exact Lib.bind_eq_ok.mpr ⟨s, Lib.foldlM_of_ok hinput hloop, hc'⟩

/-- Where a budget suffices, a larger one gives the same. -/
theorem checkNode_of_le {fuel fuel' : ℕ} (hle : fuel ≤ fuel') {n : NodeId}
    (h : checkNode g fuel c n = .ok c') : checkNode g fuel' c n = .ok c' := by
  induction fuel generalizing fuel' c c' n with
  | zero => cases h
  | succ fuel ih =>
      obtain ⟨fuel', rfl⟩ := Nat.exists_eq_add_of_le' (Nat.one_le_of_lt hle)
      have hrec : ∀ c n c', checkNode g fuel c n = .ok c' → checkNode g fuel' c n = .ok c' :=
        fun _ _ _ hrun ↦ ih (Nat.le_of_succ_le_succ hle) hrun
      by_cases hseen : n ∈ c.nodesSeen
      · simpa only [checkNode, hseen, if_true] using h
      · simp only [checkNode, hseen, if_false] at h ⊢
        obtain ⟨c₁, hchild, hc'⟩ := Lib.bind_eq_ok.mp h
        refine Lib.bind_eq_ok.mpr ⟨c₁, ?_, hc'⟩
        cases hc : (g.node n).childRule with
        | none => simpa only [checkChild, hc] using hchild
        | some r =>
            simp only [checkChild, hc] at hchild ⊢
            exact checkRule_of_ok hrec hchild

theorem checkWithin_of_le {fuel fuel' : ℕ} (hle : fuel ≤ fuel') {b : Bool}
    (h : checkWithin fuel g = .ok b) : checkWithin fuel' g = .ok b := by
  obtain ⟨c, hloop, hb⟩ := Lib.bind_eq_ok.mp h
  exact Lib.bind_eq_ok.mpr
    ⟨c, Lib.foldlM_of_ok (fun _ _ _ hrun ↦ checkNode_of_le hle hrun) hloop, hb⟩

/-- The checker gives one verdict at most. -/
theorem Verdict.unique {b b' : Bool} (h : Verdict g b) (h' : Verdict g b') : b = b' := by
  obtain ⟨fuel, hrun⟩ := h
  obtain ⟨fuel', hrun'⟩ := h'
  have hmax := checkWithin_of_le (Nat.le_max_left fuel fuel') hrun
  rw [checkWithin_of_le (Nat.le_max_right fuel fuel') hrun'] at hmax
  exact (Except.ok.inj hmax).symm

/-- The recursion returns for `n` when at least `U` has been entered. -/
def Returns (node : Checker → NodeId → Outcome Checker) (U : Finset NodeId) (n : NodeId) : Prop :=
  ∀ c : Checker, U ⊆ c.nodesSeen → ∃ c', node c n = .ok c' ∧ c.nodesSeen ⊆ c'.nodesSeen

/-- What the checker reads is there: no reached node is deleted, and the texts
of the checks find a first output in every rule they name. -/
structure Readable (g : Graph) : Prop where
  live : ∀ n, .node n ∈ Reached g → n ∈ g.allocated
  rules : ∀ r, .rule r ∈ Reached g → (g.rule r).outputs ≠ []
  parents : ∀ n, .node n ∈ Reached g → ∀ r ∈ (g.node n).parentRules, (g.rule r).outputs ≠ []

theorem checkRule_returns {node : Checker → NodeId → Outcome Checker} {U : Finset NodeId}
    {r : RuleId} (hout : (g.rule r).outputs ≠ [])
    (hnode : ∀ n ∈ (g.rule r).inputs, Returns node U n) (hU : U ⊆ c.nodesSeen) :
    ∃ c', checkRule g node c r = .ok c' ∧ c.nodesSeen ⊆ c'.nodesSeen := by
  by_cases hseen : r ∈ c.rulesSeen
  · exact ⟨c, by simp [checkRule, hseen], subset_rfl⟩
  · obtain ⟨b, hb⟩ := enterRule_eq g c r
    have hstart : c.nodesSeen ⊆ (enterRule g c r).nodesSeen := by simp [hb]
    obtain ⟨s, hloop, hs⟩ := Lib.foldlM_rule (f := checkInput g node r) (l := (g.rule r).inputs)
      (s := ⟨∅, 0, enterRule g c r⟩) (fun _ s ↦ c.nodesSeen ⊆ s.checker.nodesSeen) hstart (by
        intro pre n post s hl hs
        obtain ⟨c', hrun, hsub⟩ := hnode n (by simp [hl])
          (if (g.node n).isDirty then (s.checker.fcheck (n ∉ s.seen)).fcheck (g.rule r).isDirty
            else s.checker.fcheck (n ∉ s.seen)) (by split <;> exact hU.trans hs)
        refine ⟨_, Lib.bind_eq_ok.mpr ⟨(), firstOutput_eq_ok.mpr hout,
          Lib.bind_eq_ok.mpr ⟨c', hrun, rfl⟩⟩, hs.trans (subset_trans ?_ hsub)⟩
        split <;> exact subset_rfl)
    refine ⟨s.checker.fcheck (s.nbReady = (g.rule r).numInputsReady), ?_, hs⟩
    simp only [checkRule, hseen, if_false, hloop, Lib.except_ok_bind, Lib.except_pure]

/-- Every node that is entered leaves one node fewer to enter, whether or not
the graph has a cycle. -/
theorem checkNode_returns (hg : Readable g) {fuel : ℕ} {U : Finset NodeId}
    (hfuel : (g.allocated \ U).card < fuel)
    {n : NodeId} (hn : .node n ∈ Reached g) : Returns (checkNode g fuel) U n := by
  induction fuel generalizing U n with
  | zero => exact absurd hfuel (Nat.not_lt_zero _)
  | succ fuel ih =>
      intro c hU
      by_cases hseen : n ∈ c.nodesSeen
      · exact ⟨c, by simp [checkNode, hseen], subset_rfl⟩
      · have hless : (g.allocated \ insert n c.nodesSeen).card < fuel := by
          refine (Finset.card_lt_card ?_).trans_le (Nat.lt_succ_iff.mp hfuel)
          refine Finset.ssubset_of_ssubset_of_subset ?_ (Finset.sdiff_subset_sdiff subset_rfl hU)
          rw [Finset.sdiff_insert]
          exact Finset.erase_ssubset (Finset.mem_sdiff.mpr ⟨hg.live n hn, hseen⟩)
        have hchild : ∃ c', checkChild g (checkRule g (checkNode g fuel)) (enterNode g c n) n =
            .ok c' ∧ (enterNode g c n).nodesSeen ⊆ c'.nodesSeen := by
          cases hc : (g.node n).childRule with
          | none =>
              refine ⟨{ (enterNode g c n).fcheck (n ∈ g.sources) with
                nbSourcesSeen := (enterNode g c n).nbSourcesSeen + 1 }, ?_, subset_rfl⟩
              simp only [checkChild, hc, Lib.except_pure]
          | some r =>
              have hr : .rule r ∈ Reached g := Reach.tail hn (.child hc)
              obtain ⟨c', hrun, hsub⟩ := checkRule_returns (g := g) (r := r)
                (c := if (g.node n).isDirty then (enterNode g c n).fcheck (g.rule r).isDirty
                  else enterNode g c n)
                (hg.rules r hr) (fun m hm ↦ ih hless (Reach.tail hr (.input hm)))
                (by split <;> simp)
              refine ⟨c', by simpa only [checkChild, hc] using hrun, subset_trans ?_ hsub⟩
              split <;> exact subset_rfl
        obtain ⟨c', hrun, hsub⟩ := hchild
        have hparents := forM_firstOutput.mpr (hg.parents n hn)
        refine ⟨c'.fcheck (g.node n).parentRules.Nodup, ?_, ?_⟩
        · simp only [checkNode, hseen, if_false, hrun, hparents, Lib.except_ok_bind,
            Lib.except_pure]
        · rw [enterNode_nodesSeen] at hsub
          exact (Finset.subset_insert n c.nodesSeen).trans hsub

/-- The checker gives a verdict on every graph that it can read, cyclic or not. -/
theorem exists_verdict (hg : Readable g) : ∃ b, Verdict g b := by
  have hcard : (g.allocated \ ∅).card < g.allocated.card + 1 := by simp
  obtain ⟨c, hrun, -⟩ := Lib.foldlM_rule (f := checkNode g (g.allocated.card + 1))
    (l := g.roots.sort (· ≤ ·)) (s := Checker.create) (fun _ _ ↦ True) trivial (by
      intro pre n post c hl _
      have hroot : n ∈ g.roots := (Finset.mem_sort (· ≤ ·)).mp (by simp [hl])
      obtain ⟨c', hrun, -⟩ := checkNode_returns hg hcard (Reach.of_start ⟨n, hroot, rfl⟩) c
        (Finset.empty_subset _)
      exact ⟨c', hrun, trivial⟩)
  exact ⟨_, _, Lib.bind_eq_ok.mpr ⟨c, hrun, rfl⟩⟩

/-- What is known when the verdict is good: everything within reach has passed
its tests, and the sets have the right sizes. -/
structure Accepted (g : Graph) (c : Checker) : Prop where
  seen : c.seen = Reached g
  tests : ∀ x ∈ Reached g, Tests g x
  nodes : c.nodesSeen.card = g.nodes.length
  roots : (c.nodesSeen.filter fun n ↦ (g.node n).parentRules = []).card = g.roots.card
  sources : (c.nodesSeen.filter fun n ↦ (g.node n).childRule = none).card = g.sources.card
  rules : c.rulesSeen.card = g.rules.length

theorem Verdict.accepted (h : Verdict g true) : ∃ c, Accepted g c := by
  obtain ⟨fuel, hrun⟩ := h
  obtain ⟨c, hloop, hgood⟩ := Lib.bind_eq_ok.mp hrun
  have hgood := Except.ok.inj hgood
  simp only [Checker.fcheck, Bool.and_eq_true, decide_eq_true_eq] at hgood
  obtain ⟨⟨⟨⟨hgood, hnodes⟩, hroots⟩, hsources⟩, hrules⟩ := hgood
  have hwalk : Tally g c ∧ Part g Checker.create c ∧
      ∀ n ∈ g.roots.sort (· ≤ ·), .node n ∈ c.seen := by
    refine Lib.foldlM_prefix (fun pre c ↦ Tally g c ∧ Part g Checker.create c ∧
      ∀ n ∈ pre, .node n ∈ c.seen) ?_ ?_ hloop
    · exact ⟨⟨rfl, rfl⟩, Search.refl, by simp⟩
    · rintro pre n post c c' hl ⟨htally, hpart, hpre⟩ hstep
      have hroot : n ∈ g.roots := (Finset.mem_sort (· ≤ ·)).mp (by simp [hl])
      obtain ⟨htally', hpart', hmem⟩ := checkNode_part g fuel c c' n hstep htally
        (Reach.of_start ⟨n, hroot, rfl⟩)
      refine ⟨htally', hpart.trans hpart', fun m hm ↦ ?_⟩
      rcases List.mem_append.mp hm with hm | hm
      · exact hpart'.grows (hpre m hm)
      · rw [List.mem_singleton.mp hm]
        exact hmem
  obtain ⟨htally, hpart, hstart⟩ := hwalk
  have hempty : Checker.create.seen = ∅ := by
    ext x
    cases x <;> simp [Checker.create]
  rw [Part, hempty] at hpart
  have hseen : c.seen = Reached g := by
    refine hpart.eq_reach ?_
    rintro _ ⟨n, hn, rfl⟩
    exact hstart n ((Finset.mem_sort (· ≤ ·)).mpr hn)
  exact ⟨c, hseen, fun x hx ↦ hpart.passed hgood x (hseen ▸ hx) (Set.notMem_empty x), hnodes,
    htally.roots ▸ of_decide_eq_true hroots, htally.sources ▸ of_decide_eq_true hsources,
    of_decide_eq_true hrules⟩

/-! ## What it says of the sets -/

namespace Accepted

theorem node_mem (h : Accepted g c) (n : NodeId) : n ∈ c.nodesSeen ↔ .node n ∈ Reached g := by
  rw [← h.seen, node_mem_seen]

theorem rule_mem (h : Accepted g c) (r : RuleId) : r ∈ c.rulesSeen ↔ .rule r ∈ Reached g := by
  rw [← h.seen, rule_mem_seen]

/-- Every node that is seen at an end of the graph is in the set of that end,
and there are as many. -/
theorem eq_end (h : Accepted g c) {p : NodeId → Prop} [DecidablePred p] {s : Finset NodeId}
    (htest : ∀ n, .node n ∈ Reached g → p n → n ∈ s) (hcard : (c.nodesSeen.filter p).card = s.card)
    (n : NodeId) : n ∈ s ↔ .node n ∈ Reached g ∧ p n := by
  have hsub : c.nodesSeen.filter p ⊆ s := by
    intro m hm
    rw [Finset.mem_filter, h.node_mem] at hm
    exact htest m hm.1 hm.2
  rw [← Finset.eq_of_subset_of_card_le hsub hcard.ge, Finset.mem_filter, h.node_mem]

theorem mem_roots (h : Accepted g c) (n : NodeId) :
    n ∈ g.roots ↔ .node n ∈ Reached g ∧ (g.node n).parentRules = [] :=
  h.eq_end (fun n hn ↦ (h.tests (.node n) hn).root) h.roots n

theorem mem_sources (h : Accepted g c) (n : NodeId) :
    n ∈ g.sources ↔ .node n ∈ Reached g ∧ (g.node n).childRule = none :=
  h.eq_end (fun n hn ↦ (h.tests (.node n) hn).source) h.sources n

/-- If no other node is stored under the path of a reached node, the reached
nodes take up all the entries of the map. -/
theorem lookup_eq_some_iff (h : Accepted g c) (hi : Indexed g) (path : String) (n : NodeId) :
    g.nodes.lookup path = some n ↔ .node n ∈ Reached g ∧ (g.node n).path = path := by
  have hlookup : ∀ n, .node n ∈ Reached g → g.nodes.lookup (g.node n).path = some n := by
    intro n hn
    obtain ⟨m, hm⟩ := Option.isSome_iff_exists.mp (h.tests (.node n) hn).key
    rw [hm, hi.nodes n hn m hm]
  let entry : NodeId → String × NodeId := fun n ↦ ((g.node n).path, n)
  have hentry : Function.Injective entry := fun _ _ heq ↦ (Prod.ext_iff.mp heq).2
  have hsub : c.nodesSeen.image entry ⊆ g.nodes.toFinset := by
    intro e he
    obtain ⟨m, hm, rfl⟩ := Finset.mem_image.mp he
    exact List.mem_toFinset.mpr (Lib.mem_of_lookup_eq_some (hlookup m ((h.node_mem m).mp hm)))
  have hall : c.nodesSeen.image entry = g.nodes.toFinset := by
    refine Finset.eq_of_subset_of_card_le hsub ?_
    rw [Finset.card_image_of_injective _ hentry, h.nodes]
    exact List.toFinset_card_le g.nodes
  constructor
  · intro hn
    have hmem : (path, n) ∈ c.nodesSeen.image entry := by
      rw [hall, List.mem_toFinset]
      exact Lib.mem_of_lookup_eq_some hn
    obtain ⟨m, hm, heq⟩ := Finset.mem_image.mp hmem
    obtain ⟨rfl, rfl⟩ := Prod.ext_iff.mp heq
    exact ⟨(h.node_mem m).mp hm, rfl⟩
  · rintro ⟨hn, rfl⟩
    exact hlookup n hn

/-- If every reached rule is listed, nothing else is. -/
theorem mem_rules (h : Accepted g c) (hi : Indexed g) (r : RuleId) :
    r ∈ g.rules ↔ .rule r ∈ Reached g := by
  have hsub : c.rulesSeen ⊆ g.rules.toFinset :=
    fun q hq ↦ List.mem_toFinset.mpr (hi.rules q ((h.rule_mem q).mp hq))
  have hall : c.rulesSeen = g.rules.toFinset := by
    refine Finset.eq_of_subset_of_card_le hsub ?_
    rw [h.rules]
    exact List.toFinset_card_le g.rules
  rw [← h.rule_mem, hall, List.mem_toFinset]

theorem sound (h : Accepted g c) (hi : Indexed g) : Sound g where
  roots := h.mem_roots
  sources := h.mem_sources
  nodes := h.lookup_eq_some_iff hi
  rules := h.mem_rules hi
  inputs r hr := (h.tests (.rule r) hr).inputs
  ready r hr := (h.tests (.rule r) hr).ready
  dirty n r hn := (h.tests (.node n) hn).dirty r

end Accepted

theorem Sound.indexed (h : Sound g) : Indexed g where
  nodes n hn m hm := by
    rw [(h.nodes _ n).mpr ⟨hn, rfl⟩] at hm
    exact (Option.some.inj hm).symm
  rules r hr := (h.rules r).mpr hr

/-- A graph that the checker accepts is what the checker stands for exactly if
it also passes the two tests that the checker leaves out. -/
theorem sound_iff_indexed (h : Verdict g true) : Sound g ↔ Indexed g := by
  obtain ⟨c, hc⟩ := h.accepted
  exact ⟨Sound.indexed, hc.sound⟩

/-- `a.c` has two node objects.  `addNode` puts the second one among the roots
and the sources before it finds that the path is taken; in the map, `loop.h`,
the output of a rule that uses it, makes up for the missing entry. -/
def twinGraph : Graph where
  node
    | 0 => { Node.create "a.c" true false with hash := "h", hashDepfile := "d" }
    | 1 => { Node.create "a.c" true false with hash := "h", hashDepfile := "d" }
    | 2 => { Node.create "loop.h" true false with childRule := some 0, parentRules := [0] }
    | _ => Node.create "" true false
  rule
    | 0 => { Rule.create [2] [2] with command := "touch loop.h" }
    | _ => Rule.create [] []
  roots := {0, 1}
  sources := {0, 1}
  nodes := [("a.c", 0), ("loop.h", 2)]
  rules := []
  allocated := {0, 1, 2}

theorem verdict_twinGraph : Verdict twinGraph true := by
  refine ⟨1, ?_⟩
  have hsort : twinGraph.roots.sort (· ≤ ·) = [0, 1] := by
    rw [twinGraph, Finset.sort_insert _ (by simp) (by simp), Finset.sort_singleton]
  rw [checkWithin, hsort]
  decide

/-- `a.o` is compiled from the one `a.c`. -/
def singleGraph : Graph where
  node
    | 0 => { Node.create "a.c" true false with hash := "h", hashDepfile := "d", parentRules := [0] }
    | 1 => { Node.create "a.o" true false with
        hash := "h", hashDepfile := "d", childRule := some 0 }
    | _ => Node.create "" true false
  rule
    | 0 => { Rule.create [0] [1] with
        command := "cc a.c", hash := "h", hashDepfile := "d", numInputsReady := 1 }
    | _ => Rule.create [] []
  roots := {1}
  sources := {0}
  nodes := [("a.c", 0), ("a.o", 1)]
  rules := [0]
  allocated := {0, 1}

theorem verdict_singleGraph : Verdict singleGraph true := by
  refine ⟨2, ?_⟩
  have hsort : singleGraph.roots.sort (· ≤ ·) = [1] := by
    rw [singleGraph, Finset.sort_singleton]
  rw [checkWithin, hsort]
  decide

theorem indexed_singleGraph : Indexed singleGraph := by
  have hreached : Reached singleGraph ⊆ {.node 0, .node 1, .rule 0} := by
    refine fun x hx ↦ Reach.subset ?_ ?_ hx
    · rintro _ ⟨n, hn, rfl⟩
      simp [Finset.mem_singleton.mp hn]
    · rintro x (rfl | rfl | rfl) y hxy
      · rcases hxy with hc | -
        cases hc
      · rcases hxy with hc | -
        simp [← Option.some.inj hc]
      · rcases hxy with - | hn
        simp [List.mem_singleton.mp hn]
  constructor
  · intro n hn m hm
    rcases hreached hn with h | h | h
    · cases h
      exact (Option.some.inj hm).symm
    · cases h
      exact (Option.some.inj hm).symm
    · cases h
  · intro r hr
    rcases hreached hr with h | h | h
    · cases h
    · cases h
    · cases h
      exact List.mem_singleton_self 0

theorem sound_iff_indexed_singleGraph :
    Verdict singleGraph true ∧ (Sound singleGraph ↔ Indexed singleGraph) ∧ Sound singleGraph ∧
      Verdict twinGraph true ∧ (Sound twinGraph ↔ Indexed twinGraph) :=
  ⟨verdict_singleGraph, sound_iff_indexed verdict_singleGraph,
    (sound_iff_indexed verdict_singleGraph).mpr indexed_singleGraph, verdict_twinGraph,
    sound_iff_indexed verdict_twinGraph⟩

/-- The checker accepts a graph whose map does not know a reached node. -/
theorem not_sound_twinGraph : ¬ ∀ g : Graph, Verdict g true → Sound g := by
  intro h
  have hs := h twinGraph verdict_twinGraph
  have hreached : .node 1 ∈ Reached twinGraph := Reach.of_start ⟨1, by decide, rfl⟩
  have hlookup := (hs.nodes "a.c" 1).mpr ⟨hreached, rfl⟩
  exact absurd hlookup (by decide)

/-! ## Linked graphs -/

section Linked

variable (hg : g.Linked)
include hg

/-- Nothing is reached but what is allocated or listed. -/
theorem reached_of_linked {x : Item} (hx : x ∈ Reached g) :
    (∀ n, x = .node n → n ∈ g.allocated) ∧ ∀ r, x = .rule r → r ∈ g.rules := by
  let S : Set Item := {x | (∀ n, x = .node n → n ∈ g.allocated) ∧ ∀ r, x = .rule r → r ∈ g.rules}
  refine Reach.subset (S := S) ?_ ?_ hx
  · rintro _ ⟨n, hn, rfl⟩
    exact ⟨fun m hm ↦ Item.node.inj hm ▸ ((hg.roots n).mp hn).1, by simp⟩
  · rintro x ⟨-, hrules⟩ y hxy
    cases hxy with
    | child hc =>
        exact ⟨by simp, fun q hq ↦ Item.rule.inj hq ▸ ((hg.twoWay.child_eq_some _ _).mp hc).1⟩
    | input hn =>
        refine ⟨fun m hm ↦ Item.node.inj hm ▸ ?_, by simp⟩
        exact hg.allocated _ (hrules _ rfl) _ (Or.inl hn)

theorem indexed_of_linked : Indexed g where
  nodes n hn m hm := by
    rw [hg.lookup n ((reached_of_linked hg hn).1 n rfl)] at hm
    exact (Option.some.inj hm).symm
  rules r hr := (reached_of_linked hg hr).2 r rfl

/-- Where the links agree, as in the graphs that the daemon keeps, a good
verdict is sound. -/
theorem sound_of_linked (h : check g = .ok true) : Sound g := by
  obtain ⟨c, hc⟩ := Verdict.accepted ⟨g.depth, check_eq g ▸ h⟩
  exact hc.sound (indexed_of_linked hg)

end Linked

end GraphConsistencyChecker

end Falcon
