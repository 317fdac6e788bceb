import Falcon.Graph.Consistent
import Falcon.Graph.Scan

/-!
# Which rules are stale

The scan decides every rule by the modification times: a rule is stale if one
of its inputs is newer than one of its outputs, or if the rule of one of its
inputs is stale.  On an acyclic graph without depfiles the traversal always
comes to its end and marks exactly these rules.
-/

namespace Falcon

open Relation

namespace Links

/-- The input `n` of `r` is newer than one of the outputs of `r`. -/
def Newer (L : Links) (t : NodeId → Timestamp) (r : RuleId) (n : NodeId) : Prop :=
  L.command r ≠ "" ∧ n ∈ L.inputs r ∧ ∃ o ∈ L.outputs r, t o < t n

inductive Stale (L : Links) (t : NodeId → Timestamp) : RuleId → Prop
  | newer {r n} (h : L.Newer t r n) : Stale L t r
  | input {r q n} (hn : n ∈ L.inputs r) (hq : L.child n = some q) (h : Stale L t q) : Stale L t r

def StaleNode (L : Links) (t : NodeId → Timestamp) (n : NodeId) : Prop :=
  ∃ q, L.child n = some q ∧ L.Stale t q

/-- The inputs of `r` are made with the help of `n`. -/
def Uses (L : Links) (r : RuleId) (n : NodeId) : Prop :=
  ∃ m ∈ L.inputs r, ReflTransGen L.Feeds n m

variable {L : Links} {t : NodeId → Timestamp}

theorem stale_iff {r : RuleId} :
    L.Stale t r ↔ (∃ n ∈ L.inputs r, L.StaleNode t n) ∨ ∃ n, L.Newer t r n := by
  constructor
  · intro h
    cases h with
    | newer h => exact Or.inr ⟨_, h⟩
    | input hn hq h => exact Or.inl ⟨_, hn, _, hq, h⟩
  · rintro (⟨n, hn, q, hq, h⟩ | ⟨n, h⟩)
    · exact .input hn hq h
    · exact .newer h

theorem uses_input {r : RuleId} {n : NodeId} (hn : n ∈ L.inputs r) : L.Uses r n :=
  ⟨n, hn, .refl⟩

theorem Uses.of_feeds {r : RuleId} {m n : NodeId} (h : L.Uses r n) (hfeeds : L.Feeds m n) :
    L.Uses r m := by
  obtain ⟨k, hk, hnk⟩ := h
  exact ⟨k, hk, ReflTransGen.head hfeeds hnk⟩

/-- The rule of a node does not use the node. -/
theorem not_uses_of_child {r : RuleId} {n : NodeId} (hno : ¬ TransGen L.Feeds n n)
    (hn : L.child n = some r) : ¬ L.Uses r n := by
  rintro ⟨m, hm, hnm⟩
  exact hno (TransGen.tail' hnm ⟨r, hn, hm⟩)

/-- There is no cycle below `n`. -/
def AcyclicBelow (L : Links) (n : NodeId) : Prop :=
  ∀ m, ReflTransGen L.Feeds m n → ¬ TransGen L.Feeds m m

theorem Acyclic.below (hac : L.Acyclic) (n : NodeId) : L.AcyclicBelow n := fun m _ ↦ hac m

theorem AcyclicBelow.of_feeds {m n : NodeId} (h : L.AcyclicBelow n) (hfeeds : L.Feeds m n) :
    L.AcyclicBelow m :=
  fun k hk ↦ h k (hk.tail hfeeds)

end Links

namespace GraphDependencyScan

variable {ω : Type} {P : Platform ω} {L : Links} {t : NodeId → Timestamp}

open Classical in
/-- The scan of rule `r` is over. -/
structure RuleDone (L : Links) (t : NodeId → Timestamp) (g : Graph) (r : RuleId) : Prop where
  dirty : (g.rule r).isDirty = true ↔ L.Stale t r
  hash : (g.rule r).hash ≠ ""
  hashDepfile : (g.rule r).hashDepfile ≠ ""
  ready : (g.rule r).numInputsReady + (L.inputs r).countP (fun n ↦ decide (L.StaleNode t n)) =
    (L.inputs r).length
  inputs : ∀ n ∈ L.inputs r, (g.node n).hash ≠ ""

/-- The invariant of the traversal; the rules of `O` have been entered and not
yet left. -/
structure Scanned (L : Links) (t : NodeId → Timestamp) (O : Set RuleId) (s : Scan ω) : Prop where
  links : s.graph.links = L
  time : ∀ n, (s.graph.node n).timestamp = t n
  rules : ∀ r ∈ s.seen, r ∈ L.rules
  done : ∀ r ∈ s.seen, r ∉ O → RuleDone L t s.graph r
  fresh : ∀ r ∈ L.rules, r ∉ s.seen → (s.graph.rule r).isDirty = false ∧
    (s.graph.rule r).numInputsReady = (L.inputs r).length
  dirty : ∀ n, (s.graph.node n).isDirty = true → L.child n ≠ none → L.StaleNode t n
  hashed : ∀ n, (s.graph.node n).hash ≠ "" → (s.graph.node n).hashDepfile ≠ "" ∧
    (L.StaleNode t n → (s.graph.node n).isDirty = true) ∧ ∀ q, L.child n = some q → q ∈ s.seen
  source : ∀ n, L.child n = none → ((s.graph.node n).isDirty = true ↔
    ∃ q ∈ s.seen, q ∉ O ∧ L.Newer t q n)

/-- What a part of the traversal leaves alone, and what it only adds to. -/
structure Grows (O : Set RuleId) (s s' : Scan ω) : Prop where
  world : s'.world = s.world
  seen : s.seen ⊆ s'.seen
  hashed : ∀ n, (s.graph.node n).hash ≠ "" → (s'.graph.node n).hash ≠ ""
  rule : ∀ r ∈ O, s'.graph.rule r = s.graph.rule r

theorem Grows.refl (O : Set RuleId) (s : Scan ω) : Grows O s s :=
  ⟨rfl, Finset.Subset.refl _, fun _ h ↦ h, fun _ _ ↦ rfl⟩

theorem Grows.trans {O : Set RuleId} {s s' s'' : Scan ω} (h : Grows O s s') (h' : Grows O s' s'') :
    Grows O s s'' where
  world := h'.world.trans h.world
  seen := h.seen.trans h'.seen
  hashed n hn := h'.hashed n (h.hashed n hn)
  rule r hr := (h'.rule r hr).trans (h.rule r hr)

theorem Grows.mono {O O' : Set RuleId} {s s' : Scan ω} (h : Grows O s s') (hsub : O' ⊆ O) :
    Grows O' s s' :=
  { h with rule := fun r hr ↦ h.rule r (hsub hr) }

theorem RuleDone.congr {g g' : Graph} {r : RuleId} (h : RuleDone L t g r)
    (hrule : g'.rule r = g.rule r) (hhashed : ∀ n, (g.node n).hash ≠ "" → (g'.node n).hash ≠ "") :
    RuleDone L t g' r where
  dirty := by rw [hrule, h.dirty]
  hash := by rw [hrule]; exact h.hash
  hashDepfile := by rw [hrule]; exact h.hashDepfile
  ready := by rw [hrule, h.ready]
  inputs n hn := hhashed n (h.inputs n hn)

/-- A rule that is being scanned may change as long as its links stay. -/
theorem Scanned.setRule {O : Set RuleId} {s : Scan ω} {r : RuleId} {x : Rule}
    (h : Scanned L t O s) (hr : r ∈ O) (hseen : r ∈ s.seen)
    (hlinks : (s.graph.setRule r x).links = s.graph.links) :
    Scanned L t O { s with graph := s.graph.setRule r x } where
  links := hlinks.trans h.links
  time := h.time
  rules := h.rules
  done q hq hO := by
    have hne : q ≠ r := fun heq ↦ hO (heq ▸ hr)
    apply (h.done q hq hO).congr
    · rw [Graph.setRule_rule, if_neg hne]
    · exact fun n hn ↦ hn
  fresh q hq hnot := by
    have hne : q ≠ r := fun heq ↦ hnot (heq ▸ hseen)
    rw [Graph.setRule_rule, if_neg hne]
    exact h.fresh q hq hnot
  dirty := h.dirty
  hashed := h.hashed
  source := h.source

theorem grows_setRule {O : Set RuleId} (s : Scan ω) {r : RuleId} (x : Rule) (hr : r ∉ O) :
    Grows O s { s with graph := s.graph.setRule r x } where
  world := rfl
  seen := Finset.Subset.refl _
  hashed _ hn := hn
  rule q hq := by
    have hne : q ≠ r := fun heq ↦ hr (heq ▸ hq)
    rw [Graph.setRule_rule, if_neg hne]

/-- The rule `r` is entered. -/
theorem Scanned.enter {O : Set RuleId} {s : Scan ω} {r : RuleId} (h : Scanned L t O s)
    (hr : r ∈ L.rules) (hnew : r ∉ s.seen) :
    Scanned L t (insert r O) { s with seen := insert r s.seen } where
  links := h.links
  time := h.time
  rules q hq := by
    rcases Finset.mem_insert.mp hq with rfl | hq
    · exact hr
    · exact h.rules q hq
  done q hq hO := by
    rw [Set.mem_insert_iff, not_or] at hO
    exact h.done q ((Finset.mem_insert.mp hq).resolve_left hO.1) hO.2
  fresh q hq hnot := h.fresh q hq fun hmem ↦ hnot (Finset.mem_insert_of_mem hmem)
  dirty := h.dirty
  hashed n hn := by
    obtain ⟨hdep, hstale, hchild⟩ := h.hashed n hn
    exact ⟨hdep, hstale, fun q hq ↦ Finset.mem_insert_of_mem (hchild q hq)⟩
  source n hn := by
    rw [h.source n hn]
    constructor
    · rintro ⟨q, hq, hO, hnewer⟩
      refine ⟨q, Finset.mem_insert_of_mem hq, ?_, hnewer⟩
      rintro (rfl | hmem)
      · exact hnew hq
      · exact hO hmem
    · rintro ⟨q, hq, hO, hnewer⟩
      rw [Set.mem_insert_iff, not_or] at hO
      exact ⟨q, (Finset.mem_insert.mp hq).resolve_left hO.1, hO.2, hnewer⟩

/-- Hashing a node changes nothing else about it. -/
theorem Scanned.setHash {O : Set RuleId} {s : Scan ω} {n : NodeId} {a b : String}
    (h : Scanned L t O s) (ha : a ≠ "") (hb : b ≠ "")
    (hstale : L.StaleNode t n → (s.graph.node n).isDirty = true)
    (hchild : ∀ q, L.child n = some q → q ∈ s.seen) :
    Scanned L t O { s with
      graph := s.graph.setNode n { s.graph.node n with hash := a, hashDepfile := b } } where
  links := by
    rw [← h.links]
    exact Graph.links_setNode rfl rfl rfl rfl
  time m := by
    rw [Graph.proj_setNode Node.timestamp (by rfl)]
    exact h.time m
  rules := h.rules
  done r hr hO := by
    apply (h.done r hr hO).congr
    · rfl
    · intro m hm
      rw [Graph.setNode_node]
      split
      · exact ha
      · exact hm
  fresh := h.fresh
  dirty m hm := by
    rw [Graph.proj_setNode Node.isDirty (by rfl)] at hm
    exact h.dirty m hm
  hashed m hm := by
    rw [Graph.proj_setNode Node.isDirty (by rfl)]
    rw [Graph.setNode_node] at hm ⊢
    by_cases heq : m = n
    · subst heq
      rw [if_pos rfl]
      exact ⟨hb, hstale, hchild⟩
    · rw [if_neg heq] at hm ⊢
      exact h.hashed m hm
  source m hm := by
    rw [Graph.proj_setNode Node.isDirty (by rfl)]
    exact h.source m hm

theorem grows_setHash (O : Set RuleId) (s : Scan ω) (n : NodeId) {a b : String} (ha : a ≠ "") :
    Grows O s { s with
      graph := s.graph.setNode n { s.graph.node n with hash := a, hashDepfile := b } } where
  world := rfl
  seen := Finset.Subset.refl _
  hashed m hm := by
    rw [Graph.setNode_node]
    split
    · exact ha
    · exact hm
  rule _ _ := rfl

section Digest

variable (hdigest : ∀ data, P.digest data ≠ "")
include hdigest

theorem updateNodeHash_ok (w : ω) {g : Graph} {n : NodeId}
    (hchild : ∀ q, (g.node n).childRule = some q →
      (g.rule q).hash ≠ "" ∧ (g.rule q).hashDepfile ≠ "") :
    ∃ changed a b, a ≠ "" ∧ b ≠ "" ∧ Hash.updateNodeHash P w g n true true =
      .ok (changed, g.setNode n { g.node n with hash := a, hashDepfile := b }) := by
  cases hc : (g.node n).childRule with
  | none =>
      have hrun := (Hash.updateNodeHash_source (P := P) (w := w) (a := true) (b := true) hc).mpr
        ⟨rfl, rfl, rfl⟩
      exact ⟨_, _, _, hdigest _, hdigest _, hrun⟩
  | some q =>
      obtain ⟨hq, hq'⟩ := hchild q hc
      have htarget := (Hash.updateTargetHash_eq_ok (P := P) (x := g.node n) (a := true)
        (b := true)).mpr ⟨fun _ ↦ hq, fun _ ↦ hq', rfl, rfl⟩
      have hrun := (Hash.updateNodeHash_target (w := w) hc).mpr ⟨rfl, _, htarget, rfl⟩
      exact ⟨_, _, _, hdigest _, hdigest _, hrun⟩

theorem hashNode_spec {O : Set RuleId} {s : Scan ω} {n : NodeId} (h : Scanned L t O s)
    (hstale : L.StaleNode t n → (s.graph.node n).isDirty = true)
    (hchild : ∀ q, L.child n = some q → q ∈ s.seen ∧ q ∉ O) :
    ∃ s', hashNode P s n = .ok s' ∧ Scanned L t O s' ∧ Grows O s s' ∧
      (s'.graph.node n).hash ≠ "" := by
  by_cases hn : (s.graph.node n).hash = ""
  · obtain ⟨changed, a, b, ha, hb, hrun⟩ := updateNodeHash_ok (P := P) hdigest s.world
      (g := s.graph) (n := n) (by
        intro q hq
        have hq' : L.child n = some q := by
          rw [← h.links]
          exact hq
        obtain ⟨hseen, hO⟩ := hchild q hq'
        exact ⟨(h.done q hseen hO).hash, (h.done q hseen hO).hashDepfile⟩)
    refine ⟨_, ?_, h.setHash ha hb hstale fun q hq ↦ (hchild q hq).1, grows_setHash O s n ha, ?_⟩
    · simp only [hashNode, hn, if_true, hrun, Lib.except_ok_bind, Lib.except_pure]
    · rw [Graph.setNode_node, if_pos rfl]
      exact ha
  · refine ⟨s, ?_, h, .refl O s, hn⟩
    simp only [hashNode, hn, if_false, Lib.except_pure]

end Digest

/-! ## The loop over the inputs of a rule -/

/-- What the recursion does for one input. -/
def NodeSpec (L : Links) (t : NodeId → Timestamp)
    (node : Scan ω → NodeId → Outcome (Bool × Scan ω)) (n : NodeId) : Prop :=
  ∀ (O : Set RuleId) (s : Scan ω), Scanned L t O s → (∀ q ∈ O, L.Uses q n) →
    ∃ b s', node s n = .ok (b, s') ∧ Scanned L t O s' ∧ Grows O s s' ∧
      (s'.graph.node n).hash ≠ "" ∧ (b = true ↔ L.StaleNode t n)

open Classical in
/-- The inputs of `pre` have been scanned for the rule `r`. -/
structure InputsDone (L : Links) (t : NodeId → Timestamp) (O : Set RuleId) (r : RuleId)
    (s₀ : Scan ω) (pre : List NodeId) (s : Bool × Scan ω) : Prop where
  scanned : Scanned L t (insert r O) s.2
  grows : Grows O s₀ s.2
  seen : r ∈ s.2.seen
  clean : (s.2.graph.rule r).isDirty = false
  ready : (s.2.graph.rule r).numInputsReady + pre.countP (fun n ↦ decide (L.StaleNode t n)) =
    (L.inputs r).length
  hashed : ∀ n ∈ pre, (s.2.graph.node n).hash ≠ ""
  dirty : s.1 = true ↔ ∃ n ∈ pre, L.StaleNode t n

theorem markInputDirty_ok {g : Graph} {r : RuleId} (h : 0 < (g.rule r).numInputsReady) :
    g.onRule r Rule.markInputDirty =
      .ok (g.setRule r { g.rule r with numInputsReady := (g.rule r).numInputsReady - 1 }) := by
  simp [Graph.onRule, Rule.markInputDirty, h, Except.map]

theorem updateInput_spec {node : Scan ω → NodeId → Outcome (Bool × Scan ω)} {O : Set RuleId}
    {r : RuleId} {s₀ : Scan ω} {pre post : List NodeId} {n : NodeId} {s : Bool × Scan ω}
    (hr : r ∉ O) (hO : ∀ q ∈ O, ∀ x ∈ L.inputs r, L.Uses q x)
    (hinputs : L.inputs r = pre ++ n :: post) (hnode : NodeSpec L t node n)
    (h : InputsDone L t O r s₀ pre s) :
    ∃ s', updateInput node r s n = .ok s' ∧ InputsDone L t O r s₀ (pre ++ [n]) s' := by
  classical
  have hmem : n ∈ L.inputs r := by simp [hinputs]
  obtain ⟨b, s₁, hrun, hscanned, hgrows, hhash, hb⟩ := hnode (insert r O) s.2 h.scanned (by
    rintro q (rfl | hq)
    · exact Links.uses_input hmem
    · exact hO q hq n hmem)
  have hrule : s₁.graph.rule r = s.2.graph.rule r := hgrows.rule r (Set.mem_insert r O)
  have hgrows' : Grows O s.2 s₁ := hgrows.mono (Set.subset_insert r O)
  have hhashed : ∀ m ∈ pre ++ [n], (s₁.graph.node m).hash ≠ "" := by
    intro m hm
    rcases List.mem_append.mp hm with hm | hm
    · exact hgrows.hashed m (h.hashed m hm)
    · rw [List.mem_singleton.mp hm]
      exact hhash
  by_cases hstale : L.StaleNode t n
  · obtain rfl : b = true := hb.mpr hstale
    have hsource : (s₁.graph.node n).isSource = false := by
      obtain ⟨q, hq, -⟩ := hstale
      have hchild : (s₁.graph.node n).childRule = some q := by
        rw [← hscanned.links] at hq
        exact hq
      simp [Node.isSource, hchild]
    have hready := h.ready
    have hcount : pre.countP (fun n ↦ decide (L.StaleNode t n)) ≤ pre.length :=
      List.countP_le_length
    have hlen : (L.inputs r).length = pre.length + (post.length + 1) := by simp [hinputs]
    have hpos : 0 < (s₁.graph.rule r).numInputsReady := by
      rw [hrule]
      omega
    refine ⟨(true, { s₁ with graph := s₁.graph.setRule r { s₁.graph.rule r with
      numInputsReady := (s₁.graph.rule r).numInputsReady - 1 } }), ?_, {
      scanned := hscanned.setRule (Set.mem_insert r O) (hgrows.seen h.seen)
        (Graph.links_setRule rfl rfl rfl rfl rfl)
      grows := (h.grows.trans hgrows').trans (grows_setRule s₁ _ hr)
      seen := hgrows.seen h.seen
      clean := ?_
      ready := ?_
      hashed := hhashed
      dirty := by simp [hstale] }⟩
    · simp only [updateInput, hrun, Lib.except_ok_bind, if_true, hsource, Bool.false_eq_true,
        if_false, markInputDirty_ok hpos, Lib.except_pure]
    · rw [Graph.setRule_rule, if_pos rfl]
      change (s₁.graph.rule r).isDirty = false
      rw [hrule]
      exact h.clean
    · rw [Graph.setRule_rule, if_pos rfl, hrule]
      rw [hrule] at hpos
      simp only [List.countP_append, List.countP_singleton, hstale, decide_true, if_true]
      omega
  · obtain rfl : b = false := by
      rw [← Bool.not_eq_true, hb]
      exact hstale
    refine ⟨(s.1, s₁), ?_, {
      scanned := hscanned
      grows := h.grows.trans hgrows'
      seen := hgrows.seen h.seen
      clean := ?_
      ready := ?_
      hashed := hhashed
      dirty := ?_ }⟩
    · simp only [updateInput, hrun, Lib.except_ok_bind, Bool.false_eq_true, if_false,
        Lib.except_pure]
    · rw [hrule]
      exact h.clean
    · rw [hrule]
      simpa [List.countP_append, hstale] using h.ready
    · rw [h.dirty]
      simp [hstale]

/-! ## The comparison of the timestamps -/

theorem foldl_older (g : Graph) (l : List NodeId) (o : NodeId) :
    l.foldl (older g) o ∈ o :: l ∧
      ∀ m ∈ o :: l, (g.node (l.foldl (older g) o)).timestamp ≤ (g.node m).timestamp := by
  induction l generalizing o with
  | nil => simp
  | cons n l ih =>
      obtain ⟨hmem, hmin⟩ := ih (older g o n)
      rw [List.foldl_cons]
      have holder : older g o n = o ∨ older g o n = n := by
        rw [older]
        split
        · exact Or.inr rfl
        · exact Or.inl rfl
      have hle : (g.node (older g o n)).timestamp ≤ (g.node o).timestamp ∧
          (g.node (older g o n)).timestamp ≤ (g.node n).timestamp := by
        rw [older]
        split
        · rename_i hlt
          exact ⟨hlt.le, le_refl _⟩
        · rename_i hge
          exact ⟨le_refl _, not_lt.mp hge⟩
      have hfirst := hmin (older g o n) List.mem_cons_self
      refine ⟨?_, fun m hm ↦ ?_⟩
      · rcases List.mem_cons.mp hmem with heq | hmem
        · rw [heq]
          rcases holder with h | h <;> simp [h]
        · exact List.mem_cons_of_mem o (List.mem_cons_of_mem n hmem)
      · rcases List.mem_cons.mp hm with rfl | hm
        · exact hfirst.trans hle.1
        · rcases List.mem_cons.mp hm with rfl | hm
          · exact hfirst.trans hle.2
          · exact hmin m (List.mem_cons_of_mem _ hm)

theorem getOldestOutput_spec {g : Graph} {r : RuleId} (hne : (g.rule r).outputs ≠ []) :
    ∃ o, getOldestOutput g r = .ok o ∧ ∀ x : Timestamp, (g.node o).timestamp < x ↔
      ∃ m ∈ (g.rule r).outputs, (g.node m).timestamp < x := by
  cases hout : (g.rule r).outputs with
  | nil => exact absurd hout hne
  | cons o l =>
      obtain ⟨hmem, hmin⟩ := foldl_older g l o
      refine ⟨l.foldl (older g) o, ?_, fun x ↦ ⟨fun hlt ↦ ⟨_, hmem, hlt⟩, ?_⟩⟩
      · simp only [getOldestOutput, hout, Lib.except_pure]
      · rintro ⟨m, hm, hlt⟩
        exact (hmin m hm).trans_lt hlt

/-- `g'` is `g` with the nodes of `U` marked out of date. -/
structure Compared (g : Graph) (U : Set NodeId) (g' : Graph) : Prop where
  links : g'.links = g.links
  rule : g'.rule = g.rule
  time : ∀ n, (g'.node n).timestamp = (g.node n).timestamp
  hash : ∀ n, (g'.node n).hash = (g.node n).hash
  hashDepfile : ∀ n, (g'.node n).hashDepfile = (g.node n).hashDepfile
  dirty : ∀ n, (g'.node n).isDirty = true ↔ (g.node n).isDirty = true ∨ n ∈ U

theorem compared_refl (g : Graph) : Compared g ∅ g :=
  ⟨rfl, rfl, fun _ ↦ rfl, fun _ ↦ rfl, fun _ ↦ rfl, by simp⟩

theorem Compared.trans {g g' g'' : Graph} {U U' : Set NodeId} (h : Compared g U g')
    (h' : Compared g' U' g'') : Compared g (U ∪ U') g'' where
  links := h'.links.trans h.links
  rule := h'.rule.trans h.rule
  time n := (h'.time n).trans (h.time n)
  hash n := (h'.hash n).trans (h.hash n)
  hashDepfile n := (h'.hashDepfile n).trans (h.hashDepfile n)
  dirty n := by rw [h'.dirty, h.dirty, Set.mem_union, or_assoc]

theorem Compared.congr {g g' : Graph} {U U' : Set NodeId} (h : Compared g U g') (hU : U = U') :
    Compared g U' g' :=
  hU ▸ h

theorem compared_setState (g : Graph) (n : NodeId) :
    Compared g {n} (g.updateNode n (·.setState .outOfDate)) where
  links := Graph.links_setNode rfl rfl rfl rfl
  rule := rfl
  time m := Graph.proj_setNode Node.timestamp (by rfl) m
  hash m := Graph.proj_setNode Node.hash (by rfl) m
  hashDepfile m := Graph.proj_setNode Node.hashDepfile (by rfl) m
  dirty m := by
    rw [Graph.updateNode, Graph.setNode_node]
    by_cases hm : m = n <;> simp [hm, Node.setState, Node.isDirty]

theorem foldl_compareInput (t : NodeId → Timestamp) (o : NodeId) (l : List NodeId) (b : Bool)
    (g : Graph) (ht : ∀ n, (g.node n).timestamp = t n) :
    ((l.foldl (compareInput o) (b, g)).1 = true ↔ b = true ∨ ∃ n ∈ l, t o < t n) ∧
      Compared g {n | n ∈ l ∧ (g.node n).isSource = true ∧ t o < t n}
        (l.foldl (compareInput o) (b, g)).2 := by
  induction l generalizing b g with
  | nil => exact ⟨by simp, (compared_refl g).congr (by simp)⟩
  | cons n l ih =>
      rw [List.foldl_cons]
      by_cases hlt : t o < t n
      · have hstep : ∃ g', compareInput o (b, g) n = (true, g') ∧
            Compared g {m | m = n ∧ (g.node m).isSource = true} g' := by
          simp only [compareInput, ht, hlt, if_true]
          split
          · rename_i hsource
            refine ⟨_, rfl, (compared_setState g n).congr ?_⟩
            ext m
            simp only [Set.mem_singleton_iff, Set.mem_ofPred_eq, iff_self_and]
            rintro rfl
            exact hsource
          · rename_i hsource
            refine ⟨_, rfl, (compared_refl g).congr ?_⟩
            ext m
            simp only [Set.mem_empty_iff_false, Set.mem_ofPred_eq, false_iff, not_and]
            rintro rfl
            exact hsource
        obtain ⟨g', hrun, hg'⟩ := hstep
        rw [hrun]
        obtain ⟨hflag, hcompared⟩ := ih true g' fun m ↦ (hg'.time m).trans (ht m)
        refine ⟨?_, (hg'.trans hcompared).congr ?_⟩
        · rw [hflag]
          simp [hlt]
        · ext m
          simp only [Set.mem_union, Set.mem_ofPred_eq, Graph.isSource_of_links hg'.links,
            List.mem_cons]
          constructor
          · rintro (⟨rfl, hs⟩ | ⟨hm, hs, hlt'⟩)
            · exact ⟨Or.inl rfl, hs, hlt⟩
            · exact ⟨Or.inr hm, hs, hlt'⟩
          · rintro ⟨rfl | hm, hs, hlt'⟩
            · exact Or.inl ⟨rfl, hs⟩
            · exact Or.inr ⟨hm, hs, hlt'⟩
      · have hstep : compareInput o (b, g) n = (b, g) := by
          simp only [compareInput, ht, hlt, if_false]
        rw [hstep]
        obtain ⟨hflag, hcompared⟩ := ih b g ht
        refine ⟨?_, hcompared.congr ?_⟩
        · rw [hflag]
          simp [hlt]
        · ext m
          simp only [Set.mem_ofPred_eq, List.mem_cons]
          constructor
          · rintro ⟨hm, hs, hlt'⟩
            exact ⟨Or.inr hm, hs, hlt'⟩
          · rintro ⟨rfl | hm, hs, hlt'⟩
            · exact absurd hlt' hlt
            · exact ⟨hm, hs, hlt'⟩

theorem scanTimes_spec {g : Graph} {r : RuleId} (hlinks : g.links = L)
    (ht : ∀ n, (g.node n).timestamp = t n) (hne : L.outputs r ≠ []) :
    ∃ b g', scanTimes g r = .ok (b, g') ∧ (b = true ↔ ∃ n, L.Newer t r n) ∧
      Compared g {n | L.child n = none ∧ L.Newer t r n} g' := by
  subst hlinks
  cases hphony : (g.rule r).isPhony with
  | true =>
      have hnot : ∀ n, ¬ g.links.Newer t r n := by
        intro n hn
        have hcommand : (g.rule r).command = "" := by simpa [Rule.isPhony] using hphony
        exact hn.1 hcommand
      refine ⟨false, g, by simp [scanTimes, hphony], by simp [hnot], ?_⟩
      exact (compared_refl g).congr (by simp [hnot])
  | false =>
      have hcommand : (g.rule r).command ≠ "" := by simpa [Rule.isPhony] using hphony
      obtain ⟨o, hrun, holdest⟩ := getOldestOutput_spec (g := g) (r := r) hne
      have hnewer : ∀ n, g.links.Newer t r n ↔ n ∈ (g.rule r).inputs ∧ t o < t n := by
        intro n
        have hlt := holdest (t n)
        simp only [ht] at hlt
        rw [hlt]
        exact and_iff_right hcommand
      obtain ⟨hflag, hcompared⟩ := foldl_compareInput t o (g.rule r).inputs false g ht
      refine ⟨((g.rule r).inputs.foldl (compareInput o) (false, g)).1, _, ?_, ?_,
        hcompared.congr ?_⟩
      · simp only [scanTimes, hphony, Bool.false_eq_true, if_false, compareInputsWithOutputs, hrun,
          Lib.except_ok_bind, Lib.except_pure]
      · rw [hflag]
        simp [hnewer]
      · ext n
        simp only [Set.mem_ofPred_eq, hnewer, Node.isSource, Option.isNone_iff_eq_none]
        change _ ↔ (g.node n).childRule = none ∧ _
        tauto

/-- The rule `r` is left: its inputs have been compared with its outputs, and
its own fields are final. -/
theorem Scanned.leave {O : Set RuleId} {s : Scan ω} {r : RuleId} {g : Graph} {x : Rule}
    (h : Scanned L t (insert r O) s) (hr : r ∉ O) (hseen : r ∈ s.seen)
    (hg : Compared s.graph {n | L.child n = none ∧ L.Newer t r n} g)
    (hlinks : (g.setRule r x).links = g.links) (hdone : RuleDone L t (g.setRule r x) r) :
    Scanned L t O { s with graph := g.setRule r x } where
  links := hlinks.trans (hg.links.trans h.links)
  time n := (hg.time n).trans (h.time n)
  rules := h.rules
  done q hq hO := by
    by_cases hqr : q = r
    · exact hqr ▸ hdone
    · refine (h.done q hq ?_).congr ?_ ?_
      · rintro (heq | hmem)
        · exact hqr heq
        · exact hO hmem
      · rw [Graph.setRule_rule, if_neg hqr, hg.rule]
      · intro n hn
        rw [Graph.setRule_node, hg.hash]
        exact hn
  fresh q hq hnot := by
    have hqr : q ≠ r := fun heq ↦ hnot (heq ▸ hseen)
    rw [Graph.setRule_rule, if_neg hqr, hg.rule]
    exact h.fresh q hq hnot
  dirty n hn hc := by
    rw [Graph.setRule_node, hg.dirty] at hn
    rcases hn with hn | hn
    · exact h.dirty n hn hc
    · exact absurd hn.1 hc
  hashed n hn := by
    rw [Graph.setRule_node, hg.hash] at hn
    rw [Graph.setRule_node, hg.hashDepfile, hg.dirty]
    obtain ⟨hdep, hstale, hchild⟩ := h.hashed n hn
    exact ⟨hdep, fun hs ↦ Or.inl (hstale hs), hchild⟩
  source n hn := by
    rw [Graph.setRule_node, hg.dirty, h.source n hn]
    constructor
    · rintro (⟨q, hq, hO, hnewer⟩ | ⟨-, hnewer⟩)
      · exact ⟨q, hq, fun hmem ↦ hO (Set.mem_insert_of_mem r hmem), hnewer⟩
      · exact ⟨r, hseen, hr, hnewer⟩
    · rintro ⟨q, hq, hO, hnewer⟩
      by_cases hqr : q = r
      · subst hqr
        exact Or.inr ⟨hn, hnewer⟩
      · refine Or.inl ⟨q, hq, ?_, hnewer⟩
        rintro (heq | hmem)
        · exact hqr heq
        · exact hO hmem

theorem scanDepfile_none {g : Graph} {w : ω} {r : RuleId} (hdep : (g.rule r).depfile = "") :
    scanDepfile P g w r = .ok (false, g, w) := by
  have hno : (g.rule r).hasDepfile = false := by simp [Rule.hasDepfile, hdep]
  simp only [scanDepfile, hno, Bool.false_eq_true, if_false, Lib.except_pure]

/-- A rule that was up to date, hashed as `x` and left as `y`. -/
theorem InputsDone.ruleDone {O : Set RuleId} {r : RuleId} {s₀ : Scan ω} {s : Bool × Scan ω}
    (h : InputsDone L t O r s₀ (L.inputs r) s) {x y : Rule} {g : Graph} {U : Set NodeId}
    (hg : Compared (s.2.graph.setRule r x) U g) {dirty : Bool} (hdirty : dirty = true ↔ L.Stale t r)
    (hstate : x.state = (s.2.graph.rule r).state)
    (hready : x.numInputsReady = (s.2.graph.rule r).numInputsReady)
    (hhash : x.hash ≠ "") (hhashDepfile : x.hashDepfile ≠ "")
    (hy : y = { x with state := if dirty then .outOfDate else x.state }) :
    RuleDone L t (g.setRule r y) r := by
  have hrule : (g.setRule r y).rule r = y := by rw [Graph.setRule_rule, if_pos rfl]
  have hclean : x.isDirty = false := by
    have hc := h.clean
    rw [Rule.isDirty, ← hstate] at hc
    exact hc
  subst hy
  refine ⟨?_, ?_, ?_, ?_, fun n hn ↦ ?_⟩
  · rw [hrule, ← hdirty]
    cases dirty with
    | true => simp [Rule.isDirty]
    | false => simpa [Rule.isDirty] using hclean
  · rw [hrule]
    exact hhash
  · rw [hrule]
    exact hhashDepfile
  · rw [hrule]
    change x.numInputsReady + _ = _
    rw [hready]
    exact h.ready
  · rw [Graph.setRule_node, hg.hash]
    exact h.hashed n hn

section Rule

variable (hdigest : ∀ data, P.digest data ≠ "")
include hdigest

/-- The rule after the loop over its inputs: its hashes, and its state. -/
theorem updateRuleHash_ok {O : Set RuleId} {r : RuleId} {s₀ : Scan ω} {s : Bool × Scan ω}
    (h : InputsDone L t O r s₀ (L.inputs r) s) :
    ∃ a b, a ≠ "" ∧ b ≠ "" ∧ Hash.updateRuleHash P s.2.graph r true true =
      .ok (s.2.graph.setRule r { s.2.graph.rule r with hash := a, hashDepfile := b }) := by
  have hinputs : (s.2.graph.rule r).inputs = L.inputs r := by
    rw [← h.scanned.links]
    rfl
  refine ⟨_, _, hdigest _, hdigest _, Hash.updateRuleHash_eq_ok.mpr ⟨?_, ?_, rfl⟩⟩
  · intro _ n hn
    exact h.hashed n (hinputs ▸ hn)
  · intro _ n hn
    have hmem : n ∈ L.inputs r := hinputs ▸ List.mem_of_mem_take hn
    exact (h.scanned.hashed n (h.hashed n hmem)).1

theorem updateRule_spec {node : Scan ω → NodeId → Outcome (Bool × Scan ω)} {O : Set RuleId}
    {r : RuleId} {s : Scan ω} (h : Scanned L t O s) (hr : r ∈ L.rules) (hO : r ∉ O)
    (huses : ∀ q ∈ O, ∀ x ∈ L.inputs r, L.Uses q x)
    (hnode : ∀ x ∈ L.inputs r, NodeSpec L t node x) (hne : L.outputs r ≠ [])
    (hdep : L.depfile r = "") :
    ∃ b s', updateRule P node s r = .ok (b, s') ∧ Scanned L t O s' ∧ Grows O s s' ∧
      r ∈ s'.seen ∧ (b = true ↔ L.Stale t r) := by
  classical
  by_cases hmem : r ∈ s.seen
  · refine ⟨(s.graph.rule r).isDirty, s, ?_, h, .refl O s, hmem, (h.done r hmem hO).dirty⟩
    simp only [updateRule, hmem, if_true, Lib.except_pure]
  · have hinputs : (s.graph.rule r).inputs = L.inputs r := by
      rw [← h.links]
      rfl
    obtain ⟨hclean, hready⟩ := h.fresh r hr hmem
    have hstart : InputsDone L t O r s [] (false, { s with seen := insert r s.seen }) := {
      scanned := h.enter hr hmem
      grows := ⟨rfl, Finset.subset_insert r s.seen, fun _ hn ↦ hn, fun _ _ ↦ rfl⟩
      seen := Finset.mem_insert_self r s.seen
      clean := hclean
      ready := by simpa using hready
      hashed := by simp
      dirty := by simp }
    obtain ⟨⟨inputDirty, s₁⟩, hloop, hinv⟩ := Lib.foldlM_rule (f := updateInput node r)
      (l := L.inputs r) (InputsDone L t O r s) hstart fun pre n post s' hl hs' ↦
        updateInput_spec hO huses hl (hnode n (by simp [hl])) hs'
    obtain ⟨a, b, ha, hb, hhash⟩ := updateRuleHash_ok hdigest hinv
    let x : Rule := { s₁.graph.rule r with hash := a, hashDepfile := b }
    have hlinks₁ : (s₁.graph.setRule r x).links = s₁.graph.links :=
      Graph.links_setRule rfl rfl rfl rfl rfl
    have hhashed : Scanned L t (insert r O) { s₁ with graph := s₁.graph.setRule r x } :=
      hinv.scanned.setRule (Set.mem_insert r O) hinv.seen hlinks₁
    have hd : ((s₁.graph.setRule r x).rule r).depfile = "" := by
      rw [← hdep, ← hhashed.links]
      rfl
    have hdepfile : scanDepfile P (s₁.graph.setRule r x) s₁.world r =
        .ok (false, s₁.graph.setRule r x, s₁.world) := scanDepfile_none hd
    obtain ⟨timeDirty, g₂, htimes, htime, hcompared⟩ :=
      scanTimes_spec (t := t) hhashed.links hhashed.time hne
    have hrule₂ : g₂.rule r = x := by
      rw [hcompared.rule, Graph.setRule_rule, if_pos rfl]
    have hstale : (inputDirty || timeDirty) = true ↔ L.Stale t r := by
      rw [Bool.or_eq_true, hinv.dirty, htime, Links.stale_iff]
    have hgrows₂ : Grows O s { s₁ with graph := g₂ } := by
      refine (hinv.grows.trans (grows_setRule s₁ x hO)).trans
        ⟨rfl, Finset.Subset.refl _, fun n hn ↦ ?_, fun q _ ↦ congrFun hcompared.rule q⟩
      rw [hcompared.hash]
      exact hn
    -- The state is written only if the rule is dirty; it is up to date before.
    let y : Rule := { x with state := if inputDirty || timeDirty then .outOfDate else x.state }
    have hgraph : (if (inputDirty || timeDirty) = true then
        g₂.updateRule r (·.setState .outOfDate) else g₂) = g₂.setRule r y := by
      cases hd : inputDirty || timeDirty with
      | true => simp only [if_true, Graph.updateRule, hrule₂, Rule.setState, y, hd]
      | false =>
          have hy : y = g₂.rule r := by simp only [y, hd, hrule₂, Bool.false_eq_true, if_false]
          simp only [Bool.false_eq_true, if_false, hy, Graph.setRule, Function.update_eq_self]
    refine ⟨inputDirty || timeDirty, { s₁ with graph := g₂.setRule r y }, ?_,
      hhashed.leave hO hinv.seen hcompared ?_ ?_, ?_, hinv.seen, hstale⟩
    · simp only [updateRule, hmem, if_false, hinputs, hloop, hhash, hdepfile, htimes,
        Lib.except_ok_bind, Lib.except_pure, Bool.or_false, hgraph, x]
    · refine Graph.links_setRule ?_ ?_ ?_ ?_ ?_ <;> rw [hrule₂]
    · exact hinv.ruleDone hcompared hstale rfl rfl ha hb rfl
    · exact hgrows₂.trans (grows_setRule { s₁ with graph := g₂ } y hO)

end Rule

/-- A target whose rule is stale is marked. -/
theorem Scanned.setDirty {O : Set RuleId} {s : Scan ω} {n : NodeId} (h : Scanned L t O s)
    (hn : L.StaleNode t n) :
    Scanned L t O { s with graph := s.graph.updateNode n (·.setState .outOfDate) } := by
  have hc := compared_setState s.graph n
  have hne : L.child n ≠ none := by
    obtain ⟨q, hq, -⟩ := hn
    simp [hq]
  refine ⟨hc.links.trans h.links, fun m ↦ (hc.time m).trans (h.time m), h.rules, ?_, h.fresh,
    ?_, ?_,
    ?_⟩
  · intro r hr hO
    apply (h.done r hr hO).congr
    · rfl
    · intro m hm
      rw [hc.hash]
      exact hm
  · intro m hm hchild
    rcases (hc.dirty m).mp hm with hm | rfl
    · exact h.dirty m hm hchild
    · exact hn
  · intro m hm
    rw [hc.hash] at hm
    rw [hc.hashDepfile, hc.dirty]
    obtain ⟨hdep, hstale, hchild⟩ := h.hashed m hm
    exact ⟨hdep, fun hs ↦ Or.inl (hstale hs), hchild⟩
  · intro m hm
    rw [hc.dirty, h.source m hm]
    refine or_iff_left ?_
    rintro rfl
    exact hne hm

theorem grows_setDirty (O : Set RuleId) (s : Scan ω) (n : NodeId) :
    Grows O s { s with graph := s.graph.updateNode n (·.setState .outOfDate) } where
  world := rfl
  seen := Finset.Subset.refl _
  hashed m hm := by
    rw [(compared_setState s.graph n).hash]
    exact hm
  rule _ _ := rfl

section Node

variable (hdigest : ∀ data, P.digest data ≠ "") (hL : L.TwoWay)
  (hdep : ∀ r ∈ L.rules, L.depfile r = "")
include hdigest hL hdep

theorem updateNode_spec {fuel : ℕ} {n : NodeId} (hno : L.AcyclicBelow n)
    (hfuel : L.rankBelow n < fuel) : NodeSpec L t (updateNode P fuel) n := by
  induction fuel generalizing n with
  | zero => exact absurd hfuel (Nat.not_lt_zero _)
  | succ fuel ih =>
      intro O s h huses
      have hchild : (s.graph.node n).childRule = L.child n := by
        rw [← h.links]
        rfl
      cases hc : L.child n with
      | none =>
          have hnot : ¬ L.StaleNode t n := by
            rintro ⟨q, hq, -⟩
            rw [hc] at hq
            cases hq
          obtain ⟨s', hrun, hs', hgrows, hhash⟩ := hashNode_spec hdigest h
            (fun hs ↦ absurd hs hnot) (by simp [hc])
          refine ⟨false, s', ?_, hs', hgrows, hhash, by simp [hnot]⟩
          simp only [updateNode, updateChild, hchild, hc, Lib.except_pure, Lib.except_ok_bind, hrun]
      | some r =>
          obtain ⟨hr, hout⟩ := (hL.child_eq_some n r).mp hc
          have hO : r ∉ O :=
            fun hmem ↦ Links.not_uses_of_child (hno n .refl) hc (huses r hmem)
          have hrec : ∀ x ∈ L.inputs r, NodeSpec L t (updateNode P fuel) x := by
            intro x hx
            have hbelow := hno.of_feeds ⟨r, hc, hx⟩
            have hlt := Links.rankBelow_lt_of_input hL (hbelow x .refl) hc hx
            exact ih hbelow (hlt.trans_le (Nat.lt_succ_iff.mp hfuel))
          obtain ⟨b, s₁, hrule, h₁, hgrows₁, hseen, hb⟩ := updateRule_spec hdigest h hr hO
            (fun q hq x hx ↦ (huses q hq).of_feeds ⟨r, hc, hx⟩) hrec (List.ne_nil_of_mem hout)
            (hdep r hr)
          have hstale : b = true ↔ L.StaleNode t n := by
            rw [hb]
            constructor
            · exact fun hs ↦ ⟨r, hc, hs⟩
            · rintro ⟨q, hq, hs⟩
              rw [hc] at hq
              exact Option.some.inj hq ▸ hs
          let s₂ : Scan ω := if b then
            { s₁ with graph := s₁.graph.updateNode n (·.setState .outOfDate) } else s₁
          have hmarked : Scanned L t O s₂ ∧ Grows O s₁ s₂ ∧ s₂.seen = s₁.seen ∧
              (b = true → (s₂.graph.node n).isDirty = true) := by
            cases b with
            | true =>
                refine ⟨h₁.setDirty (hstale.mp rfl), grows_setDirty O s₁ n, rfl, fun _ ↦ ?_⟩
                exact ((compared_setState s₁.graph n).dirty n).mpr (Or.inr rfl)
            | false => exact ⟨h₁, .refl O s₁, rfl, by simp⟩
          obtain ⟨h₂, hgrows₂, hseen₂, hdirty₂⟩ := hmarked
          obtain ⟨s', hrun, hs', hgrows', hhash⟩ := hashNode_spec hdigest h₂
            (fun hs ↦ hdirty₂ (hstale.mpr hs)) (by
              intro q hq
              rw [hc] at hq
              obtain rfl : r = q := Option.some.inj hq
              exact ⟨hseen₂ ▸ hseen, hO⟩)
          refine ⟨b, s', ?_, hs', (hgrows₁.trans hgrows₂).trans hgrows', hhash, hstale⟩
          simp only [updateNode, updateChild, hchild, hc, hrule, Lib.except_pure,
            Lib.except_ok_bind]
          change (hashNode P s₂ n >>= fun s ↦ .ok (b, s)) = _
          rw [hrun, Lib.except_ok_bind]

/-- The roots in turn; afterwards they all have been visited. -/
theorem scanRoots_spec {fuel : ℕ} {l : List NodeId} (hno : ∀ n ∈ l, L.AcyclicBelow n)
    (hfuel : ∀ n ∈ l, L.rankBelow n < fuel) {s : Scan ω} (h : Scanned L t ∅ s) :
    ∃ s', l.foldlM (scanRoot P fuel) s = .ok s' ∧ Scanned L t ∅ s' ∧ s'.world = s.world ∧
      ∀ n ∈ l, (s'.graph.node n).hash ≠ "" := by
  apply Lib.foldlM_rule (fun pre s' ↦ Scanned L t ∅ s' ∧ s'.world = s.world ∧
    ∀ n ∈ pre, (s'.graph.node n).hash ≠ "")
  · exact ⟨h, rfl, by simp⟩
  · intro pre n post s₁ hl ⟨h₁, hworld, hpre⟩
    have hn : n ∈ l := by simp [hl]
    obtain ⟨b, s₂, hrun, h₂, hgrows, hhash, -⟩ := updateNode_spec (P := P) (t := t) hdigest hL hdep
      (hno n hn) (hfuel n hn) ∅ s₁ h₁ (by simp)
    refine ⟨s₂, ?_, h₂, hgrows.world.trans hworld, fun m hm ↦ ?_⟩
    · simp only [scanRoot, hrun, Lib.except_ok_bind, Lib.except_pure]
    · rcases List.mem_append.mp hm with hm | hm
      · exact hgrows.hashed m (hpre m hm)
      · rw [List.mem_singleton.mp hm]
        exact hhash

end Node

/-! ## The whole scan -/

/-- The time that the scan sees for a node: outputs of phony rules are not
looked up, and a file that does not exist has time zero. -/
def fileTime (P : Platform ω) (w : ω) (g : Graph) (n : NodeId) : Timestamp :=
  if n ∈ g.nodes.map Prod.snd ∧ isPhonyOutput g n = false then
    (P.mtime w (g.node n).path).getD 0
  else (g.node n).timestamp

/-- `g'` is `g` with other timestamps. -/
structure Statted (g : Graph) (t : NodeId → Timestamp) (g' : Graph) : Prop where
  links : g'.links = g.links
  rule : g'.rule = g.rule
  node : ∀ n, g'.node n = { g.node n with timestamp := t n }

theorem isPhonyOutput_congr {g g' : Graph} (hl : g'.links = g.links) (n : NodeId) :
    isPhonyOutput g' n = isPhonyOutput g n := by
  rw [isPhonyOutput, isPhonyOutput, Graph.childRule_of_links hl]
  cases (g.node n).childRule with
  | none => rfl
  | some r => exact Graph.isPhony_of_links hl r

theorem statNodes_spec (P : Platform ω) (w : ω) (g : Graph) :
    Statted g (fileTime P w g) (statNodes P w g) := by
  have hstart : Statted g (fun n ↦ (g.node n).timestamp) g := ⟨rfl, rfl, fun _ ↦ rfl⟩
  suffices h : ∀ (l : List (String × NodeId)) (t : NodeId → Timestamp) (g' : Graph),
      Statted g t g' →
      Statted g (fun n ↦ if n ∈ l.map Prod.snd ∧ isPhonyOutput g n = false then
        (P.mtime w (g.node n).path).getD 0 else t n)
        (l.foldl (fun g e ↦ if isPhonyOutput g e.2 then g else statNode P w g e.2) g') from
    h g.nodes _ g hstart
  intro l
  induction l with
  | nil =>
      intro t g' h
      simpa using h
  | cons e l ih =>
      intro t g' h
      rw [List.foldl_cons]
      have hstep : Statted g (fun n ↦ if n = e.2 ∧ isPhonyOutput g n = false then
          (P.mtime w (g.node n).path).getD 0 else t n)
          (if isPhonyOutput g' e.2 then g' else statNode P w g' e.2) := by
        rw [isPhonyOutput_congr h.links]
        cases hp : isPhonyOutput g e.2 with
        | true =>
            refine ⟨h.links, h.rule, fun n ↦ ?_⟩
            have hnot : ¬ (n = e.2 ∧ isPhonyOutput g n = false) := by
              rintro ⟨rfl, hn⟩
              rw [hp] at hn
              cases hn
            simp only [if_true, if_neg hnot]
            exact h.node n
        | false =>
            have hlinks : (statNode P w g' e.2).links = g'.links :=
              Graph.links_setNode rfl rfl rfl rfl
            have hpath := Graph.path_of_links h.links e.2
            simp only [Bool.false_eq_true, if_false]
            refine ⟨hlinks.trans h.links, h.rule, fun n ↦ ?_⟩
            simp only [statNode, Graph.updateNode, Graph.setNode_node, hpath, Node.setTimestamp]
            by_cases hn : n = e.2
            · subst hn
              simp only [hp, and_self, if_true, h.node]
            · simp only [hn, false_and, if_false]
              exact h.node n
      have hrest := ih _ _ hstep
      refine ⟨hrest.links, hrest.rule, fun n ↦ ?_⟩
      have htime : ∀ x y : Timestamp,
          (if n ∈ l.map Prod.snd ∧ isPhonyOutput g n = false then x
            else if n = e.2 ∧ isPhonyOutput g n = false then x else y) =
          if n ∈ (e :: l).map Prod.snd ∧ isPhonyOutput g n = false then x else y := by
        intro x y
        have hmem : n ∈ (e :: l).map Prod.snd ↔ n = e.2 ∨ n ∈ l.map Prod.snd := List.mem_cons
        split_ifs <;> tauto
      rw [hrest.node, htime]

/-- Nothing has been marked or hashed yet, and all inputs count as ready. -/
structure Pristine (g : Graph) : Prop where
  node : ∀ n, (g.node n).isDirty = false ∧ (g.node n).hash = ""
  rule : ∀ r ∈ g.rules, (g.rule r).isDirty = false ∧
    (g.rule r).numInputsReady = (g.rule r).inputs.length

theorem scanned_start {g : Graph} (hg : Pristine g) (w : ω) :
    Scanned g.links (fileTime P w g) ∅ ⟨statNodes P w g, w, ∅⟩ := by
  have hstat := statNodes_spec P w g
  have hdirty : ∀ n, ((statNodes P w g).node n).isDirty = false := by
    intro n
    rw [hstat.node]
    exact (hg.node n).1
  have hhash : ∀ n, ((statNodes P w g).node n).hash = "" := by
    intro n
    rw [hstat.node]
    exact (hg.node n).2
  refine ⟨hstat.links, ?_, by simp, by simp, ?_, ?_, ?_, ?_⟩
  · intro n
    rw [hstat.node]
  · intro r hr _
    rw [hstat.rule]
    exact hg.rule r hr
  · intro n hn
    rw [hdirty] at hn
    cases hn
  · intro n hn
    exact absurd (hhash n) hn
  · intro n _
    rw [hdirty]
    simp

/-- The scan of a graph without depfiles comes to its end, and every rule and
every node has been decided. -/
theorem scan_spec (hdigest : ∀ data, P.digest data ≠ "") {g : Graph} (hg : g.Linked)
    (hpristine : Pristine g) (hdep : ∀ r ∈ g.rules, (g.rule r).hasDepfile = false) (w : ω) :
    ∃ s : Scan ω, scan P g w = .ok (s.graph, w) ∧ Scanned g.links (fileTime P w g) ∅ s ∧
      (∀ n ∈ g.allocated, (s.graph.node n).hash ≠ "") ∧ ∀ r ∈ g.rules, r ∈ s.seen := by
  have hstat := statNodes_spec P w g
  have hroots : (statNodes P w g).roots = g.roots := congrArg Links.roots hstat.links
  have hdep' : ∀ r ∈ g.links.rules, g.links.depfile r = "" := by
    intro r hr
    change (g.rule r).depfile = ""
    simpa [Rule.hasDepfile] using hdep r hr
  have hrank : ∀ n ∈ g.roots.sort (· ≤ ·), g.links.rankBelow n < (statNodes P w g).depth := by
    intro n _
    have hlt := Graph.rankBelow_lt_depth (statNodes P w g) n
    rwa [hstat.links] at hlt
  obtain ⟨s, hrun, hs, hworld, hvisited⟩ := scanRoots_spec (P := P) hdigest hg.twoWay hdep'
    (fun n _ ↦ Links.Acyclic.below hg.acyclic n) hrank (scanned_start (P := P) hpristine w)
  have hhashed : ∀ n ∈ g.allocated, (s.graph.node n).hash ≠ "" := by
    apply Links.mem_of_roots hg.twoWay hg.acyclic hg.output (A := {n | n ∈ g.allocated})
      (S := {n | (s.graph.node n).hash ≠ ""})
    · exact fun r hr o ho ↦ hg.allocated r hr o (Or.inr ho)
    · intro n hn hp
      exact hvisited n ((Finset.mem_sort _).mpr ((hg.roots n).mpr ⟨hn, hp⟩))
    · intro r hr o ho hhash n hin
      have hseen := (hs.hashed o hhash).2.2 r ((hg.twoWay.child_eq_some o r).mpr ⟨hr, ho⟩)
      exact (hs.done r hseen (Set.notMem_empty r)).inputs n hin
  refine ⟨s, ?_, hs, hhashed, fun r hr ↦ ?_⟩
  · simp only [scan, hroots, hrun, Lib.except_ok_bind, Lib.except_pure, hworld]
  · obtain ⟨o, ho⟩ := List.exists_mem_of_ne_nil _ (hg.output r hr)
    have ho' := hhashed o (hg.allocated r hr o (Or.inr ho))
    exact (hs.hashed o ho').2.2 r ((hg.twoWay.child_eq_some o r).mpr ⟨hr, ho⟩)

end GraphDependencyScan

end Falcon
