import Falcon.Graph.Edits

/-!
# The closure that marking reaches

`Node::markDirty` keeps no record of the nodes it has visited.  What it writes
is nevertheless known exactly: the nodes above the one it starts from and the
rules that use any of them, and a second call finds nothing left to write.
-/

namespace Falcon

open Relation

namespace Graph

variable {g g' : Graph}

/-- Marking stays inside of any set of nodes and rules that is closed upwards. -/
theorem markDirty_frame {U : Set NodeId} {V : Set RuleId} {fuel : ℕ} {n : NodeId}
    (hclosed : ∀ m ∈ U, ∀ r ∈ g.links.parents m, r ∈ V ∧ ∀ o ∈ g.links.outputs r, o ∈ U)
    (hn : n ∈ U) (hrun : Node.markDirty fuel g n = .ok g') :
    (∀ m, m ∉ U → g'.node m = g.node m) ∧ ∀ r, r ∉ V → g'.rule r = g.rule r := by
  induction fuel generalizing g n g' with
  | zero => cases hrun
  | succ fuel ih =>
      obtain ⟨g₁, hloop, hpure⟩ := Lib.bind_eq_ok.mp hrun
      let Kept : Graph → Prop := fun k ↦ k.links = g.links ∧
        (∀ m, m ∉ U → k.node m = g.node m) ∧ ∀ r, r ∉ V → k.rule r = g.rule r
      have hmark : ∀ o ∈ U, ∀ k k', Node.markDirty fuel k o = .ok k' → Kept k → Kept k' := by
        intro o ho k k' hk ⟨hlinks, hnode, hrule⟩
        obtain ⟨hnode', hrule'⟩ := ih (hlinks ▸ hclosed) ho hk
        refine ⟨(markDirty_darker hk).1.links.trans hlinks, fun m hm ↦ ?_, fun r hr ↦ ?_⟩
        · exact (hnode' m hm).trans (hnode m hm)
        · exact (hrule' r hr).trans (hrule r hr)
      have hset : ∀ r ∈ V, ∀ k x, (k.setRule r x).links = k.links → Kept k →
          Kept (k.setRule r x) := by
        intro r hr k x hx ⟨hlinks, hnode, hrule⟩
        refine ⟨hx.trans hlinks, hnode, fun q hq ↦ ?_⟩
        have hne : q ≠ r := fun heq ↦ hq (heq ▸ hr)
        rw [setRule_rule, if_neg hne]
        exact hrule q hq
      have hstep : ∀ r ∈ (g.node n).parentRules, ∀ k k',
          Node.markParentDirty (Node.markDirty fuel) n k r = .ok k' → Kept k → Kept k' := by
        intro r hr k k' hk hkept
        obtain ⟨hV, hU⟩ := hclosed n hn r hr
        obtain ⟨k₁, hrule, hcount⟩ := Lib.bind_eq_ok.mp hk
        obtain ⟨k₂, houts, hstate⟩ := Lib.bind_eq_ok.mp hrule
        have hout : (k.rule r).outputs = g.links.outputs r := outputs_of_links hkept.1 r
        have h₂ : Kept k₂ := by
          refine Lib.foldlM_invariant Kept (fun o ho j j' ↦ ?_) houts hkept
          exact hmark o (hU o (hout ▸ ho)) j j'
        have h₁ : Kept k₁ := by
          rw [← Except.ok.inj hstate]
          exact hset r hV k₂ _ (links_setRule rfl rfl rfl rfl rfl) h₂
        split at hcount
        · obtain ⟨numReady, rfl⟩ :=
            Depfile.onRule_ready (fun _ _ ↦ Depfile.markInputDirty_eq) hcount
          exact hset r hV k₁ _ (links_setRule rfl rfl rfl rfl rfl) h₁
        · exact Except.ok.inj hcount ▸ h₁
      obtain ⟨-, hnode, hrule⟩ : Kept g₁ :=
        Lib.foldlM_invariant Kept hstep hloop ⟨rfl, fun _ _ ↦ rfl, fun _ _ ↦ rfl⟩
      rw [← Except.ok.inj hpure]
      refine ⟨fun m hm ↦ ?_, hrule⟩
      have hne : m ≠ n := fun heq ↦ hm (heq ▸ hn)
      rw [updateNode, setNode_node, if_neg hne]
      exact hnode m hm

theorem updateNode_eq_self {n : NodeId} {f : Node → Node} (h : f (g.node n) = g.node n) :
    g.updateNode n f = g := by
  rw [updateNode, h, setNode, Function.update_eq_self]

theorem updateRule_eq_self {r : RuleId} {f : Rule → Rule} (h : f (g.rule r) = g.rule r) :
    g.updateRule r f = g := by
  rw [updateRule, h, setRule, Function.update_eq_self]

theorem setState_outOfDate {x : Node} (hdirty : x.isDirty = true)
    (hlazy : x.isLazyFetched = false) :
    x.setState .outOfDate = x := by
  have hstate : x.state = .outOfDate := by simpa [Node.isDirty] using hdirty
  rw [Node.setState, ← hstate, ← hlazy]

theorem setRuleState_outOfDate {x : Rule} (hdirty : x.isDirty = true) :
    x.setState .outOfDate = x := by
  have hstate : x.state = .outOfDate := by simpa [Rule.isDirty] using hdirty
  rw [Rule.setState, ← hstate]

/-- Where everything above the node is marked already, marking has no effect. -/
theorem markDirty_idle (hL : g.links.TwoWay) (hac : g.links.Acyclic) {fuel : ℕ} {n : NodeId}
    (hfuel : g.links.rankAbove n < fuel)
    (hnode : ∀ m ∈ g.links.Above n, (g.node m).isDirty = true ∧ (g.node m).isLazyFetched = false)
    (hrule : ∀ r ∈ consumers g.links (g.links.Above n), (g.rule r).isDirty = true) :
    Node.markDirty fuel g n = .ok g := by
  induction fuel generalizing n with
  | zero => exact absurd hfuel (Nat.not_lt_zero _)
  | succ fuel ih =>
      have hself := hnode n (Links.self_mem_Above n)
      have hstep : ∀ r ∈ (g.node n).parentRules,
          Node.markParentDirty (Node.markDirty fuel) n g r = .ok g := by
        intro r hr
        have hdirty : (g.rule r).isDirty = true := by
          obtain ⟨hmem, hin⟩ := (hL.mem_parents n r).mp hr
          exact hrule r ⟨hmem, n, hin, Links.self_mem_Above n⟩
        have hset : g.updateRule r (·.setState .outOfDate) = g :=
          updateRule_eq_self (setRuleState_outOfDate hdirty)
        have houts : (g.rule r).outputs.foldlM (Node.markDirty fuel) g = .ok g := by
          obtain ⟨k, hk, rfl⟩ := Lib.foldlM_rule (f := Node.markDirty fuel) (s := g)
            (l := (g.rule r).outputs) (fun _ k ↦ k = g) rfl (by
              rintro pre o post k hl rfl
              have ho : o ∈ k.links.outputs r := by
                change o ∈ (k.rule r).outputs
                simp [hl]
              have hsub := Links.Above_of_feeds (hL.feeds_iff.mpr ⟨r, hr, ho⟩)
              have hlt := Links.rankAbove_lt hL hac hr ho
              refine ⟨k, ih (by omega) (fun m hm ↦ hnode m (hsub hm)) fun q hq ↦ ?_, rfl⟩
              exact hrule q (consumers_mono hsub hq))
          exact hk
        simp only [Node.markParentDirty, Rule.markDirty, houts, Lib.except_ok_bind,
          Lib.except_pure, hset, hself.1, Bool.not_true, Bool.and_false, Bool.false_eq_true,
          if_false]
      obtain ⟨k, hloop, rfl⟩ := Lib.foldlM_rule
        (f := Node.markParentDirty (Node.markDirty fuel) n) (s := g)
        (l := (g.node n).parentRules) (fun _ k ↦ k = g) rfl (by
          rintro pre r post k hl rfl
          exact ⟨k, hstep r (by simp [hl]), rfl⟩)
      have hset : k.updateNode n (·.setState .outOfDate) = k :=
        updateNode_eq_self (setState_outOfDate hself.1 hself.2)
      simp only [Node.markDirty, hloop, Lib.except_ok_bind, Lib.except_pure, hset]

/-- `m` is reached from `n` through parent rules and their outputs. -/
def UpFrom (g : Graph) (n m : NodeId) : Prop :=
  ReflTransGen (fun a b ↦ ∃ r ∈ (g.node a).parentRules, b ∈ (g.rule r).outputs) n m

theorem upFrom_iff (hL : g.links.TwoWay) {n m : NodeId} :
    g.UpFrom n m ↔ m ∈ g.links.Above n := by
  have hfeeds : (fun a b ↦ ∃ r ∈ (g.node a).parentRules, b ∈ (g.rule r).outputs) =
      g.links.Feeds := by
    funext a b
    exact propext hL.feeds_iff.symm
  rw [UpFrom, hfeeds]
  rfl

/-- `Node::markDirty` marks the node and what lies above it, and nothing else. -/
theorem markDirty_closure (hL : g.links.TwoWay) (hac : g.links.Acyclic) (hexact : g.Exact)
    (n : NodeId) :
    ∃ g', Node.markDirty g.depth g n = .ok g' ∧
      (∀ m, (g'.node m).isDirty = true ↔ (g.node m).isDirty = true ∨ g.UpFrom n m) ∧
      (∀ r, (g'.rule r).isDirty = true ↔ (g.rule r).isDirty = true ∨
        r ∈ g.rules ∧ ∃ m ∈ (g.rule r).inputs, g.UpFrom n m) ∧
      g'.Exact ∧
      (∀ m, g.UpFrom n m → (g'.node m).isLazyFetched = false) ∧
      (∀ m, ¬ g.UpFrom n m → g'.node m = g.node m) ∧
      (∀ r, ¬ (r ∈ g.rules ∧ ∃ m ∈ (g.rule r).inputs, g.UpFrom n m) →
        g'.rule r = g.rule r) ∧
      g'.links = g.links ∧ g'.stamps = g.stamps ∧
      Node.markDirty g.depth g' n = .ok g' := by
  simp only [upFrom_iff hL]
  obtain ⟨g', hrun, hmarked, hexact'⟩ := markDirty_spec hL hac hexact n (g.rankAbove_lt_depth n)
  have hclosed : ∀ m ∈ g.links.Above n, ∀ r ∈ g.links.parents m,
      r ∈ consumers g.links (g.links.Above n) ∧ ∀ o ∈ g.links.outputs r, o ∈ g.links.Above n := by
    intro m hm r hr
    obtain ⟨hrules, hin⟩ := (hL.mem_parents m r).mp hr
    refine ⟨⟨hrules, m, hin, hm⟩, fun o ho ↦ ?_⟩
    exact ReflTransGen.tail hm (hL.feeds_iff.mpr ⟨r, hr, ho⟩)
  obtain ⟨hnode, hrule⟩ := markDirty_frame hclosed (Links.self_mem_Above n) hrun
  have hlazy : ∀ m ∈ g.links.Above n, (g'.node m).isLazyFetched = false := by
    intro m hm
    rw [← Bool.not_eq_true, hmarked.lazy]
    exact fun hno ↦ hno.1 hm
  refine ⟨g', hrun, fun m ↦ (hmarked.node m).trans or_comm, fun r ↦ (hmarked.rule r).trans or_comm,
    hexact', hlazy, hnode, hrule, hmarked.links, hmarked.stamps, ?_⟩
  have hl := hmarked.links
  apply markDirty_idle
  · exact hl ▸ hL
  · exact hl ▸ hac
  · rw [hl]
    exact g.rankAbove_lt_depth n
  · intro m hm
    rw [hl] at hm
    exact ⟨(hmarked.node m).mpr (Or.inl hm), hlazy m hm⟩
  · intro r hr
    rw [hl] at hr
    exact (hmarked.rule r).mpr (Or.inl hr)

/-! ## A diamond -/

/-- The makefile `parse.y -> parse.c, parse.h` and `parse.c, parse.h -> parse.o`
with everything to be built, but for `parse.c` if it has been fetched. -/
def diamondGraph (fetched : Bool) : Graph where
  node
    | 0 => { Node.create "parse.y" true false with parentRules := [0] }
    | 1 => { Node.create "parse.c" true fetched with
        childRule := some 0, parentRules := [1]
        state := if fetched then .upToDate else .outOfDate }
    | 2 => { Node.create "parse.h" true false with
        childRule := some 0, parentRules := [1], state := .outOfDate }
    | 3 => { Node.create "parse.o" true false with childRule := some 1, state := .outOfDate }
    | _ => Node.create "" true false
  rule
    | 0 => { Rule.create [0] [1, 2] with
        command := "yacc -d parse.y", state := .outOfDate, numInputsReady := 1 }
    | 1 => { Rule.create [1, 2] [3] with
        command := "cc -c parse.c", state := .outOfDate
        numInputsReady := if fetched then 1 else 0 }
    | _ => Rule.create [] []
  roots := {3}
  sources := {0}
  nodes := [("parse.y", 0), ("parse.c", 1), ("parse.h", 2), ("parse.o", 3)]
  rules := [0, 1]
  allocated := {0, 1, 2, 3}

section Diamond

variable (fetched : Bool)

theorem diamondGraph_rules {r : RuleId} (hr : r ∈ (diamondGraph fetched).rules) :
    r = 0 ∨ r = 1 := by
  simpa [diamondGraph] using hr

theorem twoWay_diamondGraph : (diamondGraph fetched).links.TwoWay :=
  @Links.twoWay_of_bounded _ 4 (fun _ ↦ ⟨rfl, rfl⟩) (by cases fetched <;> decide)
    (by cases fetched <;> decide)

theorem acyclic_diamondGraph : (diamondGraph fetched).links.Acyclic :=
  (twoWay_diamondGraph fetched).acyclic_of_rank id (by cases fetched <;> decide)

theorem exact_diamondGraph : (diamondGraph fetched).Exact := by
  intro r hr
  rcases diamondGraph_rules fetched hr with rfl | rfl <;> cases fetched <;> decide

end Diamond

/-- Marking the source file of the diamond, whose two middle files feed one rule. -/
theorem markDirty_diamondGraph :
    ∃ g', Node.markDirty (diamondGraph true).depth (diamondGraph true) 0 = .ok g' ∧ g'.Exact ∧
      (g'.node 1).isLazyFetched = false ∧
      Node.markDirty (diamondGraph true).depth g' 0 = .ok g' := by
  obtain ⟨g', hrun, -, -, hexact, hlazy, -, -, -, -, hagain⟩ :=
    markDirty_closure (twoWay_diamondGraph true) (acyclic_diamondGraph true)
      (exact_diamondGraph true) 0
  refine ⟨g', hrun, hexact, hlazy 1 ?_, hagain⟩
  apply ReflTransGen.single
  exact ⟨0, by decide, by decide⟩

end Graph

end Falcon
