import Mathlib.Tactic.Tauto
import Falcon.Lib.Lists
import Falcon.Parser.Makefile

/-!
# What the parser guarantees

The links of a parsed graph agree in both directions, every path has one node
but for the makefile itself, and the roots are the nodes without parents.
Nothing is said about cycles.
-/

namespace Falcon

/-- The entries that give a rule: the others are skipped. -/
def JsonVal.isRule : JsonVal → Bool
  | .object entries => (entries.lookup "inputs").isSome || (entries.lookup "outputs").isSome
  | _ => false

namespace GraphParser

/-- The state of the parser between two rules. -/
structure Parsed (g : Graph) : Prop where
  twoWay : g.links.TwoWay
  rules_nodup : g.rules.Nodup
  allocated : ∀ r ∈ g.rules, ∀ n, n ∈ (g.rule r).inputs ∨ n ∈ (g.rule r).outputs →
    n ∈ g.allocated
  lookup : ∀ n ∈ g.allocated, g.nodes.lookup (g.node n).path = some n
  nodes : ∀ e ∈ g.nodes, e.2 ∈ g.allocated ∧ (g.node e.2).path = e.1
  roots : ∀ n, n ∈ g.roots ↔ n ∈ g.allocated ∧ (g.node n).parentRules = []
  sources : ∀ n, n ∈ g.sources ↔ n ∈ g.allocated ∧ (g.node n).childRule = none
  explicit : ∀ r, (g.rule r).numImplicitDeps = 0

theorem parsed_empty : Parsed Graph.empty where
  twoWay := by
    refine ⟨?_, ?_, ?_, ?_, ?_⟩ <;> simp [Graph.empty, Graph.links, Node.create, Rule.create]
  rules_nodup := List.nodup_nil
  allocated := by simp [Graph.empty]
  lookup := by simp [Graph.empty]
  nodes := by simp [Graph.empty]
  roots := by simp [Graph.empty]
  sources := by simp [Graph.empty]
  explicit := by simp [Graph.empty, Rule.create]

namespace Parsed

variable {A : Allocator} {g g' : Graph} (h : Parsed g)
include h

theorem path_injective {m n : NodeId} (hm : m ∈ g.allocated) (hn : n ∈ g.allocated)
    (heq : (g.node m).path = (g.node n).path) : m = n := by
  have hlookup := h.lookup m hm
  rw [heq, h.lookup n hn] at hlookup
  exact (Option.some.inj hlookup).symm

/-- An address that is not in use has no links. -/
theorem parentRules_of_free {n : NodeId} (hn : n ∉ g.allocated) :
    ∀ r, r ∉ (g.node n).parentRules := by
  intro r hr
  obtain ⟨hrules, hin⟩ := (h.twoWay.mem_parents n r).mp hr
  exact hn (h.allocated r hrules n (Or.inl hin))

theorem childRule_of_free {n : NodeId} (hn : n ∉ g.allocated) : (g.node n).childRule = none := by
  cases hc : (g.node n).childRule with
  | none => rfl
  | some r =>
      obtain ⟨hrules, hout⟩ := (h.twoWay.child_eq_some n r).mp hc
      exact absurd (h.allocated r hrules n (Or.inr hout)) hn

/-- A node without links can be added without disturbing the links. -/
theorem twoWay_addPath (path : String) : (addPath A g path).links.TwoWay := by
  have hfree := A.newNode_fresh g.allocated
  have hparents : ∀ n, ((addPath A g path).node n).parentRules = (g.node n).parentRules := by
    intro n
    change ((g.setNode _ _).node n).parentRules = _
    rw [Graph.setNode_node]
    split
    · rename_i heq
      subst heq
      exact (List.eq_nil_iff_forall_not_mem.mpr (h.parentRules_of_free hfree)).symm
    · rfl
  have hchild : ∀ n, ((addPath A g path).node n).childRule = (g.node n).childRule := by
    intro n
    change ((g.setNode _ _).node n).childRule = _
    rw [Graph.setNode_node]
    split
    · rename_i heq
      subst heq
      exact (h.childRule_of_free hfree).symm
    · rfl
  constructor
  · intro n r
    change r ∈ ((GraphParser.addPath A g path).node n).parentRules ↔ _
    rw [hparents n]
    exact h.twoWay.mem_parents n r
  · intro n r
    change ((GraphParser.addPath A g path).node n).childRule = some r ↔ _
    rw [hchild n]
    exact h.twoWay.child_eq_some n r
  · intro n
    change ((GraphParser.addPath A g path).node n).parentRules.Nodup
    rw [hparents n]
    exact h.twoWay.parents_nodup n
  · exact h.twoWay.inputs_nodup
  · exact h.twoWay.outputs_nodup

theorem addPath {path : String} (hnew : g.nodes.lookup path = none) :
    Parsed (addPath A g path) := by
  have hfree := A.newNode_fresh g.allocated
  have hself : (GraphParser.addPath A g path).node (A.newNode g.allocated) =
      Node.create path true (A.uninitialised g.allocated) := by
    change (g.setNode _ _).node _ = _
    rw [Graph.setNode_node, if_pos rfl]
  have hother : ∀ n, n ≠ A.newNode g.allocated →
      (GraphParser.addPath A g path).node n = g.node n := by
    intro n hn
    change (g.setNode _ _).node n = _
    rw [Graph.setNode_node, if_neg hn]
  have hne : ∀ n ∈ g.allocated, n ≠ A.newNode g.allocated := by
    rintro n hn rfl
    exact hfree hn
  refine ⟨h.twoWay_addPath path, h.rules_nodup, ?_, ?_, ?_, ?_, ?_, h.explicit⟩
  · exact fun r hr n hn ↦ Finset.mem_insert_of_mem (h.allocated r hr n hn)
  · intro n hn
    change (g.nodes ++ [(path, A.newNode g.allocated)]).lookup _ = _
    apply Lib.lookup_snoc_eq_some_iff.mpr
    rcases Finset.mem_insert.mp hn with rfl | hn
    · rw [hself]
      exact Or.inr ⟨hnew, rfl, rfl⟩
    · rw [hother n (hne n hn)]
      exact Or.inl (h.lookup n hn)
  · intro e he
    rcases List.mem_append.mp he with he | he
    · obtain ⟨ha, hp⟩ := h.nodes e he
      rw [hother e.2 (hne e.2 ha)]
      exact ⟨Finset.mem_insert_of_mem ha, hp⟩
    · rw [List.mem_singleton.mp he, hself]
      exact ⟨Finset.mem_insert_self _ _, rfl⟩
  · intro n
    change n ∈ insert _ g.roots ↔ n ∈ insert _ g.allocated ∧ _
    by_cases hn : n = A.newNode g.allocated
    · subst hn
      simp [hself, Node.create]
    · rw [hother n hn, Finset.mem_insert, Finset.mem_insert, h.roots]
      tauto
  · intro n
    change n ∈ insert _ g.sources ↔ n ∈ insert _ g.allocated ∧ _
    by_cases hn : n = A.newNode g.allocated
    · subst hn
      simp [hself, Node.create]
    · rw [hother n hn, Finset.mem_insert, Finset.mem_insert, h.sources]
      tauto

end Parsed

/-- The nodes that `checkNode` returns are allocated, and no two are the same. -/
theorem checkNode_parsed {A : Allocator} {g g' : Graph} {json : Option JsonVal} {l : List NodeId}
    (h : Parsed g) (hrun : checkNode A g json = .ok (l, g')) :
    Parsed g' ∧ g.allocated ⊆ g'.allocated ∧ l.Nodup ∧ ∀ n ∈ l, n ∈ g'.allocated := by
  cases json with
  | none => cases hrun
  | some v =>
      obtain ⟨⟨set, g₁⟩, hloop, hpure⟩ := Lib.bind_eq_ok.mp hrun
      simp only [Lib.except_pure, Except.ok.injEq, Prod.mk.injEq] at hpure
      obtain ⟨rfl, rfl⟩ := hpure
      have hinv : Parsed g₁ ∧ g.allocated ⊆ g₁.allocated ∧ set ⊆ g₁.allocated := by
        refine Lib.foldlM_invariant (fun s : Finset NodeId × Graph ↦
          Parsed s.2 ∧ g.allocated ⊆ s.2.allocated ∧ s.1 ⊆ s.2.allocated) ?_ hloop
          ⟨h, Finset.Subset.refl _, Finset.empty_subset _⟩
        intro v _ s s' hstep ⟨hp, hsub, hset⟩
        cases v with
        | string data =>
            rw [checkPath] at hstep
            cases hl : s.2.nodes.lookup data with
            | some n =>
                simp only [hl, Lib.except_pure, Except.ok.injEq] at hstep
                subst hstep
                have hn : n ∈ s.2.allocated :=
                  (hp.nodes (data, n) (Lib.mem_of_lookup_eq_some hl)).1
                exact ⟨hp, hsub, Finset.insert_subset hn hset⟩
            | none =>
                simp only [hl, Lib.except_pure, Except.ok.injEq] at hstep
                subst hstep
                refine ⟨hp.addPath hl, hsub.trans (Finset.subset_insert _ _), ?_⟩
                exact Finset.insert_subset_insert _ hset
        | object entries => cases hstep
        | array l => cases hstep
        | literal data => cases hstep
      refine ⟨hinv.1, hinv.2.1, set.sort_nodup (· ≤ ·), fun n hn ↦ ?_⟩
      exact hinv.2.2 ((Finset.mem_sort _).mp hn)

/-! ## Adding a rule -/

/-- An entry is skipped, or its fields are read one after the other. -/
theorem processRule_ok {A : Allocator} {g g' : Graph} {v : JsonVal}
    (hrun : processRule A g v = .ok g') :
    v.isRule = false ∧ g' = g ∨
      v.isRule = true ∧ ∃ vin vout inputs outputs g₁ g₂ command depfile,
        v.getObject "inputs" = some vin ∧ v.getObject "outputs" = some vout ∧
        checkNode A g (some vin) = .ok (inputs, g₁) ∧
        checkNode A g₁ (some vout) = .ok (outputs, g₂) ∧
        stringField "cmd" (v.getObject "cmd") = .ok command ∧
        stringField "depfile" (v.getObject "depfile") = .ok depfile ∧
        addRule A g₂ inputs outputs command depfile = .ok g' := by
  cases v with
  | object entries =>
      simp only [processRule] at hrun
      split at hrun
      · rename_i hnone
        simp only [JsonVal.getObject, Bool.and_eq_true, Option.isNone_iff_eq_none] at hnone
        exact Or.inl ⟨by simp [JsonVal.isRule, hnone], (Except.ok.inj hrun).symm⟩
      · rename_i hsome
        simp only [JsonVal.getObject, Bool.and_eq_true, Option.isNone_iff_eq_none,
          not_and_or] at hsome
        obtain ⟨⟨inputs, g₁⟩, hinputs, hrun⟩ := Lib.bind_eq_ok.mp hrun
        obtain ⟨⟨outputs, g₂⟩, houtputs, hrun⟩ := Lib.bind_eq_ok.mp hrun
        obtain ⟨command, hcommand, hrun⟩ := Lib.bind_eq_ok.mp hrun
        obtain ⟨depfile, hdepfile, hadd⟩ := Lib.bind_eq_ok.mp hrun
        cases hin : (JsonVal.object entries).getObject "inputs" with
        | none =>
            rw [hin] at hinputs
            cases hinputs
        | some vin =>
            cases hout : (JsonVal.object entries).getObject "outputs" with
            | none =>
                rw [hout] at houtputs
                cases houtputs
            | some vout =>
                rw [hin] at hinputs
                rw [hout] at houtputs
                refine Or.inr ⟨by simpa [JsonVal.isRule, Option.isSome_iff_ne_none] using hsome, ?_⟩
                exact ⟨vin, vout, inputs, outputs, g₁, g₂, command, depfile, rfl, rfl, hinputs,
                  houtputs, hcommand, hdepfile, hadd⟩
  | array l => exact Or.inl ⟨rfl, (Except.ok.inj hrun).symm⟩
  | string data => exact Or.inl ⟨rfl, (Except.ok.inj hrun).symm⟩
  | literal data => exact Or.inl ⟨rfl, (Except.ok.inj hrun).symm⟩

theorem addInputs_spec {r : RuleId} {l : List NodeId} (hnd : l.Nodup) {g : Graph}
    (hroom : (g.rule r).numInputsReady + l.length ≤ (g.rule r).inputs.length) :
    ∃ g', l.foldlM (addInput r) g = .ok g' ∧
      g'.node = (fun n ↦ if n ∈ l then (g.node n).addParentRule r else g.node n) ∧
      g'.rule = Function.update g.rule r
        { g.rule r with numInputsReady := (g.rule r).numInputsReady + l.length } ∧
      g'.roots = g.roots \ l.toFinset ∧ g'.sources = g.sources ∧ g'.nodes = g.nodes ∧
      g'.rules = g.rules ∧ g'.allocated = g.allocated := by
  induction l generalizing g with
  | nil => exact ⟨g, rfl, by simp, by simp, by simp, rfl, rfl, rfl, rfl⟩
  | cons m l ih =>
      obtain ⟨hm, hnd⟩ := List.nodup_cons.mp hnd
      rw [List.length_cons] at hroom
      have hle : (g.rule r).numInputsReady + 1 ≤ (g.rule r).inputs.length := by omega
      let g₁ : Graph := { (g.updateNode m (·.addParentRule r)).setRule r
        { g.rule r with numInputsReady := (g.rule r).numInputsReady + 1 } with
        roots := g.roots.erase m }
      have hstep : addInput r g m = .ok g₁ := by
        simp [addInput, Graph.onRule, Rule.markInputReady, Graph.updateNode, hle, Except.map, g₁,
          Graph.setRule, Graph.setNode]
      have hrule : g₁.rule r =
          { g.rule r with numInputsReady := (g.rule r).numInputsReady + 1 } := by
        change (Graph.setRule _ r _).rule r = _
        rw [Graph.setRule_rule, if_pos rfl]
      obtain ⟨g', hloop, hnode, hrules, hroots, hrest⟩ := ih hnd (g := g₁) (by
        rw [hrule]
        simp only
        omega)
      refine ⟨g', by rw [List.foldlM_cons, hstep]; exact hloop, ?_, ?_, ?_, hrest⟩
      · rw [hnode]
        funext n
        change (if n ∈ l then ((Graph.setNode _ m _).node n).addParentRule r
          else (Graph.setNode _ m _).node n) = _
        rw [Graph.setNode_node]
        by_cases hn : n = m
        · subst hn
          simp [hm]
        · simp [hn]
      · rw [hrules, hrule]
        change Function.update (Function.update _ r _) r _ = _
        rw [Function.update_idem]
        simp only [List.length_cons, add_assoc, add_comm 1]
        rfl
      · rw [hroots]
        change g.roots.erase m \ l.toFinset = _
        ext n
        simp only [Finset.mem_sdiff, Finset.mem_erase, List.mem_toFinset, List.mem_cons]
        tauto

theorem addOutputs_spec {r : RuleId} {l : List NodeId} (hnd : l.Nodup) {g g' : Graph}
    (hrun : l.foldlM (addOutput r) g = .ok g') :
    (∀ n ∈ l, (g.node n).childRule = none) ∧
      g'.node = (fun n ↦ if n ∈ l then { g.node n with childRule := some r } else g.node n) ∧
      g'.rule = g.rule ∧ g'.sources = g.sources \ l.toFinset ∧ g'.roots = g.roots ∧
      g'.nodes = g.nodes ∧ g'.rules = g.rules ∧ g'.allocated = g.allocated := by
  induction l generalizing g with
  | nil =>
      simp only [List.foldlM_nil, Lib.except_pure, Except.ok.injEq] at hrun
      subst hrun
      exact ⟨by simp, by simp, rfl, by simp, rfl, rfl, rfl, rfl⟩
  | cons m l ih =>
      obtain ⟨hm, hnd⟩ := List.nodup_cons.mp hnd
      rw [List.foldlM_cons] at hrun
      obtain ⟨g₁, hstep, hrest⟩ := Lib.bind_eq_ok.mp hrun
      cases hc : (g.node m).childRule with
      | some q => simp [addOutput, Graph.onNode, Node.setChild, hc, Except.map] at hstep
      | none =>
          have hg₁ : g₁ = { g.setNode m { g.node m with childRule := some r } with
              sources := g.sources.erase m } := by
            simpa [addOutput, Graph.onNode, Node.setChild, hc, Except.map, Graph.setNode,
              eq_comm] using hstep
          have hnode₁ : ∀ n, g₁.node n =
              if n = m then { g.node m with childRule := some r } else g.node n := by
            intro n
            rw [hg₁]
            exact Graph.setNode_node _ _ _ _
          obtain ⟨hnone, hnode, hrule, hsources, hrest⟩ := ih hnd hrest
          rw [hg₁] at hrule hsources hrest
          refine ⟨?_, ?_, hrule, ?_, hrest⟩
          · intro n hn
            rcases List.mem_cons.mp hn with rfl | hn
            · exact hc
            · have := hnone n hn
              rw [hnode₁] at this
              have hne : n ≠ m := fun heq ↦ hm (heq ▸ hn)
              rwa [if_neg hne] at this
          · rw [hnode]
            funext n
            rw [hnode₁]
            by_cases hn : n = m
            · subst hn
              simp [hm]
            · simp [hn]
          · rw [hsources]
            ext n
            simp only [Finset.mem_sdiff, Finset.mem_erase, List.mem_toFinset, List.mem_cons]
            tauto

/-- The graph after `addRule`: a new rule, linked to its inputs and outputs. -/
structure RuleAdded (g : Graph) (r : RuleId) (ins outs : List NodeId) (g' : Graph) :
    Prop where
  fresh : r ∉ g.rules
  orphan : ∀ n ∈ outs, (g.node n).childRule = none
  path : ∀ n, (g'.node n).path = (g.node n).path
  parents : ∀ n, (g'.node n).parentRules =
    if n ∈ ins then (g.node n).parentRules ++ [r] else (g.node n).parentRules
  child : ∀ n, (g'.node n).childRule = if n ∈ outs then some r else (g.node n).childRule
  inputs : ∀ q, (g'.rule q).inputs = if q = r then ins else (g.rule q).inputs
  outputs : ∀ q, (g'.rule q).outputs = if q = r then outs else (g.rule q).outputs
  implicit : ∀ q, (g'.rule q).numImplicitDeps = if q = r then 0 else (g.rule q).numImplicitDeps
  rules : g'.rules = g.rules ++ [r]
  roots : g'.roots = g.roots \ ins.toFinset
  sources : g'.sources = g.sources \ outs.toFinset
  nodes : g'.nodes = g.nodes
  allocated : g'.allocated = g.allocated

/-- The objects behind `addRule`, which fills in the rule `x`. -/
structure RuleMade (g : Graph) (r : RuleId) (x : Rule) (ins outs : List NodeId) (g' : Graph) :
    Prop where
  orphan : ∀ n ∈ outs, (g.node n).childRule = none
  node : ∀ n, g'.node n = { g.node n with
    parentRules := if n ∈ ins then (g.node n).parentRules ++ [r] else (g.node n).parentRules
    childRule := if n ∈ outs then some r else (g.node n).childRule }
  rule : ∀ q, g'.rule q = if q = r then { x with numInputsReady := ins.length } else g.rule q
  rules : g'.rules = g.rules ++ [r]
  roots : g'.roots = g.roots \ ins.toFinset
  sources : g'.sources = g.sources \ outs.toFinset
  nodes : g'.nodes = g.nodes
  allocated : g'.allocated = g.allocated

theorem addRule_made {A : Allocator} {g g' : Graph} {inputs outputs : List NodeId}
    {command depfile : String} (hin : inputs.Nodup) (hout : outputs.Nodup)
    (hrun : addRule A g inputs outputs command depfile = .ok g') :
    RuleMade g (A.newRule g.rules)
      { Rule.create inputs outputs with command := command, depfile := depfile } inputs outputs
      g' := by
  rw [addRule] at hrun
  generalize A.newRule g.rules = r at hrun ⊢
  simp only at hrun
  generalize hx : ({ Rule.create inputs outputs with
    command := command, depfile := depfile } : Rule) = x at hrun ⊢
  have hready : x.numInputsReady = 0 := by
    rw [← hx]
    rfl
  have hinputs : x.inputs = inputs := by
    rw [← hx]
    rfl
  generalize hg₀ : ({ g.setRule r x with rules := g.rules ++ [r] } : Graph) = g₀ at hrun
  have hrule₀ : ∀ q, g₀.rule q = if q = r then x else g.rule q := by
    intro q
    rw [← hg₀]
    exact Graph.setRule_rule _ _ _ _
  have hr₀ : g₀.rule r = x := by rw [hrule₀, if_pos rfl]
  have hnode₀ : g₀.node = g.node := by rw [← hg₀]; rfl
  obtain ⟨g₁, hinputsRun, houtputsRun⟩ := Lib.bind_eq_ok.mp hrun
  obtain ⟨g₁', hinputsRun', hnode₁, hrule₁, hroots₁, hsources₁, hnodes₁, hrules₁, hallocated₁⟩ :=
    addInputs_spec (r := r) hin (g := g₀) (by
      rw [hr₀, hready, hinputs, Nat.zero_add])
  obtain rfl : g₁' = g₁ := Except.ok.inj (hinputsRun'.symm.trans hinputsRun)
  obtain ⟨horphan, hnode, hrule, hsources, hroots, hnodes, hrules, hallocated⟩ :=
    addOutputs_spec hout houtputsRun
  refine ⟨fun n hn ↦ ?_, fun n ↦ ?_, fun q ↦ ?_, ?_, ?_, ?_, ?_, ?_⟩
  · have hchild := horphan n hn
    rw [hnode₁, hnode₀] at hchild
    simp only at hchild
    split at hchild <;> exact hchild
  · rw [hnode, hnode₁, hnode₀]
    simp only
    split <;> split <;> rfl
  · rw [hrule, hrule₁, Function.update_apply, hr₀, hready, Nat.zero_add]
    split
    · rfl
    · rename_i hne
      rw [hrule₀, if_neg hne]
  · rw [hrules, hrules₁, ← hg₀]
  · rw [hroots, hroots₁, ← hg₀]
    rfl
  · rw [hsources, hsources₁, ← hg₀]
    rfl
  · rw [hnodes, hnodes₁, ← hg₀]
    rfl
  · rw [hallocated, hallocated₁, ← hg₀]
    rfl

theorem addRule_spec {A : Allocator} {g g' : Graph} {inputs outputs : List NodeId}
    {command depfile : String} (hin : inputs.Nodup) (hout : outputs.Nodup)
    (hrun : addRule A g inputs outputs command depfile = .ok g') :
    RuleAdded g (A.newRule g.rules) inputs outputs g' := by
  have hmade := addRule_made hin hout hrun
  refine ⟨A.newRule_fresh g.rules, hmade.orphan, fun n ↦ by rw [hmade.node],
    fun n ↦ by rw [hmade.node], fun n ↦ by rw [hmade.node], fun q ↦ ?_, fun q ↦ ?_, fun q ↦ ?_,
    hmade.rules, hmade.roots, hmade.sources, hmade.nodes, hmade.allocated⟩
  all_goals
    rw [hmade.rule]
    split <;> rfl

theorem RuleAdded.twoWay {g g' : Graph} {r : RuleId} {inputs outputs : List NodeId}
    (hadd : RuleAdded g r inputs outputs g') (hL : g.links.TwoWay) (hin : inputs.Nodup)
    (hout : outputs.Nodup) : g'.links.TwoWay := by
  have hnot : ∀ n, r ∉ (g.node n).parentRules :=
    fun n hr ↦ hadd.fresh ((hL.mem_parents n r).mp hr).1
  constructor
  · intro n q
    change q ∈ (g'.node n).parentRules ↔ q ∈ g'.rules ∧ n ∈ (g'.rule q).inputs
    have hold := hL.mem_parents n q
    rw [hadd.parents, hadd.rules, hadd.inputs, List.mem_append, List.mem_singleton]
    by_cases hq : q = r
    · subst hq
      have hparent := hnot n
      by_cases hn : n ∈ inputs <;> simp [hn, hparent]
    · rw [if_neg hq]
      by_cases hn : n ∈ inputs
      · simp only [hn, if_true, List.mem_append, List.mem_singleton, hq, or_false]
        exact hold
      · simp only [hn, if_false, hq, or_false]
        exact hold
  · intro n q
    change (g'.node n).childRule = some q ↔ q ∈ g'.rules ∧ n ∈ (g'.rule q).outputs
    have hold := hL.child_eq_some n q
    change (g.node n).childRule = some q ↔ q ∈ g.rules ∧ n ∈ (g.rule q).outputs at hold
    rw [hadd.child, hadd.rules, hadd.outputs, List.mem_append, List.mem_singleton]
    by_cases hn : n ∈ outputs
    · rw [hadd.orphan n hn] at hold
      by_cases hq : q = r
      · simp [hn, hq]
      · have hne : ¬ r = q := fun heq ↦ hq heq.symm
        simp only [hn, if_true, Option.some.injEq, hne, hq, or_false, if_false, false_iff]
        exact fun hmem ↦ by simp [hmem] at hold
    · by_cases hq : q = r
      · subst hq
        have hno : ¬ (g.node n).childRule = some q := fun heq ↦ hadd.fresh (hold.mp heq).1
        simp [hn, hno]
      · simp only [hn, if_false, hq, or_false]
        exact hold
  · intro n
    change (g'.node n).parentRules.Nodup
    rw [hadd.parents]
    split
    · rw [List.nodup_append]
      refine ⟨hL.parents_nodup n, List.nodup_singleton r, fun a ha b hb ↦ ?_⟩
      rintro rfl
      rw [List.mem_singleton.mp hb] at ha
      exact hnot n ha
    · exact hL.parents_nodup n
  · intro q hq
    change (g'.rule q).inputs.Nodup
    rw [hadd.inputs]
    split
    · exact hin
    · rename_i hne
      have hmem : q ∈ g.rules := by
        have hq' : q ∈ g'.rules := hq
        rw [hadd.rules] at hq'
        simpa [hne] using hq'
      exact hL.inputs_nodup q hmem
  · intro q hq
    change (g'.rule q).outputs.Nodup
    rw [hadd.outputs]
    split
    · exact hout
    · rename_i hne
      have hmem : q ∈ g.rules := by
        have hq' : q ∈ g'.rules := hq
        rw [hadd.rules] at hq'
        simpa [hne] using hq'
      exact hL.outputs_nodup q hmem

theorem Parsed.addRule {g g' : Graph} {r : RuleId} {inputs outputs : List NodeId} (h : Parsed g)
    (hadd : RuleAdded g r inputs outputs g') (hin : inputs.Nodup) (hout : outputs.Nodup)
    (hinputs : ∀ n ∈ inputs, n ∈ g.allocated) (houtputs : ∀ n ∈ outputs, n ∈ g.allocated) :
    Parsed g' where
  twoWay := hadd.twoWay h.twoWay hin hout
  rules_nodup := by
    rw [hadd.rules, List.nodup_append]
    refine ⟨h.rules_nodup, List.nodup_singleton r, fun a ha b hb ↦ ?_⟩
    rintro rfl
    rw [List.mem_singleton.mp hb] at ha
    exact hadd.fresh ha
  allocated q hq n hn := by
    rw [hadd.inputs, hadd.outputs] at hn
    rw [hadd.allocated]
    by_cases hqr : q = r
    · simp only [hqr, if_true] at hn
      exact hn.elim (hinputs n) (houtputs n)
    · simp only [hqr, if_false] at hn
      have hmem : q ∈ g.rules := by
        rw [hadd.rules] at hq
        simpa [hqr] using hq
      exact h.allocated q hmem n hn
  lookup n hn := by
    rw [hadd.nodes, hadd.path]
    exact h.lookup n (hadd.allocated ▸ hn)
  nodes e he := by
    rw [hadd.path, hadd.allocated]
    exact h.nodes e (hadd.nodes ▸ he)
  roots n := by
    rw [hadd.roots, hadd.allocated, hadd.parents, Finset.mem_sdiff, h.roots, List.mem_toFinset]
    by_cases hn : n ∈ inputs <;> simp [hn]
  sources n := by
    rw [hadd.sources, hadd.allocated, hadd.child, Finset.mem_sdiff, h.sources, List.mem_toFinset]
    by_cases hn : n ∈ outputs <;> simp [hn]
  explicit q := by
    rw [hadd.implicit]
    split
    · rfl
    · exact h.explicit q

theorem Parsed.processRule {A : Allocator} {g g' : Graph} {jsonRule : JsonVal} (h : Parsed g)
    (hrun : processRule A g jsonRule = .ok g') : Parsed g' := by
  obtain ⟨-, rfl⟩ | ⟨-, vin, vout, inputs, outputs, g₁, g₂, command, depfile, -, -, hcheck₁,
    hcheck₂, -, -, hrun⟩ := processRule_ok hrun
  · exact h
  · obtain ⟨h₁, -, hnd₁, hmem₁⟩ := checkNode_parsed h hcheck₁
    obtain ⟨h₂, hsub, hnd₂, hmem₂⟩ := checkNode_parsed h₁ hcheck₂
    exact h₂.addRule (addRule_spec hnd₁ hnd₂ hrun) hnd₁ hnd₂ (fun n hn ↦ hsub (hmem₁ n hn)) hmem₂

/-! ## What holds of every graph that is read -/

section Keeps

variable {A : Allocator} {I : Graph → Prop} {g g' : Graph}

theorem checkNode_keeps (hpath : ∀ k path, I k → I (addPath A k path)) {json : Option JsonVal}
    {l : List NodeId} (h : I g) (hrun : checkNode A g json = .ok (l, g')) : I g' := by
  cases json with
  | none => cases hrun
  | some v =>
      obtain ⟨⟨nodeSet, g₁⟩, hloop, hpure⟩ := Lib.bind_eq_ok.mp hrun
      obtain ⟨-, rfl⟩ := Prod.mk.inj (Except.ok.inj hpure)
      refine Lib.foldlM_invariant (fun s : Finset NodeId × Graph ↦ I s.2) ?_ hloop h
      intro v _ s s' hstep hs
      cases v with
      | string data =>
          simp only [checkPath] at hstep
          split at hstep
          · rw [← Except.ok.inj hstep]
            exact hs
          · rw [← Except.ok.inj hstep]
            exact hpath s.2 data hs
      | object entries => cases hstep
      | array l => cases hstep
      | literal data => cases hstep

/-- At most the links of nodes change. -/
def Relinked (g g' : Graph) : Prop :=
  ∀ n, ∃ parents child, g'.node n = { g.node n with parentRules := parents, childRule := child }

theorem Relinked.refl (g : Graph) : Relinked g g := fun _ ↦ ⟨_, _, rfl⟩

theorem Relinked.trans {g'' : Graph} (h : Relinked g g') (h' : Relinked g' g'') :
    Relinked g g'' := by
  intro n
  obtain ⟨_, _, hnode⟩ := h n
  obtain ⟨parents, child, hnode'⟩ := h' n
  exact ⟨parents, child, by rw [hnode', hnode]⟩

theorem relinked_setNode (g : Graph) (n : NodeId) (parents : List RuleId) (child : Option RuleId) :
    Relinked g (g.setNode n { g.node n with parentRules := parents, childRule := child }) := by
  intro m
  rw [Graph.setNode_node]
  split
  · rename_i heq
    subst heq
    exact ⟨parents, child, rfl⟩
  · exact ⟨_, _, rfl⟩

theorem addInput_relinked {r : RuleId} {n : NodeId} (hrun : addInput r g n = .ok g') :
    Relinked g g' := by
  obtain ⟨g₁, hready, hpure⟩ := Lib.bind_eq_ok.mp hrun
  have hset := relinked_setNode g n ((g.node n).parentRules ++ [r]) (g.node n).childRule
  rw [← Except.ok.inj hpure]
  rw [Graph.onRule] at hready
  cases hmark : ((g.updateNode n (·.addParentRule r)).rule r).markInputReady with
  | error f =>
      rw [hmark] at hready
      cases hready
  | ok x =>
      rw [hmark] at hready
      rw [← Except.ok.inj hready]
      exact hset

theorem addOutput_relinked {r : RuleId} {n : NodeId} (hrun : addOutput r g n = .ok g') :
    Relinked g g' := by
  obtain ⟨g₁, hchild, hpure⟩ := Lib.bind_eq_ok.mp hrun
  rw [← Except.ok.inj hpure]
  rw [Graph.onNode, Node.setChild] at hchild
  split at hchild
  · cases hchild
  · rw [← Except.ok.inj hchild]
    exact relinked_setNode g n (g.node n).parentRules (some r)

theorem addRule_relinked {inputs outputs : List NodeId} {command depfile : String}
    (hrun : addRule A g inputs outputs command depfile = .ok g') : Relinked g g' := by
  obtain ⟨g₁, hinputs, houtputs⟩ := Lib.bind_eq_ok.mp hrun
  have h₁ := Lib.foldlM_preserves Relinked Relinked.refl (fun _ _ _ ↦ Relinked.trans)
    (fun _ _ _ _ hstep ↦ addInput_relinked hstep) hinputs
  have h₂ := Lib.foldlM_preserves Relinked Relinked.refl (fun _ _ _ ↦ Relinked.trans)
    (fun _ _ _ _ hstep ↦ addOutput_relinked hstep) houtputs
  exact Relinked.trans h₁ h₂

/-- What new nodes and new rules keep holds of the graph of the makefile. -/
theorem processJson_keeps (hempty : I Graph.empty) (hpath : ∀ k path, I k → I (addPath A k path))
    (hrule : ∀ k inputs outputs command depfile k', I k →
      addRule A k inputs outputs command depfile = .ok k' → I k')
    (hnodes : ∀ k nodes, I k → I { k with nodes := nodes }) {graphFilePath : String}
    {rules : List JsonVal} (hrun : processJson A graphFilePath rules = .ok g) : I g := by
  obtain ⟨g₀, hloop, hpure⟩ := Lib.bind_eq_ok.mp hrun
  rw [← Except.ok.inj hpure]
  apply hnodes
  apply hpath
  refine Lib.foldlM_invariant I ?_ hloop hempty
  intro jsonRule _ k k' hstep hk
  obtain ⟨-, rfl⟩ | ⟨-, vin, vout, inputs, outputs, k₁, k₂, command, depfile, -, -, hinputs,
    houtputs, -, -, hadd⟩ := processRule_ok hstep
  · exact hk
  · have h₂ := checkNode_keeps hpath (checkNode_keeps hpath hk hinputs) houtputs
    exact hrule k₂ inputs outputs command depfile k' h₂ hadd

end Keeps

/-- What is known of a graph that the parser has accepted.  Paths are unique
among the nodes that are linked to a rule. -/
structure Accepted (g : Graph) : Prop where
  twoWay : g.links.TwoWay
  roots : ∀ n, n ∈ g.roots ↔ n ∈ g.allocated ∧ (g.node n).parentRules = []
  linked : ∀ n, ((g.node n).parentRules ≠ [] ∨ (g.node n).childRule ≠ none) → n ∈ g.allocated
  path_injective : ∀ m n, ((g.node m).parentRules ≠ [] ∨ (g.node m).childRule ≠ none) →
    ((g.node n).parentRules ≠ [] ∨ (g.node n).childRule ≠ none) →
    (g.node m).path = (g.node n).path → m = n

theorem processJson_accepted {A : Allocator} {graphFilePath : String} {rules : List JsonVal}
    {g : Graph} (hrun : processJson A graphFilePath rules = .ok g) : Accepted g := by
  obtain ⟨g₀, hloop, hpure⟩ := Lib.bind_eq_ok.mp hrun
  have h₀ : Parsed g₀ := Lib.foldlM_invariant Parsed
    (fun v _ k k' hstep hk ↦ hk.processRule hstep) hloop parsed_empty
  rw [← Except.ok.inj hpure]
  have hfree := A.newNode_fresh g₀.allocated
  have hL := h₀.twoWay_addPath (A := A) graphFilePath
  have hself : (addPath A g₀ graphFilePath).node (A.newNode g₀.allocated) =
      Node.create graphFilePath true (A.uninitialised g₀.allocated) := by
    change (g₀.setNode _ _).node _ = _
    rw [Graph.setNode_node, if_pos rfl]
  have hother : ∀ n, n ≠ A.newNode g₀.allocated →
      (addPath A g₀ graphFilePath).node n = g₀.node n := by
    intro n hn
    change (g₀.setNode _ _).node n = _
    rw [Graph.setNode_node, if_neg hn]
  -- The node of the makefile has no links.
  have hlinked : ∀ n, (((addPath A g₀ graphFilePath).node n).parentRules ≠ [] ∨
      ((addPath A g₀ graphFilePath).node n).childRule ≠ none) →
      n ∈ g₀.allocated ∧ (addPath A g₀ graphFilePath).node n = g₀.node n := by
    intro n hn
    have hne : n ≠ A.newNode g₀.allocated := by
      rintro rfl
      rw [hself] at hn
      simp [Node.create] at hn
    rw [hother n hne] at hn ⊢
    refine ⟨?_, rfl⟩
    by_contra hfree
    rcases hn with hn | hn
    · exact hn (List.eq_nil_iff_forall_not_mem.mpr (h₀.parentRules_of_free hfree))
    · exact hn (h₀.childRule_of_free hfree)
  refine ⟨⟨hL.mem_parents, hL.child_eq_some, hL.parents_nodup, hL.inputs_nodup,
    hL.outputs_nodup⟩, ?_, ?_, ?_⟩
  · intro n
    change n ∈ insert _ g₀.roots ↔ n ∈ insert _ g₀.allocated ∧
      ((addPath A g₀ graphFilePath).node n).parentRules = []
    by_cases hn : n = A.newNode g₀.allocated
    · subst hn
      simp [hself, Node.create]
    · rw [hother n hn, Finset.mem_insert, Finset.mem_insert, h₀.roots]
      tauto
  · exact fun n hn ↦ Finset.mem_insert_of_mem (hlinked n hn).1
  · intro m n hm hn heq
    obtain ⟨hm', hmeq⟩ := hlinked m hm
    obtain ⟨hn', hneq⟩ := hlinked n hn
    change ((addPath A g₀ graphFilePath).node m).path =
      ((addPath A g₀ graphFilePath).node n).path at heq
    rw [hmeq, hneq] at heq
    exact h₀.path_injective hm' hn' heq

end GraphParser

end Falcon
