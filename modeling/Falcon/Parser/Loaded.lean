import Falcon.Graph.Stale
import Falcon.Parser.WellFormed

/-!
# What the parser leaves to do

A graph that has just been read has no hashes and no marks, and every node but
that of the makefile belongs to a rule.
-/

namespace Falcon

namespace GraphParser

open GraphDependencyScan

/-- What the parser leaves for the scan to do, in the state between two rules. -/
structure Loaded (g : Graph) : Prop extends Pristine g where
  keys : (g.nodes.map Prod.fst).Nodup
  linked : ∀ n ∈ g.allocated, ∃ r ∈ g.rules, n ∈ (g.rule r).inputs ∨ n ∈ (g.rule r).outputs

theorem loaded_empty : Loaded Graph.empty where
  node := by simp [Graph.empty, Node.create, Node.isDirty]
  rule := by simp [Graph.empty]
  keys := by simp [Graph.empty]
  linked := by simp [Graph.empty]

theorem keys_addPath {A : Allocator} {g : Graph} {path : String}
    (h : (g.nodes.map Prod.fst).Nodup) (hnew : g.nodes.lookup path = none) :
    ((addPath A g path).nodes.map Prod.fst).Nodup := by
  change ((g.nodes ++ [(path, A.newNode g.allocated)]).map Prod.fst).Nodup
  rw [List.map_append, List.nodup_append]
  refine ⟨h, List.nodup_singleton path, ?_⟩
  rintro a ha b hb rfl
  obtain ⟨e, he, rfl⟩ := List.mem_map.mp ha
  have hpath : e.1 = path := List.mem_singleton.mp hb
  have hno := List.lookup_eq_none_iff.mp hnew e he
  simp [hpath] at hno

theorem node_addPath {A : Allocator} {g : Graph} (path : String)
    (h : ∀ n, (g.node n).isDirty = false ∧ (g.node n).hash = "") (n : NodeId) :
    ((addPath A g path).node n).isDirty = false ∧ ((addPath A g path).node n).hash = "" := by
  change ((g.setNode _ _).node n).isDirty = false ∧ ((g.setNode _ _).node n).hash = ""
  rw [Graph.setNode_node]
  split
  · exact ⟨rfl, rfl⟩
  · exact h n

/-- `checkNode` makes nodes for the paths it returns, and nothing else. -/
theorem checkNode_loaded {A : Allocator} {g g' : Graph} {json : Option JsonVal} {l : List NodeId}
    (hnode : ∀ n, (g.node n).isDirty = false ∧ (g.node n).hash = "")
    (hkeys : (g.nodes.map Prod.fst).Nodup) (hrun : checkNode A g json = .ok (l, g')) :
    (∀ n, (g'.node n).isDirty = false ∧ (g'.node n).hash = "") ∧
      (g'.nodes.map Prod.fst).Nodup ∧ g'.rule = g.rule ∧ g'.rules = g.rules ∧
      ∀ n ∈ g'.allocated, n ∈ g.allocated ∨ n ∈ l := by
  cases json with
  | none => cases hrun
  | some v =>
      obtain ⟨⟨set, g₁⟩, hloop, hpure⟩ := Lib.bind_eq_ok.mp hrun
      simp only [Lib.except_pure, Except.ok.injEq, Prod.mk.injEq] at hpure
      obtain ⟨rfl, rfl⟩ := hpure
      simp only [Finset.mem_sort]
      refine Lib.foldlM_invariant (fun s : Finset NodeId × Graph ↦
        (∀ n, (s.2.node n).isDirty = false ∧ (s.2.node n).hash = "") ∧
        (s.2.nodes.map Prod.fst).Nodup ∧ s.2.rule = g.rule ∧ s.2.rules = g.rules ∧
        ∀ n ∈ s.2.allocated, n ∈ g.allocated ∨ n ∈ s.1) ?_ hloop
        ⟨hnode, hkeys, rfl, rfl, fun n hn ↦ Or.inl hn⟩
      intro v _ s s' hstep ⟨hn, hk, hrule, hrules, hall⟩
      cases v with
      | string data =>
          rw [checkPath] at hstep
          cases hl : s.2.nodes.lookup data with
          | some n =>
              simp only [hl, Lib.except_pure, Except.ok.injEq] at hstep
              subst hstep
              refine ⟨hn, hk, hrule, hrules, fun m hm ↦ ?_⟩
              exact (hall m hm).imp_right (Finset.mem_insert_of_mem ·)
          | none =>
              simp only [hl, Lib.except_pure, Except.ok.injEq] at hstep
              subst hstep
              refine ⟨node_addPath data hn, keys_addPath hk hl, hrule, hrules, fun m hm ↦ ?_⟩
              rcases Finset.mem_insert.mp hm with rfl | hm
              · exact Or.inr (Finset.mem_insert_self _ _)
              · exact (hall m hm).imp_right (Finset.mem_insert_of_mem ·)
      | object entries => cases hstep
      | array l => cases hstep
      | literal data => cases hstep

theorem addRule_pristine {A : Allocator} {g g' : Graph} {inputs outputs : List NodeId}
    {command depfile : String} (hg : Pristine g) (hin : inputs.Nodup) (hout : outputs.Nodup)
    (hrun : addRule A g inputs outputs command depfile = .ok g') : Pristine g' := by
  have hmade := addRule_made hin hout hrun
  refine ⟨fun n ↦ ?_, fun q hq ↦ ?_⟩
  · rw [hmade.node]
    exact hg.node n
  · rw [hmade.rule]
    split
    · exact ⟨rfl, rfl⟩
    · rename_i hne
      have hmem : q ∈ g.rules := by
        rw [hmade.rules] at hq
        simpa [hne] using hq
      exact hg.rule q hmem

theorem Loaded.processRule {A : Allocator} {g g' : Graph} {jsonRule : JsonVal} (h : Loaded g)
    (hp : Parsed g) (hrun : processRule A g jsonRule = .ok g') : Loaded g' := by
  obtain ⟨-, rfl⟩ | ⟨-, vin, vout, inputs, outputs, g₁, g₂, command, depfile, -, -, hcheck₁,
    hcheck₂, -, -, hrun⟩ := processRule_ok hrun
  · exact h
  · obtain ⟨hp₁, -, hnd₁, -⟩ := checkNode_parsed hp hcheck₁
    obtain ⟨-, -, hnd₂, -⟩ := checkNode_parsed hp₁ hcheck₂
    obtain ⟨hn₁, hk₁, hrule₁, hrules₁, hall₁⟩ := checkNode_loaded h.node h.keys hcheck₁
    obtain ⟨hn₂, hk₂, hrule₂, hrules₂, hall₂⟩ := checkNode_loaded hn₁ hk₁ hcheck₂
    have hadd := addRule_spec hnd₁ hnd₂ hrun
    have hpristine : Pristine g₂ := by
      refine ⟨hn₂, ?_⟩
      rw [hrule₂, hrule₁, hrules₂, hrules₁]
      exact h.rule
    refine ⟨addRule_pristine hpristine hnd₁ hnd₂ hrun, ?_, fun n hn ↦ ?_⟩
    · rw [hadd.nodes]
      exact hk₂
    · rw [hadd.allocated] at hn
      simp only [hadd.rules, hadd.inputs, hadd.outputs]
      have hnew : A.newRule g₂.rules ∈ g₂.rules ++ [A.newRule g₂.rules] := by simp
      rcases hall₂ n hn with hn | hn
      · rcases hall₁ n hn with hn | hn
        · obtain ⟨r, hr, hmem⟩ := h.linked n hn
          have hr₂ : r ∈ g₂.rules := by rw [hrules₂, hrules₁]; exact hr
          have hne : r ≠ A.newRule g₂.rules := fun heq ↦ hadd.fresh (heq ▸ hr₂)
          refine ⟨r, List.mem_append_left _ hr₂, ?_⟩
          rw [if_neg hne, if_neg hne, hrule₂, hrule₁]
          exact hmem
        · exact ⟨_, hnew, Or.inl (by simpa using hn)⟩
      · exact ⟨_, hnew, Or.inr (by simpa using hn)⟩

theorem processJson_loop {A : Allocator} {graphFilePath : String} {rules : List JsonVal} {g : Graph}
    (hrun : processJson A graphFilePath rules = .ok g) :
    ∃ g₀, Parsed g₀ ∧ Loaded g₀ ∧ generateMandatoryNodes A graphFilePath g₀ = g := by
  obtain ⟨g₀, hloop, hpure⟩ := Lib.bind_eq_ok.mp hrun
  obtain ⟨hp, hl⟩ : Parsed g₀ ∧ Loaded g₀ := Lib.foldlM_invariant
    (fun k ↦ Parsed k ∧ Loaded k) (fun v _ k k' hstep hk ↦
      ⟨hk.1.processRule hstep, hk.2.processRule hk.1 hstep⟩) hloop ⟨parsed_empty, loaded_empty⟩
  exact ⟨g₀, hp, hl, Except.ok.inj hpure⟩

/-- The node of the makefile is as new as the others. -/
theorem processJson_pristine {A : Allocator} {graphFilePath : String} {rules : List JsonVal}
    {g : Graph} (hrun : processJson A graphFilePath rules = .ok g) : Pristine g := by
  obtain ⟨g₀, -, hl, rfl⟩ := processJson_loop hrun
  exact ⟨node_addPath graphFilePath hl.node, hl.rule⟩

/-- Where no rule names the makefile, its node is a node like any other. -/
theorem processJson_parsed {A : Allocator} {graphFilePath : String} {rules : List JsonVal}
    {g : Graph} (hrun : processJson A graphFilePath rules = .ok g)
    (hmakefile : ∀ r ∈ g.rules, ∀ n, n ∈ (g.rule r).inputs ∨ n ∈ (g.rule r).outputs →
      (g.node n).path ≠ graphFilePath) :
    Parsed g ∧ Pristine g ∧ (g.nodes.map Prod.fst).Nodup := by
  have hpristine := processJson_pristine hrun
  obtain ⟨g₀, hp, hl, rfl⟩ := processJson_loop hrun
  have hnew : g₀.nodes.lookup graphFilePath = none := by
    cases hlookup : g₀.nodes.lookup graphFilePath with
    | none => rfl
    | some n =>
        obtain ⟨hn, hpath⟩ := hp.nodes (graphFilePath, n) (Lib.mem_of_lookup_eq_some hlookup)
        obtain ⟨r, hr, hmem⟩ := hl.linked n hn
        have hne : n ≠ A.newNode g₀.allocated := fun heq ↦ A.newNode_fresh _ (heq ▸ hn)
        have hold : (generateMandatoryNodes A graphFilePath g₀).node n = g₀.node n := by
          change (g₀.setNode _ _).node n = _
          rw [Graph.setNode_node, if_neg hne]
        refine absurd ?_ (hmakefile r hr n hmem)
        rw [hold]
        exact hpath
  have hadd : generateMandatoryNodes A graphFilePath g₀ = addPath A g₀ graphFilePath := by
    have hkeep : g₀.nodes.filter (fun e ↦ decide (e.1 ≠ graphFilePath)) = g₀.nodes := by
      rw [List.filter_eq_self]
      intro e he
      have hno := List.lookup_eq_none_iff.mp hnew e he
      rw [decide_eq_true_eq]
      rintro rfl
      simp at hno
    rw [generateMandatoryNodes, assignNode, hkeep]
    rfl
  rw [hadd] at hpristine ⊢
  exact ⟨hp.addPath hnew, hpristine, keys_addPath hl.keys hnew⟩

end GraphParser

end Falcon
