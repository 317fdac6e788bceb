import Falcon.Parser.Cycle
import Falcon.Parser.Loaded

/-!
# The nodes of the listed paths

Every entry of the makefile with inputs or outputs gives one rule, and the rule
is linked to the nodes of the paths that the entry lists.  The node that the map
holds for the path of the makefile is made last, and no rule is linked to it.
-/

namespace Falcon

namespace JsonVal

def string? : JsonVal → Option String
  | .string data => some data
  | _ => none

def isString (v : JsonVal) : Bool := v.string?.isSome

/-- The paths in a field. -/
def listed (name : String) (v : JsonVal) : List String :=
  ((v.getObject name).elim [] elements).filterMap string?

end JsonVal

namespace GraphParser

open JsonVal

/-- The nodes of a list are those of the given paths. -/
structure Names (g : Graph) (paths : List String) (l : List NodeId) : Prop where
  node : ∀ n ∈ l, n ∈ g.allocated ∧ (g.node n).path ∈ paths
  path : ∀ path ∈ paths, ∃ n ∈ l, (g.node n).path = path

/-- What exists is left as it is, but for the links of the nodes. -/
structure Grows (g g' : Graph) : Prop where
  allocated : g.allocated ⊆ g'.allocated
  path : ∀ n ∈ g.allocated, (g'.node n).path = (g.node n).path
  rules : g.rules ⊆ g'.rules
  inputs : ∀ r ∈ g.rules, (g'.rule r).inputs = (g.rule r).inputs
  outputs : ∀ r ∈ g.rules, (g'.rule r).outputs = (g.rule r).outputs

theorem Grows.refl (g : Graph) : Grows g g :=
  ⟨Finset.Subset.refl _, fun _ _ ↦ rfl, List.Subset.refl _, fun _ _ ↦ rfl, fun _ _ ↦ rfl⟩

theorem Grows.trans {g g' g'' : Graph} (h : Grows g g') (h' : Grows g' g'') : Grows g g'' where
  allocated := Finset.Subset.trans h.allocated h'.allocated
  path n hn := (h'.path n (h.allocated hn)).trans (h.path n hn)
  rules := List.Subset.trans h.rules h'.rules
  inputs r hr := (h'.inputs r (h.rules hr)).trans (h.inputs r hr)
  outputs r hr := (h'.outputs r (h.rules hr)).trans (h.outputs r hr)

theorem Names.grows {g g' : Graph} {paths : List String} {l : List NodeId} (h : Names g paths l)
    (hg : Grows g g') : Names g' paths l where
  node n hn := by
    obtain ⟨ha, hpath⟩ := h.node n hn
    rw [hg.path n ha]
    exact ⟨hg.allocated ha, hpath⟩
  path path hpath := by
    obtain ⟨n, hn, heq⟩ := h.path path hpath
    exact ⟨n, hn, (hg.path n (h.node n hn).1).trans heq⟩

theorem grows_addPath (A : Allocator) (g : Graph) (path : String) : Grows g (addPath A g path) where
  allocated := Finset.subset_insert _ _
  path n hn := by
    change ((g.setNode _ _).node n).path = _
    rw [Graph.setNode_node, if_neg]
    rintro rfl
    exact A.newNode_fresh _ hn
  rules := List.Subset.refl _
  inputs _ _ := rfl
  outputs _ _ := rfl

theorem grows_generateMandatoryNodes (A : Allocator) (g : Graph) (graphFilePath : String) :
    Grows g (generateMandatoryNodes A graphFilePath g) := by
  obtain ⟨hallocated, hpath, hrules, hinputs, houtputs⟩ := grows_addPath A g graphFilePath
  exact ⟨hallocated, hpath, hrules, hinputs, houtputs⟩

theorem addPath_self (A : Allocator) (g : Graph) (path : String) :
    (addPath A g path).node (A.newNode g.allocated) =
      Node.create path true (A.uninitialised g.allocated) := by
  change (g.setNode _ _).node _ = _
  rw [Graph.setNode_node, if_pos rfl]

theorem addPath_of_ne (A : Allocator) (g : Graph) (path : String) {n : NodeId}
    (hn : n ≠ A.newNode g.allocated) : (addPath A g path).node n = g.node n := by
  change (g.setNode _ _).node n = _
  rw [Graph.setNode_node, if_neg hn]

/-! ## One entry -/

/-- A list of paths is read to its end unless something else stands in it. -/
theorem checkPaths_cases (A : Allocator) (l : List JsonVal) (s : Finset NodeId × Graph) :
    l.all isString = true ∧ (∃ s', l.foldlM (checkPath A) s = .ok s') ∨
      l.all isString = false ∧ l.foldlM (checkPath A) s =
        .error (.exception "invalid JSON entry: expect a STRING") := by
  induction l generalizing s with
  | nil => exact Or.inl ⟨rfl, s, rfl⟩
  | cons v l ih =>
      rw [List.foldlM_cons]
      cases v with
      | string data =>
          obtain ⟨s₁, hstep⟩ : ∃ s₁, checkPath A s (.string data) = .ok s₁ := by
            rw [checkPath]
            split
            · exact ⟨_, rfl⟩
            · exact ⟨_, rfl⟩
          rw [hstep]
          exact ih s₁
      | object entries => exact Or.inr ⟨rfl, rfl⟩
      | array elements => exact Or.inr ⟨rfl, rfl⟩
      | literal data => exact Or.inr ⟨rfl, rfl⟩

theorem checkNode_cases (A : Allocator) (g : Graph) (v : JsonVal) :
    v.elements.all isString = true ∧ (∃ x, checkNode A g (some v) = .ok x) ∨
      v.elements.all isString = false ∧ checkNode A g (some v) =
        .error (.exception "invalid JSON entry: expect a STRING") := by
  rcases checkPaths_cases A v.elements (∅, g) with ⟨hall, s, hloop⟩ | ⟨hall, hloop⟩
  · exact Or.inl ⟨hall, _, by rw [checkNode, hloop]; rfl⟩
  · exact Or.inr ⟨hall, by rw [checkNode, hloop]; rfl⟩

/-- One more path and its node. -/
theorem Names.insert {g : Graph} {paths : List String} {nodeSet : Finset NodeId} {n : NodeId}
    (h : Names g paths (nodeSet.sort (· ≤ ·))) (hn : n ∈ g.allocated) :
    Names g (paths ++ [(g.node n).path]) ((insert n nodeSet).sort (· ≤ ·)) where
  node m hm := by
    rcases Finset.mem_insert.mp ((Finset.mem_sort _).mp hm) with rfl | hm
    · exact ⟨hn, by simp⟩
    · obtain ⟨ha, hpath⟩ := h.node m ((Finset.mem_sort _).mpr hm)
      exact ⟨ha, List.mem_append_left _ hpath⟩
  path path hmem := by
    rcases List.mem_append.mp hmem with hmem | hmem
    · obtain ⟨m, hm, heq⟩ := h.path path hmem
      refine ⟨m, (Finset.mem_sort _).mpr ?_, heq⟩
      exact Finset.mem_insert_of_mem ((Finset.mem_sort _).mp hm)
    · exact ⟨n, by simp, (List.mem_singleton.mp hmem).symm⟩

/-- `checkNode` returns the nodes of the paths it has read. -/
theorem checkNode_names {A : Allocator} {g g' : Graph} {v : JsonVal} {l : List NodeId}
    (h : Parsed g) (hrun : checkNode A g (some v) = .ok (l, g')) :
    Grows g g' ∧ g'.rules = g.rules ∧ Names g' (v.elements.filterMap string?) l := by
  obtain ⟨⟨nodeSet, g₁⟩, hloop, hpure⟩ := Lib.bind_eq_ok.mp hrun
  obtain ⟨rfl, rfl⟩ := Prod.mk.inj (Except.ok.inj hpure)
  have hinv : Parsed g₁ ∧ Grows g g₁ ∧ g₁.rules = g.rules ∧
      Names g₁ (v.elements.filterMap string?) (nodeSet.sort (· ≤ ·)) := by
    refine Lib.foldlM_prefix (fun pre (s : Finset NodeId × Graph) ↦
      Parsed s.2 ∧ Grows g s.2 ∧ s.2.rules = g.rules ∧
        Names s.2 (pre.filterMap string?) (s.1.sort (· ≤ ·)))
      ⟨h, Grows.refl g, rfl, by simp, by simp⟩ ?_ hloop
    rintro pre v - s s' - ⟨hp, hgrows, hrules, hnames⟩ hstep
    cases v with
    | string data =>
        have hlist : (pre ++ [JsonVal.string data]).filterMap string? =
            pre.filterMap string? ++ [data] := by
          simp [string?]
        rw [hlist]
        rw [checkPath] at hstep
        cases hl : s.2.nodes.lookup data with
        | some n =>
            simp only [hl, Lib.except_pure, Except.ok.injEq] at hstep
            subst hstep
            obtain ⟨ha, hpath⟩ := hp.nodes (data, n) (Lib.mem_of_lookup_eq_some hl)
            have hinsert := hnames.insert ha
            rw [hpath] at hinsert
            exact ⟨hp, hgrows, hrules, hinsert⟩
        | none =>
            simp only [hl, Lib.except_pure, Except.ok.injEq] at hstep
            subst hstep
            have hstep := grows_addPath A s.2 data
            have hinsert := (hnames.grows hstep).insert
              (n := A.newNode s.2.allocated) (Finset.mem_insert_self _ _)
            rw [addPath_self] at hinsert
            exact ⟨hp.addPath hl, hgrows.trans hstep, hrules, hinsert⟩
    | object entries => cases hstep
    | array l => cases hstep
    | literal data => cases hstep
  exact hinv.2

/-- The rule of an entry: its inputs and outputs are the nodes of the paths that
the entry lists. -/
structure Gives (g : Graph) (r : RuleId) (v : JsonVal) : Prop where
  inputs : Names g (v.listed "inputs") (g.rule r).inputs
  outputs : Names g (v.listed "outputs") (g.rule r).outputs

theorem Gives.grows {g g' : Graph} {r : RuleId} {v : JsonVal} (h : Gives g r v)
    (hg : Grows g g') (hr : r ∈ g.rules) : Gives g' r v where
  inputs := hg.inputs r hr ▸ h.inputs.grows hg
  outputs := hg.outputs r hr ▸ h.outputs.grows hg

theorem RuleAdded.grows {g g' : Graph} {r : RuleId} {ins outs : List NodeId}
    (h : RuleAdded g r ins outs g') : Grows g g' := by
  have hne : ∀ q ∈ g.rules, q ≠ r := fun q hq heq ↦ h.fresh (heq ▸ hq)
  refine ⟨h.allocated ▸ Finset.Subset.refl _, fun n _ ↦ h.path n, ?_, ?_, ?_⟩
  · rw [h.rules]
    exact List.subset_append_left _ _
  · intro q hq
    rw [h.inputs, if_neg (hne q hq)]
  · intro q hq
    rw [h.outputs, if_neg (hne q hq)]

/-- The rules of a graph, next to the entries that give them. -/
def Listed (g : Graph) (entries : List JsonVal) : Prop := List.Forall₂ (Gives g) g.rules entries

theorem Listed.grows {g g' : Graph} {entries : List JsonVal} (h : Listed g entries)
    (hg : Grows g g') : List.Forall₂ (Gives g') g.rules entries := by
  rw [Listed, List.forall₂_iff_zip] at h
  rw [List.forall₂_iff_zip]
  refine ⟨h.1, fun hmem ↦ ?_⟩
  exact (h.2 hmem).grows hg (List.of_mem_zip hmem).1

theorem Listed.entry {g : Graph} {entries : List JsonVal} (h : Listed g entries) {r : RuleId}
    (hr : r ∈ g.rules) : ∃ v ∈ entries, Gives g r v :=
  Lib.exists_of_forall₂ h hr

theorem Listed.rule {g : Graph} {entries : List JsonVal} (h : Listed g entries) {v : JsonVal}
    (hv : v ∈ entries) : ∃ r ∈ g.rules, Gives g r v :=
  Lib.exists_of_forall₂ h.flip hv

theorem Listed.processRule {A : Allocator} {g g' : Graph} {entries : List JsonVal} {v : JsonVal}
    (h : Listed g entries) (hp : Parsed g) (hrun : processRule A g v = .ok g') :
    Listed g' (entries ++ [v].filter isRule) := by
  obtain ⟨hv, rfl⟩ | ⟨hv, vin, vout, inputs, outputs, g₁, g₂, command, depfile, hin, hout, hcheck₁,
    hcheck₂, -, -, hrun⟩ := processRule_ok hrun
  · rw [List.filter_singleton, hv, Bool.cond_false, List.append_nil]
    exact h
  · obtain ⟨hp₁, -, hnd₁, -⟩ := checkNode_parsed hp hcheck₁
    obtain ⟨-, -, hnd₂, -⟩ := checkNode_parsed hp₁ hcheck₂
    obtain ⟨hgrows₁, hrules₁, hinputs⟩ := checkNode_names hp hcheck₁
    obtain ⟨hgrows₂, hrules₂, houtputs⟩ := checkNode_names hp₁ hcheck₂
    have hadd := addRule_spec hnd₁ hnd₂ hrun
    generalize A.newRule g₂.rules = r at hadd
    have hgrows := hadd.grows
    have hkept := h.grows (hgrows₁.trans (hgrows₂.trans hgrows))
    rw [List.filter_singleton, hv, Bool.cond_true, Listed, hadd.rules, hrules₂, hrules₁]
    refine List.rel_append hkept (List.Forall₂.cons ⟨?_, ?_⟩ List.Forall₂.nil)
    · rw [hadd.inputs, if_pos rfl, listed, hin]
      exact hinputs.grows (hgrows₂.trans hgrows)
    · rw [hadd.outputs, if_pos rfl, listed, hout]
      exact houtputs.grows hgrows

theorem processRules_listed {A : Allocator} {g : Graph} {rules : List JsonVal}
    (hrun : rules.foldlM (processRule A) Graph.empty = .ok g) :
    Parsed g ∧ Loaded g ∧ Listed g (rules.filter isRule) := by
  refine Lib.foldlM_prefix (fun pre g ↦ Parsed g ∧ Loaded g ∧ Listed g (pre.filter isRule))
    ⟨parsed_empty, loaded_empty, List.Forall₂.nil⟩ ?_ hrun
  rintro pre v - g g' - ⟨hp, hl, hlisted⟩ hstep
  rw [List.filter_append]
  exact ⟨hp.processRule hstep, hl.processRule hp hstep, hlisted.processRule hp hstep⟩

/-! ## The whole makefile -/

/-- A graph that is linked as the entries say, over all its node objects. -/
structure LinkedAs (g : Graph) (graphFilePath : String) (entries : List JsonVal) : Prop where
  parents : ∀ n ∈ g.allocated, ∀ r, (g.node n).parentRules.count r =
    if r ∈ g.rules ∧ n ∈ (g.rule r).inputs then 1 else 0
  child : ∀ n ∈ g.allocated, ∀ r,
    (g.node n).childRule = some r ↔ r ∈ g.rules ∧ n ∈ (g.rule r).outputs
  nodup : ∀ r ∈ g.rules, (g.rule r).inputs.Nodup ∧ (g.rule r).outputs.Nodup
  rules_nodup : g.rules.Nodup
  listed : Listed g entries
  -- The rules agree on the node of a path.
  node_unique : ∀ r ∈ g.rules, ∀ m, m ∈ (g.rule r).inputs ∨ m ∈ (g.rule r).outputs →
    ∀ q ∈ g.rules, ∀ n, n ∈ (g.rule q).inputs ∨ n ∈ (g.rule q).outputs →
      (g.node m).path = (g.node n).path → m = n
  roots : ∀ n, n ∈ g.roots ↔ n ∈ g.allocated ∧ (g.node n).parentRules = []
  sources : ∀ n, n ∈ g.sources ↔ n ∈ g.allocated ∧ (g.node n).childRule = none
  makefile : ∃ n, g.nodes.lookup graphFilePath = some n ∧ n ∈ g.roots ∧ n ∈ g.sources
  ready : ∀ r ∈ g.rules, (g.rule r).numInputsReady = (g.rule r).inputs.length ∧
    (g.rule r).numImplicitDeps = 0

theorem lookup_makefile (A : Allocator) (g : Graph) (graphFilePath : String) :
    (generateMandatoryNodes A graphFilePath g).nodes.lookup graphFilePath =
      some (A.newNode g.allocated) := by
  change (g.nodes.filter (fun e : String × NodeId ↦ decide (e.1 ≠ graphFilePath)) ++
    [_]).lookup graphFilePath = _
  refine Lib.lookup_snoc_eq_some_iff.mpr (Or.inr ⟨?_, rfl, rfl⟩)
  refine List.lookup_eq_none_iff.mpr fun e he ↦ ?_
  have hne : e.1 ≠ graphFilePath := by simpa using (List.mem_filter.mp he).2
  simpa using fun heq : graphFilePath = e.1 ↦ hne heq.symm

/-- A node of a rule has a link. -/
theorem linked_of_mem {g : Graph} (hL : g.links.TwoWay) {r : RuleId} (hr : r ∈ g.rules)
    {n : NodeId} (hn : n ∈ (g.rule r).inputs ∨ n ∈ (g.rule r).outputs) :
    (g.node n).parentRules ≠ [] ∨ (g.node n).childRule ≠ none := by
  refine hn.imp (fun hin ↦ ?_) fun hout ↦ ?_
  · exact List.ne_nil_of_mem ((hL.mem_parents n r).mpr ⟨hr, hin⟩)
  · exact Option.ne_none_iff_exists'.mpr ⟨r, (hL.child_eq_some n r).mpr ⟨hr, hout⟩⟩

theorem sources_iff (A : Allocator) (graphFilePath : String) {g : Graph} (hp : Parsed g)
    (n : NodeId) : n ∈ (generateMandatoryNodes A graphFilePath g).sources ↔
      n ∈ (generateMandatoryNodes A graphFilePath g).allocated ∧
        ((generateMandatoryNodes A graphFilePath g).node n).childRule = none := by
  have hself : (generateMandatoryNodes A graphFilePath g).node (A.newNode g.allocated) =
      Node.create graphFilePath true (A.uninitialised g.allocated) := addPath_self A g _
  change n ∈ insert _ g.sources ↔ n ∈ insert _ g.allocated ∧ _
  by_cases hn : n = A.newNode g.allocated
  · subst hn
    simp [hself, Node.create]
  · have hold : (generateMandatoryNodes A graphFilePath g).node n = g.node n :=
      addPath_of_ne A g _ hn
    rw [hold, Finset.mem_insert, Finset.mem_insert, hp.sources]
    tauto

/-- What `processJson` builds is linked as the entries say. -/
theorem processJson_linkedAs {A : Allocator} {graphFilePath : String} {rules : List JsonVal}
    {g : Graph} (hrun : processJson A graphFilePath rules = .ok g) :
    LinkedAs g graphFilePath (rules.filter isRule) := by
  have haccepted := processJson_accepted hrun
  have hpristine := processJson_pristine hrun
  obtain ⟨g₀, hloop, hpure⟩ := Lib.bind_eq_ok.mp hrun
  obtain ⟨hp, hl, hlisted⟩ := processRules_listed hloop
  obtain rfl := Except.ok.inj hpure
  have hL := haccepted.twoWay
  have hfree := A.newNode_fresh g₀.allocated
  have hgrows := grows_generateMandatoryNodes A g₀ graphFilePath
  refine ⟨?_, fun n _ r ↦ hL.child_eq_some n r, ?_, hp.rules_nodup, hlisted.grows hgrows, ?_,
    haccepted.roots, sources_iff A graphFilePath hp, ?_, fun r hr ↦ ⟨(hpristine.rule r hr).2, hp.explicit r⟩⟩
  · intro n _ r
    have hiff := hL.mem_parents n r
    split
    · rename_i hin
      exact List.count_eq_one_of_mem (hL.parents_nodup n) (hiff.mpr hin)
    · rename_i hin
      exact List.count_eq_zero.mpr fun hmem ↦ hin (hiff.mp hmem)
  · exact fun r hr ↦ ⟨hL.inputs_nodup r hr, hL.outputs_nodup r hr⟩
  · intro r hr m hm q hq n hn
    exact haccepted.path_injective m n (linked_of_mem hL hr hm) (linked_of_mem hL hq hn)
  · exact ⟨_, lookup_makefile A g₀ graphFilePath, Finset.mem_insert_self _ _,
      Finset.mem_insert_self _ _⟩

/-- A target that is made after the rule that uses it. -/
theorem processJson_linkedAs_chain :
    ∃ g, processJson bumpAllocator "falcon.json" [touchRule "b" "c", touchRule "a" "b"] = .ok g ∧
      LinkedAs g "falcon.json" [touchRule "b" "c", touchRule "a" "b"] := by
  have hok : (processJson bumpAllocator "falcon.json"
      [touchRule "b" "c", touchRule "a" "b"]).isOk = true := by
    decide +kernel
  cases hrun : processJson bumpAllocator "falcon.json" [touchRule "b" "c", touchRule "a" "b"] with
  | error f =>
      rw [hrun] at hok
      cases hok
  | ok g => exact ⟨g, rfl, processJson_linkedAs hrun⟩

/-! ## One node for a path -/

/-- A node that the graph can come to without the map. -/
def Used (g : Graph) (n : NodeId) : Prop :=
  (∃ r ∈ g.rules, n ∈ (g.rule r).inputs ∨ n ∈ (g.rule r).outputs) ∨ n ∈ g.roots ∨ n ∈ g.sources

/-- The map finds the nodes in use under their paths, and holds no others. -/
def OneNodePerPath (g : Graph) : Prop :=
  (∀ n, Used g n → g.nodes.lookup (g.node n).path = some n) ∧
    ∀ path n, g.nodes.lookup path = some n → Used g n

theorem lookup_other (A : Allocator) (g : Graph) {graphFilePath path : String}
    (hne : path ≠ graphFilePath) :
    (generateMandatoryNodes A graphFilePath g).nodes.lookup path = g.nodes.lookup path := by
  change (g.nodes.filter (fun e : String × NodeId ↦ decide (e.1 ≠ graphFilePath)) ++
    [_]).lookup path = _
  have hlast : [(graphFilePath, A.newNode g.allocated)].lookup path = none := by
    simp [List.lookup_cons, beq_false_of_ne hne]
  rw [List.lookup_append, hlast, Option.or_none]
  exact Lib.lookup_filter fun e he ↦ by simpa [he] using hne

/-- The map is exact just if no rule names the makefile. -/
theorem processJson_oneNodePerPath_iff {A : Allocator} {graphFilePath : String}
    {rules : List JsonVal} {g : Graph} (hrun : processJson A graphFilePath rules = .ok g) :
    OneNodePerPath g ↔ ∀ v ∈ rules, v.isRule = true →
      graphFilePath ∉ v.listed "inputs" ∧ graphFilePath ∉ v.listed "outputs" := by
  have haccepted := processJson_accepted hrun
  obtain ⟨g₀, hloop, hpure⟩ := Lib.bind_eq_ok.mp hrun
  obtain ⟨hp, hl, hlisted⟩ := processRules_listed hloop
  obtain rfl := Except.ok.inj hpure
  have hgrows := grows_generateMandatoryNodes A g₀ graphFilePath
  have hmakefile := lookup_makefile A g₀ graphFilePath
  have hold : ∀ n ∈ g₀.allocated, n ≠ A.newNode g₀.allocated := by
    rintro n hn rfl
    exact A.newNode_fresh _ hn
  constructor
  · intro hone v hv hrule
    have hlisted' := hlisted.grows hgrows
    obtain ⟨r, hr, hgives⟩ := Listed.rule hlisted' (List.mem_filter.mpr ⟨hv, hrule⟩)
    -- the rule still has the node that the map held before
    have hno : ∀ n, n ∈ (g₀.rule r).inputs ∨ n ∈ (g₀.rule r).outputs →
        ((generateMandatoryNodes A graphFilePath g₀).node n).path ≠ graphFilePath := by
      intro n hn heq
      have hlookup := hone.1 n (Or.inl ⟨r, hr, hn⟩)
      rw [heq, hmakefile] at hlookup
      exact hold n (hp.allocated r hr n hn) (Option.some.inj hlookup).symm
    constructor
    · intro hmem
      obtain ⟨n, hn, heq⟩ := hgives.inputs.path _ hmem
      exact hno n (Or.inl hn) heq
    · intro hmem
      obtain ⟨n, hn, heq⟩ := hgives.outputs.path _ hmem
      exact hno n (Or.inr hn) heq
  · intro hnot
    have hpath : ∀ n ∈ g₀.allocated, (g₀.node n).path ≠ graphFilePath := by
      intro n hn heq
      obtain ⟨r, hr, hmem⟩ := hl.linked n hn
      obtain ⟨v, hv, hgives⟩ := hlisted.entry hr
      obtain ⟨hin, hout⟩ := hnot v (List.mem_filter.mp hv).1 (List.mem_filter.mp hv).2
      rcases hmem with hmem | hmem
      · exact hin (heq ▸ (hgives.inputs.node n hmem).2)
      · exact hout (heq ▸ (hgives.outputs.node n hmem).2)
    have hmade : Used (generateMandatoryNodes A graphFilePath g₀) (A.newNode g₀.allocated) :=
      Or.inr (Or.inl (Finset.mem_insert_self _ _))
    refine ⟨fun n hn ↦ ?_, fun path n hlookup ↦ ?_⟩
    · have hmem : n ∈ insert (A.newNode g₀.allocated) g₀.allocated := by
        rcases hn with ⟨r, hr, hn⟩ | hn | hn
        · exact Finset.mem_insert_of_mem (hp.allocated r hr n hn)
        · exact ((haccepted.roots n).mp hn).1
        · exact ((sources_iff A graphFilePath hp n).mp hn).1
      rcases Finset.mem_insert.mp hmem with rfl | hmem
      · have hself : (generateMandatoryNodes A graphFilePath g₀).node (A.newNode g₀.allocated) =
            Node.create graphFilePath true (A.uninitialised g₀.allocated) := addPath_self A g₀ _
        rw [hself]
        exact hmakefile
      · rw [hgrows.path n hmem, lookup_other A g₀ (hpath n hmem)]
        exact hp.lookup n hmem
    · by_cases heq : path = graphFilePath
      · rw [heq, hmakefile] at hlookup
        exact Option.some.inj hlookup ▸ hmade
      · rw [lookup_other A g₀ heq] at hlookup
        have ha := (hp.nodes (path, n) (Lib.mem_of_lookup_eq_some hlookup)).1
        obtain ⟨r, hr, hmem⟩ := hl.linked n ha
        exact Or.inl ⟨r, hr, hmem⟩

theorem processJson_oneNodePerPath_chain :
    ∃ g, processJson bumpAllocator "falcon.json" [touchRule "b" "c", touchRule "a" "b"] = .ok g ∧
      OneNodePerPath g := by
  have hok : (processJson bumpAllocator "falcon.json"
      [touchRule "b" "c", touchRule "a" "b"]).isOk = true := by
    decide +kernel
  cases hrun : processJson bumpAllocator "falcon.json" [touchRule "b" "c", touchRule "a" "b"] with
  | error f =>
      rw [hrun] at hok
      cases hok
  | ok g =>
      refine ⟨g, rfl, (processJson_oneNodePerPath_iff hrun).mpr ?_⟩
      decide +kernel

/-- The makefile of a project that generates it has two nodes. -/
theorem not_oneNodePerPath_generated :
    ¬ ∀ (A : Allocator) (graphFilePath : String) (rules : List JsonVal) (g : Graph),
      processJson A graphFilePath rules = .ok g → OneNodePerPath g := by
  intro hclaim
  have hfacts : (processJson bumpAllocator "falcon.json"
      [touchRule "configure" "falcon.json"]).toOption.map (fun g ↦
        (g.rules, (g.rule 1).outputs, (g.node 2).path, g.nodes.lookup "falcon.json")) =
      some ([1], [2], "falcon.json", some 3) := by
    decide +kernel
  cases hrun : processJson bumpAllocator "falcon.json" [touchRule "configure" "falcon.json"] with
  | error f =>
      rw [hrun] at hfacts
      cases hfacts
  | ok g =>
      obtain ⟨hlookup, -⟩ := hclaim bumpAllocator "falcon.json" _ g hrun
      rw [hrun] at hfacts
      simp only [Except.toOption, Option.map_some, Option.some.injEq, Prod.mk.injEq] at hfacts
      obtain ⟨hrules, houtputs, hpath, hmap⟩ := hfacts
      have hused : Used g 2 := Or.inl ⟨1, by simp [hrules], Or.inr (by simp [houtputs])⟩
      have hmade := hlookup 2 hused
      rw [hpath, hmap] at hmade
      cases hmade

end GraphParser

end Falcon
