import Falcon.Graph.Installs
import Falcon.Graph.Scan

/-!
# The first load for a rule

A rule that has no implicit inputs yet loses nothing by a load: nodes are added
and the links of the rule change, and every node keeps what is known of it.
-/

namespace Falcon

namespace Graph

/-- From `g` to `g'` nodes and links of the rules `K` are only added, and what
is known of a node that has been hashed stays. -/
structure Kept (K : Set RuleId) (g g' : Graph) : Prop where
  rule : ∀ r ∈ K, g'.rule r = g.rule r
  allocated : g.allocated ⊆ g'.allocated
  path : ∀ n ∈ g.allocated, (g'.node n).path = (g.node n).path
  child : ∀ n ∈ g.allocated, (g'.node n).childRule = (g.node n).childRule
  time : ∀ n ∈ g.allocated, (g'.node n).timestamp = (g.node n).timestamp
  hash : ∀ n ∈ g.allocated, (g.node n).hash ≠ "" → (g'.node n).hash = (g.node n).hash
  ready : ∀ n ∈ g.allocated, (g.node n).hash ≠ "" → g'.inputReady n = g.inputReady n
  lookup : ∀ path n, g.nodes.lookup path = some n → g'.nodes.lookup path = some n

namespace Kept

variable {K K' : Set RuleId} {g g' g'' : Graph}

theorem refl (K : Set RuleId) (g : Graph) : Kept K g g :=
  ⟨fun _ _ ↦ rfl, Finset.Subset.refl _, fun _ _ ↦ rfl, fun _ _ ↦ rfl, fun _ _ ↦ rfl,
    fun _ _ _ ↦ rfl, fun _ _ _ ↦ rfl, fun _ _ hn ↦ hn⟩

theorem mono (h : Kept K g g') (hsub : K' ⊆ K) : Kept K' g g' :=
  { h with rule := fun r hr ↦ h.rule r (hsub hr) }

theorem trans (h : Kept K g g') (h' : Kept K g' g'') : Kept K g g'' where
  rule r hr := (h'.rule r hr).trans (h.rule r hr)
  allocated := h.allocated.trans h'.allocated
  path n hn := (h'.path n (h.allocated hn)).trans (h.path n hn)
  child n hn := (h'.child n (h.allocated hn)).trans (h.child n hn)
  time n hn := (h'.time n (h.allocated hn)).trans (h.time n hn)
  hash n hn hne := by
    have heq := h.hash n hn hne
    exact (h'.hash n (h.allocated hn) (heq ▸ hne)).trans heq
  ready n hn hne := by
    have heq := h.hash n hn hne
    exact (h'.ready n (h.allocated hn) (heq ▸ hne)).trans (h.ready n hn hne)
  lookup path n hn := h'.lookup path n (h.lookup path n hn)

/-- A rule outside of `K` changes. -/
theorem setRule (g : Graph) {r : RuleId} (x : Rule) (hr : r ∉ K) : Kept K g (g.setRule r x) :=
  { refl K g with
    rule := by
      intro q hq
      have hne : q ≠ r := fun heq ↦ hr (heq ▸ hq)
      rw [setRule_rule, if_neg hne] }

/-- A node changes that has not been hashed, or nothing changes that counts. -/
theorem setNode (g : Graph) {n : NodeId} {x : Node} (hpath : x.path = (g.node n).path)
    (hchild : x.childRule = (g.node n).childRule) (htime : x.timestamp = (g.node n).timestamp)
    (hhashed : (g.node n).hash ≠ "" → x.hash = (g.node n).hash ∧
      (x.isDirty = (g.node n).isDirty ∨ x.isSource = true)) : Kept K g (g.setNode n x) where
  rule _ _ := rfl
  allocated := Finset.Subset.refl _
  path m _ := proj_setNode Node.path hpath m
  child m _ := proj_setNode Node.childRule hchild m
  time m _ := proj_setNode Node.timestamp htime m
  hash m _ hne := by
    rw [setNode_node]
    split
    · rename_i heq
      subst heq
      exact (hhashed hne).1
    · rfl
  ready m _ hne := by
    have hsource : x.isSource = (g.node n).isSource := by
      rw [Node.isSource, Node.isSource, hchild]
    rw [inputReady, inputReady, setNode_node]
    split
    · rename_i heq
      subst heq
      rcases (hhashed hne).2 with hdirty | hs
      · rw [hdirty, hsource]
      · rw [← hsource, hs, Bool.true_or, Bool.true_or]
    · rfl
  lookup _ _ hn := hn

end Kept

end Graph

/-! ## A load for a rule without implicit inputs -/

namespace Depfile

open Graph

variable {ω : Type} {P : Platform ω} {w w' : ω} {g k k₁ g' : Graph} {r : RuleId}

/-- Nodes have been added to `g`, and the links of `r` have changed. -/
structure Grown (g : Graph) (r : RuleId) (k : Graph) : Prop where
  other : ∀ q, q ≠ r → k.rule q = g.rule q
  allocated : g.allocated ⊆ k.allocated
  old : ∀ n ∈ g.allocated, { k.node n with parentRules := [] } =
    { g.node n with parentRules := [] }
  new : ∀ n ∈ k.allocated, n ∉ g.allocated →
    (k.node n).isDirty = false ∧ (k.node n).timestamp = 0
  lookup : ∀ path n, g.nodes.lookup path = some n → k.nodes.lookup path = some n

theorem Grown.refl (g : Graph) (r : RuleId) : Grown g r g :=
  ⟨fun _ _ ↦ rfl, Finset.Subset.refl _, fun _ _ ↦ rfl, fun _ hn hnot ↦ absurd hn hnot,
    fun _ _ hn ↦ hn⟩

/-- What a node of `g` has besides its parents is as before. -/
theorem Grown.proj (h : Grown g r k) {β : Type*} (proj : Node → β)
    (hproj : ∀ x, proj { x with parentRules := [] } = proj x) {n : NodeId}
    (hn : n ∈ g.allocated) : proj (k.node n) = proj (g.node n) := by
  rw [← hproj (k.node n), h.old n hn, hproj]

theorem Grown.joins {dep : String} {t : NodeId} (h : Grown g r k) (hjoin : Joins P w k r dep t k₁)
    (numReady : ℕ) :
    Grown g r (k₁.setRule r { k₁.rule r with numInputsReady := numReady }) where
  other q hq := by
    rw [setRule_rule, if_neg hq, hjoin.rule_ne hq]
    exact h.other q hq
  allocated := h.allocated.trans hjoin.allocated_subset
  old n hn := by
    rw [← h.old n hn]
    exact hjoin.proj_node (fun x ↦ { x with parentRules := [] }) (fun _ _ ↦ rfl) (h.allocated hn)
  new n hn hnot := by
    by_cases hk : n ∈ k.allocated
    · obtain ⟨hdirty, htime⟩ := h.new n hk hnot
      exact ⟨(hjoin.proj_node Node.isDirty (fun _ _ ↦ rfl) hk).trans hdirty,
        (hjoin.proj_node Node.timestamp (fun _ _ ↦ rfl) hk).trans htime⟩
    · cases hjoin with
      | found hlookup hin => exact absurd (linkInput_frame.2.2 ▸ hn) hk
      | created hlookup ht =>
          have hnt : n = P.newNode k.allocated := by
            change n ∈ (linkInput (k.createNode P dep _ _) r t).allocated at hn
            rw [linkInput_frame.2.2] at hn
            exact (Finset.mem_insert.mp hn).resolve_right hk
          subst hnt
          refine ⟨(proj_linkInput Node.isDirty (fun _ _ ↦ rfl) _ _).trans ?_,
            (proj_linkInput Node.timestamp (fun _ _ ↦ rfl) _ _).trans ?_⟩
          · rw [createNode_self]
            rfl
          · rw [createNode_self]
            rfl
  lookup path n hn := hjoin.lookup_iff.mpr (Or.inl (h.lookup path n hn))

theorem addDependencies_grown {ins : List String} {before left : List NodeId} (h : Grown g r k)
    (hrun : addDependencies P w r ins (k, before) = .ok (g', left)) : Grown g r g' := by
  induction ins generalizing k before with
  | nil =>
      obtain ⟨rfl, -⟩ := Prod.mk.inj (Except.ok.inj hrun)
      exact h
  | cons dep ins ih =>
      rw [addDependencies] at hrun
      obtain ⟨⟨t, k₁⟩, hstep, hrest⟩ := Lib.bind_eq_ok.mp hrun
      refine ih ?_ hrest
      rcases setRuleDependency_joins hstep with ⟨-, -, rfl⟩ | ⟨k₂, numReady, hjoin, rfl⟩
      · exact h
      · exact h.joins hjoin numReady

variable (P) in
/-- The dependencies that the depfile of the rule lists, if it can be loaded. -/
def depfileNames (g : Graph) (w : ω) (r : RuleId) : Option (List String) :=
  match P.readFile w (g.rule r).depfile with
  | none => none
  | some content =>
    if content = "" then none
    else
      match P.parseDepfile content, (g.rule r).outputs.head? with
      | some (output, ins), some first => if output = (g.node first).path then some ins else none
      | _, _ => none

theorem addDependencies_none {ins : List String} {left : List NodeId}
    (hrun : addDependencies P w r ins (k, []) = .ok (g', left)) : left = [] := by
  induction ins generalizing k with
  | nil => exact (Prod.mk.inj (Except.ok.inj hrun)).2.symm
  | cons dep ins ih =>
      rw [addDependencies] at hrun
      obtain ⟨⟨t, k₁⟩, -, hrest⟩ := Lib.bind_eq_ok.mp hrun
      exact ih hrest

theorem implicitDeps_none {x : Rule} (h : x.numImplicitDeps = 0) : implicitDeps x = [] := by
  rw [implicitDeps, h, Nat.sub_zero, List.drop_length]

theorem detachImplicit_none (h : (g.rule r).numImplicitDeps = 0) : detachImplicit g r = .ok g := by
  have hrule : ∀ x : Rule, x.numImplicitDeps = 0 → { x with
      inputs := x.inputs.take (x.inputs.length - x.numImplicitDeps),
        numImplicitDeps := 0 } = x := by
    intro x hx
    rw [hx, Nat.sub_zero, List.take_length, ← hx]
  simp only [detachImplicit, implicitDeps_none h, List.reverse_nil, List.foldlM_nil,
    Lib.except_pure, Lib.except_ok_bind, updateRule, hrule _ h, setRule, Function.update_eq_self]

/-- A load that fails leaves the graph alone, and one that succeeds is the loop
over the dependencies. -/
theorem loadFromfile_none {loaded : Bool} (h : (g.rule r).numImplicitDeps = 0)
    (hrun : loadFromfile P w g r = .ok (loaded, g')) :
    (loaded = false ∧ g' = g ∧ depfileNames P g w r = none) ∨
      loaded = true ∧ ∃ ins, depfileNames P g w r = some ins ∧
        addDependencies P w r ins (g, []) = .ok (g', []) := by
  rw [depfileNames]
  obtain ⟨rfl, rfl, hempty⟩ | ⟨content, hread, hcontent, hload⟩ := loadFromfile_ok hrun
  · refine Or.inl ⟨rfl, rfl, ?_⟩
    cases hread : P.readFile w (g'.rule r).depfile with
    | none => rfl
    | some content =>
        rw [hread] at hempty
        exact if_pos hempty
  obtain ⟨k, hdetach, hcases⟩ := load_ok hload
  obtain rfl : g = k := Except.ok.inj ((detachImplicit_none h).symm.trans hdetach)
  simp only [hread, if_neg hcontent]
  rcases hcases with ⟨rfl, rfl, hother⟩ | ⟨rfl, first, ins, k, left, hfirst, hparse, hadd, hdrop⟩
  · refine Or.inl ⟨rfl, rfl, ?_⟩
    cases hparse : P.parseDepfile content with
    | none => rfl
    | some parsed =>
        cases hfirst : (g'.rule r).outputs.head? with
        | none => rfl
        | some first =>
            refine if_neg fun hpath ↦ hother first parsed.2 hfirst ?_
            rw [hparse, ← hpath]
  · rw [implicitDeps_none h, List.reverse_nil, List.dedup_nil] at hadd
    obtain rfl := addDependencies_none hadd
    obtain rfl : k = g' := Except.ok.inj hdrop
    refine Or.inr ⟨rfl, ins, ?_, hadd⟩
    simp only [hparse, hfirst, if_true]

/-- What the loop over the dependencies makes of a rule without implicit inputs. -/
structure Installed (P : Platform ω) (g : Graph) (r : RuleId) (ins : List String)
    (more : List NodeId) (g' : Graph) : Prop where
  grown : Grown g r g'
  loading : Loading g r [] g'
  relinks : Relinks P g g'
  adds : Adds g r more g'
  lookup : ins.map (fun dep ↦ g'.nodes.lookup dep) = more.map some

theorem addDependencies_installed (hdigest : ∀ data, P.digest data ≠ "") (hg : g.Tied)
    (hr : r ∈ g.rules) (hkeys : (g.nodes.map Prod.fst).Nodup)
    (hnone : (g.rule r).numImplicitDeps = 0) {ins : List String}
    (hrun : addDependencies P w r ins (g, []) = .ok (g', [])) :
    ∃ more, Installed P g r ins more g' := by
  have hdetach := detachImplicit_none hnone
  have hdeps := implicitDeps_none hnone
  have hreg : Registered g r := ⟨hkeys, by simp [hdeps]⟩
  obtain ⟨more, hall⟩ := addDependencies_adds hdigest (.start hg hr hreg hdetach) hrun
  have hadds := hall.adds
  rw [List.nil_append] at hadds
  have hstart := (loading_detach hg.toJoined hr hdetach).1
  simp only [hdeps, List.reverse_nil, List.dedup_nil] at hstart
  have hadding : Adding g r [] g :=
    ⟨hstart, Finset.Subset.refl _, fun _ _ hn ↦ hn, fun _ _ hn ↦ Or.inl hn⟩
  exact ⟨more, addDependencies_grown (.refl g r) hrun,
    (addDependencies_spec hg.toJoined hr hadding hrun).adding.toLoading,
    (addDependencies_relinks hg.wired hr (by simp) hrun).1, hadds, hall.lookup⟩

namespace Installed

variable {ins : List String} {more : List NodeId} (h : Installed P g r ins more g')
include h

theorem inputs : (g'.rule r).inputs =
    Hash.explicitInputs (g.rule r) ++ newImplicit (g.rule r) more := h.adds.inputs

theorem lookup_old {dep : String} {n : NodeId} (hn : g.nodes.lookup dep = some n) :
    g'.nodes.lookup dep = some n :=
  h.grown.lookup dep n hn

theorem isDirty_rule (q : RuleId) : (g'.rule q).isDirty = (g.rule q).isDirty := by
  by_cases hq : q = r
  · obtain ⟨implicit, numReady, hself⟩ := h.loading.self
    rw [hq, hself]
    rfl
  · rw [h.grown.other q hq]

theorem kept {K : Set RuleId} (hr : r ∉ K) : Kept K g g' where
  rule q hq := h.grown.other q fun heq ↦ hr (heq ▸ hq)
  allocated := h.grown.allocated
  path _ hn := h.grown.proj Node.path (fun _ ↦ rfl) hn
  child _ hn := h.grown.proj Node.childRule (fun _ ↦ rfl) hn
  time _ hn := h.grown.proj Node.timestamp (fun _ ↦ rfl) hn
  hash _ hn _ := h.grown.proj Node.hash (fun _ ↦ rfl) hn
  ready n hn _ := by
    rw [inputReady, inputReady, h.grown.proj Node.isSource (fun _ ↦ rfl) hn,
      h.grown.proj Node.isDirty (fun _ ↦ rfl) hn]
  lookup := h.grown.lookup

/-- A node that the load has looked up is the node of a path in the depfile. -/
theorem name_of_mem {n : NodeId} (hn : n ∈ more) :
    ∃ dep ∈ ins, g'.nodes.lookup dep = some n := by
  have hmem : some n ∈ ins.map fun dep ↦ g'.nodes.lookup dep := by
    rw [h.lookup]
    exact List.mem_map_of_mem hn
  exact List.mem_map.mp hmem

theorem mem_of_name {dep : String} (hdep : dep ∈ ins) :
    ∃ n ∈ more, g'.nodes.lookup dep = some n := by
  have hmem : g'.nodes.lookup dep ∈ more.map some := by
    rw [← h.lookup]
    exact List.mem_map_of_mem hdep
  obtain ⟨n, hn, hlookup⟩ := List.mem_map.mp hmem
  exact ⟨n, hn, hlookup.symm⟩

/-- Where a path leads after the load, it has led before, or there is a new node. -/
theorem old_or_new (hg : g.Tied) (hkeys : (g.nodes.map Prod.fst).Nodup) {dep : String} {n : NodeId}
    (hlookup : g'.nodes.lookup dep = some n) :
    (g.nodes.lookup dep = some n ∧ n ∈ g.allocated) ∨
      (g.nodes.lookup dep = none ∧ n ∉ g.allocated) := by
  have he := (Lib.lookup_eq_some_iff_mem h.adds.keys).mp hlookup
  rcases h.adds.new _ he with hold | hnew
  · exact Or.inl ⟨(Lib.lookup_eq_some_iff_mem hkeys).mpr hold, (hg.nodes _ hold).1⟩
  · refine Or.inr ⟨?_, hnew⟩
    cases hsome : g.nodes.lookup dep with
    | none => rfl
    | some n' =>
        obtain rfl : n' = n := Option.some.inj ((h.lookup_old hsome).symm.trans hlookup)
        exact absurd (hg.nodes _ ((Lib.lookup_eq_some_iff_mem hkeys).mp hsome)).1 hnew

/-- The nodes that have been there before and that the depfile names. -/
theorem mem_iff_named (hg : g.Tied) (hkeys : (g.nodes.map Prod.fst).Nodup) {n : NodeId}
    (hn : n ∈ g.allocated) : n ∈ more ↔ ∃ dep ∈ ins, g.nodes.lookup dep = some n := by
  constructor
  · intro hmore
    obtain ⟨dep, hdep, hlookup⟩ := h.name_of_mem hmore
    rcases h.old_or_new hg hkeys hlookup with ⟨hold, -⟩ | ⟨-, hnew⟩
    · exact ⟨dep, hdep, hold⟩
    · exact absurd hn hnew
  · rintro ⟨dep, hdep, hlookup⟩
    obtain ⟨n', hn', hlookup'⟩ := h.mem_of_name hdep
    obtain rfl : n = n' := Option.some.inj ((h.lookup_old hlookup).symm.trans hlookup')
    exact hn'

end Installed

end Depfile

namespace GraphDependencyScan

open Graph Depfile

variable {ω : Type} {P : Platform ω} {w w' : ω} {g g' : Graph} {r : RuleId}

variable (P) in
/-- The dependencies that `ruleLoadDepfile` finds: those of the depfile on disk,
or else those of the one in the cache. -/
def loadedNames (g : Graph) (w : ω) (r : RuleId) : Option (List String) :=
  match depfileNames P g w r with
  | some ins => some ins
  | none =>
    match P.restoreDepfile g r w with
    | .ok (true, w) => depfileNames P g w r
    | _ => none

theorem ruleLoadDepfile_none {loaded : Bool} (h : (g.rule r).numImplicitDeps = 0)
    (hrun : ruleLoadDepfile P g w r = .ok (loaded, g', w')) :
    (loaded = false ∧ g' = g) ∨ loaded = true ∧ ∃ ins v, loadedNames P g w r = some ins ∧
      addDependencies P v r ins (g, []) = .ok (g', []) := by
  obtain ⟨⟨loaded₁, g₁⟩, hload, hrest⟩ := Lib.bind_eq_ok.mp hrun
  rw [loadedNames]
  rcases loadFromfile_none h hload with ⟨rfl, rfl, hnames⟩ | ⟨rfl, ins, hnames, hadd⟩
  · simp only [Bool.false_eq_true, if_false] at hrest
    obtain ⟨⟨restored, w₁⟩, hrestore, hrest⟩ := Lib.bind_eq_ok.mp hrest
    cases restored with
    | false =>
        obtain ⟨rfl, hpair⟩ := Prod.mk.inj (Except.ok.inj hrest)
        exact Or.inl ⟨rfl, (Prod.mk.inj hpair).1.symm⟩
    | true =>
        simp only [Bool.not_true, Bool.false_eq_true, if_false] at hrest
        obtain ⟨⟨loaded₂, g₂⟩, hload₂, hpure⟩ := Lib.bind_eq_ok.mp hrest
        obtain ⟨rfl, hpair⟩ := Prod.mk.inj (Except.ok.inj hpure)
        obtain ⟨rfl, -⟩ := Prod.mk.inj hpair
        simp only [hnames, hrestore]
        rcases loadFromfile_none h hload₂ with ⟨rfl, rfl, -⟩ | ⟨rfl, ins, hnames₂, hadd⟩
        · exact Or.inl ⟨rfl, rfl⟩
        · exact Or.inr ⟨rfl, ins, w₁, hnames₂, hadd⟩
  · simp only [if_true] at hrest
    obtain ⟨rfl, hpair⟩ := Prod.mk.inj (Except.ok.inj hrest)
    obtain ⟨rfl, -⟩ := Prod.mk.inj hpair
    exact Or.inr ⟨rfl, ins, w, by rw [hnames], hadd⟩

end GraphDependencyScan

end Falcon
