import Mathlib.Data.List.Perm.Lattice
import Falcon.Daemon.Reloader
import Falcon.Daemon.Startup

/-!
# Reloading an unchanged makefile

Where the new graph has the explicit structure of the old one, the reloader
takes every rule apart and puts the same parts back, in another order at most.
The traversal of the old graph follows that of the new one node by node.
-/

namespace Falcon

/-- Two rules of two graphs that agree in all that a makefile says. -/
structure SameRule (g new : Graph) (r q : RuleId) : Prop where
  command : (g.rule r).command = (new.rule q).command
  depfile : (g.rule r).depfile = (new.rule q).depfile
  inputs : ∀ path, path ∈ (Hash.explicitInputs (g.rule r)).map (fun n ↦ (g.node n).path) ↔
    path ∈ (Hash.explicitInputs (new.rule q)).map fun n ↦ (new.node n).path
  outputs : ∀ path, path ∈ (g.rule r).outputs.map (fun n ↦ (g.node n).path) ↔
    path ∈ (new.rule q).outputs.map fun n ↦ (new.node n).path

/-- `g` has the explicit structure of `new`: the paths relate the nodes one to
one, but for those that only implicit inputs need, and the rules agree. -/
structure SameStructure (g new : Graph) : Prop where
  unique : ∀ m ∈ new.allocated, ∀ m' ∈ new.allocated,
    (new.node m).path = (new.node m').path → m = m'
  node : ∀ m ∈ new.allocated, ∃ n ∈ g.allocated, (g.node n).path = (new.node m).path
  new_node : ∀ n ∈ g.allocated, (∃ m ∈ new.allocated, (g.node n).path = (new.node m).path) ∨
    ∃ r ∈ g.rules, n ∈ Depfile.implicitDeps (g.rule r)
  rule : ∀ q ∈ new.rules, ∃ r ∈ g.rules, SameRule g new r q
  new_rule : ∀ r ∈ g.rules, ∃ q ∈ new.rules, SameRule g new r q
  roots : g.roots.image (fun n ↦ (g.node n).path) = new.roots.image fun m ↦ (new.node m).path

/-- `m` is an explicit input of the rule that generates `n`. -/
def Graph.ExplicitFeeds (g : Graph) (m n : NodeId) : Prop :=
  ∃ r, (g.node n).childRule = some r ∧ m ∈ Hash.explicitInputs (g.rule r)

/-- What a reload relies on in the graph of the daemon.  A target of the
makefile that is also an implicit input stays a root, and implicit inputs may
close cycles. -/
structure Graph.Reloadable (g : Graph) : Prop where
  twoWay : g.links.TwoWay
  acyclic : Lib.Acyclic g.ExplicitFeeds
  allocated : ∀ r ∈ g.rules, ∀ n, n ∈ (g.rule r).inputs ∨ n ∈ (g.rule r).outputs →
    n ∈ g.allocated
  lookup : ∀ n ∈ g.allocated, g.nodes.lookup (g.node n).path = some n
  nodes : ∀ e ∈ g.nodes, e.2 ∈ g.allocated ∧ (g.node e.2).path = e.1
  roots : g.roots ⊆ g.allocated
  sources : ∀ n, n ∈ g.sources ↔ n ∈ g.allocated ∧ (g.node n).childRule = none
  output : ∀ r ∈ g.rules, (g.rule r).outputs ≠ []
  implicit : ∀ r ∈ g.rules, (g.rule r).numImplicitDeps ≤ (g.rule r).inputs.length
  exact : g.Exact

/-- A rule after the reload: explicit inputs and outputs may be in another
order. -/
structure Rule.Kept (x y : Rule) : Prop where
  explicitInputs : (Hash.explicitInputs y).Perm (Hash.explicitInputs x)
  implicitDeps : Depfile.implicitDeps y = Depfile.implicitDeps x
  outputs : y.outputs.Perm x.outputs
  rest : y = { x with inputs := y.inputs, outputs := y.outputs }

theorem Graph.Consistent.reloadable {g : Graph} (hg : g.Consistent)
    (himplicit : ∀ r ∈ g.rules, (g.rule r).numImplicitDeps ≤ (g.rule r).inputs.length) :
    g.Reloadable where
  twoWay := hg.twoWay
  acyclic := hg.acyclic.mono fun _ _ ⟨r, hchild, hm⟩ ↦ ⟨r, hchild, List.mem_of_mem_take hm⟩
  allocated := hg.allocated
  lookup := hg.lookup
  nodes := hg.nodes
  roots n hn := ((hg.roots n).mp hn).1
  sources := hg.sources
  output := hg.output
  implicit := himplicit
  exact := hg.exact

theorem Rule.kept_refl (x : Rule) : x.Kept x := ⟨.refl _, rfl, .refl _, rfl⟩

theorem Hash.explicitInputs_append_implicitDeps (x : Rule) :
    Hash.explicitInputs x ++ Depfile.implicitDeps x = x.inputs :=
  List.take_append_drop _ _

theorem Rule.Kept.inputs {x y : Rule} (h : x.Kept y) : y.inputs.Perm x.inputs := by
  rw [← Hash.explicitInputs_append_implicitDeps x, ← Hash.explicitInputs_append_implicitDeps y,
    h.implicitDeps]
  exact h.explicitInputs.append_right _

namespace Graph.Reloadable

variable {g : Graph} (hg : g.Reloadable)
include hg

theorem path_injective {m n : NodeId} (hm : m ∈ g.allocated) (hn : n ∈ g.allocated)
    (heq : (g.node m).path = (g.node n).path) : m = n := by
  have hlookup := hg.lookup m hm
  rw [heq, hg.lookup n hn] at hlookup
  exact (Option.some.inj hlookup).symm

theorem mem_allocated_of_explicit {r : RuleId} (hr : r ∈ g.rules) {n : NodeId}
    (hn : n ∈ Hash.explicitInputs (g.rule r)) : n ∈ g.allocated :=
  hg.allocated r hr n (Or.inl (List.mem_of_mem_take hn))

theorem mem_allocated_of_implicit {r : RuleId} (hr : r ∈ g.rules) {n : NodeId}
    (hn : n ∈ Depfile.implicitDeps (g.rule r)) : n ∈ g.allocated :=
  hg.allocated r hr n (Or.inl (List.mem_of_mem_drop hn))

/-- The paths of a list of nodes that is linked to a rule are all different. -/
theorem nodup_paths {l : List NodeId} (hl : l.Nodup) (hmem : ∀ n ∈ l, n ∈ g.allocated) :
    (l.map fun n ↦ (g.node n).path).Nodup := by
  apply List.Nodup.map_on _ hl
  exact fun m hm n hn heq ↦ hg.path_injective (hmem m hm) (hmem n hn) heq

theorem assignKey_eq {n : NodeId} (hn : n ∈ g.allocated) :
    GraphReloader.assignKey g.nodes (g.node n).path n = g.nodes := by
  rw [GraphReloader.assignKey, hg.lookup n hn, Option.isSome_some, if_pos rfl]
  refine (List.map_congr_left fun e he ↦ ?_).trans (List.map_id _)
  change _ = e
  split
  · rename_i hpath
    obtain ⟨hmem, hself⟩ := hg.nodes e he
    rw [← hpath, ← hg.path_injective hmem hn (hself.trans hpath)]
  · rfl

end Graph.Reloadable

/-! ## Corresponding nodes -/

namespace GraphReloader

/-- `n` stands for the node `m` of the new graph. -/
structure Twin (g new : Graph) (n m : NodeId) : Prop where
  mem : n ∈ g.allocated
  new_mem : m ∈ new.allocated
  path : (g.node n).path = (new.node m).path

/-- What is used of the new graph, which has been parsed. -/
structure Fresh (new : Graph) : Prop where
  twoWay : new.links.TwoWay
  allocated : ∀ r ∈ new.rules, ∀ n, n ∈ (new.rule r).inputs ∨ n ∈ (new.rule r).outputs →
    n ∈ new.allocated
  roots : ∀ n, n ∈ new.roots ↔ n ∈ new.allocated ∧ (new.node n).parentRules = []
  explicit : ∀ r, (new.rule r).numImplicitDeps = 0

theorem fresh_of_processJson {A : Allocator} {graphFilePath : String} {rules : List JsonVal}
    {new : Graph} (hrun : GraphParser.processJson A graphFilePath rules = .ok new) :
    Fresh new := by
  have haccepted := GraphParser.processJson_accepted hrun
  refine ⟨haccepted.twoWay, fun r hr n hn ↦ ?_, haccepted.roots, ?_⟩
  · apply haccepted.linked n
    rcases hn with hn | hn
    · have hmem := (haccepted.twoWay.mem_parents n r).mpr ⟨hr, hn⟩
      exact Or.inl (List.ne_nil_of_mem hmem)
    · have hchild := (haccepted.twoWay.child_eq_some n r).mpr ⟨hr, hn⟩
      exact Or.inr fun hnone ↦ Option.some_ne_none r (hchild.symm.trans hnone)
  · obtain ⟨g₀, hloop, hpure⟩ := Lib.bind_eq_ok.mp hrun
    have h₀ : GraphParser.Parsed g₀ := Lib.foldlM_invariant GraphParser.Parsed
      (fun v _ k k' hstep hk ↦ hk.processRule hstep) hloop GraphParser.parsed_empty
    rw [← Except.ok.inj hpure]
    exact h₀.explicit

theorem Fresh.explicitInputs_eq {new : Graph} (hnew : Fresh new) (q : RuleId) :
    Hash.explicitInputs (new.rule q) = (new.rule q).inputs :=
  Hash.explicitInputs_none (hnew.explicit q)

section Twins

variable {g new : Graph} (hg : g.Reloadable) (hnew : Fresh new) (hsame : SameStructure g new)
include hg hnew hsame

omit hnew hsame in
theorem Twin.unique {n n' m : NodeId} (h : Twin g new n m) (h' : Twin g new n' m) : n = n' :=
  hg.path_injective h.mem h'.mem (h.path.trans h'.path.symm)

omit hg hnew in
theorem Twin.new_unique {n m m' : NodeId} (h : Twin g new n m) (h' : Twin g new n m') : m = m' :=
  hsame.unique m h.new_mem m' h'.new_mem (h.path.symm.trans h'.path)

/-- A twin of an output is an output of the twin rule. -/
theorem Twin.mem_outputs {n m : NodeId} {r q : RuleId} (h : Twin g new n m) (hr : r ∈ g.rules)
    (hq : q ∈ new.rules) (hrule : SameRule g new r q) :
    n ∈ (g.rule r).outputs ↔ m ∈ (new.rule q).outputs := by
  have hpath := hrule.outputs (g.node n).path
  constructor
  · intro hn
    obtain ⟨m', hm', heq⟩ := List.mem_map.mp (hpath.mp (List.mem_map_of_mem hn))
    have htwin : Twin g new n m' := ⟨h.mem, hnew.allocated q hq m' (Or.inr hm'), heq.symm⟩
    rwa [h.new_unique hsame htwin]
  · intro hm
    rw [h.path] at hpath
    obtain ⟨n', hn', heq⟩ := List.mem_map.mp (hpath.mpr (List.mem_map_of_mem hm))
    have htwin : Twin g new n' m := ⟨hg.allocated r hr n' (Or.inr hn'), h.new_mem, heq⟩
    rwa [h.unique hg htwin]

/-- A node and its twin are both source files, or generated by twin rules. -/
theorem Twin.child {n m : NodeId} (h : Twin g new n m) :
    ((g.node n).childRule = none ∧ (new.node m).childRule = none) ∨
      ∃ r q, (g.node n).childRule = some r ∧ (new.node m).childRule = some q ∧
        r ∈ g.rules ∧ q ∈ new.rules ∧ SameRule g new r q := by
  cases hn : (g.node n).childRule with
  | some r =>
      obtain ⟨hr, hout⟩ := (hg.twoWay.child_eq_some n r).mp hn
      obtain ⟨q, hq, hrule⟩ := hsame.new_rule r hr
      have hm := (h.mem_outputs hg hnew hsame hr hq hrule).mp hout
      exact Or.inr ⟨r, q, rfl, (hnew.twoWay.child_eq_some m q).mpr ⟨hq, hm⟩, hr, hq, hrule⟩
  | none =>
      cases hm : (new.node m).childRule with
      | none => exact Or.inl ⟨rfl, rfl⟩
      | some q =>
          obtain ⟨hq, hout⟩ := (hnew.twoWay.child_eq_some m q).mp hm
          obtain ⟨r, hr, hrule⟩ := hsame.rule q hq
          have hmem := (h.mem_outputs hg hnew hsame hr hq hrule).mpr hout
          have hchild := (hg.twoWay.child_eq_some n r).mpr ⟨hr, hmem⟩
          exact absurd (hchild.symm.trans hn) (Option.some_ne_none r)

/-- The new graph is acyclic because the old one is. -/
theorem new_acyclic : new.links.Acyclic := by
  have hfeeds : ∀ m m', new.links.Feeds m m' → ∀ n', Twin g new n' m' →
      ∃ n, Twin g new n m ∧ g.ExplicitFeeds n n' := by
    rintro m m' ⟨q, hchild, hm⟩ n' htwin
    rcases htwin.child hg hnew hsame with ⟨-, hnone⟩ | ⟨r, q', hr', hq', hr, hq, hrule⟩
    · exact absurd (hchild.symm.trans hnone) (Option.some_ne_none q)
    · obtain rfl : q = q' := Option.some.inj (hchild.symm.trans hq')
      have hpath := hrule.inputs (new.node m).path
      rw [hnew.explicitInputs_eq] at hpath
      obtain ⟨n, hn, heq⟩ := List.mem_map.mp (hpath.mpr (List.mem_map_of_mem hm))
      exact ⟨n, ⟨hg.mem_allocated_of_explicit hr hn, hnew.allocated q hq m (Or.inl hm), heq⟩,
        r, hr', hn⟩
  have hlift : ∀ m m', Relation.TransGen new.links.Feeds m m' → ∀ n', Twin g new n' m' →
      ∃ n, Twin g new n m ∧ Relation.TransGen g.ExplicitFeeds n n' := by
    intro m m' hpath
    induction hpath with
    | single hstep =>
        intro n' htwin
        obtain ⟨n, hn, hfeed⟩ := hfeeds _ _ hstep n' htwin
        exact ⟨n, hn, .single hfeed⟩
    | tail _ hstep ih =>
        intro n' htwin
        obtain ⟨k, hk, hfeed⟩ := hfeeds _ _ hstep n' htwin
        obtain ⟨n, hn, hpath⟩ := ih k hk
        exact ⟨n, hn, hpath.tail hfeed⟩
  intro m hcycle
  obtain ⟨q, hchild, -⟩ : ∃ q, new.links.child m = some q ∧ True := by
    obtain ⟨k, -, q, hchild, -⟩ := Relation.TransGen.tail'_iff.mp hcycle
    exact ⟨q, hchild, trivial⟩
  obtain ⟨hq, hout⟩ := (hnew.twoWay.child_eq_some m q).mp hchild
  obtain ⟨n, hn, hpath⟩ := hsame.node m (hnew.allocated q hq m (Or.inr hout))
  have htwin : Twin g new n m := ⟨hn, hnew.allocated q hq m (Or.inr hout), hpath⟩
  obtain ⟨n', htwin', hcycle'⟩ := hlift m m hcycle n htwin
  obtain rfl := htwin.unique hg htwin'
  exact hg.acyclic n hcycle'

/-- The paths of the inputs of twin rules are the same up to their order. -/
theorem inputs_paths_perm {r q : RuleId} (hr : r ∈ g.rules) (hq : q ∈ new.rules)
    (hrule : SameRule g new r q) :
    ((Hash.explicitInputs (g.rule r)).map fun n ↦ (g.node n).path).Perm
      ((new.rule q).inputs.map fun m ↦ (new.node m).path) := by
  have hnodup : ((new.rule q).inputs.map fun m ↦ (new.node m).path).Nodup := by
    apply List.Nodup.map_on _ (hnew.twoWay.inputs_nodup q hq)
    exact fun m hm m' hm' heq ↦ hsame.unique m (hnew.allocated q hq m (Or.inl hm)) m'
      (hnew.allocated q hq m' (Or.inl hm')) heq
  rw [List.perm_ext_iff_of_nodup _ hnodup]
  · intro path
    rw [hrule.inputs path, hnew.explicitInputs_eq]
  · apply hg.nodup_paths
    · exact (hg.twoWay.inputs_nodup r hr).sublist (List.take_sublist _ _)
    · exact fun n hn ↦ hg.mem_allocated_of_explicit hr hn

theorem outputs_paths_perm {r q : RuleId} (hr : r ∈ g.rules) (hq : q ∈ new.rules)
    (hrule : SameRule g new r q) :
    ((g.rule r).outputs.map fun n ↦ (g.node n).path).Perm
      ((new.rule q).outputs.map fun m ↦ (new.node m).path) := by
  have hnodup : ((new.rule q).outputs.map fun m ↦ (new.node m).path).Nodup := by
    apply List.Nodup.map_on _ (hnew.twoWay.outputs_nodup q hq)
    exact fun m hm m' hm' heq ↦ hsame.unique m (hnew.allocated q hq m (Or.inr hm)) m'
      (hnew.allocated q hq m' (Or.inr hm')) heq
  rw [List.perm_ext_iff_of_nodup _ hnodup]
  · exact hrule.outputs
  · apply hg.nodup_paths (hg.twoWay.outputs_nodup r hr)
    exact fun n hn ↦ hg.allocated r hr n (Or.inr hn)

end Twins

/-! ## The state of the traversal -/

variable {g new : Graph}

/-- The node has been met: it will not be deleted, and it is counted as a
source file again if it is one. -/
structure Met (g : Graph) (s : Reload) (n : NodeId) : Prop where
  original : ∀ e ∈ s.originalNodes, e.1 ≠ (g.node n).path
  source : (g.node n).childRule = none → n ∈ s.graph.sources

/-- The rule has been put together again. -/
structure Rebuilt (g : Graph) (s : Reload) (r : RuleId) : Prop where
  explicitInputs : ∀ n ∈ Hash.explicitInputs (g.rule r), n ∈ s.nodesSeen
  implicitDeps : ∀ n ∈ Depfile.implicitDeps (g.rule r), Met g s n

/-- The traversal so far, when the rules in `O` are taken apart. -/
structure Walked (g : Graph) (O : Set RuleId) (s : Reload) : Prop where
  node : s.graph.node = g.node
  nodes : s.graph.nodes = g.nodes
  rules : s.graph.rules = g.rules
  allocated : s.graph.allocated = g.allocated
  kept : ∀ r, r ∉ O → (g.rule r).Kept (s.graph.rule r)
  original : s.originalNodes ⊆ g.nodes
  sources : s.graph.sources ⊆ g.sources
  met : ∀ n ∈ s.nodesSeen, Met g s n
  rebuilt : ∀ n ∈ s.nodesSeen, ∀ r, (g.node n).childRule = some r → r ∉ O → Rebuilt g s r

/-- What a part of the traversal leaves alone, and what it only adds to. -/
structure Advances (O : Set RuleId) (s s' : Reload) : Prop where
  original : s'.originalNodes ⊆ s.originalNodes
  sources : s.graph.sources ⊆ s'.graph.sources
  seen : s.nodesSeen ⊆ s'.nodesSeen
  roots : s'.graph.roots = s.graph.roots
  rule : ∀ r ∈ O, s'.graph.rule r = s.graph.rule r

variable {O O' : Set RuleId} {s s' s'' : Reload}

theorem Advances.refl (O : Set RuleId) (s : Reload) : Advances O s s :=
  ⟨List.Subset.refl _, Finset.Subset.refl _, Finset.Subset.refl _, rfl, fun _ _ ↦ rfl⟩

theorem Advances.trans (h : Advances O s s') (h' : Advances O s' s'') : Advances O s s'' where
  original := List.Subset.trans h'.original h.original
  sources := h.sources.trans h'.sources
  seen := h.seen.trans h'.seen
  roots := h'.roots.trans h.roots
  rule r hr := (h'.rule r hr).trans (h.rule r hr)

theorem Advances.mono (h : Advances O s s') (hsub : O' ⊆ O) : Advances O' s s' :=
  ⟨h.original, h.sources, h.seen, h.roots, fun r hr ↦ h.rule r (hsub hr)⟩

theorem Met.mono {n : NodeId} (hmet : Met g s n) (h : Advances O s s') : Met g s' n :=
  ⟨fun e he ↦ hmet.original e (h.original he), fun hn ↦ h.sources (hmet.source hn)⟩

theorem Rebuilt.mono {r : RuleId} (hr : Rebuilt g s r) (h : Advances O s s') : Rebuilt g s' r :=
  ⟨fun n hn ↦ h.seen (hr.explicitInputs n hn), fun n hn ↦ (hr.implicitDeps n hn).mono h⟩

theorem eraseKey_subset (nodes : List (String × NodeId)) (path : String) :
    eraseKey nodes path ⊆ nodes :=
  List.filter_sublist.subset

theorem not_mem_eraseKey (nodes : List (String × NodeId)) (path : String) :
    ∀ e ∈ eraseKey nodes path, e.1 ≠ path := by
  intro e he
  simpa [eraseKey] using (List.mem_filter.mp he).2

theorem advances_erase (O : Set RuleId) (s : Reload) (path : String) :
    Advances O s { s with originalNodes := eraseKey s.originalNodes path } :=
  ⟨eraseKey_subset _ _, Finset.Subset.refl _, Finset.Subset.refl _, rfl, fun _ _ ↦ rfl⟩

/-- Forget that a node has not been met yet. -/
theorem Walked.erase (h : Walked g O s) (path : String) :
    Walked g O { s with originalNodes := eraseKey s.originalNodes path } := by
  have hadv := advances_erase O s path
  refine ⟨h.node, h.nodes, h.rules, h.allocated, h.kept, ?_, h.sources, ?_, ?_⟩
  · exact List.Subset.trans (eraseKey_subset _ _) h.original
  · exact fun n hn ↦ (h.met n hn).mono hadv
  · exact fun n hn r hr ho ↦ (h.rebuilt n hn r hr ho).mono hadv

theorem advances_setRule (s : Reload) {r : RuleId} (hr : r ∉ O) (x : Rule) :
    Advances O s { s with graph := s.graph.setRule r x } := by
  refine ⟨List.Subset.refl _, Finset.Subset.refl _, Finset.Subset.refl _, rfl, fun q hq ↦ ?_⟩
  have hne : q ≠ r := fun heq ↦ hr (heq ▸ hq)
  change (s.graph.setRule r x).rule q = _
  rw [Graph.setRule_rule, if_neg hne]

/-- A rule that is taken apart may be written. -/
theorem Walked.setRule (h : Walked g O s) {r : RuleId} (hr : r ∈ O) (x : Rule) :
    Walked g O { s with graph := s.graph.setRule r x } := by
  have hadv := advances_setRule (O := ∅) s (Set.notMem_empty r) x
  refine ⟨h.node, h.nodes, h.rules, h.allocated, fun q hq ↦ ?_, h.original, h.sources,
    fun n hn ↦ (h.met n hn).mono hadv, fun n hn q hq ho ↦ (h.rebuilt n hn q hq ho).mono hadv⟩
  have hne : q ≠ r := fun heq ↦ hq (heq ▸ hr)
  change (g.rule q).Kept ((s.graph.setRule r x).rule q)
  rw [Graph.setRule_rule, if_neg hne]
  exact h.kept q hq

theorem Walked.inputReady (h : Walked g O s) : s.graph.inputReady = g.inputReady := by
  funext n
  simp only [Graph.inputReady, h.node]

/-! ## One rule -/

theorem markInputReady_ok {g : Graph} {r : RuleId}
    (h : (g.rule r).numInputsReady + 1 ≤ (g.rule r).inputs.length) :
    g.onRule r Rule.markInputReady =
      .ok (g.setRule r { g.rule r with numInputsReady := (g.rule r).numInputsReady + 1 }) := by
  simp [Graph.onRule, Rule.markInputReady, h, Except.map]

/-- The inputs of a rule that is put together, and its counter. -/
def withInputs (g : Graph) (x : Rule) (inputs : List NodeId) : Rule :=
  { x with
    inputs := inputs
    numInputsReady := inputs.countP g.inputReady
    numImplicitDeps := 0 }

theorem pushInput_ok {g k : Graph} {r : RuleId} {x : Rule} {inputs : List NodeId} (n : NodeId)
    (hready : k.inputReady = g.inputReady) (hr : k.rule r = withInputs g x inputs) :
    pushInput r k n = .ok (k.setRule r (withInputs g x (inputs ++ [n]))) := by
  have hpush : (k.updateRule r fun y ↦ { y with inputs := y.inputs ++ [n] }).rule r =
      { withInputs g x inputs with inputs := inputs ++ [n] } := by
    change (k.setRule r _).rule r = _
    rw [Graph.setRule_rule, if_pos rfl, hr]
    rfl
  have hnode : (k.updateRule r fun y ↦ { y with inputs := y.inputs ++ [n] }).inputReady n =
      g.inputReady n := by
    rw [← hready]
    rfl
  rw [pushInput]
  simp only [hnode]
  by_cases hn : g.inputReady n = true
  · rw [if_pos hn, markInputReady_ok]
    · rw [hpush]
      simp [Graph.updateRule, Graph.setRule, withInputs, hn, List.countP_append]
    · rw [hpush]
      have hle := List.countP_le_length (p := g.inputReady) (l := inputs)
      simpa [withInputs] using hle
  · rw [if_neg hn]
    simp [Graph.updateRule, Graph.setRule, withInputs, hn, List.countP_append, hr]

/-- A list of nodes of which one has the path that is looked for. -/
theorem getNode_of_mem {ω : Type} {P : Platform ω} (hnode : s.graph.node = g.node)
    {l : List NodeId} {m : NodeId}
    (hmem : (new.node m).path ∈ l.map fun n ↦ (g.node n).path) :
    ∃ n ∈ l, (g.node n).path = (new.node m).path ∧
      getNode P new s l m = ⟨n, true, l.erase n,
        { s with originalNodes := eraseKey s.originalNodes (g.node n).path }⟩ := by
  obtain ⟨k, hk, hpath⟩ := List.mem_map.mp hmem
  cases hfind : l.find? fun n ↦ (new.node m).path = (s.graph.node n).path with
  | none =>
      have hno := List.find?_eq_none.mp hfind k hk
      rw [hnode] at hno
      simp [hpath] at hno
  | some n =>
      have heq : (new.node m).path = (s.graph.node n).path := by
        simpa using List.find?_some hfind
      rw [hnode] at heq
      refine ⟨n, List.mem_of_find?_eq_some hfind, heq.symm, ?_⟩
      rw [getNode, hfind, hnode]

/-- What the recursion does for one node. -/
def NodeSpec (g : Graph) (O : Set RuleId) (node : NodeUpdate) (n m : NodeId) : Prop :=
  ∀ s, Walked g O s → (∀ e ∈ s.originalNodes, e.1 ≠ (g.node n).path) →
    ∃ s', node s n m = .ok (false, s') ∧ Walked g O s' ∧ Advances O s s' ∧ n ∈ s'.nodesSeen

/-- The paths of what is left are those of what is still to come. -/
theorem left_paths {α β γ : Type} {f : α → γ} {f' : β → γ} {all done left : List α}
    {pre post : List β} (hperm : (done ++ left).Perm all)
    (hpaths : (all.map f).Perm ((pre ++ post).map f')) (hdone : done.map f = pre.map f') :
    (left.map f).Perm (post.map f') := by
  have hboth := (hperm.map f).trans hpaths
  rw [List.map_append, List.map_append, hdone] at hboth
  exact (List.perm_append_left_iff _).mp hboth

/-- The loop over the inputs after the inputs `pre` of the new rule. -/
structure InputsDone (g new : Graph) (O : Set RuleId) (s₀ : Reload) (r : RuleId) (x : Rule)
    (pre : List NodeId) (s : RuleLoop) : Prop where
  changed : s.changed = false
  walked : Walked g (insert r O) s.state
  advances : Advances O s₀ s.state
  parts : ∃ done, s.state.graph.rule r = withInputs g x done ∧
    (done ++ s.left).Perm (Hash.explicitInputs (g.rule r)) ∧
    (done.map fun n ↦ (g.node n).path) = (pre.map fun m ↦ (new.node m).path) ∧
    ∀ n ∈ done, n ∈ s.state.nodesSeen

variable {ω : Type} {P : Platform ω} {A : Allocator} {w : ω}

theorem updateInput_spec {node : NodeUpdate} {s₀ : Reload} {r q : RuleId} {x : Rule}
    {pre post : List NodeId} {m : NodeId} {s : RuleLoop} (hr : r ∉ O)
    (hpaths : ((Hash.explicitInputs (g.rule r)).map fun n ↦ (g.node n).path).Perm
      ((new.rule q).inputs.map fun m ↦ (new.node m).path))
    (hspec : ∀ n ∈ Hash.explicitInputs (g.rule r), (g.node n).path = (new.node m).path →
      NodeSpec g (insert r O) node n m)
    (hinputs : (new.rule q).inputs = pre ++ m :: post)
    (h : InputsDone g new O s₀ r x pre s) :
    ∃ s', updateInput P w new node r s m = .ok s' ∧
      InputsDone g new O s₀ r x (pre ++ [m]) s' := by
  obtain ⟨done, hrule, hperm, hdone, hseen⟩ := h.parts
  rw [hinputs] at hpaths
  have hleft := left_paths hperm hpaths hdone
  obtain ⟨n, hn, hpath, hget⟩ := getNode_of_mem (P := P) h.walked.node (l := s.left)
    (m := m) (hleft.mem_iff.mpr (List.mem_cons_self ..))
  have hexplicit : n ∈ Hash.explicitInputs (g.rule r) :=
    hperm.mem_iff.mp (List.mem_append_right _ hn)
  obtain ⟨t, hnode, hwalked, hadv, hmem⟩ := hspec n hexplicit hpath _
    (h.walked.erase (g.node n).path) (not_mem_eraseKey _ _)
  have hadv' : Advances (insert r O) s.state t := (advances_erase _ _ _).trans hadv
  have hself : t.graph.rule r = withInputs g x done :=
    (hadv'.rule r (Set.mem_insert r O)).trans hrule
  have hpush := pushInput_ok n hwalked.inputReady hself
  refine ⟨⟨false, s.left.erase n, { t with
    graph := t.graph.setRule r (withInputs g x (done ++ [n])) }⟩, ?_, ?_⟩
  · rw [updateInput, hget]
    simp only [if_true, hnode, h.changed, Lib.except_ok_bind, Bool.not_true, Bool.or_false,
      Bool.false_eq_true, if_false, Lib.except_pure, hpush]
  · refine ⟨rfl, hwalked.setRule (Set.mem_insert r O) _, ?_, done ++ [n], ?_, ?_, ?_, ?_⟩
    · exact (h.advances.trans (hadv'.mono (Set.subset_insert r O))).trans
        (advances_setRule t hr _)
    · change (t.graph.setRule r _).rule r = _
      rw [Graph.setRule_rule, if_pos rfl]
    · refine .trans ?_ hperm
      rw [List.append_assoc]
      exact (List.perm_cons_erase hn).symm.append_left done
    · rw [List.map_append, List.map_append, hdone]
      simp [hpath]
    · intro k hk
      rcases List.mem_append.mp hk with hk | hk
      · exact hadv'.seen (hseen k hk)
      · rw [List.mem_singleton.mp hk]
        exact hmem

/-- The outputs of the new rule, one after the other. -/
theorem foldl_updateOutput {r : RuleId} {all post : List NodeId} :
    ∀ (pre done left : List NodeId) (s : Reload) (y : Rule), s.graph.node = g.node →
      s.graph.rule r = { y with outputs := done } → (done ++ left).Perm all →
      (all.map fun n ↦ (g.node n).path).Perm ((pre ++ post).map fun m ↦ (new.node m).path) →
      (done.map fun n ↦ (g.node n).path) = (pre.map fun m ↦ (new.node m).path) →
      ∃ original outputs, original ⊆ s.originalNodes ∧ outputs.Perm all ∧
        post.foldl (updateOutput P new r) ⟨false, left, s⟩ =
          ⟨false, [], { s with
            originalNodes := original
            graph := s.graph.setRule r { y with outputs := outputs } }⟩ := by
  induction post with
  | nil =>
      intro pre done left s y hnode hrule hperm hpaths hdone
      have hleft := left_paths hperm hpaths hdone
      obtain rfl : left = [] := by simpa using hleft
      refine ⟨s.originalNodes, done, List.Subset.refl _, by simpa using hperm, ?_⟩
      rw [← hrule, Graph.setRule, Function.update_eq_self]
      rfl
  | cons m post ih =>
      intro pre done left s y hnode hrule hperm hpaths hdone
      have hleft := left_paths hperm hpaths hdone
      obtain ⟨n, hn, hpath, hget⟩ := getNode_of_mem (P := P) hnode (l := left)
        (m := m) (hleft.mem_iff.mpr (List.mem_cons_self ..))
      have hstep : updateOutput P new r ⟨false, left, s⟩ m = ⟨false, left.erase n, { s with
          originalNodes := eraseKey s.originalNodes (g.node n).path
          graph := s.graph.setRule r { y with outputs := done ++ [n] } }⟩ := by
        rw [updateOutput, hget]
        simp only [if_true, pushOutput, Graph.updateRule, hrule]
      obtain ⟨original, outputs, hsub, hout, hfold⟩ := ih (pre ++ [m]) (done ++ [n])
        (left.erase n) { s with
          originalNodes := eraseKey s.originalNodes (g.node n).path
          graph := s.graph.setRule r { y with outputs := done ++ [n] } } y hnode
        (by
          change (s.graph.setRule r _).rule r = _
          rw [Graph.setRule_rule, if_pos rfl])
        (by
          refine .trans ?_ hperm
          rw [List.append_assoc]
          exact (List.perm_cons_erase hn).symm.append_left done)
        (by
          rw [List.append_assoc]
          exact hpaths)
        (by
          rw [List.map_append, List.map_append, hdone]
          simp [hpath])
      refine ⟨original, outputs, List.Subset.trans hsub (eraseKey_subset _ _), hout, ?_⟩
      rw [List.foldl_cons, hstep, hfold]
      simp [Graph.setRule]

/-- An implicit input is put back, and met if it was not before. -/
theorem keepImplicit_spec (hg : g.Reloadable) {r : RuleId} (hr : r ∉ O) {x : Rule}
    {inputs : List NodeId} {n : NodeId} (hn : n ∈ g.allocated) (h : Walked g (insert r O) s)
    (hrule : s.graph.rule r = withInputs g x inputs) :
    ∃ s', keepImplicit r s n = .ok s' ∧ Walked g (insert r O) s' ∧ Advances O s s' ∧
      s'.graph.rule r = withInputs g x (inputs ++ [n]) ∧ Met g s' n := by
  have hnodes : assignKey s.graph.nodes (g.node n).path n = s.graph.nodes := by
    rw [h.nodes]
    exact hg.assignKey_eq hn
  have hpath : (s.graph.node n).path = (g.node n).path := by rw [h.node]
  have hchild : (s.graph.node n).isSource = (g.node n).isSource := by rw [h.node]
  -- the sources, in which the node is put if it is one
  obtain ⟨sources, hsources⟩ : ∃ sources, sources =
      if (s.graph.node n).isSource then insert n s.graph.sources else s.graph.sources := ⟨_, rfl⟩
  have hgrow : s.graph.sources ⊆ sources := by
    rw [hsources]
    split
    · exact Finset.subset_insert n _
    · exact Finset.Subset.refl _
  have hself : (g.node n).childRule = none → n ∈ sources := by
    intro hnone
    rw [hsources, hchild, Node.isSource, hnone]
    exact Finset.mem_insert_self n _
  have hsub : sources ⊆ g.sources := by
    rw [hsources]
    split
    · rename_i hsource
      refine Finset.insert_subset ((hg.sources n).mpr ⟨hn, ?_⟩) h.sources
      exact Option.isNone_iff_eq_none.mp (hchild.symm.trans hsource)
    · exact h.sources
  -- what the step does
  have hpush := pushInput_ok (g := g) (k := { s.graph with sources := sources }) n
    h.inputReady hrule
  dsimp only at hpush
  have hstep : keepImplicit r s n = .ok { s with
      graph := ({ s.graph with sources := sources } : Graph).setRule r
        (withInputs g x (inputs ++ [n]))
      originalNodes := eraseKey s.originalNodes (g.node n).path } := by
    rw [keepImplicit]
    simp only [← hsources, hpath, hnodes, hpush, Lib.except_ok_bind, Lib.except_pure]
  have hadv : Advances O s { s with
      graph := ({ s.graph with sources := sources } : Graph).setRule r
        (withInputs g x (inputs ++ [n]))
      originalNodes := eraseKey s.originalNodes (g.node n).path } := by
    refine ⟨eraseKey_subset _ _, hgrow, Finset.Subset.refl _, rfl, ?_⟩
    exact (advances_setRule { s with graph := { s.graph with sources := sources } } hr _).rule
  have hweak := hadv.mono (Set.empty_subset O)
  refine ⟨_, hstep, ?_, hadv, ?_, not_mem_eraseKey _ _, hself⟩
  · have hset := h.setRule (Set.mem_insert r O) (withInputs g x (inputs ++ [n]))
    exact ⟨h.node, h.nodes, h.rules, h.allocated, hset.kept,
      List.Subset.trans (eraseKey_subset _ _) h.original, hsub,
      fun k hk ↦ (h.met k hk).mono hweak,
      fun k hk q hq ho ↦ (h.rebuilt k hk q hq ho).mono hweak⟩
  · change (Graph.setRule _ r _).rule r = _
    rw [Graph.setRule_rule, if_pos rfl]

theorem keepImplicits_spec (hg : g.Reloadable) {r : RuleId} (hr : r ∉ O) {x : Rule}
    {inputs l : List NodeId} (hl : ∀ n ∈ l, n ∈ g.allocated) (h : Walked g (insert r O) s)
    (hrule : s.graph.rule r = withInputs g x inputs) :
    ∃ s', l.foldlM (keepImplicit r) s = .ok s' ∧ Walked g (insert r O) s' ∧ Advances O s s' ∧
      s'.graph.rule r = withInputs g x (inputs ++ l) ∧ ∀ n ∈ l, Met g s' n := by
  apply Lib.foldlM_rule fun pre s' ↦ Walked g (insert r O) s' ∧ Advances O s s' ∧
    s'.graph.rule r = withInputs g x (inputs ++ pre) ∧ ∀ n ∈ pre, Met g s' n
  · refine ⟨h, .refl O s, ?_, by simp⟩
    rw [List.append_nil]
    exact hrule
  · rintro pre n post s₁ rfl ⟨hwalked, hadv, hrule₁, hmet⟩
    obtain ⟨s₂, hstep, hwalked₂, hadv₂, hrule₂, hself⟩ :=
      keepImplicit_spec hg hr (hl n (by simp)) hwalked hrule₁
    refine ⟨s₂, hstep, hwalked₂, hadv.trans hadv₂, ?_, fun k hk ↦ ?_⟩
    · rw [← List.append_assoc]
      exact hrule₂
    · rcases List.mem_append.mp hk with hk | hk
      · exact (hmet k hk).mono hadv₂
      · rw [List.mem_singleton.mp hk]
        exact hself

theorem implicitDeps_length {x : Rule} (h : x.numImplicitDeps ≤ x.inputs.length) :
    (Depfile.implicitDeps x).length = x.numImplicitDeps := by
  rw [Depfile.implicitDeps, List.length_drop]
  omega

/-- The parts of a rule are back in place. -/
theorem kept_of_parts (hg : g.Reloadable) {r : RuleId} (hr : r ∈ g.rules) {x : Rule}
    (hx : (g.rule r).Kept x) {done outputs : List NodeId}
    (hdone : done.Perm (Hash.explicitInputs (g.rule r)))
    (houtputs : outputs.Perm (g.rule r).outputs) :
    (g.rule r).Kept { withInputs g { x with outputs := outputs }
        (done ++ Depfile.implicitDeps (g.rule r)) with
      numImplicitDeps := (Depfile.implicitDeps (g.rule r)).length } := by
  have hlength := implicitDeps_length (hg.implicit r hr)
  have hinputs : (done ++ Depfile.implicitDeps (g.rule r)).Perm (g.rule r).inputs := by
    rw [← Hash.explicitInputs_append_implicitDeps (g.rule r)]
    exact hdone.append_right _
  have hready : (done ++ Depfile.implicitDeps (g.rule r)).countP g.inputReady =
      (g.rule r).numInputsReady := by
    rw [hg.exact r hr]
    exact hinputs.countP_eq _
  have hsplit : (done ++ Depfile.implicitDeps (g.rule r)).length -
      (Depfile.implicitDeps (g.rule r)).length = done.length := by
    rw [List.length_append, Nat.add_sub_cancel]
  refine ⟨?_, ?_, houtputs, ?_⟩
  · rw [Hash.explicitInputs]
    simp only [withInputs, hsplit, List.take_left]
    exact hdone
  · rw [Depfile.implicitDeps]
    simp only [withInputs, hsplit, List.drop_left]
  · rw [hx.rest]
    simp only [withInputs, hready, hlength]

section RuleSpec

variable (hg : g.Reloadable) (hnew : Fresh new) (hsame : SameStructure g new) {r q : RuleId}
  (hr : r ∈ g.rules) (hq : q ∈ new.rules) (hrule : SameRule g new r q)
include hg hnew hsame hr hq hrule

theorem updateRuleInputs_spec (hO : r ∉ O) {node : NodeUpdate}
    (hspec : ∀ m ∈ (new.rule q).inputs, ∀ n ∈ Hash.explicitInputs (g.rule r),
      (g.node n).path = (new.node m).path → NodeSpec g (insert r O) node n m)
    {x : Rule} {inputs : List NodeId} (hinputs : inputs.Perm (Hash.explicitInputs (g.rule r)))
    (h : Walked g (insert r O) s) (hx : s.graph.rule r = withInputs g x []) :
    ∃ s' done, updateRuleInputs P w new node s r inputs q = .ok (false, s') ∧
      Walked g (insert r O) s' ∧ Advances O s s' ∧ s'.graph.rule r = withInputs g x done ∧
      done.Perm (Hash.explicitInputs (g.rule r)) ∧ ∀ n ∈ done, n ∈ s'.nodesSeen := by
  have hpaths := inputs_paths_perm hg hnew hsame hr hq hrule
  obtain ⟨t, hloop, hdone⟩ := Lib.foldlM_rule (f := updateInput P w new node r)
    (l := (new.rule q).inputs) (s := ⟨false, inputs, s⟩) (InputsDone g new O s r x)
    ⟨rfl, h, .refl O s, [], hx, hinputs, rfl, by simp⟩
    (fun pre m post u hl hu ↦ updateInput_spec hO hpaths
      (fun n hn hpath ↦ hspec m (by simp [hl]) n hn hpath) hl hu)
  obtain ⟨done, hself, hperm, hdonePaths, hseen⟩ := hdone.parts
  have hleft : (t.left.map fun n ↦ (g.node n).path).Perm
      (([] : List NodeId).map fun m ↦ (new.node m).path) :=
    left_paths hperm (by simpa using hpaths) hdonePaths
  have hnil : t.left = [] := by simpa using hleft
  refine ⟨t.state, done, ?_, hdone.walked, hdone.advances, hself, ?_, hseen⟩
  · simp only [updateRuleInputs, hloop, Lib.except_ok_bind, hnil, List.foldlM_nil,
      Lib.except_pure, hdone.changed]
  · simpa [hnil] using hperm

theorem updateRuleOutputs_spec (hO : r ∉ O) (h : Walked g (insert r O) s) {y : Rule}
    (hy : s.graph.rule r = y) (houtputs : y.outputs.Perm (g.rule r).outputs) :
    ∃ s' outputs, updateRuleOutputs P new s r q = .ok (false, s') ∧
      Walked g (insert r O) s' ∧ Advances O s s' ∧
      s'.graph.rule r = { y with outputs := outputs } ∧
      outputs.Perm (g.rule r).outputs ∧ s'.nodesSeen = s.nodesSeen := by
  have hpaths : (y.outputs.map fun n ↦ (g.node n).path).Perm
      (([] ++ (new.rule q).outputs).map fun m ↦ (new.node m).path) :=
    (houtputs.map _).trans (outputs_paths_perm hg hnew hsame hr hq hrule)
  have hset := h.setRule (Set.mem_insert r O) { y with outputs := [] }
  obtain ⟨original, outputs, hsub, hperm, hfold⟩ := foldl_updateOutput (P := P) (r := r)
    [] [] y.outputs { s with graph := s.graph.setRule r { y with outputs := [] } } y
    hset.node (by
      change (s.graph.setRule r _).rule r = _
      rw [Graph.setRule_rule, if_pos rfl]) (.refl _) hpaths rfl
  have hadv : Advances O s { s with
      originalNodes := original
      graph := (s.graph.setRule r { y with outputs := [] }).setRule r
        { y with outputs := outputs } } := by
    refine ⟨hsub, Finset.Subset.refl _, Finset.Subset.refl _, rfl, fun p hp ↦ ?_⟩
    have hne : p ≠ r := fun heq ↦ hO (heq ▸ hp)
    change ((s.graph.setRule r _).setRule r _).rule p = _
    rw [Graph.setRule_rule, if_neg hne, Graph.setRule_rule, if_neg hne]
  have hweak := hadv.mono (Set.empty_subset O)
  have hwalked := hset.setRule (Set.mem_insert r O) { y with outputs := outputs }
  refine ⟨_, outputs, ?_, ?_, hadv, ?_, hperm.trans houtputs, rfl⟩
  · rw [updateRuleOutputs]
    simp only [Graph.updateRule, hy, hfold, List.foldlM_nil, Lib.except_pure, Lib.except_ok_bind]
  · exact ⟨h.node, h.nodes, h.rules, h.allocated, hwalked.kept,
      List.Subset.trans hsub h.original, h.sources, fun n hn ↦ (h.met n hn).mono hweak,
      fun n hn p hp ho ↦ (h.rebuilt n hn p hp ho).mono hweak⟩
  · change ((s.graph.setRule r _).setRule r _).rule r = _
    rw [Graph.setRule_rule, if_pos rfl]

omit hnew hsame hq in
theorem updateRuleDepfiles_spec (hO : r ∉ O) (h : Walked g (insert r O) s) (x : Rule)
    (done : List NodeId) (hx : s.graph.rule r = withInputs g x done)
    (hdepfile : x.depfile = (g.rule r).depfile) :
    ∃ s', updateRuleDepfiles P w new s r (Depfile.implicitDeps (g.rule r)) q = .ok (false, s') ∧
      Walked g (insert r O) s' ∧ Advances O s s' ∧
      s'.graph.rule r = { withInputs g x (done ++ Depfile.implicitDeps (g.rule r)) with
        numImplicitDeps := (Depfile.implicitDeps (g.rule r)).length } ∧
      ∀ n ∈ Depfile.implicitDeps (g.rule r), Met g s' n := by
  obtain ⟨t, hloop, hwalked, hadv, hself, hmet⟩ := keepImplicits_spec hg hO
    (fun n hn ↦ hg.mem_allocated_of_implicit hr hn) h hx
  have hsameDepfile : (s.graph.rule r).depfile = (new.rule q).depfile := by
    rw [hx]
    exact hdepfile.trans hrule.depfile
  have hset := advances_setRule t hO
    { withInputs g x (done ++ Depfile.implicitDeps (g.rule r)) with
      numImplicitDeps := (Depfile.implicitDeps (g.rule r)).length }
  refine ⟨_, ?_, hwalked.setRule (Set.mem_insert r O) _, hadv.trans hset, ?_,
    fun n hn ↦ (hmet n hn).mono hset⟩
  · rw [updateRuleDepfiles, if_neg (not_not_intro hsameDepfile)]
    simp only [hloop, Lib.except_ok_bind, Graph.updateRule, hself, Lib.except_pure]
  · change (t.graph.setRule r _).rule r = _
    rw [Graph.setRule_rule, if_pos rfl]

omit hg hnew hsame hr hq hrule in
/-- The last rule of `O` that was taken apart is whole again. -/
theorem Walked.close (h : Walked g (insert r O) s) (hkept : (g.rule r).Kept (s.graph.rule r))
    (hrebuilt : Rebuilt g s r) : Walked g O s := by
  refine ⟨h.node, h.nodes, h.rules, h.allocated, fun p hp ↦ ?_, h.original, h.sources, h.met,
    fun n hn p hchild hp ↦ ?_⟩
  · by_cases heq : p = r
    · rw [heq]
      exact hkept
    · exact h.kept p (by simp [heq, hp])
  · by_cases heq : p = r
    · rw [heq]
      exact hrebuilt
    · exact h.rebuilt n hn p hchild (by simp [heq, hp])

/-- Even without any change the rule is taken apart and put together again. -/
theorem updateSubGraphRule_spec (hO : r ∉ O) {node : NodeUpdate}
    (hspec : ∀ m ∈ (new.rule q).inputs, ∀ n ∈ Hash.explicitInputs (g.rule r),
      (g.node n).path = (new.node m).path → NodeSpec g (insert r O) node n m)
    (h : Walked g (insert r O) s) (hkept : (g.rule r).Kept (s.graph.rule r)) :
    ∃ s', updateSubGraphRule P w new node s r q = .ok (false, s') ∧ Walked g O s' ∧
      Advances O s s' ∧ Rebuilt g s' r := by
  obtain ⟨x, hx⟩ : ∃ x, s.graph.rule r = x := ⟨_, rfl⟩
  rw [hx] at hkept
  have hrest := hkept.rest
  -- the inputs
  obtain ⟨s₁, done, hinputs, hwalked₁, hadv₁, hrule₁, hperm, hseen⟩ :=
    updateRuleInputs_spec (P := P) (w := w) hg hnew hsame hr hq hrule hO hspec
      (x := x) hkept.explicitInputs (h.setRule (Set.mem_insert r O) (withInputs g x [])) (by
        change (s.graph.setRule r _).rule r = _
        rw [Graph.setRule_rule, if_pos rfl])
  -- the outputs
  obtain ⟨s₂, outputs, houtputs, hwalked₂, hadv₂, hrule₂, hperm₂, hseen₂⟩ :=
    updateRuleOutputs_spec (P := P) hg hnew hsame hr hq hrule hO hwalked₁ hrule₁ hkept.outputs
  -- the command
  have hcommand : updateRuleCommand new s₂ r q = (false, s₂) := by
    rw [updateRuleCommand, if_neg]
    rw [hrule₂, not_not, ← hrule.command, hrest]
    rfl
  -- the implicit inputs
  obtain ⟨s₃, hdepfile, hwalked₃, hadv₃, hrule₃, hmet⟩ :=
    updateRuleDepfiles_spec (P := P) (w := w) hg hr hrule hO hwalked₂
      { x with outputs := outputs } done hrule₂ (by rw [hrest])
  have hadv : Advances O s s₃ := (((advances_setRule s hO _).trans hadv₁).trans hadv₂).trans hadv₃
  have hrebuilt : Rebuilt g s₃ r := by
    refine ⟨fun n hn ↦ ?_, hmet⟩
    apply hadv₃.seen
    rw [hseen₂]
    exact hseen n (hperm.mem_iff.mpr hn)
  refine ⟨s₃, ?_, hwalked₃.close ?_ hrebuilt, hadv, hrebuilt⟩
  · have hstart : (s.graph.updateRule r fun x ↦
        { x with inputs := [], numInputsReady := 0, numImplicitDeps := 0 }) =
        s.graph.setRule r (withInputs g x []) := by
      rw [Graph.updateRule, hx]
      rfl
    simp only [updateSubGraphRule, hx, hstart, hkept.implicitDeps, hinputs, houtputs, hcommand,
      hdepfile, Lib.except_ok_bind, Lib.except_pure, Bool.or_self, Bool.false_eq_true, if_false]
  · rw [hrule₃]
    exact kept_of_parts hg hr hkept hperm hperm₂

end RuleSpec

/-! ## The whole traversal -/

section Traversal

variable (hg : g.Reloadable) (hnew : Fresh new) (hsame : SameStructure g new)
include hg

/-- The node is in the map already. -/
theorem Walked.assignKey_eq (h : Walked g O s) {n : NodeId} (hn : n ∈ g.allocated) :
    { s with graph := { s.graph with
      nodes := assignKey s.graph.nodes (s.graph.node n).path n } } = s := by
  have hnodes : assignKey s.graph.nodes (s.graph.node n).path n = s.graph.nodes := by
    rw [h.nodes, h.node]
    exact hg.assignKey_eq hn
  rw [hnodes]

theorem Walked.getNodeFromAll_eq (h : Walked g O s) {n m : NodeId} (htwin : Twin g new n m) :
    getNodeFromAll P new s m =
      (n, { s with originalNodes := eraseKey s.originalNodes (g.node n).path }) := by
  have hlookup : s.graph.nodes.lookup (new.node m).path = some n := by
    rw [h.nodes, ← htwin.path]
    exact hg.lookup n htwin.mem
  simp only [getNodeFromAll, hlookup, h.node]

omit hg in
theorem advances_enter (s : Reload) (n : NodeId) :
    Advances O s { s with nodesSeen := insert n s.nodesSeen } :=
  ⟨List.Subset.refl _, Finset.Subset.refl _, Finset.subset_insert _ _, rfl, fun _ _ ↦ rfl⟩

omit hg in
/-- At an output of the rule `r`, which is going to be taken apart. -/
theorem Walked.enter (h : Walked g O s) {n : NodeId} {r : RuleId}
    (hn : (g.node n).childRule = some r)
    (hmet : ∀ e ∈ s.originalNodes, e.1 ≠ (g.node n).path) :
    Walked g (insert r O) { s with nodesSeen := insert n s.nodesSeen } := by
  have henter : Advances O s { s with nodesSeen := insert n s.nodesSeen } := advances_enter s n
  refine ⟨h.node, h.nodes, h.rules, h.allocated,
    fun p hp ↦ h.kept p fun ho ↦ hp (Set.mem_insert_of_mem r ho), h.original, h.sources,
    fun k hk ↦ ?_, fun k hk p hp ho ↦ ?_⟩
  · rcases Finset.mem_insert.mp hk with rfl | hk
    · exact ⟨hmet, fun hnone ↦ absurd (hn.symm.trans hnone) (Option.some_ne_none r)⟩
    · exact (h.met k hk).mono henter
  · rcases Finset.mem_insert.mp hk with rfl | hk
    · obtain rfl : r = p := Option.some.inj (hn.symm.trans hp)
      exact absurd (Set.mem_insert r O) ho
    · exact (h.rebuilt k hk p hp fun hp ↦ ho (Set.mem_insert_of_mem r hp)).mono henter

/-- At a source file, which becomes a source again. -/
theorem Walked.enterSource (h : Walked g O s) {n : NodeId} (hmem : n ∈ g.allocated)
    (hn : (g.node n).childRule = none) (hmet : ∀ e ∈ s.originalNodes, e.1 ≠ (g.node n).path)
    {s₁ : Reload} (hs₁ : s₁ = { s with
      nodesSeen := insert n s.nodesSeen
      graph := { s.graph with sources := insert n s.graph.sources } }) :
    Walked g O s₁ ∧ Advances O s s₁ := by
  have hsource : n ∈ g.sources := (hg.sources n).mpr ⟨hmem, hn⟩
  have hadv : Advances O s s₁ := by
    rw [hs₁]
    exact ⟨List.Subset.refl _, Finset.subset_insert _ _, Finset.subset_insert _ _, rfl,
      fun _ _ ↦ rfl⟩
  refine ⟨?_, hadv⟩
  have hold : ∀ k ∈ s.nodesSeen, Met g s₁ k := fun k hk ↦ (h.met k hk).mono hadv
  have hself : Met g s₁ n := by
    rw [hs₁]
    exact ⟨hmet, fun _ ↦ Finset.mem_insert_self n _⟩
  rw [hs₁] at hadv hold hself ⊢
  refine ⟨h.node, h.nodes, h.rules, h.allocated, h.kept, h.original,
    Finset.insert_subset hsource h.sources, fun k hk ↦ ?_, fun k hk p hp ho ↦ ?_⟩
  · rcases Finset.mem_insert.mp hk with rfl | hk
    · exact hself
    · exact hold k hk
  · rcases Finset.mem_insert.mp hk with rfl | hk
    · exact absurd (hp.symm.trans hn) (Option.some_ne_none p)
    · exact (h.rebuilt k hk p hp ho).mono hadv

include hnew hsame

/-- The induction is on the budget, which the rank of the new node bounds; the
rules of `O` generate nodes that lie above `n`. -/
theorem updateSubGraph_spec {fuel : ℕ} {n m : NodeId} (htwin : Twin g new n m)
    (hfuel : new.links.rankBelow m < fuel)
    (hO : ∀ r ∈ O, ∀ o k, (g.node o).childRule = some r → Twin g new o k →
      new.links.rankBelow m < new.links.rankBelow k) :
    NodeSpec g O (updateSubGraph P A w new fuel) n m := by
  induction fuel generalizing n m O with
  | zero => exact absurd hfuel (Nat.not_lt_zero _)
  | succ fuel ih =>
      intro s h hmet
      by_cases hseen : n ∈ s.nodesSeen
      · refine ⟨s, ?_, h, .refl O s, hseen⟩
        rw [updateSubGraph, if_pos hseen]
        rfl
      rcases htwin.child hg hnew hsame with ⟨hn, hm⟩ | ⟨r, q, hn, hm, hr, hq, hrule⟩
      · -- a source file
        obtain ⟨s₁, hs₁⟩ : ∃ s₁ : Reload, s₁ = { s with
            nodesSeen := insert n s.nodesSeen
            graph := { s.graph with sources := insert n s.graph.sources } } := ⟨_, rfl⟩
        obtain ⟨hwalked, hadv⟩ := h.enterSource hg htwin.mem hn hmet hs₁
        have hchild : updateChild P A w new (updateSubGraph P A w new fuel)
            { s with nodesSeen := insert n s.nodesSeen } n m = .ok (false, s₁) := by
          rw [updateChild]
          simp only [h.node, hn, hm, hs₁]
          rfl
        refine ⟨s₁, ?_, hwalked, hadv, ?_⟩
        · rw [updateSubGraph, if_neg hseen]
          simp only [hchild, Lib.except_ok_bind, Bool.false_eq_true, if_false, Lib.except_pure,
            hwalked.assignKey_eq hg htwin.mem]
        · rw [hs₁]
          exact Finset.mem_insert_self n _
      · -- the output of a rule
        have hnot : r ∉ O := fun hr ↦ lt_irrefl _ (hO r hr n m hn htwin)
        have hwalked := h.enter hn hmet
        have hrec : ∀ m' ∈ (new.rule q).inputs, ∀ n' ∈ Hash.explicitInputs (g.rule r),
            (g.node n').path = (new.node m').path →
              NodeSpec g (insert r O) (updateSubGraph P A w new fuel) n' m' := by
          intro m' hm' n' hn' hpath
          have hlt : ∀ k, (new.node k).childRule = some q →
              new.links.rankBelow m' < new.links.rankBelow k := fun k hk ↦
            Links.rankBelow_lt hnew.twoWay (new_acyclic hg hnew hsame) hk hm'
          refine ih (O := insert r O) ⟨hg.mem_allocated_of_explicit hr hn',
            hnew.allocated q hq m' (Or.inl hm'), hpath⟩ ?_ ?_
          · have hbelow := hlt m hm
            omega
          · rintro p (rfl | hp) o k ho hk
            · have hout := ((hg.twoWay.child_eq_some o p).mp ho).2
              have hkout := (hk.mem_outputs hg hnew hsame hr hq hrule).mp hout
              exact hlt k ((hnew.twoWay.child_eq_some k q).mpr ⟨hq, hkout⟩)
            · exact (hlt m hm).trans (hO p hp o k ho hk)
        obtain ⟨s₁, hrebuild, hwalked₁, hadv, -⟩ :=
          updateSubGraphRule_spec (P := P) (w := w) hg hnew hsame hr hq hrule hnot hrec hwalked
            (h.kept r hnot)
        refine ⟨s₁, ?_, hwalked₁, (advances_enter s n).trans hadv,
          hadv.seen (Finset.mem_insert_self n _)⟩
        have hchild : updateChild P A w new (updateSubGraph P A w new fuel)
            { s with nodesSeen := insert n s.nodesSeen } n m = .ok (false, s₁) := by
          rw [updateChild]
          simp only [h.node, hn, hm, updateTarget, hrebuild, Lib.except_ok_bind,
            Bool.false_eq_true, if_false, Lib.except_pure]
        rw [updateSubGraph, if_neg hseen]
        simp only [hchild, Lib.except_ok_bind, Bool.false_eq_true, if_false, Lib.except_pure,
          hwalked₁.assignKey_eq hg htwin.mem]

/-- The roots `pre` of the new graph have been gone through. -/
structure RootsDone (g new : Graph) (pre : List NodeId) (s : Reload) : Prop where
  walked : Walked g ∅ s
  roots : ∀ n, n ∈ s.graph.roots ↔ ∃ m ∈ pre, Twin g new n m
  seen : ∀ m ∈ pre, ∃ n ∈ s.nodesSeen, Twin g new n m

theorem updateRoot_spec {pre : List NodeId} {m : NodeId} (hm : m ∈ new.allocated)
    (h : RootsDone g new pre s) :
    ∃ s', updateRoot P A w new s m = .ok s' ∧ RootsDone g new (pre ++ [m]) s' := by
  obtain ⟨n, hn, hpath⟩ := hsame.node m hm
  have htwin : Twin g new n m := ⟨hn, hm, hpath⟩
  obtain ⟨t, hrun, hwalked, hadv, hmem⟩ := updateSubGraph_spec (P := P) (A := A) (w := w) hg hnew
    hsame htwin (Graph.rankBelow_lt_depth new m) (O := ∅) (fun r hr ↦ absurd hr (by simp)) _
    (h.walked.erase (g.node n).path) (not_mem_eraseKey _ _)
  have hroots : t.graph.roots = s.graph.roots := hadv.roots
  have hseen : s.nodesSeen ⊆ t.nodesSeen := hadv.seen
  refine ⟨{ t with graph := { t.graph with roots := insert n t.graph.roots } }, ?_, ?_, ?_, ?_⟩
  · rw [updateRoot]
    simp only [h.walked.getNodeFromAll_eq hg htwin, hrun, Lib.except_ok_bind, Bool.false_eq_true,
      if_false, Lib.except_pure]
  · exact ⟨hwalked.node, hwalked.nodes, hwalked.rules, hwalked.allocated, hwalked.kept,
      hwalked.original, hwalked.sources,
      fun k hk ↦ ⟨(hwalked.met k hk).original, (hwalked.met k hk).source⟩,
      fun k hk r hr ho ↦ ⟨(hwalked.rebuilt k hk r hr ho).explicitInputs, fun i hi ↦
        ⟨((hwalked.rebuilt k hk r hr ho).implicitDeps i hi).original,
          ((hwalked.rebuilt k hk r hr ho).implicitDeps i hi).source⟩⟩⟩
  · intro k
    change k ∈ insert n t.graph.roots ↔ _
    rw [Finset.mem_insert, hroots, h.roots]
    constructor
    · rintro (rfl | ⟨m', hm', hk⟩)
      · exact ⟨m, by simp, htwin⟩
      · exact ⟨m', by simp [hm'], hk⟩
    · rintro ⟨m', hm', hk⟩
      rcases List.mem_append.mp hm' with hm' | hm'
      · exact Or.inr ⟨m', hm', hk⟩
      · rw [List.mem_singleton.mp hm'] at hk
        exact Or.inl (hk.unique hg htwin)
  · intro m' hm'
    rcases List.mem_append.mp hm' with hm' | hm'
    · obtain ⟨k, hk, hktwin⟩ := h.seen m' hm'
      exact ⟨k, hseen hk, hktwin⟩
    · rw [List.mem_singleton.mp hm']
      exact ⟨n, hmem, htwin⟩

theorem updateRoots_spec :
    ∃ s, updateRoots P A w new g = .ok s ∧ RootsDone g new (new.roots.sort (· ≤ ·)) s := by
  refine Lib.foldlM_rule (RootsDone g new) ?_ ?_
  · refine ⟨⟨rfl, rfl, rfl, rfl, fun r _ ↦ Rule.kept_refl _, List.Subset.refl _,
      Finset.empty_subset _, ?_, ?_⟩, ?_, ?_⟩ <;> simp
  · intro pre m post s hl h
    have hm : m ∈ new.roots.sort (· ≤ ·) := by simp [hl]
    exact updateRoot_spec hg hnew hsame ((hnew.roots m).mp ((Finset.mem_sort _).mp hm)).1 h

/-- Every node of the new graph lies below a root. -/
theorem RootsDone.seen_of_mem (h : RootsDone g new (new.roots.sort (· ≤ ·)) s) :
    ∀ m ∈ new.allocated, ∃ n ∈ s.nodesSeen, Twin g new n m := by
  have hout : ∀ q ∈ new.rules, (new.rule q).outputs ≠ [] := by
    intro q hq hnil
    obtain ⟨r, hr, hrule⟩ := hsame.rule q hq
    obtain ⟨o, ho⟩ := List.exists_mem_of_ne_nil _ (hg.output r hr)
    have hmem := (hrule.outputs _).mp (List.mem_map_of_mem ho)
    simp [hnil] at hmem
  refine Links.mem_of_roots hnew.twoWay (new_acyclic hg hnew hsame) hout
    (A := {m | m ∈ new.allocated}) (S := {m | ∃ n ∈ s.nodesSeen, Twin g new n m})
    (fun q hq o ho ↦ hnew.allocated q hq o (Or.inr ho)) ?_ ?_
  · intro m hm hparents
    exact h.seen m ((Finset.mem_sort _).mpr ((hnew.roots m).mpr ⟨hm, hparents⟩))
  · rintro q hq o ho ⟨n, hn, htwin⟩ m hm
    have hchild : (new.node o).childRule = some q := (hnew.twoWay.child_eq_some o q).mpr ⟨hq, ho⟩
    rcases htwin.child hg hnew hsame with ⟨-, hnone⟩ | ⟨r, q', hr', hq', hr, -, hrule⟩
    · exact absurd (hchild.symm.trans hnone) (Option.some_ne_none q)
    · obtain rfl : q = q' := Option.some.inj (hchild.symm.trans hq')
      have hpath := hrule.inputs (new.node m).path
      rw [hnew.explicitInputs_eq] at hpath
      obtain ⟨k, hk, heq⟩ := List.mem_map.mp (hpath.mpr (List.mem_map_of_mem hm))
      exact ⟨k, (h.walked.rebuilt n hn r hr' (Set.notMem_empty r)).explicitInputs k hk,
        hg.mem_allocated_of_explicit hr hk, hnew.allocated q hq m (Or.inl hm), heq⟩

/-- All nodes have been met: those that only implicit inputs need were put back
with their rules. -/
theorem RootsDone.met (h : RootsDone g new (new.roots.sort (· ≤ ·)) s) :
    ∀ n ∈ g.allocated, Met g s n := by
  intro n hn
  rcases hsame.new_node n hn with ⟨m, hm, hpath⟩ | ⟨r, hr, himplicit⟩
  · obtain ⟨n', hn', htwin⟩ := h.seen_of_mem hg hnew hsame m hm
    obtain rfl := (Twin.mk hn hm hpath : Twin g new n m).unique hg htwin
    exact h.walked.met n hn'
  · obtain ⟨o, ho⟩ := List.exists_mem_of_ne_nil _ (hg.output r hr)
    have hchild : (g.node o).childRule = some r := (hg.twoWay.child_eq_some o r).mpr ⟨hr, ho⟩
    obtain ⟨q, hq, hrule⟩ := hsame.new_rule r hr
    obtain ⟨m, hm, hpath⟩ := List.mem_map.mp ((hrule.outputs _).mp (List.mem_map_of_mem ho))
    have hmem := hnew.allocated q hq m (Or.inr hm)
    obtain ⟨o', ho', htwin⟩ := h.seen_of_mem hg hnew hsame m hmem
    have htwin' : Twin g new o m := ⟨hg.allocated r hr o (Or.inr ho), hmem, hpath.symm⟩
    obtain rfl := htwin'.unique hg htwin
    exact (h.walked.rebuilt o ho' r hchild (Set.notMem_empty r)).implicitDeps n himplicit

end Traversal

end GraphReloader

/-- `g'` is `g` but for the order of the explicit inputs and of the outputs of
its rules. -/
structure Graph.Unchanged (g g' : Graph) : Prop where
  node : g'.node = g.node
  rule : ∀ r, (g.rule r).Kept (g'.rule r)
  roots : g'.roots = g.roots
  sources : g'.sources = g.sources
  nodes : g'.nodes = g.nodes
  rules : g'.rules = g.rules
  allocated : g'.allocated = g.allocated
  exact : g'.Exact

namespace GraphReloader

section Unchanged

variable {g new : Graph} {s : Reload} (hg : g.Reloadable) (hnew : Fresh new)
  (hsame : SameStructure g new)
include hg hnew hsame

theorem RootsDone.originalNodes_eq (h : RootsDone g new (new.roots.sort (· ≤ ·)) s) :
    s.originalNodes = [] := by
  have hmet := h.met hg hnew hsame
  rw [List.eq_nil_iff_forall_not_mem]
  intro e he
  obtain ⟨hmem, hpath⟩ := hg.nodes e (h.walked.original he)
  exact (hmet e.2 hmem).original e he hpath.symm

theorem RootsDone.roots_eq (h : RootsDone g new (new.roots.sort (· ≤ ·)) s) :
    s.graph.roots = g.roots := by
  ext n
  rw [h.roots]
  constructor
  · rintro ⟨m, hm, htwin⟩
    have himage : (g.node n).path ∈ g.roots.image fun n ↦ (g.node n).path := by
      rw [hsame.roots, htwin.path]
      exact Finset.mem_image_of_mem _ ((Finset.mem_sort _).mp hm)
    obtain ⟨k, hk, heq⟩ := Finset.mem_image.mp himage
    exact hg.path_injective (hg.roots hk) htwin.mem heq ▸ hk
  · intro hn
    have himage := Finset.mem_image_of_mem (fun n ↦ (g.node n).path) hn
    rw [hsame.roots] at himage
    obtain ⟨m, hm, heq⟩ := Finset.mem_image.mp himage
    exact ⟨m, (Finset.mem_sort _).mpr hm, hg.roots hn, ((hnew.roots m).mp hm).1, heq.symm⟩

theorem RootsDone.unchanged (h : RootsDone g new (new.roots.sort (· ≤ ·)) s) :
    g.Unchanged s.graph where
  node := h.walked.node
  rule r := h.walked.kept r (Set.notMem_empty r)
  roots := h.roots_eq hg hnew hsame
  sources := by
    apply Finset.Subset.antisymm h.walked.sources
    intro n hn
    obtain ⟨hmem, hchild⟩ := (hg.sources n).mp hn
    exact (h.met hg hnew hsame n hmem).source hchild
  nodes := h.walked.nodes
  rules := h.walked.rules
  allocated := h.walked.allocated
  exact := by
    intro r hr
    have hkept := h.walked.kept r (Set.notMem_empty r)
    have hready := hg.exact r (h.walked.rules ▸ hr)
    rw [hkept.rest, hready, Graph.nbReady, Graph.nbReady, h.walked.inputReady]
    exact (hkept.inputs.countP_eq _).symm

/-- Nothing is stale behind the traversal. -/
theorem RootsDone.updateGraph {ω : Type} {P : Platform ω} {A : Allocator} {w : ω}
    {order : List (String × NodeId) → List (String × NodeId)} (horder : ∀ l, (order l).Perm l)
    (h : RootsDone g new (new.roots.sort (· ≤ ·)) s) (hroots : updateRoots P A w new g = .ok s) :
    GraphReloader.updateGraph P A w new order g = .ok s.graph := by
  have hnil := h.originalNodes_eq hg hnew hsame
  have hclean : cleanStaleSubgraph order s = .ok s.graph := by
    have hperm := horder s.originalNodes
    rw [hnil, List.perm_nil] at hperm
    rw [cleanStaleSubgraph, hnil, hperm]
    rfl
  rw [GraphReloader.updateGraph, hroots]
  exact hclean

end Unchanged

end GraphReloader

/-- A reload with the makefile that the graph has been made from succeeds and
changes nothing. -/
theorem updateGraph_unchanged {ω : Type} (P : Platform ω) (A : Allocator) (w : ω)
    {A' : Allocator} {graphFilePath : String} {rules : List JsonVal} {g new : Graph}
    {order : List (String × NodeId) → List (String × NodeId)} (horder : ∀ l, (order l).Perm l)
    (hparse : GraphParser.processJson A' graphFilePath rules = .ok new) (hg : g.Reloadable)
    (hsame : SameStructure g new) :
    ∃ g', GraphReloader.updateGraph P A w new order g = .ok g' ∧ g.Unchanged g' := by
  have hnew := GraphReloader.fresh_of_processJson hparse
  obtain ⟨s, hroots, h⟩ :=
    GraphReloader.updateRoots_spec (P := P) (A := A) (w := w) hg hnew hsame
  exact ⟨s.graph, h.updateGraph hg hnew hsame horder hroots, h.unchanged hg hnew hsame⟩

/-! ## A graph that has just been parsed -/

namespace GraphParser.Parsed

variable {g : Graph} (h : Parsed g)
include h

theorem sameStructure_self : SameStructure g g where
  unique _ hm _ hm' heq := h.path_injective hm hm' heq
  node m hm := ⟨m, hm, rfl⟩
  new_node n hn := Or.inl ⟨n, hn, rfl⟩
  rule q hq := ⟨q, hq, rfl, rfl, fun _ ↦ Iff.rfl, fun _ ↦ Iff.rfl⟩
  new_rule r hr := ⟨r, hr, rfl, rfl, fun _ ↦ Iff.rfl, fun _ ↦ Iff.rfl⟩
  roots := rfl

theorem reloadable (hp : GraphDependencyScan.Pristine g) (hacyclic : g.links.Acyclic)
    (hout : ∀ r ∈ g.rules, (g.rule r).outputs ≠ []) : g.Reloadable where
  twoWay := h.twoWay
  acyclic := hacyclic.mono fun _ _ ⟨r, hchild, hm⟩ ↦ ⟨r, hchild, List.mem_of_mem_take hm⟩
  allocated := h.allocated
  lookup := h.lookup
  nodes := h.nodes
  roots n hn := ((h.roots n).mp hn).1
  sources := h.sources
  output := hout
  implicit r _ := by
    rw [h.explicit r]
    exact Nat.zero_le _
  exact r hr := by
    have hall : ∀ n ∈ (g.rule r).inputs, g.inputReady n = true := by
      intro n _
      simp [Graph.inputReady, (hp.node n).1]
    rw [(hp.rule r hr).2, Graph.nbReady, List.countP_eq_length.mpr hall]

end GraphParser.Parsed

theorem SameStructure.of_links {g g' new : Graph} (h : SameStructure g new)
    (hl : g'.links = g.links) : SameStructure g' new := by
  have hallocated : g'.allocated = g.allocated := Graph.allocated_of_links hl
  have hpath : ∀ n, (g'.node n).path = (g.node n).path := Graph.path_of_links hl
  have hrules : g'.rules = g.rules := Graph.rules_of_links hl
  have hnum : ∀ r, (g'.rule r).numImplicitDeps = (g.rule r).numImplicitDeps :=
    congrFun (congrArg Links.numImplicit hl)
  have hroots : g'.roots = g.roots := congrArg Links.roots hl
  have hrule : ∀ r q, SameRule g new r q → SameRule g' new r q := by
    intro r q hsame
    have hdepfile : (g'.rule r).depfile = (g.rule r).depfile :=
      congrFun (congrArg Links.depfile hl) r
    constructor
    · rw [Graph.command_of_links hl]
      exact hsame.command
    · rw [hdepfile]
      exact hsame.depfile
    · simp only [hpath, Hash.explicitInputs, Graph.inputs_of_links hl, hnum]
      exact hsame.inputs
    · simp only [hpath, Graph.outputs_of_links hl]
      exact hsame.outputs
  constructor
  · exact h.unique
  · simp only [hallocated, hpath]
    exact h.node
  · simp only [hallocated, hpath, hrules, Depfile.implicitDeps, Graph.inputs_of_links hl, hnum]
    exact h.new_node
  · intro q hq
    obtain ⟨r, hr, hsame⟩ := h.rule q hq
    exact ⟨r, hrules ▸ hr, hrule r q hsame⟩
  · intro r hr
    obtain ⟨q, hq, hsame⟩ := h.new_rule r (hrules ▸ hr)
    exact ⟨q, hq, hrule r q hsame⟩
  · simp only [hroots, hpath]
    exact h.roots

/-- A graph that has just been scanned can be reloaded. -/
theorem Startable.reloadable_scan {ω : Type} {P : Platform ω} {A : Allocator}
    {graphFilePath : String} {rules : List JsonVal} {g g' : Graph} {w w' : ω}
    (h : Startable graphFilePath g)
    (hparse : GraphParser.processJson A graphFilePath rules = .ok g)
    (hsha : ∀ s, (P.sha256 s).length = 32)
    (hscan : GraphDependencyScan.scan P g w = .ok (g', w')) :
    g'.Reloadable ∧ SameStructure g' g := by
  obtain ⟨hparsed, hpristine, -⟩ := GraphParser.processJson_parsed hparse h.makefile
  obtain ⟨s, hrun, hs, -, hseen⟩ := GraphDependencyScan.scan_spec
    (Platform.digest_ne_empty hsha) (h.linked hparsed) hpristine h.noDepfile w
  obtain ⟨rfl, -⟩ := Prod.mk.inj (Except.ok.inj (hrun.symm.trans hscan))
  have hl : s.graph.links = g.links := hs.links
  have hlinked : s.graph.Linked := (h.linked hparsed).of_links hl
  refine ⟨?_, hparsed.sameStructure_self.of_links hl⟩
  constructor
  · exact hlinked.twoWay
  · exact hlinked.acyclic.mono fun _ _ ⟨r, hchild, hm⟩ ↦ ⟨r, hchild, List.mem_of_mem_take hm⟩
  · exact hlinked.allocated
  · exact hlinked.lookup
  · exact hlinked.nodes
  · exact fun n hn ↦ ((hlinked.roots n).mp hn).1
  · exact hlinked.sources
  · exact hlinked.output
  · intro r _
    have hnum : (s.graph.rule r).numImplicitDeps = (g.rule r).numImplicitDeps :=
      congrFun (congrArg Links.numImplicit hl) r
    rw [hnum, hparsed.explicit r]
    exact Nat.zero_le _
  · intro r hr
    rw [Graph.rules_of_links hl] at hr
    exact hs.ready hseen hr

/-! ## A rule with an implicit input -/

/-- `yacc` makes two files, a depfile may name one of them, and `all` is phony. -/
def yaccMakefile : List JsonVal :=
  [.object [("inputs", .array [.string "parse.y"]),
    ("outputs", .array [.string "parse.c", .string "parse.h"]),
    ("cmd", .string "yacc -d parse.y")],
   .object [("inputs", .array [.string "main.c"]), ("outputs", .array [.string "main.o"]),
    ("cmd", .string "cc -MD -c main.c"), ("depfile", .string "main.d")],
   .object [("inputs", .array [.string "main.o", .string "parse.c"]),
    ("outputs", .array [.string "all"])]]

/-- The graph of the daemon some time later: the depfile has made `parse.h` an
implicit input of `main.o`, and `parse.y` has been edited. -/
def editedGraph : Graph where
  node
    | 0 => Node.create "falcon.json" true false
    | 1 => { Node.create "parse.y" true false with parentRules := [0], state := .outOfDate }
    | 2 => { Node.create "parse.c" true false with
        childRule := some 0, parentRules := [2], state := .outOfDate }
    | 3 => { Node.create "parse.h" true false with
        childRule := some 0, parentRules := [1], state := .outOfDate }
    | 4 => { Node.create "main.c" true false with parentRules := [1] }
    | 5 => { Node.create "main.o" true false with
        childRule := some 1, parentRules := [2], state := .outOfDate }
    | 6 => { Node.create "all" true false with childRule := some 2, state := .outOfDate }
    | _ => Node.create "" true false
  rule
    | 0 => { Rule.create [1] [2, 3] with
        command := "yacc -d parse.y", state := .outOfDate, numInputsReady := 1 }
    | 1 => { Rule.create [4, 3] [5] with
        numImplicitDeps := 1, command := "cc -MD -c main.c", depfile := "main.d"
        state := .outOfDate, numInputsReady := 1 }
    | 2 => { Rule.create [5, 2] [6] with state := .outOfDate }
    | _ => Rule.create [] []
  roots := {0, 3, 6}
  sources := {0, 1, 4}
  nodes := [("falcon.json", 0), ("parse.y", 1), ("parse.c", 2), ("parse.h", 3), ("main.c", 4),
    ("main.o", 5), ("all", 6)]
  rules := [0, 1, 2]
  allocated := {0, 1, 2, 3, 4, 5, 6}

theorem twoWay_editedGraph : editedGraph.links.TwoWay :=
  @Links.twoWay_of_bounded _ 7 (fun _ ↦ ⟨rfl, rfl⟩) (by decide) (by decide)

theorem reloadable_editedGraph : editedGraph.Reloadable where
  twoWay := twoWay_editedGraph
  acyclic := by
    have hacyclic := twoWay_editedGraph.acyclic_of_rank id (by decide)
    exact hacyclic.mono fun _ _ ⟨r, hchild, hm⟩ ↦ ⟨r, hchild, List.mem_of_mem_take hm⟩
  allocated := by
    have hall : ∀ r ∈ editedGraph.rules, ∀ n ∈ (editedGraph.rule r).inputs ++
        (editedGraph.rule r).outputs, n ∈ editedGraph.allocated := by decide
    exact fun r hr n hn ↦ hall r hr n (List.mem_append.mpr hn)
  lookup := by decide
  nodes := by decide
  roots := by decide
  sources n := by
    have hsource : ∀ n ∈ editedGraph.sources,
        n ∈ editedGraph.allocated ∧ (editedGraph.node n).childRule = none := by decide
    have hall : ∀ n ∈ editedGraph.allocated, (editedGraph.node n).childRule = none →
        n ∈ editedGraph.sources := by decide
    exact ⟨hsource n, fun hn ↦ hall n hn.1 hn.2⟩
  output := by decide
  implicit := by decide
  exact := by
    rw [Graph.Exact]
    decide

/-- What a makefile says of a rule. -/
def Graph.stated (g : Graph) (r : RuleId) : String × String × Finset String × Finset String :=
  ((g.rule r).command, (g.rule r).depfile,
    ((Hash.explicitInputs (g.rule r)).map fun n ↦ (g.node n).path).toFinset,
    ((g.rule r).outputs.map fun n ↦ (g.node n).path).toFinset)

theorem sameRule_of_stated {g new : Graph} {r q : RuleId} (h : g.stated r = new.stated q) :
    SameRule g new r q := by
  simp only [Graph.stated, Prod.mk.injEq] at h
  obtain ⟨hcommand, hdepfile, hinputs, houtputs⟩ := h
  refine ⟨hcommand, hdepfile, fun path ↦ ?_, fun path ↦ ?_⟩
  · rw [← List.mem_toFinset, hinputs, List.mem_toFinset]
  · rw [← List.mem_toFinset, houtputs, List.mem_toFinset]

/-- The makefile still says the same. -/
theorem exists_yaccMakefile :
    ∃ new, GraphParser.processJson bumpAllocator "falcon.json" yaccMakefile = .ok new ∧
      SameStructure editedGraph new := by
  have hfacts : (GraphParser.processJson bumpAllocator "falcon.json" yaccMakefile).toOption.any
      (fun new ↦ decide ((∀ m ∈ new.allocated, ∀ m' ∈ new.allocated,
          (new.node m).path = (new.node m').path → m = m') ∧
        (∀ m ∈ new.allocated, ∃ n ∈ editedGraph.allocated,
          (editedGraph.node n).path = (new.node m).path) ∧
        (∀ n ∈ editedGraph.allocated, ∃ m ∈ new.allocated,
          (editedGraph.node n).path = (new.node m).path) ∧
        new.rules.map new.stated = editedGraph.rules.map editedGraph.stated ∧
        editedGraph.roots.image (fun n ↦ (editedGraph.node n).path) =
          new.roots.image fun m ↦ (new.node m).path)) = true := by
    delta GraphParser.processJson GraphParser.processRule GraphParser.checkNode
    simp only [Lib.sort_eq_insertSort]
    decide +kernel
  cases hparse : GraphParser.processJson bumpAllocator "falcon.json" yaccMakefile with
  | error f =>
      rw [hparse] at hfacts
      cases hfacts
  | ok new =>
      rw [hparse] at hfacts
      simp only [Except.toOption, Option.any_some] at hfacts
      obtain ⟨hunique, hnode, hnew, hrules, hroots⟩ := of_decide_eq_true hfacts
      refine ⟨new, rfl, hunique, hnode, fun n hn ↦ Or.inl (hnew n hn), fun q hq ↦ ?_,
        fun r hr ↦ ?_, hroots⟩
      · obtain ⟨r, hr, heq⟩ := List.mem_map.mp (hrules ▸ List.mem_map_of_mem hq)
        exact ⟨r, hr, sameRule_of_stated heq⟩
      · obtain ⟨q, hq, heq⟩ := List.mem_map.mp (hrules.symm ▸ List.mem_map_of_mem hr)
        exact ⟨q, hq, sameRule_of_stated heq.symm⟩

theorem updateGraph_unchanged_yacc : ∃ new g',
    GraphParser.processJson bumpAllocator "falcon.json" yaccMakefile = .ok new ∧
      GraphReloader.updateGraph touchHost.platform bumpAllocator (touchDisk 1) new List.reverse
        editedGraph = .ok g' ∧
      editedGraph.Unchanged g' := by
  obtain ⟨new, hparse, hsame⟩ := exists_yaccMakefile
  obtain ⟨g', hrun, hunchanged⟩ := updateGraph_unchanged touchHost.platform bumpAllocator
    (touchDisk 1) List.reverse_perm hparse reloadable_editedGraph hsame
  exact ⟨new, g', hparse, hrun, hunchanged⟩

end Falcon
