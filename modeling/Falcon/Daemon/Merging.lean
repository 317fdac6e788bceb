import Falcon.Daemon.Unchanged
import Falcon.Graph.Woven

/-!
# Reloading a changed makefile

A node of the old graph corresponds to the node of the new graph with its path,
and a rule to the rule of the new graph that it shares an output with.  The
reloader copes with many changes of a makefile, but not with all of them:
`Mergeable` says with which.
-/

namespace Falcon

open Relation Lib

namespace Graph

variable {g g' : Graph} {l : List NodeId} {n : NodeId} {path : String}

/-- The paths of the nodes of a list. -/
def paths (g : Graph) (l : List NodeId) : List String := l.map fun n ↦ (g.node n).path

/-- Some rule generates the file. -/
def Makes (g : Graph) (path : String) : Prop := ∃ r ∈ g.rules, path ∈ g.paths (g.rule r).outputs

/-- The graph has a node for the file. -/
def Holds (g : Graph) (path : String) : Prop := ∃ n ∈ g.allocated, (g.node n).path = path

theorem mem_paths : path ∈ g.paths l ↔ ∃ n ∈ l, (g.node n).path = path := List.mem_map

theorem path_mem_paths (hn : n ∈ l) : (g.node n).path ∈ g.paths l :=
  mem_paths.mpr ⟨n, hn, rfl⟩

theorem paths_congr (h : ∀ n ∈ l, (g'.node n).path = (g.node n).path) : g'.paths l = g.paths l :=
  List.map_congr_left h

theorem Reloadable.woven (h : g.Reloadable) (hnodup : g.rules.Nodup) : g.Woven fun _ ↦ [] where
  parents n r := by
    rw [List.append_nil]
    exact h.twoWay.mem_parents n r
  child := h.twoWay.child_eq_some
  parents_nodup := h.twoWay.parents_nodup
  inputs_nodup r hr := by
    rw [List.append_nil]
    exact h.twoWay.inputs_nodup r hr
  outputs_nodup := h.twoWay.outputs_nodup
  rules_nodup := hnodup
  output := h.output
  allocated r hr n hn := by
    rw [List.append_nil] at hn
    exact h.allocated r hr n hn
  lookup := h.lookup
  nodes := h.nodes

end Graph

namespace GraphReloader

variable {ω : Type} {P : Platform ω} {A : Allocator} {w : ω} {g new k k' : Graph}
  {s s' : Reload} {n m : NodeId} {r q : RuleId} {path : String}

/-! ## What the reloader copes with -/

/-- The two rules generate a common file. -/
def Shares (g new : Graph) (r q : RuleId) : Prop :=
  ∃ path ∈ g.paths (g.rule r).outputs, path ∈ new.paths (new.rule q).outputs

/-- The new makefile generates neither `n` nor anything that `n` is made from. -/
def Discarded (g new : Graph) (n : NodeId) : Prop :=
  ∀ m, ReflTransGen g.links.Feeds m n → ¬ new.Makes (g.node m).path

/-- The path of an implicit input, or of one that a depfile brings. -/
def Listed (P : Platform ω) (w : ω) (g new : Graph) (path : String) : Prop :=
  (∃ r ∈ g.rules, path ∈ g.paths (Depfile.implicitDeps (g.rule r))) ∨
    ∃ q ∈ new.rules, ∃ content output ins, P.readFile w (new.rule q).depfile = some content ∧
      P.parseDepfile content = some (output, ins) ∧ path ∈ ins

structure Mergeable (P : Platform ω) (w : ω) (g new : Graph) : Prop where
  woven : g.Woven fun _ ↦ []
  -- The new makefile does not list itself.
  unique : ∀ m ∈ new.allocated, ∀ m' ∈ new.allocated,
    (new.node m).path = (new.node m').path → m = m'
  output : ∀ q ∈ new.rules, (new.rule q).outputs ≠ []
  -- Not even out of reach of the roots is there a cycle.
  acyclic : new.links.Acyclic
  -- Rules are neither merged nor split.
  outputs : ∀ r ∈ g.rules, ∀ q ∈ new.rules, Shares g new r q → ∀ path,
    path ∈ g.paths (g.rule r).outputs ↔ path ∈ new.paths (new.rule q).outputs
  -- An input that a rule loses is given up with all that it is made from.
  inputs : ∀ r ∈ g.rules, ∀ q ∈ new.rules, Shares g new r q →
    ∀ n ∈ Hash.explicitInputs (g.rule r),
      (g.node n).path ∈ new.paths (new.rule q).inputs ∨ Discarded g new n
  -- No implicit input of a rule becomes an explicit one of it.
  implicit : ∀ r ∈ g.rules, ∀ q ∈ new.rules, Shares g new r q →
    ∀ n ∈ Depfile.implicitDeps (g.rule r), (g.node n).path ∉ new.paths (new.rule q).inputs
  -- No depfile lists a target that is gone.
  gone : ∀ n r, (g.node n).childRule = some r → ¬ new.Holds (g.node n).path →
    ¬ Listed P w g new (g.node n).path

/-- What is used of the new graph. -/
structure Clean (new : Graph) : Prop extends Fresh new where
  unique : ∀ m ∈ new.allocated, ∀ m' ∈ new.allocated,
    (new.node m).path = (new.node m').path → m = m'
  output : ∀ q ∈ new.rules, (new.rule q).outputs ≠ []
  acyclic : new.links.Acyclic

theorem Mergeable.clean (hg : Mergeable P w g new) (hnew : Fresh new) : Clean new :=
  ⟨hnew, hg.unique, hg.output, hg.acyclic⟩

namespace Clean

variable (hnew : Clean new)
include hnew

/-- No two rules generate the same file. -/
theorem rule_unique {q q' : RuleId} (hq : q ∈ new.rules) (hq' : q' ∈ new.rules)
    (hpath : path ∈ new.paths (new.rule q).outputs)
    (hpath' : path ∈ new.paths (new.rule q').outputs) : q = q' := by
  obtain ⟨m, hm, hself⟩ := Graph.mem_paths.mp hpath
  obtain ⟨m', hm', hself'⟩ := Graph.mem_paths.mp hpath'
  obtain rfl := hnew.unique m (hnew.allocated q hq m (Or.inr hm)) m'
    (hnew.allocated q' hq' m' (Or.inr hm')) (hself.trans hself'.symm)
  have hchild := (hnew.twoWay.child_eq_some m q).mpr ⟨hq, hm⟩
  have hchild' := (hnew.twoWay.child_eq_some m q').mpr ⟨hq', hm'⟩
  exact Option.some.inj (hchild.symm.trans hchild')

theorem makes_iff (hm : m ∈ new.allocated) :
    new.Makes (new.node m).path ↔ ∃ q, (new.node m).childRule = some q := by
  constructor
  · rintro ⟨q, hq, hpath⟩
    obtain ⟨m', hm', hself⟩ := Graph.mem_paths.mp hpath
    obtain rfl := hnew.unique m' (hnew.allocated q hq m' (Or.inr hm')) m hm hself
    exact ⟨q, (hnew.twoWay.child_eq_some m' q).mpr ⟨hq, hm'⟩⟩
  · rintro ⟨q, hchild⟩
    obtain ⟨hq, hout⟩ := (hnew.twoWay.child_eq_some m q).mp hchild
    exact ⟨q, hq, Graph.path_mem_paths hout⟩

theorem holds_of_makes (hmakes : new.Makes path) : new.Holds path := by
  obtain ⟨q, hq, hpath⟩ := hmakes
  obtain ⟨m, hm, hself⟩ := Graph.mem_paths.mp hpath
  exact ⟨m, hnew.allocated q hq m (Or.inr hm), hself⟩

theorem paths_nodup {l : List NodeId} (hl : l.Nodup) (hmem : ∀ m ∈ l, m ∈ new.allocated) :
    (new.paths l).Nodup := by
  apply List.Nodup.map_on _ hl
  exact fun m hm m' hm' heq ↦ hnew.unique m (hmem m hm) m' (hmem m' hm') heq

end Clean

/-! ## The state of the reloader -/

/-- The rules that are taken apart: the rule of the new graph that each is
turned into, and the nodes that hang loose. -/
abbrev Opened := RuleId → Option (RuleId × List NodeId)

def loose (O : Opened) (r : RuleId) : List NodeId := ((O r).map Prod.snd).getD []

/-- The rule `r` is turned into `q`, and `l` hangs loose. -/
def openRule (O : Opened) (r q : RuleId) (l : List NodeId) : Opened :=
  Function.update O r (some (q, l))

variable {O O' : Opened} {l l' : List NodeId}

theorem openRule_self : openRule O r q l r = some (q, l) := Function.update_self ..

theorem openRule_ne {p : RuleId} (hp : p ≠ r) : openRule O r q l p = O p :=
  Function.update_of_ne hp ..

theorem loose_openRule : loose (openRule O r q l) = Function.update (loose O) r l := by
  funext p
  by_cases hp : p = r
  · rw [hp, Function.update_self, loose, openRule_self]
    rfl
  · rw [Function.update_of_ne hp, loose, openRule_ne hp, loose]

theorem loose_openRule_self : loose (openRule O r q l) r = l := by
  rw [loose_openRule, Function.update_self]

theorem loose_none (hr : O r = none) : loose O r = [] := by
  rw [loose, hr]
  rfl

/-- A rule of the old graph that has not been reached, and what it will be
turned into. -/
structure Turns (g new k : Graph) (r q : RuleId) : Prop where
  outputs : ∀ path, path ∈ k.paths (k.rule r).outputs ↔ path ∈ new.paths (new.rule q).outputs
  inputs : ∀ n ∈ Hash.explicitInputs (k.rule r),
    (k.node n).path ∈ new.paths (new.rule q).inputs ∨ n ∈ g.allocated ∧ Discarded g new n
  implicit : ∀ n ∈ Depfile.implicitDeps (k.rule r),
    (k.node n).path ∉ new.paths (new.rule q).inputs

/-- A rule that the new makefile does not have, in whole or in part. -/
structure Old (g k : Graph) (r : RuleId) : Prop where
  mem : r ∈ g.rules
  inputs : (k.rule r).inputs = (g.rule r).inputs
  outputs : (k.rule r).outputs ⊆ (g.rule r).outputs

/-- A rule that has been turned into `q`. -/
structure Remade (new : Graph) (s : Reload) (r q : RuleId) : Prop where
  inputs : ∀ n ∈ Hash.explicitInputs (s.graph.rule r),
    (s.graph.node n).path ∈ new.paths (new.rule q).inputs
  seen : ∀ path ∈ new.paths (new.rule q).inputs, ∃ n ∈ s.nodesSeen, (s.graph.node n).path = path

structure Merging (P : Platform ω) (w : ω) (g new : Graph) (O : Opened) (s : Reload) : Prop where
  woven : s.graph.Woven (loose O)
  node : ∀ n ∈ g.allocated, n ∈ s.graph.allocated ∧ (s.graph.node n).path = (g.node n).path
  opened : ∀ r q l, O r = some (q, l) → r ∈ s.graph.rules ∧ q ∈ new.rules ∧
    ∀ path ∈ s.graph.paths (s.graph.rule r).outputs, path ∈ new.paths (new.rule q).outputs
  turns : ∀ r ∈ s.graph.rules, O r = none → ∀ q ∈ new.rules, Shares s.graph new r q →
    Turns g new s.graph r q
  old : ∀ r ∈ s.graph.rules, O r = none → (∀ q ∈ new.rules, ¬ Shares s.graph new r q) →
    Old g s.graph r
  implicit : ∀ r ∈ s.graph.rules, O r = none → ∀ n ∈ Depfile.implicitDeps (s.graph.rule r),
    Listed P w g new (s.graph.node n).path
  seen : ∀ n ∈ s.nodesSeen, n ∈ s.graph.allocated ∧ new.Holds (s.graph.node n).path ∧
    ((s.graph.node n).childRule = none ↔ ¬ new.Makes (s.graph.node n).path)
  remade : ∀ n ∈ s.nodesSeen, ∀ r, (s.graph.node n).childRule = some r → O r = none →
    ∀ q ∈ new.rules, Shares s.graph new r q → Remade new s r q
  original : ∀ e ∈ s.originalNodes, e.2 ∈ s.graph.allocated ∧ (s.graph.node e.2).path = e.1
  met : ∀ n ∈ s.nodesSeen, ∀ e ∈ s.originalNodes, e.1 ≠ (s.graph.node n).path
  unmet : ∀ n ∈ s.graph.allocated, (∃ e ∈ s.originalNodes, e.1 = (s.graph.node n).path) ∨
    new.Holds (s.graph.node n).path ∨ Listed P w g new (s.graph.node n).path

namespace Merging

/-- Most steps leave the rules alone that are not taken apart; a rule that the
new makefile does not have may lose outputs. -/
theorem frame (h : Merging P w g new O s) (hwoven : s'.graph.Woven (loose O'))
    (hnode : ∀ n ∈ s.graph.allocated, n ∈ s'.graph.allocated ∧
      (s'.graph.node n).path = (s.graph.node n).path)
    (hchild : ∀ n ∈ s.nodesSeen, (s'.graph.node n).childRule = (s.graph.node n).childRule)
    (hcreated : ∀ n ∈ s'.graph.allocated, n ∉ s.graph.allocated →
      new.Holds (s'.graph.node n).path ∨ Listed P w g new (s'.graph.node n).path)
    (hopened : ∀ r q l, O' r = some (q, l) → r ∈ s'.graph.rules ∧ q ∈ new.rules ∧
      ∀ path ∈ s'.graph.paths (s'.graph.rule r).outputs, path ∈ new.paths (new.rule q).outputs)
    (hclosed : ∀ r ∈ s'.graph.rules, O' r = none → r ∈ s.graph.rules ∧ O r = none ∧
      (s'.graph.rule r).inputs = (s.graph.rule r).inputs ∧
      (s'.graph.rule r).numImplicitDeps = (s.graph.rule r).numImplicitDeps ∧
      ((s'.graph.rule r).outputs = (s.graph.rule r).outputs ∨
        (s'.graph.rule r).outputs ⊆ (s.graph.rule r).outputs ∧
          ∀ n ∈ (s.graph.rule r).outputs, ¬ new.Makes (s.graph.node n).path))
    (hseen : s'.nodesSeen = s.nodesSeen)
    (horiginal : ∀ e ∈ s'.originalNodes, e ∈ s.originalNodes)
    (herased : ∀ e ∈ s.originalNodes, e ∈ s'.originalNodes ∨ new.Holds e.1 ∨
      Listed P w g new e.1) : Merging P w g new O' s' := by
  have hlists : ∀ r ∈ s'.graph.rules, O' r = none →
      Hash.explicitInputs (s'.graph.rule r) = Hash.explicitInputs (s.graph.rule r) ∧
        Depfile.implicitDeps (s'.graph.rule r) = Depfile.implicitDeps (s.graph.rule r) := by
    intro r hr ho
    obtain ⟨-, -, hinputs, hnum, -⟩ := hclosed r hr ho
    simp only [Hash.explicitInputs, Depfile.implicitDeps, hinputs, hnum, and_self]
  have hmem : ∀ r ∈ s.graph.rules, ∀ n ∈ (s.graph.rule r).inputs, n ∈ s.graph.allocated :=
    fun r hr n hn ↦ h.woven.allocated r hr n (Or.inl (List.mem_append_left _ hn))
  have hpaths : ∀ r ∈ s.graph.rules, ∀ outputs ⊆ (s.graph.rule r).outputs,
      s'.graph.paths outputs = s.graph.paths outputs := by
    intro r hr outputs hsub
    exact Graph.paths_congr fun n hn ↦
      (hnode n (h.woven.allocated r hr n (Or.inr (hsub hn)))).2
  -- a rule that shares an output has not lost any
  have hshares : ∀ r ∈ s'.graph.rules, O' r = none → ∀ q ∈ new.rules,
      Shares s'.graph new r q ↔ Shares s.graph new r q := by
    intro r hr ho q hq
    obtain ⟨hr₀, -, -, -, heq | ⟨hsub, hgone⟩⟩ := hclosed r hr ho
    · rw [Shares, heq, hpaths r hr₀ _ (List.Subset.refl _), Shares]
    · constructor
      · rintro ⟨path, hpath, hq'⟩
        rw [hpaths r hr₀ _ hsub] at hpath
        obtain ⟨n, hn, rfl⟩ := Graph.mem_paths.mp hpath
        exact absurd ⟨q, hq, hq'⟩ (hgone n (hsub hn))
      · rintro ⟨path, hpath, hq'⟩
        obtain ⟨n, hn, rfl⟩ := Graph.mem_paths.mp hpath
        exact absurd ⟨q, hq, hq'⟩ (hgone n hn)
  constructor
  · exact hwoven
  · intro n hn
    obtain ⟨hin, hpath⟩ := h.node n hn
    obtain ⟨hin', hpath'⟩ := hnode n hin
    exact ⟨hin', hpath'.trans hpath⟩
  · exact hopened
  · intro r hr ho q hq hshare
    have hshare₀ := (hshares r hr ho q hq).mp hshare
    obtain ⟨hr₀, ho₀, -, -, hcases⟩ := hclosed r hr ho
    have hturns := h.turns r hr₀ ho₀ q hq hshare₀
    obtain ⟨hexplicit, himplicit⟩ := hlists r hr ho
    have heq : (s'.graph.rule r).outputs = (s.graph.rule r).outputs := by
      rcases hcases with heq | ⟨-, hgone⟩
      · exact heq
      · obtain ⟨path, hpath, hq'⟩ := hshare₀
        obtain ⟨n, hn, rfl⟩ := Graph.mem_paths.mp hpath
        exact absurd ⟨q, hq, hq'⟩ (hgone n hn)
    refine ⟨fun path ↦ ?_, fun n hn ↦ ?_, fun n hn ↦ ?_⟩
    · rw [heq, hpaths r hr₀ _ (List.Subset.refl _)]
      exact hturns.outputs path
    · rw [hexplicit] at hn
      rw [(hnode n (hmem r hr₀ n (List.mem_of_mem_take hn))).2]
      exact hturns.inputs n hn
    · rw [himplicit] at hn
      rw [(hnode n (hmem r hr₀ n (List.mem_of_mem_drop hn))).2]
      exact hturns.implicit n hn
  · intro r hr ho hno
    obtain ⟨hr₀, ho₀, hinputs, -, hcases⟩ := hclosed r hr ho
    have hold := h.old r hr₀ ho₀ fun q hq hshare ↦ hno q hq ((hshares r hr ho q hq).mpr hshare)
    have hsub : (s'.graph.rule r).outputs ⊆ (s.graph.rule r).outputs := by
      rcases hcases with heq | ⟨hsub, -⟩
      · rw [heq]
        exact List.Subset.refl _
      · exact hsub
    exact ⟨hold.mem, hinputs.trans hold.inputs, List.Subset.trans hsub hold.outputs⟩
  · intro r hr ho n hn
    obtain ⟨hr₀, ho₀, -⟩ := hclosed r hr ho
    rw [(hlists r hr ho).2] at hn
    rw [(hnode n (hmem r hr₀ n (List.mem_of_mem_drop hn))).2]
    exact h.implicit r hr₀ ho₀ n hn
  · intro n hn
    rw [hseen] at hn
    obtain ⟨hin, hholds, hstatus⟩ := h.seen n hn
    obtain ⟨hin', hpath⟩ := hnode n hin
    rw [hpath, hchild n hn]
    exact ⟨hin', hholds, hstatus⟩
  · intro n hn r hr ho q hq hshare
    rw [hseen] at hn
    have hrules := ((hwoven.child n r).mp hr).1
    rw [hchild n hn] at hr
    obtain ⟨hr₀, ho₀, -⟩ := hclosed r hrules ho
    have hremade := h.remade n hn r hr ho₀ q hq ((hshares r hrules ho q hq).mp hshare)
    refine ⟨fun x hx ↦ ?_, fun path hpath ↦ ?_⟩
    · rw [(hlists r hrules ho).1] at hx
      rw [(hnode x (hmem r hr₀ x (List.mem_of_mem_take hx))).2]
      exact hremade.inputs x hx
    · obtain ⟨x, hx, hself⟩ := hremade.seen path hpath
      rw [hseen]
      exact ⟨x, hx, (hnode x (h.seen x hx).1).2.trans hself⟩
  · intro e he
    obtain ⟨hin, hpath⟩ := h.original e (horiginal e he)
    obtain ⟨hin', hpath'⟩ := hnode e.2 hin
    exact ⟨hin', hpath'.trans hpath⟩
  · intro n hn e he
    rw [hseen] at hn
    rw [(hnode n (h.seen n hn).1).2]
    exact h.met n hn e (horiginal e he)
  · intro n hn
    by_cases hmem : n ∈ s.graph.allocated
    · rw [(hnode n hmem).2]
      rcases h.unmet n hmem with ⟨e, he, hpath⟩ | hrest
      · rcases herased e he with he' | hrest
        · exact Or.inl ⟨e, he', hpath⟩
        · rw [hpath] at hrest
          exact Or.inr hrest
      · exact Or.inr hrest
    · exact Or.inr (hcreated n hn hmem)

end Merging

/-- The parts of the state that only grow. -/
structure Onward (O : Opened) (s s' : Reload) : Prop where
  node : ∀ n ∈ s.graph.allocated, n ∈ s'.graph.allocated ∧
    (s'.graph.node n).path = (s.graph.node n).path
  seen : s.nodesSeen ⊆ s'.nodesSeen
  rule : ∀ r, O r ≠ none → s'.graph.rule r = s.graph.rule r

theorem Onward.refl (O : Opened) (s : Reload) : Onward O s s :=
  ⟨fun _ hn ↦ ⟨hn, rfl⟩, Finset.Subset.refl _, fun _ _ ↦ rfl⟩

theorem Onward.trans {s'' : Reload} (h : Onward O s s') (h' : Onward O s' s'') :
    Onward O s s'' where
  node n hn := by
    obtain ⟨hin, hpath⟩ := h.node n hn
    obtain ⟨hin', hpath'⟩ := h'.node n hin
    exact ⟨hin', hpath'.trans hpath⟩
  seen := h.seen.trans h'.seen
  rule r hr := (h'.rule r hr).trans (h.rule r hr)

theorem Onward.mono (h : Onward O s s') (hsub : ∀ r, O' r ≠ none → O r ≠ none) :
    Onward O' s s' :=
  ⟨h.node, h.seen, fun r hr ↦ h.rule r (hsub r hr)⟩

/-! ## Single steps -/

/-- Nothing has changed but hashes, states, counters, roots and sources. -/
structure SameLists (k k' : Graph) : Prop where
  node : ∀ n, (k'.node n).path = (k.node n).path ∧
    (k'.node n).childRule = (k.node n).childRule ∧
      (k'.node n).parentRules = (k.node n).parentRules
  rule : ∀ r, (k'.rule r).inputs = (k.rule r).inputs ∧ (k'.rule r).outputs = (k.rule r).outputs ∧
    (k'.rule r).numImplicitDeps = (k.rule r).numImplicitDeps
  rules : k'.rules = k.rules
  allocated : k'.allocated = k.allocated
  nodes : k'.nodes = k.nodes

theorem SameLists.of_links (hl : k'.links = k.links) : SameLists k k' where
  node n := ⟨Graph.path_of_links hl n, Graph.childRule_of_links hl n,
    Graph.parentRules_of_links hl n⟩
  rule r := ⟨Graph.inputs_of_links hl r, Graph.outputs_of_links hl r,
    congrFun (congrArg Links.numImplicit hl) r⟩
  rules := Graph.rules_of_links hl
  allocated := Graph.allocated_of_links hl
  nodes := congrArg Links.nodes hl

theorem SameLists.updateRule (k : Graph) (r : RuleId) {f : Rule → Rule}
    (hf : ∀ x, (f x).inputs = x.inputs ∧ (f x).outputs = x.outputs ∧
      (f x).numImplicitDeps = x.numImplicitDeps) : SameLists k (k.updateRule r f) where
  node _ := ⟨rfl, rfl, rfl⟩
  rule p := by
    by_cases hp : p = r
    · rw [hp, Graph.updateRule, Graph.setRule_rule, if_pos rfl]
      exact hf (k.rule r)
    · rw [Graph.updateRule, Graph.setRule_rule, if_neg hp]
      exact ⟨rfl, rfl, rfl⟩
  rules := rfl
  allocated := rfl
  nodes := rfl

theorem onward_updateRule (hr : O r = none) (s : Reload) (f : Rule → Rule) :
    Onward O s { s with graph := s.graph.updateRule r f } where
  node _ hn := ⟨hn, rfl⟩
  seen := Finset.Subset.refl _
  rule p hp := by
    have hne : p ≠ r := fun heq ↦ hp (heq ▸ hr)
    change (s.graph.updateRule r f).rule p = s.graph.rule p
    rw [Graph.updateRule, Graph.setRule_rule, if_neg hne]

namespace Merging

theorem touch (h : Merging P w g new O s) (hsame : SameLists s.graph k') :
    Merging P w g new O { s with graph := k' } := by
  have hpaths : ∀ l, k'.paths l = s.graph.paths l :=
    fun l ↦ Graph.paths_congr fun n _ ↦ (hsame.node n).1
  apply h.frame
  · apply h.woven.congr hsame.node hsame.rules hsame.allocated hsame.nodes
    · exact fun r _ ↦ (hsame.rule r).2.1
    · intro r _
      rw [(hsame.rule r).1]
  · intro n hn
    exact ⟨hsame.allocated ▸ hn, (hsame.node n).1⟩
  · exact fun n _ ↦ (hsame.node n).2.1
  · exact fun n hn hno ↦ absurd (hsame.allocated ▸ hn) hno
  · intro r q l ho
    obtain ⟨hr, hq, hout⟩ := h.opened r q l ho
    refine ⟨hsame.rules ▸ hr, hq, fun path hpath ↦ hout path ?_⟩
    rwa [hpaths, (hsame.rule r).2.1] at hpath
  · intro r hr ho
    exact ⟨hsame.rules ▸ hr, ho, (hsame.rule r).1, (hsame.rule r).2.2,
      Or.inl (hsame.rule r).2.1⟩
  · rfl
  · exact fun e he ↦ he
  · exact fun e he ↦ Or.inl he

/-- A path of the new graph or of a depfile has been met. -/
theorem erase (h : Merging P w g new O s) (path : String)
    (hpath : new.Holds path ∨ Listed P w g new path) :
    Merging P w g new O { s with originalNodes := eraseKey s.originalNodes path } := by
  apply h.frame
  · exact h.woven
  · exact fun n hn ↦ ⟨hn, rfl⟩
  · exact fun n _ ↦ rfl
  · exact fun n hn hno ↦ absurd hn hno
  · exact h.opened
  · exact fun r hr ho ↦ ⟨hr, ho, rfl, rfl, Or.inl rfl⟩
  · rfl
  · exact fun e he ↦ eraseKey_subset _ _ he
  · intro e he
    by_cases heq : e.1 = path
    · exact Or.inr (heq ▸ hpath)
    · exact Or.inl (List.mem_filter.mpr ⟨he, by simpa using heq⟩)

theorem onward_erase (O : Opened) (s : Reload) (path : String) :
    Onward O s { s with originalNodes := eraseKey s.originalNodes path } :=
  ⟨fun _ hn ↦ ⟨hn, rfl⟩, Finset.Subset.refl _, fun _ _ ↦ rfl⟩

/-- A new node, whose path has been met. -/
theorem insertNode {x : Node} (h : Merging P w g new O s) (hn : n ∉ s.graph.allocated)
    (hlinks : x.childRule = none ∧ x.parentRules = [])
    (hlookup : s.graph.nodes.lookup x.path = none)
    (hpath : new.Holds x.path ∨ Listed P w g new x.path)
    (hnode : k'.node = Function.update s.graph.node n x) (hrule : k'.rule = s.graph.rule)
    (hrules : k'.rules = s.graph.rules) (hallocated : k'.allocated = insert n s.graph.allocated)
    (hnodes : k'.nodes = s.graph.nodes ++ [(x.path, n)]) :
    Merging P w g new O { s with graph := k' } := by
  have hold : ∀ m ∈ s.graph.allocated, k'.node m = s.graph.node m := by
    intro m hm
    have hne : m ≠ n := fun heq ↦ hn (heq ▸ hm)
    rw [hnode, Function.update_of_ne hne]
  have hout : ∀ r ∈ s.graph.rules, ∀ m ∈ (s.graph.rule r).outputs, m ∈ s.graph.allocated :=
    fun r hr m hm ↦ h.woven.allocated r hr m (Or.inr hm)
  apply h.frame
  · exact h.woven.insertNode hn hlinks hlookup hnode hrule hrules hallocated hnodes
  · intro m hm
    change m ∈ k'.allocated ∧ (k'.node m).path = _
    rw [hold m hm, hallocated]
    exact ⟨Finset.mem_insert_of_mem hm, rfl⟩
  · intro m hm
    exact congrArg Node.childRule (hold m (h.seen m hm).1)
  · intro m hm hno
    obtain rfl := (Finset.mem_insert.mp (hallocated ▸ hm)).resolve_right hno
    change new.Holds (k'.node m).path ∨ Listed P w g new (k'.node m).path
    rw [hnode, Function.update_self]
    exact hpath
  · intro r q l ho
    obtain ⟨hr, hq, hall⟩ := h.opened r q l ho
    refine ⟨hrules ▸ hr, hq, fun path hpath ↦ hall path ?_⟩
    change path ∈ k'.paths (k'.rule r).outputs at hpath
    rw [hrule] at hpath
    rwa [Graph.paths_congr fun m hm ↦ congrArg Node.path (hold m (hout r hr m hm))] at hpath
  · intro r hr ho
    change r ∈ s.graph.rules ∧ O r = none ∧ (k'.rule r).inputs = _ ∧
      (k'.rule r).numImplicitDeps = _ ∧ ((k'.rule r).outputs = _ ∨ (k'.rule r).outputs ⊆ _ ∧ _)
    rw [hrule]
    exact ⟨hrules ▸ hr, ho, rfl, rfl, Or.inl rfl⟩
  · rfl
  · exact fun e he ↦ he
  · exact fun e he ↦ Or.inl he

end Merging

/-- The reloader has found or made the node `n` for the node `m` of the new
graph. -/
structure Got (new : Graph) (s : Reload) (m n : NodeId) (s' : Reload) : Prop where
  mem : n ∈ s'.graph.allocated
  path : (s'.graph.node n).path = (new.node m).path
  met : ∀ e ∈ s'.originalNodes, e.1 ≠ (new.node m).path
  seen : s'.nodesSeen = s.nodesSeen
  rule : s'.graph.rule = s.graph.rule
  rules : s'.graph.rules = s.graph.rules
  node : ∀ x ∈ s.graph.allocated, x ∈ s'.graph.allocated ∧ s'.graph.node x = s.graph.node x

theorem Got.onward (h : Got new s m n s') (O : Opened) : Onward O s s' where
  node x hx := ⟨(h.node x hx).1, by rw [(h.node x hx).2]⟩
  seen := by rw [h.seen]
  rule r _ := by rw [h.rule]

theorem getNodeFromAll_spec (h : Merging P w g new O s) (hm : m ∈ new.allocated)
    (hrun : getNodeFromAll P new s m = (n, s')) :
    Merging P w g new O s' ∧ Got new s m n s' := by
  have hholds : new.Holds (new.node m).path := ⟨m, hm, rfl⟩
  rw [getNodeFromAll] at hrun
  cases hlookup : s.graph.nodes.lookup (new.node m).path with
  | some x =>
      simp only [hlookup] at hrun
      obtain ⟨rfl, rfl⟩ := Prod.mk.inj hrun
      obtain ⟨hmem, hpath⟩ := h.woven.mem_of_lookup hlookup
      rw [hpath]
      exact ⟨h.erase _ (Or.inl hholds), hmem, hpath, not_mem_eraseKey _ _, rfl, rfl, rfl,
        fun x hx ↦ ⟨hx, rfl⟩⟩
  | none =>
      simp only [hlookup] at hrun
      obtain ⟨hn, hs'⟩ := Prod.mk.inj hrun
      obtain ⟨x, hx⟩ : ∃ x, x = Node.create (new.node m).path true
        (P.uninitialised s.graph.allocated) := ⟨_, rfl⟩
      rw [hn, ← hx] at hs'
      have hxpath : x.path = (new.node m).path := by rw [hx]; rfl
      have hfree : n ∉ s.graph.allocated := hn ▸ P.newNode_fresh s.graph.allocated
      obtain ⟨k, hk⟩ : ∃ k, k = { s.graph.setNode n x with
          nodes := s.graph.nodes ++ [((new.node m).path, n)]
          allocated := insert n s.graph.allocated } := ⟨_, rfl⟩
      rw [← hk] at hs'
      have hnode : k.node = Function.update s.graph.node n x := by rw [hk]; rfl
      have hallocated : k.allocated = insert n s.graph.allocated := by rw [hk]
      have hrule : k.rule = s.graph.rule := by rw [hk]; rfl
      have hrules : k.rules = s.graph.rules := by rw [hk]; rfl
      rw [← hs']
      refine ⟨?_, ?_, ?_, fun e he heq ↦ ?_, rfl, hrule, hrules, fun y hy ↦ ⟨?_, ?_⟩⟩
      · apply h.insertNode hfree (x := x) _ _ (Or.inl _) hnode hrule hrules hallocated
        · rw [hk, hxpath]
        · rw [hx]
          exact ⟨rfl, rfl⟩
        · rw [hxpath]
          exact hlookup
        · rw [hxpath]
          exact hholds
      · change n ∈ k.allocated
        rw [hallocated]
        exact Finset.mem_insert_self n _
      · change (k.node n).path = _
        rw [hnode, Function.update_self, hxpath]
      · obtain ⟨hin, hpath⟩ := h.original e he
        exact h.woven.lookup_eq_none hlookup hin (hpath.trans heq)
      · change y ∈ k.allocated
        rw [hallocated]
        exact Finset.mem_insert_of_mem hy
      · have hne : y ≠ n := fun heq ↦ hfree (heq ▸ hy)
        change k.node y = _
        rw [hnode, Function.update_of_ne hne]

/-! ## Taking the old graph apart -/

/-- The node without the rule as a parent. -/
def withoutParent (r : RuleId) (x : Node) : Node :=
  { x with parentRules := x.parentRules.erase r }

theorem foldlM_removeParentRule {l : List NodeId} (hl : l.Nodup)
    (hrun : l.foldlM (fun g m ↦ g.onNode m (·.removeParentRule r)) k = .ok k') :
    k' = { k with node := fun m ↦ if m ∈ l then withoutParent r (k.node m) else k.node m } := by
  induction l generalizing k with
  | nil =>
      rw [← Except.ok.inj hrun]
      simp
  | cons a l ih =>
      obtain ⟨ha, hl⟩ := List.nodup_cons.mp hl
      rw [List.foldlM_cons] at hrun
      obtain ⟨k₁, hstep, hrest⟩ := bind_eq_ok.mp hrun
      obtain ⟨-, rfl⟩ := Graph.onNode_removeParentRule.mp hstep
      rw [ih hl hrest]
      have hnode : ∀ m, (if m ∈ l then withoutParent r ((k.unlink r a).node m)
          else (k.unlink r a).node m) =
            if m ∈ a :: l then withoutParent r (k.node m) else k.node m := by
        intro m
        by_cases hm : m = a
        · rw [hm, if_neg ha, if_pos List.mem_cons_self, Graph.unlink_node_self]
          rfl
        · simp only [Graph.unlink_node_ne hm, List.mem_cons, hm, false_or]
      simp only [hnode]
      rfl

/-- The node `n` is no output of `r` any more; a rule without outputs is gone. -/
structure Unmade (k : Graph) (r : RuleId) (n : NodeId) (k' : Graph) : Prop where
  path : ∀ m, (k'.node m).path = (k.node m).path
  child : ∀ m, (k'.node m).childRule = if m = n then none else (k.node m).childRule
  rules : ∀ q ∈ k'.rules, q ∈ k.rules
  others : ∀ q ∈ k.rules, q ≠ r → q ∈ k'.rules ∧ k'.rule q = k.rule q
  rule : ∀ q, q ≠ r → k'.rule q = k.rule q
  inputs : (k'.rule r).inputs = (k.rule r).inputs
  numImplicitDeps : (k'.rule r).numImplicitDeps = (k.rule r).numImplicitDeps
  outputs : (k'.rule r).outputs ⊆ (k.rule r).outputs
  allocated : k'.allocated = k.allocated
  nodes : k'.nodes = k.nodes

/-- The node is a source file, and the rule has one output less. -/
def unmake (k : Graph) (r : RuleId) (n : NodeId) : Graph :=
  (k.updateNode n fun x ↦ { x with childRule := none }).updateRule r fun x ↦
    { x with outputs := x.outputs.erase n }

theorem unmake_rule_self (k : Graph) (r : RuleId) (n : NodeId) :
    (unmake k r n).rule r = { k.rule r with outputs := (k.rule r).outputs.erase n } := by
  rw [unmake, Graph.updateRule, Graph.setRule_rule, if_pos rfl]
  rfl

theorem unmake_rule_ne {p : RuleId} (hp : p ≠ r) : (unmake k r n).rule p = k.rule p := by
  rw [unmake, Graph.updateRule, Graph.setRule_rule, if_neg hp]
  rfl

theorem unmake_node (k : Graph) (r : RuleId) (n m : NodeId) :
    ((unmake k r n).node m).path = (k.node m).path ∧
      ((unmake k r n).node m).parentRules = (k.node m).parentRules ∧
      ((unmake k r n).node m).childRule = if m = n then none else (k.node m).childRule := by
  refine ⟨Graph.proj_setNode Node.path (by rfl) m, Graph.proj_setNode Node.parentRules (by rfl) m,
    ?_⟩
  change ((k.setNode n _).node m).childRule = _
  rw [Graph.setNode_node]
  split
  · rfl
  · rfl

/-- The rule goes with its last output. -/
theorem deleteChildRule_ok (hrun : deleteChildRule k n = .ok k') :
    ∃ r, (k.node n).childRule = some r ∧
      (((k.rule r).outputs.erase n ≠ [] ∧ k' = unmake k r n) ∨
        (k.rule r).outputs.erase n = [] ∧ ∃ k₁,
          (k.rule r).inputs.foldlM (fun (g : Graph) m ↦ g.onNode m (·.removeParentRule r))
            (unmake k r n) = .ok k₁ ∧ k' = { k₁ with rules := k₁.rules.erase r }) := by
  cases hchild : (k.node n).childRule with
  | none => simp [deleteChildRule, hchild] at hrun
  | some r =>
      refine ⟨r, rfl, ?_⟩
      have hrun₁ : (if ((unmake k r n).rule r).outputs.isEmpty then do
          let g ← ((unmake k r n).rule r).inputs.foldlM
            (fun (g : Graph) m ↦ g.onNode m (·.removeParentRule r)) (unmake k r n)
          assert (r ∈ g.rules) .deletedRule
          pure { g with rules := g.rules.erase r }
        else pure (unmake k r n)) = .ok k' := by
        rw [deleteChildRule, hchild] at hrun
        obtain ⟨u, -, hrun⟩ := bind_eq_ok.mp hrun
        exact hrun
      rw [unmake_rule_self] at hrun₁
      split at hrun₁
      · rename_i hempty
        obtain ⟨k₁, hfold, hrun₁⟩ := bind_eq_ok.mp hrun₁
        obtain ⟨u, -, hpure⟩ := bind_eq_ok.mp hrun₁
        exact Or.inr ⟨by simpa using hempty, k₁, hfold, (Except.ok.inj hpure).symm⟩
      · rename_i hmore
        exact Or.inl ⟨by simpa using hmore, (Except.ok.inj hrun₁).symm⟩

theorem unmade_unmake (k : Graph) (r : RuleId) (n : NodeId) : Unmade k r n (unmake k r n) where
  path m := (unmake_node k r n m).1
  child m := (unmake_node k r n m).2.2
  rules _ hq := hq
  others _ hq hne := ⟨hq, unmake_rule_ne hne⟩
  rule _ hq := unmake_rule_ne hq
  inputs := by rw [unmake_rule_self]
  numImplicitDeps := by rw [unmake_rule_self]
  outputs := by
    rw [unmake_rule_self]
    exact List.erase_subset
  allocated := rfl
  nodes := rfl

/-- The rule has other outputs. -/
theorem unmake_woven {free : RuleId → List NodeId} (h : k.Woven free)
    (hchild : (k.node n).childRule = some r) (hmore : (k.rule r).outputs.erase n ≠ []) :
    (unmake k r n).Woven free := by
  obtain ⟨hr, hout⟩ := (h.child n r).mp hchild
  have hmem : ∀ m, m ∈ (k.rule r).outputs.erase n ↔ m ≠ n ∧ m ∈ (k.rule r).outputs :=
    fun m ↦ (h.outputs_nodup r hr).mem_erase_iff
  apply h.setOutputs hr ((h.outputs_nodup r hr).erase n) hmore
  · intro o ho
    have hin := ((hmem o).mp ho).2
    refine ⟨h.allocated r hr o (Or.inr hin), fun q hq ↦ ?_⟩
    exact Option.some.inj (hq.symm.trans ((h.child o r).mpr ⟨hr, hin⟩))
  · intro m
    obtain ⟨hpath, hparents, hself⟩ := unmake_node k r n m
    refine ⟨hpath, hparents, hself.trans ?_⟩
    by_cases hm : m = n
    · rw [if_pos hm, if_neg fun hin ↦ ((hmem m).mp hin).1 hm, hm, if_pos hchild]
    · rw [if_neg hm]
      split
      · rename_i hin
        exact (h.child m r).mpr ⟨hr, ((hmem m).mp hin).2⟩
      · rename_i hin
        rw [if_neg fun hc ↦ hin ((hmem m).mpr ⟨hm, ((h.child m r).mp hc).2⟩)]
  · rw [unmake_rule_self]
  · intro q
    by_cases hq : q = r
    · rw [hq, unmake_rule_self]
      exact ⟨rfl, fun hne ↦ absurd rfl hne⟩
    · rw [unmake_rule_ne hq]
      exact ⟨rfl, fun _ ↦ rfl⟩
  · rfl
  · rfl
  · rfl

/-- The rule has no other outputs, and goes. -/
theorem unmake_last {free : RuleId → List NodeId} {k₁ : Graph} (h : k.Woven free)
    (hchild : (k.node n).childRule = some r) (hlast : (k.rule r).outputs.erase n = [])
    (hfold : (k.rule r).inputs.foldlM (fun (g : Graph) m ↦ g.onNode m (·.removeParentRule r))
      (unmake k r n) = .ok k₁) :
    Unmade k r n { k₁ with rules := k₁.rules.erase r } ∧
      (free r = [] → Graph.Woven { k₁ with rules := k₁.rules.erase r } free) := by
  obtain ⟨hr, hout⟩ := (h.child n r).mp hchild
  have honly : ∀ m, (k.node m).childRule = some r ↔ m = n := by
    intro m
    constructor
    · intro hm
      by_contra hne
      have hin := (h.outputs_nodup r hr).mem_erase_iff.mpr ⟨hne, ((h.child m r).mp hm).2⟩
      rw [hlast] at hin
      cases hin
    · rintro rfl
      exact hchild
  have hk₁ := foldlM_removeParentRule (List.Nodup.of_append_left (h.inputs_nodup r hr)) hfold
  have hnode : ∀ m, (k₁.node m).path = (k.node m).path ∧
      (k₁.node m).childRule = if m = n then none else (k.node m).childRule := by
    intro m
    obtain ⟨hpath, -, hself⟩ := unmake_node k r n m
    rw [hk₁]
    dsimp only
    split
    · exact ⟨hpath, hself⟩
    · exact ⟨hpath, hself⟩
  have hunmade := unmade_unmake k r n
  have hgone : Unmade k r n { k₁ with rules := k₁.rules.erase r } := by
    refine ⟨fun m ↦ (hnode m).1, fun m ↦ (hnode m).2, fun q hq ↦ ?_, fun q hq hne ↦ ?_, ?_, ?_, ?_,
      ?_, ?_, ?_⟩
    · rw [hk₁] at hq
      exact List.mem_of_mem_erase hq
    · rw [hk₁]
      exact ⟨(List.mem_erase_of_ne hne).mpr hq, hunmade.rule q hne⟩
    · rw [hk₁]
      exact hunmade.rule
    · rw [hk₁]
      exact hunmade.inputs
    · rw [hk₁]
      exact hunmade.numImplicitDeps
    · rw [hk₁]
      exact hunmade.outputs
    · rw [hk₁]
      rfl
    · rw [hk₁]
      rfl
  refine ⟨hgone, fun hfree ↦ ?_⟩
  apply h.removeRule (r := r)
  · intro m
    refine ⟨hgone.path m, ?_, ?_⟩
    · obtain ⟨-, hparents, -⟩ := unmake_node k r n m
      rw [hk₁]
      dsimp only
      split
      · rw [← hparents]
        rfl
      · rename_i hno
        have hnot : r ∉ (k.node m).parentRules := by
          intro hin
          have hmem := ((h.parents m r).mp hin).2
          rw [hfree, List.append_nil] at hmem
          exact hno hmem
        rw [hparents, List.erase_of_not_mem hnot]
    · rw [hgone.child]
      simp only [honly]
  · intro q hq
    rw [hgone.rule q hq]
    exact ⟨rfl, rfl⟩
  · rw [hk₁]
    rfl
  · exact hgone.allocated
  · exact hgone.nodes

theorem deleteChildRule_woven {free : RuleId → List NodeId} (h : k.Woven free)
    (hrun : deleteChildRule k n = .ok k') : ∃ r, (k.node n).childRule = some r ∧
      Unmade k r n k' ∧ (free r = [] → k'.Woven free) := by
  obtain ⟨r, hchild, ⟨hmore, rfl⟩ | ⟨hlast, k₁, hfold, rfl⟩⟩ := deleteChildRule_ok hrun
  · exact ⟨r, hchild, unmade_unmake k r n, fun _ ↦ unmake_woven h hchild hmore⟩
  · exact ⟨r, hchild, unmake_last h hchild hlast hfold⟩

/-- A file that the new makefile does not generate becomes a source file. -/
theorem deleteChildRule_spec (h : Merging P w g new O s)
    (hgone : ¬ new.Makes (s.graph.node n).path) (hrun : deleteChildRule s.graph n = .ok k') :
    Merging P w g new O { s with graph := k' } ∧ Onward O s { s with graph := k' } ∧
      ∀ m, (k'.node m).childRule = if m = n then none else (s.graph.node m).childRule := by
  obtain ⟨r, hchild, hunmade, hwoven⟩ := deleteChildRule_woven h.woven hrun
  obtain ⟨hr, hout⟩ := (h.woven.child n r).mp hchild
  have hclosed : O r = none := by
    cases ho : O r with
    | none => rfl
    | some e =>
        obtain ⟨-, hq, hall⟩ := h.opened r e.1 e.2 ho
        exact absurd ⟨e.1, hq, hall _ (Graph.path_mem_paths hout)⟩ hgone
  have hnot : ∀ q ∈ new.rules, ¬ Shares s.graph new r q := by
    intro q hq hshare
    have hturns := h.turns r hr hclosed q hq hshare
    exact hgone ⟨q, hq, (hturns.outputs _).mp (Graph.path_mem_paths hout)⟩
  have hne : ∀ q, O q ≠ none → q ≠ r := fun q hq heq ↦ hq (heq ▸ hclosed)
  have hpaths : ∀ l, k'.paths l = s.graph.paths l :=
    fun l ↦ Graph.paths_congr fun m _ ↦ hunmade.path m
  refine ⟨?_, ⟨fun m hm ↦ ⟨hunmade.allocated ▸ hm, hunmade.path m⟩, Finset.Subset.refl _,
    fun q hq ↦ hunmade.rule q (hne q hq)⟩, hunmade.child⟩
  apply h.frame
  · exact hwoven (loose_none hclosed)
  · exact fun m hm ↦ ⟨hunmade.allocated ▸ hm, hunmade.path m⟩
  · intro m hm
    rw [hunmade.child, if_neg]
    rintro rfl
    exact Option.some_ne_none r (hchild.symm.trans ((h.seen m hm).2.2.mpr hgone))
  · exact fun m hm hno ↦ absurd (hunmade.allocated ▸ hm) hno
  · intro q p l ho
    obtain ⟨hq, hp, hall⟩ := h.opened q p l ho
    obtain ⟨hq', heq⟩ := hunmade.others q hq (hne q (by simp [ho]))
    refine ⟨hq', hp, fun path hpath ↦ hall path ?_⟩
    rwa [hpaths, heq] at hpath
  · intro q hq ho
    by_cases heq : q = r
    · subst heq
      refine ⟨hr, hclosed, hunmade.inputs, hunmade.numImplicitDeps, Or.inr ⟨hunmade.outputs, ?_⟩⟩
      rintro m hm ⟨p, hp, hpath⟩
      exact hnot p hp ⟨_, Graph.path_mem_paths hm, hpath⟩
    · rw [hunmade.rule q heq]
      exact ⟨hunmade.rules q hq, ho, rfl, rfl, Or.inl rfl⟩
  · rfl
  · exact fun e he ↦ he
  · exact fun e he ↦ Or.inl he

/-- What is given up is taken apart all the way down. -/
theorem clearSubGraph_spec (hg : Mergeable P w g new) {fuel : ℕ} (h : Merging P w g new O s)
    (hn : n ∈ g.allocated) (hgone : Discarded g new n)
    (hrun : clearSubGraph fuel s.graph n = .ok k') :
    Merging P w g new O { s with graph := k' } ∧ Onward O s { s with graph := k' } := by
  induction fuel generalizing s n k' with
  | zero => cases hrun
  | succ fuel ih =>
      rw [clearSubGraph] at hrun
      have hpath := (h.node n hn).2
      have hmakes : ¬ new.Makes (s.graph.node n).path := by
        rw [hpath]
        exact hgone n .refl
      cases hchild : (s.graph.node n).childRule with
      | none =>
          rw [hchild] at hrun
          obtain rfl : s.graph = k' := Except.ok.inj hrun
          exact ⟨h, .refl O s⟩
      | some r =>
          rw [hchild] at hrun
          obtain ⟨k₁, hloop, hdelete⟩ := bind_eq_ok.mp hrun
          obtain ⟨hr, hout⟩ := (h.woven.child n r).mp hchild
          have hclosed : O r = none := by
            cases ho : O r with
            | none => rfl
            | some e =>
                obtain ⟨-, hq, hall⟩ := h.opened r e.1 e.2 ho
                exact absurd ⟨e.1, hq, hall _ (Graph.path_mem_paths hout)⟩ hmakes
          have hold := h.old r hr hclosed fun q hq hshare ↦ hmakes
            ⟨q, hq, ((h.turns r hr hclosed q hq hshare).outputs _).mp (Graph.path_mem_paths hout)⟩
          have hfeeds : ∀ m ∈ (s.graph.rule r).inputs, m ∈ g.allocated ∧ Discarded g new m := by
            intro m hm
            rw [hold.inputs] at hm
            have hfeed : g.links.Feeds m n :=
              ⟨r, (hg.woven.child n r).mpr ⟨hold.mem, hold.outputs hout⟩, hm⟩
            exact ⟨hg.woven.allocated r hold.mem m (Or.inl (List.mem_append_left _ hm)),
              fun x hx ↦ hgone x (hx.tail hfeed)⟩
          obtain ⟨h₁, hon₁⟩ := Lib.foldlM_invariant (fun k : Graph ↦
            Merging P w g new O { s with graph := k } ∧ Onward O s { s with graph := k })
            (fun m hm k₂ k₃ hstep ⟨h₂, hon₂⟩ ↦ by
              obtain ⟨h₃, hon₃⟩ := ih (s := { s with graph := k₂ }) h₂ (hfeeds m hm).1
                (hfeeds m hm).2 hstep
              exact ⟨h₃, hon₂.trans hon₃⟩) hloop ⟨h, .refl O s⟩
          have hpath₁ : (k₁.node n).path = (s.graph.node n).path :=
            (hon₁.node n (h.node n hn).1).2
          obtain ⟨h₂, hon₂, -⟩ := deleteChildRule_spec (s := { s with graph := k₁ }) h₁ (by
            change ¬ new.Makes (k₁.node n).path
            rw [hpath₁]
            exact hmakes) hdelete
          exact ⟨h₂, hon₁.trans hon₂⟩

end GraphReloader

end Falcon
