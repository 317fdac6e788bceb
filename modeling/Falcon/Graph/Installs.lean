import Falcon.Graph.Counted

/-!
# What a load installs

After a load the implicit inputs of the rule are the listed dependencies, in
the order of their first occurrence.  Nodes come and go with them: a path that
is new gets a source file, and a former implicit input of which nothing is
left is forgotten.
-/

namespace Falcon

namespace Depfile

open Graph

variable {ω : Type} {P : Platform ω} {w : ω} {g k k₁ k' : Graph} {r : RuleId}

/-- The new implicit inputs: what the depfile names, once and without the
explicit inputs. -/
def newImplicit (x : Rule) (named : List NodeId) : List NodeId :=
  (named.filter fun n ↦ n ∉ Hash.explicitInputs x).eraseDups

theorem mem_newImplicit {x : Rule} {named : List NodeId} {n : NodeId} :
    n ∈ newImplicit x named ↔ n ∈ named ∧ n ∉ Hash.explicitInputs x := by
  simp [newImplicit]

theorem newImplicit_snoc_old {x : Rule} {named : List NodeId} {t : NodeId}
    (h : t ∈ Hash.explicitInputs x ++ newImplicit x named) :
    newImplicit x (named ++ [t]) = newImplicit x named := by
  rw [newImplicit, List.filter_append]
  by_cases ht : t ∈ Hash.explicitInputs x
  · simp [newImplicit, ht]
  · have hmem : t ∈ named.filter fun n ↦ n ∉ Hash.explicitInputs x := by
      rcases List.mem_append.mp h with hex | hnew
      · exact absurd hex ht
      · exact List.mem_eraseDups.mp hnew
    have hone : [t].filter (fun n ↦ n ∉ Hash.explicitInputs x) = [t] := by simp [ht]
    rw [hone, Lib.eraseDups_snoc_of_mem hmem]
    rfl

theorem newImplicit_snoc_new {x : Rule} {named : List NodeId} {t : NodeId}
    (h : t ∉ Hash.explicitInputs x ++ newImplicit x named) :
    newImplicit x (named ++ [t]) = newImplicit x named ++ [t] := by
  rw [List.mem_append, not_or] at h
  have hone : [t].filter (fun n ↦ n ∉ Hash.explicitInputs x) = [t] := by simp [h.1]
  have hmem : t ∉ named.filter fun n ↦ n ∉ Hash.explicitInputs x :=
    fun hmem ↦ h.2 (List.mem_eraseDups.mpr hmem)
  rw [newImplicit, List.filter_append, hone, Lib.eraseDups_snoc_of_not_mem hmem]
  rfl

/-- The parents of a node besides `r`. -/
def otherParents (r : RuleId) (x : Node) : List RuleId := x.parentRules.filter (· ≠ r)

/-- The graph `k` once the nodes `named` have been made inputs of the rule `r`
of `g`, whose implicit inputs had been cut off. -/
structure Adds (g : Graph) (r : RuleId) (named : List NodeId) (k : Graph) : Prop where
  inputs : (k.rule r).inputs =
    Hash.explicitInputs (g.rule r) ++ newImplicit (g.rule r) named
  number : (k.rule r).numImplicitDeps = (newImplicit (g.rule r) named).length
  allocated : g.allocated ⊆ k.allocated
  named_allocated : ∀ n ∈ named, n ∈ k.allocated
  inputs_allocated : ∀ n ∈ Hash.explicitInputs (g.rule r), n ∈ g.allocated
  child : ∀ n ∈ g.allocated, (k.node n).childRule = (g.node n).childRule
  path : ∀ n ∈ g.allocated, (k.node n).path = (g.node n).path
  others : ∀ n ∈ k.allocated, otherParents r (k.node n) =
    if n ∈ g.allocated then otherParents r (g.node n) else []
  created : ∀ n ∈ k.allocated, n ∉ g.allocated → (k.node n).childRule = none ∧
    (k.node n).hash ≠ "" ∧ (k.node n).hashDepfile ≠ ""
  sources : ∀ n, n ∈ k.sources ↔ n ∈ g.sources ∨ n ∈ k.allocated ∧ n ∉ g.allocated
  roots : k.roots = g.roots
  keys : (k.nodes.map Prod.fst).Nodup
  old : g.nodes ⊆ k.nodes
  new : ∀ e ∈ k.nodes, e ∈ g.nodes ∨ e.2 ∉ g.allocated
  entries : ∀ e ∈ k.nodes, e.2 ∈ k.allocated

/-- The counter of the rule does not matter. -/
theorem Adds.setReady {named : List NodeId} (h : Adds g r named k) (numReady : ℕ) :
    Adds g r named (k.setRule r { k.rule r with numInputsReady := numReady }) :=
  { h with
    inputs := by
      rw [setRule_rule, if_pos rfl]
      exact h.inputs
    number := by
      rw [setRule_rule, if_pos rfl]
      exact h.number }

theorem otherParents_link (r : RuleId) (x : Node) :
    otherParents r { x with parentRules := x.parentRules ++ [r] } = otherParents r x := by
  simp [otherParents]

/-- Becoming an input of `r` does not change the other parents. -/
theorem otherParents_linkInput (r : RuleId) (t n : NodeId) :
    otherParents r ((linkInput k r t).node n) = otherParents r (k.node n) := by
  rw [linkInput]
  split
  · rfl
  · rw [updateNode, setNode_node]
    split
    · rename_i heq
      rw [heq]
      exact otherParents_link r _
    · rfl

theorem Adds.found {named : List NodeId} {dep : String} {t : NodeId} (h : Adds g r named k)
    (hlookup : k.nodes.lookup dep = some t) (hnot : t ∉ (k.rule r).inputs) :
    Adds g r (named ++ [t]) (linkInput k r t) := by
  have hframe := linkInput_frame (g := k) (r := r) (n := t)
  have hfields : (linkInput k r t).sources = k.sources ∧ (linkInput k r t).roots = k.roots := by
    rw [linkInput]
    split <;> exact ⟨rfl, rfl⟩
  have hnew : newImplicit (g.rule r) (named ++ [t]) = newImplicit (g.rule r) named ++ [t] :=
    newImplicit_snoc_new (h.inputs ▸ hnot)
  have hmem : t ∈ k.allocated := h.entries (dep, t) (Lib.mem_of_lookup_eq_some hlookup)
  constructor
  · rw [linkInput_rule_self, hnew, ← List.append_assoc, ← h.inputs]
    rfl
  · rw [linkInput_rule_self, hnew, List.length_append, ← h.number]
    rfl
  · rw [hframe.2.2]
    exact h.allocated
  · intro n hn
    rw [hframe.2.2]
    rcases List.mem_append.mp hn with hn | hn
    · exact h.named_allocated n hn
    · exact List.mem_singleton.mp hn ▸ hmem
  · exact h.inputs_allocated
  · intro n hn
    rw [proj_linkInput Node.childRule (fun _ _ ↦ rfl)]
    exact h.child n hn
  · intro n hn
    rw [proj_linkInput Node.path (fun _ _ ↦ rfl)]
    exact h.path n hn
  · intro n hn
    rw [hframe.2.2] at hn
    rw [otherParents_linkInput]
    exact h.others n hn
  · intro n hn hno
    rw [hframe.2.2] at hn
    rw [proj_linkInput Node.childRule (fun _ _ ↦ rfl), proj_linkInput Node.hash (fun _ _ ↦ rfl),
      proj_linkInput Node.hashDepfile (fun _ _ ↦ rfl)]
    exact h.created n hn hno
  · intro n
    rw [hfields.1, hframe.2.2]
    exact h.sources n
  · rw [hfields.2]
    exact h.roots
  · rw [hframe.2.1]
    exact h.keys
  · rw [hframe.2.1]
    exact h.old
  · rw [hframe.2.1]
    exact h.new
  · rw [hframe.2.1, hframe.2.2]
    exact h.entries

/-- A new node, before it has an entry in the map. -/
theorem Adds.created_node (hdigest : ∀ data, P.digest data ≠ "") {named : List NodeId}
    {dep : String} (h : Adds g r named k) (hlookup : k.nodes.lookup dep = none) :
    Adds g r named { k.createNode P dep
        (P.digest [dep, (P.readFile w dep).getD ""])
        (P.digest [dep, (P.readFile w dep).getD ""]) with
      nodes := k.nodes ++ [(dep, P.newNode k.allocated)]
      sources := insert (P.newNode k.allocated) k.sources } := by
  have hfresh := P.newNode_fresh k.allocated
  have hfresh₀ : P.newNode k.allocated ∉ g.allocated := fun hmem ↦ hfresh (h.allocated hmem)
  generalize hdata : P.digest [dep, (P.readFile w dep).getD ""] = digest
  have hhash : digest ≠ "" := hdata ▸ hdigest _
  have hself := createNode_self (P := P) k dep digest digest
  have hnode : ∀ n ∈ k.allocated, (k.createNode P dep digest digest).node n = k.node n :=
    fun n hn ↦ createNode_node k dep digest digest hn
  generalize ht : P.newNode k.allocated = t at hfresh hfresh₀ hself ⊢
  have hallocated : (k.createNode P dep digest digest).allocated = insert t k.allocated :=
    ht ▸ rfl
  have hcases : ∀ {n}, n ∈ insert t k.allocated → n = t ∨ n ∈ k.allocated :=
    fun hn ↦ Finset.mem_insert.mp hn
  constructor
  · exact h.inputs
  · exact h.number
  · rw [hallocated]
    exact h.allocated.trans (Finset.subset_insert _ _)
  · intro n hn
    rw [hallocated]
    exact Finset.mem_insert_of_mem (h.named_allocated n hn)
  · exact h.inputs_allocated
  · intro n hn
    rw [hnode n (h.allocated hn)]
    exact h.child n hn
  · intro n hn
    rw [hnode n (h.allocated hn)]
    exact h.path n hn
  · intro n hn
    rw [hallocated] at hn
    rcases hcases hn with rfl | hn
    · rw [hself, if_neg hfresh₀]
      rfl
    · rw [hnode n hn]
      exact h.others n hn
  · intro n hn hno
    rw [hallocated] at hn
    rcases hcases hn with rfl | hn
    · rw [hself]
      exact ⟨rfl, hhash, hhash⟩
    · rw [hnode n hn]
      exact h.created n hn hno
  · intro n
    rw [hallocated, Finset.mem_insert, h.sources, Finset.mem_insert]
    by_cases hn : n = t
    · subst hn
      simp [hfresh₀]
    · simp [hn]
  · exact h.roots
  · rw [List.map_append, List.nodup_append]
    refine ⟨h.keys, List.nodup_singleton _, ?_⟩
    rintro a ha b hb rfl
    obtain ⟨e, he, rfl⟩ := List.mem_map.mp ha
    have hpath : e.1 = dep := List.mem_singleton.mp hb
    have hno := List.lookup_eq_none_iff.mp hlookup e he
    simp [hpath] at hno
  · exact List.Subset.trans h.old (List.subset_append_left _ _)
  · intro e he
    rcases List.mem_append.mp he with he | he
    · exact h.new e he
    · rw [List.mem_singleton.mp he]
      exact Or.inr hfresh₀
  · intro e he
    rw [hallocated]
    rcases List.mem_append.mp he with he | he
    · exact Finset.mem_insert_of_mem (h.entries e he)
    · rw [List.mem_singleton.mp he]
      exact Finset.mem_insert_self _ _

theorem Adds.mem_allocated {named : List NodeId} (h : Adds g r named k) {n : NodeId}
    (hn : n ∈ (k.rule r).inputs) : n ∈ k.allocated := by
  rw [h.inputs] at hn
  rcases List.mem_append.mp hn with hn | hn
  · exact h.allocated (h.inputs_allocated n hn)
  · exact h.named_allocated n (mem_newImplicit.mp hn).1

/-- A dependency that was no input yet. -/
theorem Adds.joins (hdigest : ∀ data, P.digest data ≠ "") {named : List NodeId} {dep : String}
    {t : NodeId} (h : Adds g r named k) (hjoin : Joins P w k r dep t k₁) :
    Adds g r (named ++ [t]) k₁ := by
  cases hjoin with
  | found hlookup hnot => exact h.found hlookup hnot
  | created hlookup ht =>
      subst ht
      have hcreated := h.created_node (w := w) hdigest hlookup
      have hnot : P.newNode k.allocated ∉ (k.rule r).inputs :=
        fun hin ↦ P.newNode_fresh _ (h.mem_allocated hin)
      have hself : (k.nodes ++ [(dep, P.newNode k.allocated)]).lookup dep =
          some (P.newNode k.allocated) :=
        Lib.lookup_snoc_eq_some_iff.mpr (Or.inr ⟨hlookup, rfl, rfl⟩)
      have hfound := hcreated.found hself hnot
      have hsame : ∀ (j : Graph) (nodes : List (String × NodeId)) (sources : Finset NodeId)
          (t : NodeId), linkInput { j with nodes := nodes, sources := sources } r t =
            { linkInput j r t with nodes := nodes, sources := sources } := by
        intro j nodes sources t
        cases hp : (j.node t).hasParent r <;>
          simp [linkInput, updateRule, updateNode, setRule, setNode, hp]
      rw [hsame] at hfound
      exact hfound

/-- What the loop over the dependencies has found for each of them. -/
structure AddsAll (g : Graph) (r : RuleId) (k : Graph) (named : List NodeId)
    (ins : List String) (before : List NodeId) (more : List NodeId) (k' : Graph)
    (left : List NodeId) : Prop where
  adds : Adds g r (named ++ more) k'
  lookup : ins.map (fun dep ↦ k'.nodes.lookup dep) = more.map some
  left : left = before.filter (· ∉ more)
  grows : ∀ path n, k.nodes.lookup path = some n → k'.nodes.lookup path = some n

theorem addDependencies_adds (hdigest : ∀ data, P.digest data ≠ "") {named : List NodeId}
    {ins : List String} {before left : List NodeId} (h : Adds g r named k)
    (hrun : addDependencies P w r ins (k, before) = .ok (k', left)) :
    ∃ more, AddsAll g r k named ins before more k' left := by
  induction ins generalizing k named before with
  | nil =>
      simp only [addDependencies, Lib.except_pure, Except.ok.injEq, Prod.mk.injEq] at hrun
      obtain ⟨rfl, rfl⟩ := hrun
      exact ⟨[], by simpa using h, rfl, by simp, fun _ _ hn ↦ hn⟩
  | cons dep ins ih =>
      rw [addDependencies] at hrun
      obtain ⟨⟨t, k₁⟩, hstep, hrest⟩ := Lib.bind_eq_ok.mp hrun
      -- one dependency: the node is found under its path afterwards
      obtain ⟨hadds, hlookup, hgrows⟩ : Adds g r (named ++ [t]) k₁ ∧
          k₁.nodes.lookup dep = some t ∧
          ∀ path n, k.nodes.lookup path = some n → k₁.nodes.lookup path = some n := by
        rcases setRuleDependency_joins hstep with ⟨hlookup, hin, rfl⟩ | ⟨k₂, numReady, hjoin, rfl⟩
        · refine ⟨?_, hlookup, fun _ _ hn ↦ hn⟩
          have hsame := newImplicit_snoc_old (h.inputs ▸ hin)
          exact { h with
            inputs := by rw [hsame]; exact h.inputs
            number := by rw [hsame]; exact h.number
            named_allocated := by
              intro n hn
              rcases List.mem_append.mp hn with hn | hn
              · exact h.named_allocated n hn
              · exact List.mem_singleton.mp hn ▸ h.mem_allocated hin }
        · refine ⟨(h.joins hdigest hjoin).setReady numReady, (hjoin.lookup_self h.entries).1,
            fun path n hn ↦ ?_⟩
          exact hjoin.lookup_iff.mpr (Or.inl hn)
      obtain ⟨more, hall⟩ := ih hadds hrest
      refine ⟨t :: more, ?_, ?_, ?_, fun path n hn ↦ hall.grows path n (hgrows path n hn)⟩
      · have hadds' := hall.adds
        rwa [List.append_assoc] at hadds'
      · rw [List.map_cons, List.map_cons, hall.lookup, hall.grows dep t hlookup]
      · rw [hall.left, List.filter_filter]
        apply List.filter_congr
        intro n _
        simp [Bool.and_comm]

/-! ## The former implicit inputs -/

/-- The node has lost its last parent and is no target. -/
def Unused (k : Graph) (r : RuleId) (n : NodeId) : Prop :=
  (k.node n).parentRules.erase r = [] ∧ (k.node n).childRule = none

/-- The graph `k` once the former implicit inputs `pre` have been let go. -/
structure Drops (k : Graph) (r : RuleId) (pre : List NodeId) (k' : Graph) : Prop where
  rule : k'.rule = k.rule
  kept : ∀ n, n ∉ pre → k'.node n = k.node n
  parents : ∀ n ∈ pre, k'.node n =
    { k.node n with parentRules := (k.node n).parentRules.erase r }
  nodes : k'.nodes.Sublist k.nodes
  mem_nodes : ∀ e, e ∈ k'.nodes ↔ e ∈ k.nodes ∧ ¬ (e.2 ∈ pre ∧ Unused k r e.2)
  roots : ∀ n, n ∈ k'.roots ↔ n ∈ k.roots ∧ ¬ (n ∈ pre ∧ Unused k r n)
  sources : ∀ n, n ∈ k'.sources ↔ n ∈ k.sources ∧ ¬ (n ∈ pre ∧ Unused k r n)
  allocated : ∀ n, n ∈ k'.allocated ↔ n ∈ k.allocated ∧ ¬ (n ∈ pre ∧ Unused k r n)

theorem Drops.refl (k : Graph) (r : RuleId) : Drops k r [] k := by
  constructor <;> simp

theorem unlink_self (r : RuleId) {n : NodeId} (hsame : k₁.node n = k.node n) :
    (k₁.unlink r n).node n =
      { k.node n with parentRules := (k.node n).parentRules.erase r } := by
  rw [unlink_node_self, hsame]

theorem Drops.kept_unlink {pre : List NodeId} {n : NodeId} (h : Drops k r pre k₁) {m : NodeId}
    (hm : m ∉ pre ++ [n]) : (k₁.unlink r n).node m = k.node m := by
  rw [List.mem_append, List.mem_singleton, not_or] at hm
  rw [unlink_node_ne hm.2]
  exact h.kept m hm.1

theorem Drops.parents_unlink {pre : List NodeId} {n : NodeId} (h : Drops k r pre k₁)
    (hnot : n ∉ pre) {m : NodeId} (hm : m ∈ pre ++ [n]) : (k₁.unlink r n).node m =
      { k.node m with parentRules := (k.node m).parentRules.erase r } := by
  rw [List.mem_append, List.mem_singleton] at hm
  by_cases hmn : m = n
  · rw [hmn]
    exact unlink_self r (h.kept n hnot)
  · rw [unlink_node_ne hmn]
    exact h.parents m (hm.resolve_right hmn)

theorem unused_snoc (pre : List NodeId) {n : NodeId} (hunused : Unused k r n) (m : NodeId) :
    (m ∈ pre ++ [n] ∧ Unused k r m) ↔ (m ∈ pre ∧ Unused k r m) ∨ m = n := by
  rw [List.mem_append, List.mem_singleton]
  constructor
  · rintro ⟨hm | hm, hu⟩
    · exact Or.inl ⟨hm, hu⟩
    · exact Or.inr hm
  · rintro (⟨hm, hu⟩ | rfl)
    · exact ⟨Or.inl hm, hu⟩
    · exact ⟨Or.inr rfl, hunused⟩

theorem used_snoc (pre : List NodeId) {n : NodeId} (hused : ¬ Unused k r n) (m : NodeId) :
    (m ∈ pre ++ [n] ∧ Unused k r m) ↔ (m ∈ pre ∧ Unused k r m) := by
  rw [List.mem_append, List.mem_singleton]
  constructor
  · rintro ⟨hm | rfl, hu⟩
    · exact ⟨hm, hu⟩
    · exact absurd hu hused
  · exact fun ⟨hm, hu⟩ ↦ ⟨Or.inl hm, hu⟩

/-- The node goes: it leaves the table and the sets. -/
theorem Drops.goes {pre : List NodeId} {n : NodeId} (h : Drops k r pre k₁) (hnot : n ∉ pre)
    (hkeys : (k.nodes.map Prod.fst).Nodup) (hpaths : ∀ e ∈ k.nodes, (k.node e.2).path = e.1)
    (hentry : ((k.node n).path, n) ∈ k.nodes) (hunused : Unused k r n) :
    Drops k r (pre ++ [n]) ((k₁.unlink r n).deleteNode n) := by
  have hgoes := unused_snoc pre hunused
  have hpath : ((k₁.unlink r n).node n).path = (k.node n).path := by
    rw [unlink_self r (h.kept n hnot)]
  refine ⟨h.rule, fun m ↦ h.kept_unlink, fun m ↦ h.parents_unlink hnot,
    List.filter_sublist.trans h.nodes, fun e ↦ ?_, fun m ↦ ?_, fun m ↦ ?_, fun m ↦ ?_⟩
  · change e ∈ k₁.nodes.filter _ ↔ _
    rw [List.mem_filter, h.mem_nodes, hgoes, hpath, not_or, and_assoc]
    refine and_congr_right fun he ↦ and_congr_right fun _ ↦ ?_
    rw [decide_eq_true_eq, not_iff_not]
    constructor
    · intro heq
      have hfound := (Lib.lookup_eq_some_iff_mem hkeys).mpr (show (e.1, e.2) ∈ k.nodes from he)
      rw [heq, (Lib.lookup_eq_some_iff_mem hkeys).mpr hentry] at hfound
      exact (Option.some.inj hfound).symm
    · intro heq
      rw [← hpaths e he, heq]
  · change m ∈ k₁.roots.erase n ↔ _
    rw [Finset.mem_erase, h.roots, hgoes, not_or]
    tauto
  · change m ∈ k₁.sources.erase n ↔ _
    rw [Finset.mem_erase, h.sources, hgoes, not_or]
    tauto
  · change m ∈ k₁.allocated.erase n ↔ _
    rw [Finset.mem_erase, h.allocated, hgoes, not_or]
    tauto

/-- The node stays: only the rule is taken from its parents. -/
theorem Drops.stays {pre : List NodeId} {n : NodeId} (h : Drops k r pre k₁) (hnot : n ∉ pre)
    (hused : ¬ Unused k r n) : Drops k r (pre ++ [n]) (k₁.unlink r n) := by
  have hgoes := used_snoc pre hused
  refine ⟨h.rule, fun m ↦ h.kept_unlink, fun m ↦ h.parents_unlink hnot, h.nodes,
    fun e ↦ ?_, fun m ↦ ?_, fun m ↦ ?_, fun m ↦ ?_⟩
  · rw [hgoes]
    exact h.mem_nodes e
  · rw [hgoes]
    exact h.roots m
  · rw [hgoes]
    exact h.sources m
  · rw [hgoes]
    exact h.allocated m

theorem Drops.step {pre : List NodeId} {n : NodeId} (h : Drops k r pre k₁) (hnot : n ∉ pre)
    (hkeys : (k.nodes.map Prod.fst).Nodup) (hpaths : ∀ e ∈ k.nodes, (k.node e.2).path = e.1)
    (hentry : ((k.node n).path, n) ∈ k.nodes) (hrun : dropDependency r k₁ n = .ok k') :
    Drops k r (pre ++ [n]) k' := by
  obtain ⟨-, hcases⟩ := dropDependency_cases hrun
  rw [h.kept n hnot] at hcases
  rcases hcases with ⟨hparent, hchild, rfl⟩ | ⟨hused, rfl⟩
  · exact h.goes hnot hkeys hpaths hentry ⟨hparent, hchild⟩
  · exact h.stays hnot hused

theorem dropDependencies_drops {left : List NodeId} (hnodup : left.Nodup)
    (hkeys : (k.nodes.map Prod.fst).Nodup) (hpaths : ∀ e ∈ k.nodes, (k.node e.2).path = e.1)
    (hentries : ∀ n ∈ left, ((k.node n).path, n) ∈ k.nodes)
    (hrun : left.foldlM (dropDependency r) k = .ok k') : Drops k r left k' := by
  refine Lib.foldlM_prefix (Drops k r) (.refl k r) ?_ hrun
  intro pre n post k₁ k₂ hl h hstep
  refine h.step (fun hmem ↦ ?_) hkeys hpaths (hentries n (by simp [hl])) hstep
  rw [hl] at hnodup
  exact (List.nodup_append.mp hnodup).2.2 n hmem n List.mem_cons_self rfl

/-! ## The load -/

/-- What a load needs to know of the map: it has one entry for a path, and the
implicit inputs of the rule are found in it. -/
structure Registered (g : Graph) (r : RuleId) : Prop where
  keys : (g.nodes.map Prod.fst).Nodup
  implicit : ∀ n ∈ implicitDeps (g.rule r), g.nodes.lookup (g.node n).path = some n

/-- A former implicit input of which nothing is left. -/
def Forgotten (g : Graph) (r : RuleId) (g' : Graph) (n : NodeId) : Prop :=
  n ∈ implicitDeps (g.rule r) ∧ (g'.node n).parentRules = [] ∧ (g.node n).childRule = none

/-- The two loops of a load: the dependencies `more` that it has found, and
the former implicit inputs `left` that are not among them. -/
structure Phases (g : Graph) (r : RuleId) (ins : List String) (g' : Graph) (k : Graph)
    (more left : List NodeId) : Prop where
  adds : Adds g r more k
  lookup : ins.map (fun dep ↦ k.nodes.lookup dep) = more.map some
  mem_left : ∀ n, n ∈ left ↔ n ∈ implicitDeps (g.rule r) ∧ n ∉ more
  drops : Drops k r left g'
  loading : Loading g r [] g'

/-- Nothing has been named yet. -/
theorem Adds.start (hg : g.Tied) (hr : r ∈ g.rules) (hreg : Registered g r)
    (hrun : detachImplicit g r = .ok k) : Adds g r [] k := by
  obtain ⟨numReady, rfl⟩ := detachImplicit_eq hrun
  constructor
  · rw [setRule_rule, if_pos rfl]
    exact (List.append_nil _).symm
  · rw [setRule_rule, if_pos rfl]
    rfl
  · exact Finset.Subset.refl _
  · simp
  · exact fun n hn ↦ hg.allocated r hr n (Or.inl (List.mem_of_mem_take hn))
  · exact fun n _ ↦ rfl
  · exact fun n _ ↦ rfl
  · exact fun n hn ↦ (if_pos hn).symm
  · exact fun n hn hno ↦ absurd hn hno
  · intro n
    change n ∈ g.sources ↔ n ∈ g.sources ∨ n ∈ g.allocated ∧ n ∉ g.allocated
    simp
  · rfl
  · exact hreg.keys
  · exact fun e he ↦ he
  · exact fun e he ↦ Or.inl he
  · exact fun e he ↦ (hg.nodes e he).1

theorem load_phases (hdigest : ∀ data, P.digest data ≠ "") (hg : g.Tied) (hr : r ∈ g.rules)
    (hreg : Registered g r) {content output : String} {ins : List String} {g' : Graph}
    (hparse : P.parseDepfile content = some (output, ins))
    (hrun : load P w g r content = .ok (true, g')) :
    ∃ k more left, Phases g r ins g' k more left := by
  obtain ⟨g₁, hdetach, hcases⟩ := load_ok hrun
  obtain ⟨hfalse, -⟩ | ⟨-, first, ins', k, left, -, hparse', hadd, hdrop⟩ := hcases
  · cases hfalse
  obtain rfl : ins = ins' := (Prod.mk.inj (Option.some.inj (hparse.symm.trans hparse'))).2
  obtain ⟨h₁, hnodes, hallocated, -⟩ := loading_detach hg.toJoined hr hdetach
  obtain ⟨more, hall⟩ := addDependencies_adds hdigest (.start hg hr hreg hdetach) hadd
  have hk := hall.adds
  rw [List.nil_append] at hk
  have hadding : Adding g r (implicitDeps (g.rule r)).reverse.dedup g₁ :=
    ⟨h₁, hallocated ▸ Finset.Subset.refl _, fun path n hn ↦ hnodes ▸ hn,
      fun path n hn ↦ Or.inl (hnodes ▸ hn)⟩
  have hload := (addDependencies_spec hg.toJoined hr hadding hadd).adding.toLoading
  have hleft : ∀ n, n ∈ left ↔ n ∈ implicitDeps (g.rule r) ∧ n ∉ more := by
    intro n
    rw [hall.left]
    simp
  have hentries : ∀ n ∈ left, ((k.node n).path, n) ∈ k.nodes := by
    intro n hn
    have himplicit := ((hleft n).mp hn).1
    have hmem := hg.allocated r hr n (Or.inl (List.mem_of_mem_drop himplicit))
    rw [hk.path n hmem]
    exact hk.old ((Lib.lookup_eq_some_iff_mem hreg.keys).mp (hreg.implicit n himplicit))
  exact ⟨k, more, left, hk, hall.lookup, hleft,
    dropDependencies_drops hload.before_nodup hk.keys (fun e he ↦ (hload.nodes e he).2)
      hentries hdrop,
    (dropDependencies_spec hg.toJoined hload hdrop).1⟩

section Phases

variable {ins : List String} {more left : List NodeId} {g' : Graph}
  (h : Phases g r ins g' k more left)
include h

theorem Phases.lookup_after : ins.map (fun dep ↦ g'.nodes.lookup dep) = more.map some := by
  rw [← h.lookup]
  apply List.map_congr_left
  intro dep hdep
  have hfound : k.nodes.lookup dep ∈ more.map some := by
    rw [← h.lookup]
    exact List.mem_map_of_mem hdep
  obtain ⟨n, hn, hlookup⟩ := List.mem_map.mp hfound
  have hentry := (Lib.lookup_eq_some_iff_mem h.adds.keys).mp hlookup.symm
  have hkeys := h.adds.keys.sublist (h.drops.nodes.map Prod.fst)
  rw [← hlookup, Lib.lookup_eq_some_iff_mem hkeys, h.drops.mem_nodes]
  exact ⟨hentry, fun hgone ↦ ((h.mem_left n).mp hgone.1).2 hn⟩

theorem Phases.inputs : Hash.explicitInputs (g'.rule r) = Hash.explicitInputs (g.rule r) ∧
    implicitDeps (g'.rule r) = newImplicit (g.rule r) more ∧
    (g'.rule r).numImplicitDeps = (newImplicit (g.rule r) more).length := by
  rw [h.drops.rule]
  have hinputs := h.adds.inputs
  have hnumber := h.adds.number
  refine ⟨?_, ?_, hnumber⟩
  · rw [Hash.explicitInputs, hinputs, hnumber]
    simp
  · rw [implicitDeps, hinputs, hnumber]
    simp

theorem Phases.parents_iff (hr : r ∈ g.rules) (n : NodeId) :
    r ∈ (g'.node n).parentRules ↔ n ∈ (g'.rule r).inputs := by
  rw [h.loading.parents]
  simp [hr]

theorem Phases.old_of_left (hg : g.Tied) (hr : r ∈ g.rules) {n : NodeId} (hn : n ∈ left) :
    n ∈ g.allocated :=
  hg.allocated r hr n (Or.inl (List.mem_of_mem_drop ((h.mem_left n).mp hn).1))

theorem Phases.others {n : NodeId} (hn : n ∈ g.allocated) :
    otherParents r (g'.node n) = otherParents r (g.node n) := by
  have hk := h.adds.others n (h.adds.allocated hn)
  rw [if_pos hn] at hk
  rw [← hk]
  by_cases hleft : n ∈ left
  · rw [h.drops.parents n hleft]
    exact Lib.filter_ne_erase r _
  · rw [h.drops.kept n hleft]

/-- A node that was let go without being used has no parent now, and was an
implicit input. -/
theorem Phases.forgotten_iff (hg : g.Tied) (hr : r ∈ g.rules) (n : NodeId) :
    n ∈ left ∧ Unused k r n ↔ Forgotten g r g' n := by
  constructor
  · rintro ⟨hleft, hparents, hchild⟩
    refine ⟨((h.mem_left n).mp hleft).1, ?_, ?_⟩
    · rw [h.drops.parents n hleft]
      exact hparents
    · rw [← h.adds.child n (h.old_of_left hg hr hleft)]
      exact hchild
  · rintro ⟨himplicit, hparents, hchild⟩
    have hnot : n ∉ (g'.rule r).inputs := by
      rw [← h.parents_iff hr, hparents]
      exact List.not_mem_nil
    have hleft : n ∈ left := by
      refine (h.mem_left n).mpr ⟨himplicit, fun hmore ↦ hnot ?_⟩
      rw [h.drops.rule, h.adds.inputs, List.mem_append, mem_newImplicit]
      by_cases hex : n ∈ Hash.explicitInputs (g.rule r)
      · exact Or.inl hex
      · exact Or.inr ⟨hmore, hex⟩
    refine ⟨hleft, ?_, ?_⟩
    · rw [h.drops.parents n hleft] at hparents
      exact hparents
    · rw [h.adds.child n (h.old_of_left hg hr hleft)]
      exact hchild

theorem Phases.created (hg : g.Tied) (hr : r ∈ g.rules) {n : NodeId} (hn : n ∈ g'.allocated)
    (hnew : n ∉ g.allocated) : (g'.node n).childRule = none ∧ (g'.node n).hash ≠ "" ∧
      (g'.node n).hashDepfile ≠ "" ∧ n ∈ g'.sources ∧ otherParents r (g'.node n) = [] := by
  have hleft : n ∉ left := fun hin ↦ hnew (h.old_of_left hg hr hin)
  have hmem := ((h.drops.allocated n).mp hn).1
  rw [h.drops.kept n hleft]
  obtain ⟨hchild, hhash, hdepfile⟩ := h.adds.created n hmem hnew
  refine ⟨hchild, hhash, hdepfile, ?_, ?_⟩
  · rw [h.drops.sources, h.adds.sources]
    exact ⟨Or.inr ⟨hmem, hnew⟩, fun hgone ↦ hleft hgone.1⟩
  · rw [h.adds.others n hmem, if_neg hnew]

end Phases

/-- `Depfile::load` installs the listed dependencies, and nothing else. -/
theorem load_installs (hdigest : ∀ data, P.digest data ≠ "") (hg : g.Tied) (hr : r ∈ g.rules)
    (hreg : Registered g r) {content output : String} {ins : List String} {g' : Graph}
    (hparse : P.parseDepfile content = some (output, ins))
    (hrun : load P w g r content = .ok (true, g')) :
    (∃ named : List NodeId, ins.map (fun dep ↦ g'.nodes.lookup dep) = named.map some ∧
      Hash.explicitInputs (g'.rule r) = Hash.explicitInputs (g.rule r) ∧
      implicitDeps (g'.rule r) =
        (named.filter fun n ↦ n ∉ Hash.explicitInputs (g.rule r)).eraseDups ∧
      (g'.rule r).numImplicitDeps = (implicitDeps (g'.rule r)).length) ∧
    (∀ n, (r ∈ (g'.node n).parentRules ↔ n ∈ (g'.rule r).inputs) ∧
      (g'.node n).parentRules.count r ≤ 1) ∧
    (∀ n ∈ g.allocated, (g'.node n).parentRules.filter (· ≠ r) =
      (g.node n).parentRules.filter (· ≠ r)) ∧
    (∀ n ∈ g'.allocated, n ∉ g.allocated → (g'.node n).childRule = none ∧
      (g'.node n).hash ≠ "" ∧ (g'.node n).hashDepfile ≠ "" ∧ n ∈ g'.sources ∧
      (g'.node n).parentRules.filter (· ≠ r) = []) ∧
    (∀ e, e.2 ∈ g.allocated → (e ∈ g'.nodes ↔ e ∈ g.nodes ∧ ¬ Forgotten g r g' e.2)) ∧
    (∀ n, n ∈ g'.roots ↔ n ∈ g.roots ∧ ¬ Forgotten g r g' n) ∧
    (∀ n ∈ g.allocated, n ∈ g'.sources ↔ n ∈ g.sources ∧ ¬ Forgotten g r g' n) := by
  obtain ⟨k, more, left, h⟩ := load_phases (w := w) hdigest hg hr hreg hparse hrun
  have hforgotten := h.forgotten_iff hg hr
  refine ⟨⟨more, h.lookup_after, h.inputs.1, h.inputs.2.1, ?_⟩, fun n ↦ ⟨h.parents_iff hr n, ?_⟩,
    fun n hn ↦ h.others hn, fun n hn hnew ↦ h.created hg hr hn hnew, fun e he ↦ ?_, fun n ↦ ?_,
    fun n hn ↦ ?_⟩
  · rw [h.inputs.2.2, h.inputs.2.1]
  · exact List.nodup_iff_count_le_one.mp (h.loading.parents_nodup n) r
  · rw [h.drops.mem_nodes, hforgotten]
    have hold : e ∈ k.nodes ↔ e ∈ g.nodes :=
      ⟨fun hk ↦ (h.adds.new e hk).resolve_right fun hno ↦ hno he, fun hmem ↦ h.adds.old hmem⟩
    rw [hold]
  · rw [h.drops.roots, hforgotten, h.adds.roots]
  · rw [h.drops.sources, hforgotten, h.adds.sources]
    simp [hn]

/-! ## A header is replaced -/

/-- `main.c` included `old.h` when it was compiled. -/
def includeGraph : Graph where
  node
    | 0 => { Node.create "main.c" true false with parentRules := [0] }
    | 1 => { Node.create "old.h" false false with parentRules := [0] }
    | 2 => { Node.create "main.o" true false with childRule := some 0 }
    | _ => Node.create "" true false
  rule
    | 0 => { Rule.create [0, 1] [2] with
        command := "cc -MD -c main.c", depfile := "main.d", numImplicitDeps := 1
        numInputsReady := 2 }
    | _ => Rule.create [] []
  roots := {2}
  sources := {0, 1}
  nodes := [("main.c", 0), ("old.h", 1), ("main.o", 2)]
  rules := [0]
  allocated := {0, 1, 2}

/-- It includes `new.h` now, which the compiler lists twice. -/
def includePlatform : Platform Unit :=
  { headerPlatform with
    readFile := fun _ path ↦ if path = "new.h" then some "int size;\n" else none
    sha256 := fun s ↦ digestBytes (if s = "new.hint size;\n" then
      0x7cffa13f8978bb6d3acdea3d713b66e47b390ad2c90e09278785e55fa79ef521 else 0) }

theorem tied_includeGraph : includeGraph.Tied where
  twoWay := @Links.twoWay_of_bounded _ 3 (fun _ ↦ ⟨rfl, rfl⟩) (by decide) (by decide)
  allocated := by simp [includeGraph, Rule.create, or_assoc]
  nodes := by decide
  implicit := by decide

theorem load_installs_include : ∃ g',
    load includePlatform () includeGraph 0 "main.o: main.c new.h new.h" = .ok (true, g') ∧
    (∃ named : List NodeId, ["main.c", "new.h", "new.h"].map (fun dep ↦ g'.nodes.lookup dep) =
      named.map some ∧ implicitDeps (g'.rule 0) = (named.filter fun n ↦ n ∉ [0]).eraseDups) ∧
    (1 ∉ g'.sources ↔ Forgotten includeGraph 0 g' 1) := by
  have hrun : (load includePlatform () includeGraph 0 "main.o: main.c new.h new.h" >>= fun x ↦
      pure x.1 : Outcome Bool) = .ok true := by decide +kernel
  obtain ⟨⟨loaded, g'⟩, hload, hloaded⟩ := Lib.bind_eq_ok.mp hrun
  obtain rfl : loaded = true := Except.ok.inj hloaded
  have hregistered : Registered includeGraph 0 :=
    ⟨by simp [includeGraph], by
      simp [includeGraph, implicitDeps, Rule.create, Node.create]
      rfl⟩
  obtain ⟨⟨named, hnamed, -, himplicit, -⟩, -, -, -, -, -, hsources⟩ :=
    load_installs (Platform.digest_ne_empty fun _ ↦ length_digestBytes _) tied_includeGraph
      (by simp [includeGraph]) hregistered rfl hload
  refine ⟨g', hload, ⟨named, hnamed, himplicit⟩, ?_⟩
  rw [hsources 1 (by simp [includeGraph]), not_and_not_right]
  exact ⟨fun h ↦ h (by simp [includeGraph]), fun h _ ↦ h⟩

end Depfile

end Falcon
