import Falcon.Graph.Coherent
import Falcon.Graph.Consistent
import Falcon.Graph.FirstLoad

/-!
# What a load leaves alone

A load for one rule, also one that gives up halfway, changes the links of that
rule and the node objects at their ends.  The nodes that were there keep their
hashes and their other parents, in the order in which these stand, and a node
that is new has the hashes of its file.
-/

namespace Falcon

open Relation

namespace Graph

/-- Every node is stored under its path. -/
def Mapped (g : Graph) : Prop := ∀ n ∈ g.allocated, g.nodes.lookup (g.node n).path = some n

theorem Linked.wired {g : Graph} (h : g.Linked) : g.Wired :=
  wired_of_twoWay h.twoWay h.allocated h.nodes

theorem Linked.mapped {g : Graph} (h : g.Linked) : g.Mapped := h.lookup

theorem Mapped.of_links {g g' : Graph} (h : g.Mapped) (hl : g'.links = g.links) : g'.Mapped := by
  intro n hn
  have hnodes : g'.nodes = g.nodes := congrArg Links.nodes hl
  rw [hnodes, path_of_links hl]
  exact h n (allocated_of_links hl ▸ hn)

end Graph

namespace Depfile

open Graph

variable {ω : Type} {P : Platform ω} {w : ω} {g k k₁ k' : Graph} {r : RuleId}

/-- The graph `k` at some point of a load for the rule `r` of `g`. -/
structure Reloading (P : Platform ω) (w : ω) (g : Graph) (r : RuleId) (k : Graph) : Prop where
  other : ∀ q, q ≠ r → k.rule q = g.rule q
  self : (k.rule r).hashDepfile = (g.rule r).hashDepfile ∧ (k.rule r).command = (g.rule r).command
  old : ∀ n ∈ g.allocated, { k.node n with parentRules := [] } =
    { g.node n with parentRules := [] }
  parents : ∀ n ∈ g.allocated, otherParents r (k.node n) = otherParents r (g.node n)
  new : ∀ n ∈ k.allocated, n ∉ g.allocated → (k.node n).childRule = none ∧
    (k.node n).hash = P.digest [(k.node n).path, Hash.contentOf P w (k.node n).path] ∧
    (k.node n).hashDepfile = (k.node n).hash ∧ g.nodes.lookup (k.node n).path = none
  mapped : k.Mapped

namespace Reloading

theorem refl (hm : g.Mapped) : Reloading P w g r g :=
  ⟨fun _ _ ↦ rfl, ⟨rfl, rfl⟩, fun _ _ ↦ rfl, fun _ _ ↦ rfl, fun _ hn hnot ↦ absurd hn hnot, hm⟩

/-- What an old node has besides its parents is as before. -/
theorem proj (h : Reloading P w g r k) {β : Type*} (proj : Node → β)
    (hproj : ∀ x, proj { x with parentRules := [] } = proj x) {n : NodeId} (hn : n ∈ g.allocated) :
    proj (k.node n) = proj (g.node n) := by
  rw [← hproj (k.node n), h.old n hn, hproj]

/-- The links and the counter of the rule may change. -/
theorem setRule (h : Reloading P w g r k) {x : Rule}
    (hdeps : x.hashDepfile = (k.rule r).hashDepfile) (hcommand : x.command = (k.rule r).command) :
    Reloading P w g r (k.setRule r x) where
  other q hq := by
    rw [setRule_rule, if_neg hq]
    exact h.other q hq
  self := by
    rw [setRule_rule, if_pos rfl, hdeps, hcommand]
    exact h.self
  old := h.old
  parents := h.parents
  new := h.new
  mapped := h.mapped

theorem unlink (h : Reloading P w g r k) (n : NodeId) : Reloading P w g r (k.unlink r n) := by
  have hproj : ∀ {β : Type} (proj : Node → β),
      (∀ x parents, proj { x with parentRules := parents } = proj x) →
      ∀ m, proj ((k.unlink r n).node m) = proj (k.node m) := by
    intro β proj hproj m
    by_cases hm : m = n
    · rw [hm, unlink_node_self, hproj]
    · rw [unlink_node_ne hm]
  refine ⟨h.other, h.self, fun m hm ↦ ?_, fun m hm ↦ ?_, fun m hm hnot ↦ ?_, fun m hm ↦ ?_⟩
  · rw [← h.old m hm]
    exact hproj (fun x ↦ { x with parentRules := [] }) (fun _ _ ↦ rfl) m
  · rw [← h.parents m hm]
    by_cases hmn : m = n
    · rw [hmn, unlink_node_self]
      exact Lib.filter_ne_erase r _
    · rw [unlink_node_ne hmn]
  · rw [hproj Node.childRule (fun _ _ ↦ rfl), hproj Node.hash (fun _ _ ↦ rfl),
      hproj Node.hashDepfile (fun _ _ ↦ rfl), hproj Node.path (fun _ _ ↦ rfl)]
    exact h.new m hm hnot
  · rw [hproj Node.path (fun _ _ ↦ rfl)]
    exact h.mapped m hm

theorem deleteNode (h : Reloading P w g r k) {n : NodeId} (hn : n ∈ k.allocated) :
    Reloading P w g r (k.deleteNode n) where
  other := h.other
  self := h.self
  old := h.old
  parents := h.parents
  new m hm hnot := h.new m (Finset.mem_of_mem_erase hm) hnot
  mapped := by
    intro m hm
    obtain ⟨hne, hmem⟩ := Finset.mem_erase.mp hm
    have hpath : (k.node m).path ≠ (k.node n).path := by
      intro heq
      have hlookup := h.mapped m hmem
      rw [heq, h.mapped n hn] at hlookup
      exact hne (Option.some.inj hlookup).symm
    refine (Lib.lookup_filter fun e he ↦ ?_).trans (h.mapped m hmem)
    exact decide_eq_true fun heq ↦ hpath (he.symm.trans heq)

end Reloading

/-- While dependencies are added nothing goes. -/
structure Growing (P : Platform ω) (w : ω) (g : Graph) (r : RuleId) (k : Graph) : Prop
    extends Reloading P w g r k where
  grows : g.allocated ⊆ k.allocated
  found : ∀ path n, g.nodes.lookup path = some n → k.nodes.lookup path = some n

theorem Growing.setReady (h : Growing P w g r k) (numReady : ℕ) :
    Growing P w g r (k.setRule r { k.rule r with numInputsReady := numReady }) :=
  ⟨h.toReloading.setRule rfl rfl, h.grows, h.found⟩

/-- A dependency that had no node gets one, with the hashes of its file. -/
theorem Joins.created_node {dep : String} {t n : NodeId} (h : Joins P w k r dep t k₁)
    (hn : n ∈ k₁.allocated) (hnot : n ∉ k.allocated) :
    k.nodes.lookup dep = none ∧ k₁.nodes.lookup dep = some n ∧
      { k₁.node n with parentRules := [] } =
        { Node.create dep false (P.uninitialised k.allocated) with
          hash := P.digest [dep, Hash.contentOf P w dep]
          hashDepfile := P.digest [dep, Hash.contentOf P w dep] } := by
  cases h with
  | found hlookup hin => exact absurd (linkInput_frame.2.2 ▸ hn) hnot
  | created hlookup ht =>
      have hnt : n = t := by
        change n ∈ (linkInput (k.createNode P dep _ _) r t).allocated at hn
        rw [linkInput_frame.2.2] at hn
        exact ht ▸ (Finset.mem_insert.mp hn).resolve_right hnot
      subst hnt
      refine ⟨hlookup, Lib.lookup_snoc_eq_some_iff.mpr (Or.inr ⟨hlookup, rfl, rfl⟩), ?_⟩
      refine (proj_linkInput (fun x ↦ { x with parentRules := [] }) (fun _ _ ↦ rfl) _ _).trans ?_
      rw [ht, createNode_self]
      rfl

theorem Growing.joins {dep : String} {t : NodeId} (h : Growing P w g r k)
    (hjoin : Joins P w k r dep t k₁) : Growing P w g r k₁ where
  other q hq := (hjoin.rule_ne hq).trans (h.other q hq)
  self := by
    rw [hjoin.rule_self]
    exact h.self
  old n hn := by
    rw [← h.old n hn]
    exact hjoin.proj_node (fun x ↦ { x with parentRules := [] }) (fun _ _ ↦ rfl) (h.grows hn)
  parents n hn := by
    rw [← h.parents n hn]
    cases hjoin with
    | found hlookup hnot => exact otherParents_linkInput r _ n
    | created hlookup ht =>
        refine (otherParents_linkInput r _ n).trans ?_
        rw [createNode_node _ _ _ _ (h.grows hn)]
  new n hn hnot := by
    by_cases hk : n ∈ k.allocated
    · rw [hjoin.proj_node Node.childRule (fun _ _ ↦ rfl) hk,
        hjoin.proj_node Node.hash (fun _ _ ↦ rfl) hk,
        hjoin.proj_node Node.hashDepfile (fun _ _ ↦ rfl) hk,
        hjoin.proj_node Node.path (fun _ _ ↦ rfl) hk]
      exact h.new n hk hnot
    · obtain ⟨hnone, -, hnode⟩ := hjoin.created_node hn hk
      have hpath : (k₁.node n).path = dep := congrArg Node.path hnode
      have hhash := congrArg Node.hash hnode
      have hdeps := congrArg Node.hashDepfile hnode
      refine ⟨congrArg Node.childRule hnode, hpath ▸ hhash, hdeps.trans hhash.symm, ?_⟩
      rw [hpath]
      cases hold : g.nodes.lookup dep with
      | none => rfl
      | some m => exact absurd ((h.found dep m hold).symm.trans hnone) (Option.some_ne_none m)
  mapped n hn := by
    by_cases hk : n ∈ k.allocated
    · rw [hjoin.proj_node Node.path (fun _ _ ↦ rfl) hk]
      exact hjoin.lookup_iff.mpr (Or.inl (h.mapped n hk))
    · obtain ⟨-, hlookup, hnode⟩ := hjoin.created_node hn hk
      rw [show (k₁.node n).path = dep from congrArg Node.path hnode]
      exact hlookup
  grows := h.grows.trans hjoin.allocated_subset
  found path n hn := hjoin.lookup_iff.mpr (Or.inl (h.found path n hn))

theorem addDependencies_growing {ins : List String} {before left : List NodeId}
    (h : Growing P w g r k) (hrun : addDependencies P w r ins (k, before) = .ok (k', left)) :
    Growing P w g r k' ∧ left.Sublist before := by
  induction ins generalizing k before with
  | nil =>
      obtain ⟨rfl, rfl⟩ := Prod.mk.inj (Except.ok.inj hrun)
      exact ⟨h, List.Sublist.refl _⟩
  | cons dep ins ih =>
      rw [addDependencies] at hrun
      obtain ⟨⟨t, k₁⟩, hstep, hrest⟩ := Lib.bind_eq_ok.mp hrun
      have h₁ : Growing P w g r k₁ := by
        rcases setRuleDependency_joins hstep with ⟨-, -, rfl⟩ | ⟨k₂, numReady, hjoin, rfl⟩
        · exact h
        · exact (h.joins hjoin).setReady numReady
      obtain ⟨h', hsub⟩ := ih h₁ hrest
      exact ⟨h', hsub.trans List.filter_sublist⟩

/-- The former implicit inputs exist until their turn comes. -/
theorem dropDependencies_reloading {left : List NodeId} (h : Reloading P w g r k)
    (hnodup : left.Nodup) (hleft : ∀ n ∈ left, n ∈ k.allocated)
    (hrun : left.foldlM (dropDependency r) k = .ok k') : Reloading P w g r k' := by
  induction left generalizing k with
  | nil => exact Except.ok.inj hrun ▸ h
  | cons n left ih =>
      obtain ⟨hnot, hnodup⟩ := List.nodup_cons.mp hnodup
      rw [List.foldlM_cons] at hrun
      obtain ⟨k₁, hstep, hrest⟩ := Lib.bind_eq_ok.mp hrun
      have hn : n ∈ k.allocated := hleft n List.mem_cons_self
      have hrestLeft : ∀ m ∈ left, m ∈ k.allocated := fun m hm ↦ hleft m (List.mem_cons_of_mem n hm)
      obtain ⟨-, ⟨-, -, rfl⟩ | ⟨-, rfl⟩⟩ := dropDependency_cases hstep
      · refine ih ((h.unlink n).deleteNode hn) hnodup (fun m hm ↦ ?_) hrest
        exact Finset.mem_erase.mpr ⟨fun heq ↦ hnot (heq ▸ hm), hrestLeft m hm⟩
      · exact ih (h.unlink n) hnodup hrestLeft hrest

theorem load_reloading {content : String} {loaded : Bool} (hg : g.Wired) (hm : g.Mapped)
    (hr : r ∈ g.rules) (hrun : load P w g r content = .ok (loaded, k')) :
    Reloading P w g r k' := by
  obtain ⟨k, hdetach, hcases⟩ := load_ok hrun
  obtain ⟨numReady, rfl⟩ := detachImplicit_eq hdetach
  have h₀ : Reloading P w g r g := .refl hm
  have h₁ := h₀.setRule (x := { g.rule r with
    inputs := Hash.explicitInputs (g.rule r), numImplicitDeps := 0, numInputsReady := numReady })
    rfl rfl
  obtain ⟨-, rfl, -⟩ | ⟨-, first, ins, k₁, left, -, -, hadd, hdrop⟩ := hcases
  · exact h₁
  · obtain ⟨h₂, hsub⟩ := addDependencies_growing ⟨h₁, Finset.Subset.refl _, fun _ _ hn ↦ hn⟩ hadd
    refine dropDependencies_reloading h₂.toReloading (hsub.nodup (List.nodup_dedup _)) ?_ hdrop
    intro n hn
    have himplicit := List.mem_reverse.mp (List.mem_dedup.mp (hsub.subset hn))
    exact h₂.grows (hg.inputs r hr n (List.mem_of_mem_drop himplicit)).2

theorem loadFromfile_reloading {loaded : Bool} (hg : g.Wired) (hm : g.Mapped) (hr : r ∈ g.rules)
    (hrun : loadFromfile P w g r = .ok (loaded, k')) : Reloading P w g r k' := by
  obtain ⟨-, rfl, -⟩ | ⟨content, -, -, hload⟩ := loadFromfile_ok hrun
  · exact .refl hm
  · exact load_reloading hg hm hr hload

/-- A node that has a parent afterwards has not been deleted. -/
theorem allocated_of_relinks (hrun : Relinks P g k) {n : NodeId} (hn : n ∈ g.allocated)
    (hparents : (k.node n).parentRules ≠ []) : n ∈ k.allocated := by
  suffices h : n ∈ k.allocated ∨ (k.node n).parentRules = [] from h.resolve_right hparents
  clear hparents
  induction hrun with
  | refl => exact Or.inl hn
  | @tail k k' _ hstep ih =>
      cases hstep with
      | create dep hash deps =>
          by_cases hnew : n = P.newNode k.allocated
          · exact Or.inl (hnew ▸ Finset.mem_insert_self _ _)
          · rw [createNode, setNode_node, if_neg hnew]
            exact ih.imp_left (Finset.mem_insert_of_mem ·)
      | @link q m _ _ hmem =>
          rw [linkInput_frame.2.2]
          rcases linkInput_parents (g := k) q m n with ⟨heq, -⟩ | ⟨⟨rfl, -⟩, -⟩
          · rw [heq]
            exact ih
          · exact Or.inl hmem
      | register _ hadd =>
          obtain ⟨roots, sources, -, rfl⟩ := addNode_eq hadd
          exact ih
      | @unlink q m _ =>
          refine ih.imp_right fun hnil ↦ ?_
          by_cases hnm : n = m
          · subst hnm
            rw [unlink_node_self, hnil]
            rfl
          · rw [unlink_node_ne hnm, hnil]
      | @delete m hnone _ =>
          by_cases hnm : n = m
          · subst hnm
            exact Or.inr hnone
          · exact ih.imp_left fun hmem ↦ Finset.mem_erase.mpr ⟨hnm, hmem⟩
      | count | cut => exact ih

end Depfile

end Falcon
