import Falcon.Daemon.Incremental

/-!
# Hashes from scratch

The hashes that a graph should have, computed from the sources upwards without
looking at the hashes that are stored.  An acyclic graph whose hashes are
coherent stores exactly these.  So after the content of one source file has
changed, `recomputeNodeHash` arrives where hashing the whole graph again would.
-/

namespace Falcon.Hash

open Relation

variable {ω : Type} (P : Platform ω)

/-- The hash and the depfile hash of a rule, given those of the nodes. -/
def scratchRule (node : NodeId → String × String) (x : Rule) : String × String :=
  (P.digest (x.inputs.map (fun n ↦ (node n).1) ++ [x.command]),
    P.digest ((explicitInputs x).map (fun n ↦ (node n).2) ++ [x.command]))

/-- The hash and the depfile hash of a node, if `κ` gives the contents of the
source files. -/
def scratchNode (κ : String → String) (g : Graph) : ℕ → NodeId → String × String
  | 0, _ => ("", "")
  | fuel + 1, n =>
    match (g.node n).childRule with
    | none =>
      let hash := P.digest [(g.node n).path, κ (g.node n).path]
      (hash, hash)
    | some r =>
      let hashes := scratchRule P (scratchNode κ g fuel) (g.rule r)
      (P.digest [(g.node n).path, hashes.1], P.digest [(g.node n).path, hashes.2])

/-- Every node and every rule has the hashes computed from scratch. -/
structure FromScratch (κ : String → String) (g : Graph) : Prop where
  node : ∀ n ∈ g.allocated,
    ((g.node n).hash, (g.node n).hashDepfile) = scratchNode P κ g g.depth n
  rule : ∀ r ∈ g.rules,
    ((g.rule r).hash, (g.rule r).hashDepfile) =
      scratchRule P (scratchNode P κ g g.depth) (g.rule r)

variable {P} {κ κ' : String → String} {g g' : Graph} {w w' : ω} {n : NodeId}

theorem scratchRule_congr {node node' : NodeId → String × String} {x : Rule}
    (h : ∀ n ∈ x.inputs, node n = node' n) : scratchRule P node x = scratchRule P node' x := by
  have hall : x.inputs.map (fun n ↦ (node n).1) = x.inputs.map fun n ↦ (node' n).1 :=
    List.map_congr_left fun n hn ↦ by rw [h n hn]
  have hexplicit : (explicitInputs x).map (fun n ↦ (node n).2) =
      (explicitInputs x).map fun n ↦ (node' n).2 :=
    List.map_congr_left fun n hn ↦ by rw [h n (List.mem_of_mem_take hn)]
  rw [scratchRule, scratchRule, hall, hexplicit]

/-- A rule whose hash is coherent with hashes of its inputs that are right. -/
theorem RuleHashed.scratch {r : RuleId} (h : RuleHashed P g r) {node : NodeId → String × String}
    (hin : ∀ n ∈ (g.rule r).inputs, ((g.node n).hash, (g.node n).hashDepfile) = node n) :
    ((g.rule r).hash, (g.rule r).hashDepfile) = scratchRule P node (g.rule r) := by
  rw [← scratchRule_congr hin]
  exact Prod.ext h.1 h.2

section Unique

variable (hL : g.links.TwoWay) (hac : g.links.Acyclic)
  (hin : ∀ r ∈ g.rules, ∀ n, n ∈ (g.rule r).inputs ∨ n ∈ (g.rule r).outputs → n ∈ g.allocated)

include hL hin

/-- What is hashed does not depend on the content of a file that is not below. -/
theorem scratchNode_congr {s : NodeId} (hκ : ∀ m ∈ g.allocated, m ≠ s →
      (g.node m).childRule = none → κ' (g.node m).path = κ (g.node m).path)
    {fuel : ℕ} (hn : n ∈ g.allocated) (hnot : n ∉ g.links.Above s) :
    scratchNode P κ' g fuel n = scratchNode P κ g fuel n := by
  induction fuel generalizing n with
  | zero => rfl
  | succ fuel ih =>
      rw [scratchNode, scratchNode]
      cases hc : (g.node n).childRule with
      | none =>
          have hne : n ≠ s := fun heq ↦ hnot (heq ▸ Links.self_mem_Above n)
          simp only [hκ n hn hne hc]
      | some r =>
          have hr : r ∈ g.rules := ((hL.child_eq_some n r).mp hc).1
          have hrule : scratchRule P (scratchNode P κ' g fuel) (g.rule r) =
              scratchRule P (scratchNode P κ g fuel) (g.rule r) := by
            refine scratchRule_congr fun m hm ↦ ih (hin r hr m (Or.inl hm)) fun habove ↦ hnot ?_
            exact ReflTransGen.tail habove ⟨r, hc, hm⟩
          simp only [hrule]

include hac

/-- Coherent hashes are determined by the sources below. -/
theorem Coherent.scratchNode (h : Coherent P κ g) {fuel : ℕ} (hfuel : g.links.rankBelow n < fuel)
    (hn : n ∈ g.allocated) :
    ((g.node n).hash, (g.node n).hashDepfile) = scratchNode P κ g fuel n := by
  induction fuel generalizing n with
  | zero => omega
  | succ fuel ih =>
      have hnode := h.node n hn (Set.notMem_empty n)
      rw [NodeHashed] at hnode
      rw [Hash.scratchNode]
      cases hc : (g.node n).childRule with
      | none =>
          rw [hc] at hnode
          exact Prod.ext hnode.1 hnode.2
      | some r =>
          rw [hc] at hnode
          have hr : r ∈ g.rules := ((hL.child_eq_some n r).mp hc).1
          have hinputs : ∀ m ∈ (g.rule r).inputs,
              ((g.node m).hash, (g.node m).hashDepfile) = Hash.scratchNode P κ g fuel m := by
            intro m hm
            have hlt := Links.rankBelow_lt hL hac hc hm
            exact ih (by omega) (hin r hr m (Or.inl hm))
          have hrule := (h.rule r hr (Set.notMem_empty r)).scratch hinputs
          simp only [← hrule]
          exact Prod.ext hnode.1 hnode.2

theorem Coherent.fromScratch (h : Coherent P κ g) : FromScratch P κ g where
  node n hn := h.scratchNode hL hac hin (g.rankBelow_lt_depth n) hn
  rule r hr := (h.rule r hr (Set.notMem_empty r)).scratch fun m hm ↦
    h.scratchNode hL hac hin (g.rankBelow_lt_depth m) (hin r hr m (Or.inl hm))

end Unique

theorem scratchNode_of_links (h : g'.links = g.links) (fuel : ℕ) (n : NodeId) :
    scratchNode P κ g' fuel n = scratchNode P κ g fuel n := by
  induction fuel generalizing n with
  | zero => rfl
  | succ fuel ih =>
      have hrule : ∀ r, scratchRule P (scratchNode P κ g' fuel) (g'.rule r) =
          scratchRule P (scratchNode P κ g fuel) (g.rule r) := by
        intro r
        have hnum : (g'.rule r).numImplicitDeps = (g.rule r).numImplicitDeps :=
          congrFun (congrArg Links.numImplicit h) r
        simp only [scratchRule, explicitInputs, Graph.inputs_of_links h, Graph.command_of_links h,
          hnum, ih]
      simp only [scratchNode, Graph.childRule_of_links h, Graph.path_of_links h, hrule]

/-- A node is its links, its marks and its hashes. -/
theorem node_eq (hl : g'.links = g.links) (hm : g'.marks = g.marks)
    (hhash : (g'.node n).hash = (g.node n).hash)
    (hdeps : (g'.node n).hashDepfile = (g.node n).hashDepfile) : g'.node n = g.node n := by
  have hexplicit := congrFun (congrArg Links.isExplicit hl) n
  have hstate := congrFun (congrArg Marks.nodeState hm) n
  have hlazy := congrFun (congrArg Marks.nodeLazy hm) n
  have htime := congrFun (congrArg Marks.nodeTime hm) n
  have hpath := Graph.path_of_links hl n
  have hchild := Graph.childRule_of_links hl n
  have hparents := Graph.parentRules_of_links hl n
  cases hx : g.node n
  cases hx' : g'.node n
  simp only [Graph.links, Graph.marks, hx, hx'] at *
  simp only [hexplicit, hstate, hlazy, htime, hpath, hchild, hparents, hhash, hdeps]

/-- What `recomputeNodeHash` returns is what hashing the node itself returned. -/
theorem recomputeNodeHash_changed {a b : Bool} {fuel : ℕ} {s s' : Graph × ω} {changed : Bool}
    (h : recomputeNodeHash P a b fuel s n = .ok (changed, s')) :
    ∃ g₁, updateNodeHash P s.2 s.1 n a b = .ok (changed, g₁) := by
  cases fuel with
  | zero => cases h
  | succ fuel =>
      obtain ⟨g, w⟩ := s
      obtain ⟨g₁, hupdate, -⟩ := recomputeNodeHash_ok h
      exact ⟨g₁, hupdate⟩

/-- For a source file that is whether its hash has to change. -/
theorem recomputeNodeHash_changed_iff {fuel : ℕ} {s s' : Graph × ω} {changed : Bool}
    (hc : (s.1.node n).childRule = none)
    (h : recomputeNodeHash P true true fuel s n = .ok (changed, s')) :
    changed = true ↔ (s.1.node n).hash ≠
      P.digest [(s.1.node n).path, contentOf P s.2 (s.1.node n).path] := by
  obtain ⟨g₁, hupdate⟩ := recomputeNodeHash_changed h
  obtain ⟨-, hchanged, -⟩ := (updateNodeHash_source hc).mp hupdate
  rw [← hchanged]
  simp [updateSourceHash, contentOf, Node.setHash]

section Source

variable {W : Set ω} (hsha : ∀ s, (P.sha256 s).length = 32) (hL : g.links.TwoWay)
  (hac : g.links.Acyclic)
  (hin : ∀ r ∈ g.rules, ∀ m, m ∈ (g.rule r).inputs ∨ m ∈ (g.rule r).outputs → m ∈ g.allocated)
  (hno : Unrestored P g.links W) (hw : w ∈ W) (hn : n ∈ g.allocated)
  (hsource : (g.node n).childRule = none) (hco : Coherent P κ g)
  (hκ : ∀ m ∈ g.allocated, m ≠ n → (g.node m).childRule = none →
    contentOf P w (g.node m).path = κ (g.node m).path)

include hsha hL hac hin hno hw hn hsource hco hκ

/-- The content of one source has changed from what `κ` says.  Rehashing that
source leaves every node and every rule with the hashes computed from scratch,
and touches nothing that does not depend on the source. -/
theorem recomputeNodeHash_fromScratch :
    ∃ changed g' w', recomputeNodeHash P true true g.depth (g, w) n = .ok (changed, g', w') ∧
      FromScratch P (contentOf P w) g' ∧ g'.links = g.links ∧
      (∀ m ∈ g.allocated, m ∉ g.links.Above n → g'.node m = g.node m) ∧
      (changed = true ↔ (g'.node n).hash ≠ (g.node n).hash) := by
  have hbut : CoherentBut P (contentOf P w) g (insert n ∅) ∅ := by
    refine ⟨fun m hm hnot ↦ ?_, hco.rule, hco.source, hco.node_hash, hco.rule_hash⟩
    have hold := hco.node m hm (Set.notMem_empty m)
    have hne : m ≠ n := fun heq ↦ hnot (Or.inl heq)
    rw [NodeHashed] at hold ⊢
    cases hc : (g.node m).childRule with
    | none =>
        rw [hc] at hold
        simp only [hκ m hm hne hc]
        exact hold
    | some r =>
        rw [hc] at hold
        exact hold
  obtain ⟨changed, ⟨g', w'⟩, hrun, ⟨hlinks, hmarks, -, hdone⟩, -⟩ :=
    recomputeNodeHash_rehashed (Platform.digest_ne_empty hsha) hL hac hin hno
      (g.rankAbove_lt_depth n) hn (fun _ ↦ rfl)
      (⟨rfl, rfl, hw, hbut⟩ : RehashedIn P _ W g _ ∅ (g, w))
  simp only at hlinks hmarks hdone
  have hdone : Coherent P (contentOf P w) g' := hdone
  have hL' : g'.links.TwoWay := hlinks ▸ hL
  have hac' : g'.links.Acyclic := hlinks ▸ hac
  have hin' : ∀ r ∈ g'.rules, ∀ m, m ∈ (g'.rule r).inputs ∨ m ∈ (g'.rule r).outputs →
      m ∈ g'.allocated := by
    intro r hr m hm
    rw [Graph.rules_of_links hlinks] at hr
    rw [Graph.inputs_of_links hlinks, Graph.outputs_of_links hlinks] at hm
    rw [Graph.allocated_of_links hlinks]
    exact hin r hr m hm
  refine ⟨changed, g', w', hrun, hdone.fromScratch hL' hac' hin', hlinks, fun m hm hnot ↦ ?_, ?_⟩
  · have hbelow := g.rankBelow_lt_depth m
    have hbelow' : g'.links.rankBelow m < g.depth := hlinks ▸ hbelow
    have hnew := hdone.scratchNode hL' hac' hin' hbelow' (Graph.allocated_of_links hlinks ▸ hm)
    rw [scratchNode_of_links hlinks, scratchNode_congr hL hin hκ hm hnot,
      ← hco.scratchNode hL hac hin hbelow hm] at hnew
    exact node_eq hlinks hmarks (Prod.mk.inj hnew).1 (Prod.mk.inj hnew).2
  · rw [recomputeNodeHash_changed_iff hsource hrun, ne_comm]
    have hnode := hdone.node n (Graph.allocated_of_links hlinks ▸ hn) (Set.notMem_empty n)
    rw [NodeHashed, Graph.childRule_of_links hlinks, hsource, Graph.path_of_links hlinks] at hnode
    rw [hnode.1]

end Source

def editedDisk : Disk :=
  { mainDisk with files := Function.update mainDisk.files "main.c" (some "int y;") }

/-- `main.c` is edited: the hashes of `main.o` and its rule follow. -/
theorem recomputeNodeHash_fromScratch_main :
    ∃ g' w', recomputeNodeHash mainHost.platform true true mainGraph.depth
        (mainGraph, editedDisk) 0 = .ok (true, g', w') ∧
      FromScratch mainHost.platform editedDisk.content g' ∧
      (g'.node 0).hash ≠ (mainGraph.node 0).hash := by
  have hothers : ∀ m ∈ mainGraph.allocated, m ≠ 0 → (mainGraph.node m).childRule = none →
      contentOf mainHost.platform editedDisk (mainGraph.node m).path =
        mainDisk.content (mainGraph.node m).path := by
    intro m hm hne hc
    rcases mainGraph_allocated hm with rfl | rfl
    · exact absurd rfl hne
    · cases hc
  have hdep : ∀ r ∈ mainGraph.rules, (mainGraph.rule r).hasDepfile = false := by
    intro r hr
    obtain rfl := mainGraph_rules hr
    rfl
  obtain ⟨changed, g', w', hrun, hscratch, -, -, hiff⟩ :=
    recomputeNodeHash_fromScratch collisionFree_mainHost.length twoWay_mainGraph
      acyclic_mainGraph consistent_mainGraph.allocated (unrestored_of_noDepfile hdep editedDisk)
      (Set.mem_singleton editedDisk) (n := 0) (by decide) rfl coherent_mainGraph hothers
  have hchanged : changed = true :=
    (recomputeNodeHash_changed_iff (s := (mainGraph, editedDisk)) rfl hrun).mpr (by decide +kernel)
  exact ⟨g', w', hchanged ▸ hrun, hscratch, hiff.mp hchanged⟩

end Falcon.Hash
