import Falcon.Build.LazyCache
import Falcon.Cache.Manager
import Falcon.Daemon.Startup
import Falcon.Graph.Terminates

/-!
# The graph stays acyclic

While the daemon runs, only the depfiles add links to the graph.  It stays
acyclic as long as no depfile lists a target that is made from an output of its
own rule, and then every recursion of the daemon along the graph ends.
-/

namespace Falcon

open Relation Lib Hash

/-! ## Walking down -/

namespace BuildPlan

variable {g : Graph}

/-- The traversal adds a rule whenever it descends. -/
theorem returns_addTarget (hL : g.links.TwoWay) {fuel : ℕ} {p : BuildPlan} {t : NodeId}
    (hfuel : (g.rules.toFinset \ p.rules).card < fuel) :
    Returns (addTarget g fuel p t) fun p' ↦ p.rules ⊆ p'.rules := by
  induction fuel generalizing p t with
  | zero => omega
  | succ fuel ih =>
      have hself : Returns (.ok p : Outcome BuildPlan) fun p' ↦ p.rules ⊆ p'.rules :=
        Avoids.ok (Finset.Subset.refl _)
      rw [addTarget]
      split
      · exact hself
      · cases hc : (g.node t).childRule with
        | none => exact hself
        | some r =>
            have hr : r ∈ g.rules := ((hL.child_eq_some t r).mp hc).1
            simp only
            split
            · exact hself
            · rename_i hnew
              refine Avoids.bind (returns_assert _ _) fun _ _ _ ↦ ?_
              split
              · refine Avoids.bind (returns_assert _ _) fun _ _ _ ↦ ?_
                exact Avoids.ok (Finset.subset_insert _ _)
              · have hcard : (g.rules.toFinset \ insert r p.rules).card < fuel := by
                  have hmem : r ∈ g.rules.toFinset \ p.rules := by simp [hr, hnew]
                  have hpos := Finset.card_pos.mpr ⟨r, hmem⟩
                  rw [Finset.sdiff_insert, Finset.card_erase_of_mem hmem]
                  omega
                refine (Avoids.foldlM (fun q : BuildPlan ↦ insert r p.rules ⊆ q.rules) ?_
                  (Finset.Subset.refl _)).mono fun q _ hq ↦
                    (Finset.subset_insert _ _).trans hq
                intro x _ q hq
                refine (ih (lt_of_le_of_lt ?_ hcard)).mono fun q' _ hq' ↦ hq.trans hq'
                exact Finset.card_le_card (Finset.sdiff_subset_sdiff (Finset.Subset.refl _) hq)

end BuildPlan

namespace LazyCache

variable {ω : Type} {P : Platform ω} {g : Graph}

theorem returns_markFetched (n : NodeId) (t : Timestamp) :
    Returns (markFetched g n t) fun g' ↦ g'.links = g.links := by
  rw [markFetched, Graph.notifyParents]
  refine Avoids.foldlM (fun h : Graph ↦ h.links = g.links) (fun r _ h hh ↦ ?_)
    (Graph.links_setNode rfl rfl rfl rfl)
  exact (Graph.returns_onRule_ready Rule.returns_markInputReady).mono fun k _ hk ↦ hk.trans hh

theorem returns_traverseNode (hP : Prompt P) (hL : g.links.TwoWay) (hac : g.links.Acyclic)
    {fuel : ℕ} {s : Graph × ω} {n : NodeId} (hs : s.1.links = g.links)
    (hfuel : g.links.rankBelow n < fuel) :
    Returns (traverseNode P fuel s n) fun s' ↦ s'.1.links = g.links := by
  induction fuel generalizing s n with
  | zero => omega
  | succ fuel ih =>
      obtain ⟨h, w⟩ := s
      rw [traverseNode]
      split
      · exact Avoids.ok hs
      · cases hc : (h.node n).childRule with
        | none => exact Avoids.ok hs
        | some r =>
            have hinputs : ∀ w', Returns ((h.rule r).inputs.foldlM (traverseNode P fuel) (h, w'))
                fun s' ↦ s'.1.links = g.links := by
              intro w'
              refine Avoids.foldlM (fun s : Graph × ω ↦ s.1.links = g.links) ?_ hs
              intro m hm s hs'
              have hlt : g.links.rankBelow m < g.links.rankBelow n := by
                apply Links.rankBelow_lt hL hac (r := r)
                · exact (Graph.childRule_of_links hs n).symm.trans hc
                · change m ∈ (g.rule r).inputs
                  rw [← Graph.inputs_of_links hs]
                  exact hm
              exact ih hs' (by omega)
            simp only
            split
            · exact hinputs w
            · refine Avoids.bind (Q := fun _ ↦ True) ⟨hP.2 h n w, fun _ _ ↦ trivial⟩
                fun x _ _ ↦ ?_
              obtain ⟨restored, w'⟩ := x
              cases restored with
              | false => exact hinputs w'
              | true =>
                  refine Avoids.bind (returns_markFetched n _) fun g' _ hg' ↦ ?_
                  exact Avoids.ok (hg'.trans hs)

end LazyCache

/-! ## The graph of the parser -/

theorem GraphParser.tied_of_processJson {A : Allocator} {graphFilePath : String}
    {rules : List JsonVal} {g : Graph} (hrun : processJson A graphFilePath rules = .ok g) :
    g.Tied := by
  obtain ⟨g₀, hloop, hpure⟩ := bind_eq_ok.mp hrun
  have h₀ : Parsed g₀ := foldlM_invariant Parsed
    (fun v _ k k' hstep hk ↦ hk.processRule hstep) hloop parsed_empty
  rw [← Except.ok.inj hpure]
  have hL := h₀.twoWay_addPath (A := A) graphFilePath
  have hfree := A.newNode_fresh g₀.allocated
  have hother : ∀ n ∈ g₀.allocated,
      (generateMandatoryNodes A graphFilePath g₀).node n = g₀.node n := by
    intro n hn
    change (g₀.setNode _ _).node n = _
    rw [Graph.setNode_node, if_neg fun heq : n = A.newNode g₀.allocated ↦ hfree (heq ▸ hn)]
  refine ⟨⟨⟨hL.mem_parents, hL.child_eq_some, hL.parents_nodup, hL.inputs_nodup,
    hL.outputs_nodup⟩, fun r hr n hn ↦ ?_, fun e he ↦ ?_⟩, fun r _ ↦ ?_⟩
  · exact Finset.mem_insert_of_mem (h₀.allocated r hr n hn)
  · change e ∈ assignNode g₀.nodes graphFilePath (A.newNode g₀.allocated) at he
    rcases List.mem_append.mp he with he | he
    · obtain ⟨hn, hpath⟩ := h₀.nodes e (List.mem_of_mem_filter he)
      refine ⟨Finset.mem_insert_of_mem hn, ?_⟩
      rw [hother e.2 hn]
      exact hpath
    · obtain rfl := List.mem_singleton.mp he
      refine ⟨Finset.mem_insert_self _ _, ?_⟩
      change ((g₀.setNode _ _).node _).path = _
      rw [Graph.setNode_node, if_pos rfl]
      rfl
  · change (g₀.rule r).numImplicitDeps ≤ _
    rw [h₀.explicit r]
    exact Nat.zero_le _

/-! ## Runs of the daemon -/

/-- A depfile is loaded for which `C` holds, or something happens that does not
concern the links. -/
inductive DaemonStep {ω : Type} (P : Platform ω) (C : Graph → RuleId → List String → Prop) :
    Graph → Graph → Prop
  | load {g g' r w content ins loaded} (hr : r ∈ g.rules)
    (hdepfile : (g.rule r).hasDepfile = true) (hnames : Depfile.Names P g r content ins)
    (hC : C g r ins) (hload : Depfile.load P w g r content = .ok (loaded, g')) :
    DaemonStep P C g g'
  | work {g g'} (hlinks : g'.links = g.links) : DaemonStep P C g g'

/-- No depfile that is loaded closes a cycle. -/
abbrev SafeStep {ω : Type} (P : Platform ω) : Graph → Graph → Prop :=
  DaemonStep P fun g r ins ↦ ¬ Depfile.ClosesCycle g r ins

variable {ω : Type} {P : Platform ω}

theorem SafeStep.tied_acyclic {g g' : Graph} (hstep : SafeStep P g g') (hg : g.Tied)
    (hac : g.links.Acyclic) : g'.Tied ∧ g'.links.Acyclic := by
  cases hstep with
  | load hr _ hnames hsafe hload =>
      have hloaded := Depfile.load_spec hg.toJoined hr hnames hload
      exact ⟨hloaded.loading.tied hg, (hloaded.acyclic_iff hg hr hac).mpr hsafe⟩
  | work hlinks => exact ⟨hg.of_links hlinks, hlinks ▸ hac⟩

theorem SafeStep.run_tied_acyclic {g g' : Graph} (hrun : ReflTransGen (SafeStep P) g g')
    (hg : g.Tied) (hac : g.links.Acyclic) : g'.Tied ∧ g'.links.Acyclic := by
  induction hrun with
  | refl => exact ⟨hg, hac⟩
  | tail _ hstep ih => exact hstep.tied_acyclic ih.1 ih.2

/-- In a run without a load that closes a cycle every graph is acyclic, and the
next load keeps it so just if it closes none; all recursions end. -/
theorem acyclic_of_safe_run {A : Allocator} {graphFilePath : String} {rules : List JsonVal}
    {g₀ g : Graph} (hparse : GraphParser.processJson A graphFilePath rules = .ok g₀)
    (hac : g₀.links.Acyclic) (hP : Prompt P) (hrun : ReflTransGen (SafeStep P) g₀ g) :
    g.links.Acyclic ∧
    (∀ r ∈ g.rules, ∀ w content ins loaded g', Depfile.Names P g r content ins →
      Depfile.load P w g r content = .ok (loaded, g') →
      (g'.links.Acyclic ↔ ¬ Depfile.ClosesCycle g r ins)) ∧
    (∀ n, ∀ fuel ≥ g.depth, Node.markDirty fuel g n ≠ .error .outOfFuel) ∧
    (∀ a b w n, Harmless P (g, w) → ∃ bound, ∀ fuel ≥ bound,
      recomputeNodeHash P a b fuel (g, w) n ≠ .error .outOfFuel) ∧
    (∀ p t, ∀ fuel > g.rules.length, BuildPlan.addTarget g fuel p t ≠ .error .outOfFuel) ∧
    (∀ w n, ∀ fuel ≥ g.depth, LazyCache.traverseNode P fuel (g, w) n ≠ .error .outOfFuel) := by
  obtain ⟨hg, hacyclic⟩ :=
    SafeStep.run_tied_acyclic hrun (GraphParser.tied_of_processJson hparse) hac
  have hL := hg.twoWay
  refine ⟨hacyclic, ?_, ?_, ?_, ?_, ?_⟩
  · intro r hr w content ins loaded g' hnames hload
    exact (Depfile.load_spec hg.toJoined hr hnames hload).acyclic_iff hg hr hacyclic
  · intro n fuel hfuel
    exact (Graph.returns_markDirty hL hacyclic ((g.rankAbove_lt_depth n).trans_le hfuel)).1
  · intro a b w n hharmless
    exact exists_fuel_recomputeNodeHash hP ⟨hg, hacyclic, hharmless⟩ n
  · intro p t fuel hfuel
    refine (BuildPlan.returns_addTarget hL ?_).1
    have hle := Finset.card_le_card (Finset.sdiff_subset (s := g.rules.toFinset) (t := p.rules))
    have hlen := List.toFinset_card_le g.rules
    omega
  · intro w n fuel hfuel
    exact (LazyCache.returns_traverseNode hP hL hacyclic rfl
      ((g.rankBelow_lt_depth n).trans_le hfuel)).1

/-! ## A rule with a depfile -/

/-- A rule makes `b` from `a` and writes the depfile `b.d`, another one makes
the header `h`. -/
def ccMakefile : List JsonVal :=
  [.object [("inputs", .array [.string "a"]), ("outputs", .array [.string "b"]),
    ("cmd", .string "cc a -o b"), ("depfile", .string "b.d")],
   .object [("inputs", .array [.string "d"]), ("outputs", .array [.string "h"]),
    ("cmd", .string "gen d -o h")]]

theorem prompt_platform (H : Host) : Prompt H.platform := by
  constructor
  · intro g r w h
    change CacheFS.readEntry _ _ w = _ at h
    rcases bind_eq_error.mp h with h | ⟨u, -, h⟩
    · simp at h
    · split at h <;> cases h
  · intro g n w h
    rcases bind_eq_error.mp h with h | ⟨found, -, h⟩
    · simp [CacheFS.hasEntry, bind_eq_error] at h
    · cases found with
      | false => cases h
      | true =>
          rcases bind_eq_error.mp h with h | ⟨u, -, h⟩
          · simp at h
          · split at h <;> cases h

/-- The parts of the parsed graph that matter here, and what becomes of them if
a depfile with the given content is loaded. -/
structure CcGraph (content : String) (g g' : Graph) : Prop where
  parse : GraphParser.processJson bumpAllocator "falcon.json" ccMakefile = .ok g
  rules : g.rules = [1, 2]
  rule : (g.rule 1).inputs = [1] ∧ (g.rule 1).outputs = [2] ∧ (g.rule 1).hasDepfile = true
  header : (g.rule 2).inputs = [3] ∧ (g.rule 2).outputs = [4]
  path : (g.node 2).path = "b"
  lookup : g.nodes.lookup "a" = some 1 ∧ g.nodes.lookup "h" = some 4
  load : ∃ loaded, Depfile.load touchHost.platform (touchDisk 1) g 1 content = .ok (loaded, g')

theorem exists_ccGraph (content : String) (hcontent : content ∈ ["b: a h", "b: b"]) :
    ∃ g g', CcGraph content g g' ∧ (content = "b: a h" → (g'.rule 1).inputs = [1, 4]) ∧
      (content = "b: b" → (g'.node 2).parentRules = [1] ∧ (g'.node 2).childRule = some 1 ∧
        (g'.rule 1).inputs = [1, 2] ∧ (g'.rule 1).outputs = [2]) := by
  have hfacts : ∀ content ∈ ["b: a h", "b: b"],
      ((GraphParser.processJson bumpAllocator "falcon.json" ccMakefile).toOption.any fun g ↦
        (Depfile.load touchHost.platform (touchDisk 1) g 1 content).toOption.any fun x ↦ decide
          ((((g.rules = [1, 2] ∧ (g.rule 1).inputs = [1] ∧ (g.rule 1).outputs = [2] ∧
            (g.rule 1).hasDepfile = true) ∧ (g.rule 2).inputs = [3] ∧ (g.rule 2).outputs = [4]) ∧
            (g.node 2).path = "b" ∧ g.nodes.lookup "a" = some 1 ∧ g.nodes.lookup "h" = some 4) ∧
          (content = "b: a h" → (x.2.rule 1).inputs = [1, 4]) ∧
          (content = "b: b" → (x.2.node 2).parentRules = [1] ∧
            (x.2.node 2).childRule = some 1 ∧ (x.2.rule 1).inputs = [1, 2] ∧
            (x.2.rule 1).outputs = [2]))) = true := by
    decide +kernel
  have h := hfacts content hcontent
  cases hparse : GraphParser.processJson bumpAllocator "falcon.json" ccMakefile with
  | error f =>
      rw [hparse] at h
      cases h
  | ok g =>
      rw [hparse] at h
      cases hload : Depfile.load touchHost.platform (touchDisk 1) g 1 content with
      | error f =>
          simp only [Except.toOption, Option.any_some] at h
          rw [hload] at h
          cases h
      | ok x =>
          simp only [Except.toOption, Option.any_some] at h
          rw [hload] at h
          obtain ⟨⟨⟨⟨hrules, hrule⟩, hheader⟩, hpath, hlookup⟩, hloaded⟩ := of_decide_eq_true h
          exact ⟨g, x.2, ⟨hparse, hrules, hrule, hheader, hpath, hlookup, x.1, hload⟩, hloaded⟩

namespace CcGraph

variable {content : String} {g g' : Graph} (h : CcGraph content g g')
include h

theorem feeds {m n : NodeId} (hmn : g.links.Feeds m n) : m = 1 ∧ n = 2 ∨ m = 3 ∧ n = 4 := by
  have hL := (GraphParser.tied_of_processJson h.parse).twoWay
  obtain ⟨r, hn, hm⟩ := hmn
  obtain ⟨hr, hout⟩ := (hL.child_eq_some n r).mp hn
  have hr' : r ∈ g.rules := hr
  rw [h.rules] at hr'
  have hout' : n ∈ (g.rule r).outputs := hout
  have hm' : m ∈ (g.rule r).inputs := hm
  rcases List.mem_cons.mp hr' with rfl | hr'
  · rw [h.rule.2.1, List.mem_singleton] at hout'
    rw [h.rule.1, List.mem_singleton] at hm'
    exact Or.inl ⟨hm', hout'⟩
  · obtain rfl := List.mem_singleton.mp hr'
    rw [h.header.2, List.mem_singleton] at hout'
    rw [h.header.1, List.mem_singleton] at hm'
    exact Or.inr ⟨hm', hout'⟩

theorem acyclic : g.links.Acyclic := by
  apply acyclic_of_rank id
  intro m n hmn
  rcases h.feeds hmn with ⟨rfl, rfl⟩ | ⟨rfl, rfl⟩ <;> decide

theorem step {C : Graph → RuleId → List String → Prop} (ins : List String)
    (hparse : touchHost.platform.parseDepfile content = some ("b", ins)) (hC : C g 1 ins) :
    DaemonStep touchHost.platform C g g' := by
  obtain ⟨loaded, hload⟩ := h.load
  have hr : 1 ∈ g.rules := by
    rw [h.rules]
    exact List.mem_cons_self
  have hnames : Depfile.Names touchHost.platform g 1 content ins := by
    refine ⟨2, ?_, ?_⟩
    · rw [h.rule.2.1]
      rfl
    · rw [h.path]
      exact hparse
  exact .load hr h.rule.2.2 hnames hC hload

end CcGraph

/-- A load of the depfile `b: a h`, which makes the other rule's output an
implicit input. -/
theorem acyclic_of_safe_run_cc :
    ∃ g₀ g, GraphParser.processJson bumpAllocator "falcon.json" ccMakefile = .ok g₀ ∧
      ReflTransGen (SafeStep touchHost.platform) g₀ g ∧ (g.rule 1).inputs = [1, 4] ∧
      g.links.Acyclic := by
  obtain ⟨g₀, g, hg, hinputs, -⟩ := exists_ccGraph "b: a h" (by decide)
  have hsafe : ¬ Depfile.ClosesCycle g₀ 1 ["a", "h"] := by
    rintro ⟨dep, hdep, n, hlookup, o, ho, habove⟩
    rw [hg.rule.2.1, List.mem_singleton] at ho
    have hn : n = 1 ∨ n = 4 := by
      rcases List.mem_cons.mp hdep with rfl | hdep
      · rw [hg.lookup.1] at hlookup
        exact Or.inl (Option.some.inj hlookup).symm
      · rw [List.mem_singleton.mp hdep, hg.lookup.2] at hlookup
        exact Or.inr (Option.some.inj hlookup).symm
    subst ho
    rcases ReflTransGen.cases_head habove with heq | ⟨m, hfeeds, -⟩
    · rcases hn with rfl | rfl <;> cases heq
    · rcases hg.feeds hfeeds with ⟨heq, -⟩ | ⟨heq, -⟩ <;> cases heq
  have hparse : touchHost.platform.parseDepfile "b: a h" = some ("b", ["a", "h"]) := by
    decide +kernel
  have hrun : ReflTransGen (SafeStep touchHost.platform) g₀ g :=
    .single (hg.step ["a", "h"] hparse hsafe)
  exact ⟨g₀, g, hg.parse, hrun, hinputs rfl,
    (acyclic_of_safe_run hg.parse hg.acyclic (prompt_platform touchHost) hrun).1⟩

/-- The depfile `b: b` names the output of its own rule.  It is loaded, and
`Node::markDirty` does not come to an end at `b`. -/
theorem not_acyclic_of_run :
    ∃ g₀ g, GraphParser.processJson bumpAllocator "falcon.json" ccMakefile = .ok g₀ ∧
      g₀.links.Acyclic ∧ ReflTransGen (DaemonStep touchHost.platform fun _ _ _ ↦ True) g₀ g ∧
      ¬ g.links.Acyclic ∧ ∀ fuel, Node.markDirty fuel g 2 = .error .outOfFuel := by
  obtain ⟨g₀, g, hg, -, hself⟩ := exists_ccGraph "b: b" (by decide)
  obtain ⟨hparents, hchild, hinputs, houtputs⟩ := hself rfl
  have hparse : touchHost.platform.parseDepfile "b: b" = some ("b", ["b"]) := by decide +kernel
  refine ⟨g₀, g, hg.parse, hg.acyclic, .single (hg.step ["b"] hparse trivial), ?_, ?_⟩
  · intro hac
    refine hac 2 (.single ⟨1, hchild, ?_⟩)
    change 2 ∈ (g.rule 1).inputs
    rw [hinputs]
    decide
  · intro fuel
    induction fuel with
    | zero => rfl
    | succ fuel ih =>
        simp [Node.markDirty, hparents, Node.markParentDirty, Rule.markDirty, houtputs, ih]

end Falcon
