import Falcon.Build.Incremental
import Falcon.Daemon.SetDirty
import Falcon.Graph.DepfileParser

/-!
# Incremental builds

A session of the daemon edits source files, tells the daemon, and builds.
Whatever is edited and built in whatever order, and whichever commands fail,
a target that the daemon holds for up to date has the content that a clean
build of the present sources would give it.
-/

namespace Falcon

variable {H : Host} {S : Set String} {X : Commands} {L : Links} {κ : String → String}

/-- The disk after somebody has saved a file. -/
structure Disk.Edited (w : Disk) (path content : String) (w' : Disk) : Prop where
  files : w'.files = Function.update w.files path (some content)
  entries : w'.entries = w.entries

/-- The source files on disk have the contents `κ`. -/
def Disk.Holds (w : Disk) (L : Links) (κ : String → String) : Prop :=
  ∀ n ∈ L.allocated, L.child n = none → w.content (L.path n) = κ (L.path n)

namespace Daemon

/-- The daemon between two requests, when it knows the sources as `κ`. -/
structure Current (H : Host) (S : Set String) (X : Commands) (L : Links) (κ : String → String)
    (d : Daemon Disk) : Prop extends Sound H S X L κ d.graph d.world where
  exact : d.graph.Exact
  dirty : d.graph.DirtyHasDirtyRule

variable {d d' : Daemon Disk} {C : DaemonConfig Disk}

theorem Current.anchored (hL : L.Plain) (h : d.Current H S X L κ) : d.graph.Anchored := by
  have hlinks := h.links
  subst hlinks
  refine ⟨fun n r hr ↦ ((hL.twoWay.mem_parents n r).mp hr).1, fun r hr o ho ↦ ?_, h.dirty⟩
  exact ⟨(hL.twoWay.child_eq_some o r).mpr ⟨hr, ho⟩, hL.allocated r hr o (Or.inr ho)⟩

/-! ## Telling the daemon about a source file -/

section Notify

variable {n : NodeId}

/-- If one source is taken to have another content, every other hash is still
coherent. -/
theorem coherentBut_update (hL : L.Plain) (h : d.Current H S X L κ) (hn : n ∈ L.allocated)
    (content : String) :
    Hash.CoherentBut H.platform (Function.update κ (L.path n) content) d.graph (insert n ∅) ∅ := by
  have hlinks := h.links
  subst hlinks
  have hco := h.coherent
  refine ⟨fun m hm hnot ↦ ?_, hco.rule, hco.source, hco.node_hash, hco.rule_hash⟩
  have hold := hco.node m hm (Set.notMem_empty m)
  have hne : (d.graph.node m).path ≠ d.graph.links.path n := by
    intro heq
    exact hnot (Or.inl (hL.path_injective hm hn heq))
  unfold Hash.NodeHashed at hold ⊢
  rw [Function.update_of_ne hne]
  exact hold

/-- `setDirty` on a source returns; it leaves the graph alone, or it rehashes
what lies above the file and marks it dirty. -/
theorem setDirty_source (hsha : ∀ data, H.platform.digest data ≠ "") (hL : L.Plain)
    (h : d.Current H S X L κ) (hn : n ∈ L.allocated) (hsource : L.child n = none)
    (hmakefile : L.path n ≠ C.jsonGraphFile) :
    ∃ d', setDirty H.platform C d.graph.depth d (L.path n) = .ok d' ∧ d'.world = d.world ∧
      Hash.Coherent H.platform (Function.update κ (L.path n) (d.world.content (L.path n)))
        d'.graph ∧ d'.graph.Exact ∧ d'.graph.links = L ∧ (d'.graph = d.graph ∨
        ∀ m, (d'.graph.node m).isDirty = true ↔
          m ∈ L.Above n ∨ (d.graph.node m).isDirty = true) := by
  have hbut := coherentBut_update hL h hn (d.world.content (L.path n))
  have hlinks := h.links
  subst hlinks
  have hlookup : d.graph.nodes.lookup (d.graph.links.path n) = some n := hL.lookup n hn
  have hchild : (d.graph.node n).childRule = none := hsource
  have hdep : ∀ r ∈ d.graph.rules, (d.graph.rule r).hasDepfile = false :=
    fun r hr ↦ decide_eq_false (not_not_intro (hL.noDepfile r hr))
  generalize hκ : Function.update κ (d.graph.links.path n)
    (d.world.content (d.graph.links.path n)) = κ' at hbut ⊢
  have hread : κ' (d.graph.node n).path =
      Hash.contentOf H.platform d.world (d.graph.node n).path := by
    rw [← hκ]
    exact Function.update_self (d.graph.node n).path _ κ
  have hstart : Hash.Rehashed H.platform κ' d.world d.graph (insert n ∅) ∅ (d.graph, d.world) :=
    ⟨rfl, rfl, rfl, hbut⟩
  obtain ⟨changed, ⟨g, w⟩, hhash, ⟨hlinks, hmarks, hw, hco⟩, hsame⟩ :=
    Hash.recomputeNodeHash_coherent hsha hL.twoWay hL.acyclic hL.allocated hdep
      (d.graph.rankAbove_lt_depth n) hn (fun _ ↦ hread) hstart
  simp only at hlinks hmarks hw hco hsame
  subst hw
  simp only [setDirty, if_neg hmakefile, hlookup, hchild, setSourceDirty, noteMissing_graph,
    noteMissing_world, hhash, Lib.except_ok_bind]
  cases changed with
  | false =>
      obtain ⟨rfl, -⟩ := Prod.mk.inj (hsame rfl)
      exact ⟨_, rfl, rfl, hco, h.exact, rfl, Or.inl rfl⟩
  | true =>
      have hfuel : g.links.rankAbove n < d.graph.depth := by
        rw [hlinks]
        exact d.graph.rankAbove_lt_depth n
      obtain ⟨g', hmark, hmarked, hexact⟩ := Graph.markDirty_spec (hlinks ▸ hL.twoWay)
        (hlinks ▸ hL.acyclic) (h.exact.of_links_marks hlinks hmarks) n hfuel
      have htarget : markTarget d.graph.depth g n = .ok g' := by
        have hnone : (g'.node n).childRule = none := by
          rw [Graph.childRule_of_links (hmarked.links.trans hlinks)]
          exact hchild
        simp only [markTarget, hmark, Lib.except_ok_bind, hnone, Lib.except_pure]
      simp only [if_true, htarget, Lib.except_ok_bind]
      refine ⟨_, rfl, rfl, ?_, hexact, hmarked.links.trans hlinks, Or.inr fun m ↦ ?_⟩
      · exact Hash.Coherent.of_hashes hco hmarked.links (Graph.hashes_of_stamps hmarked.stamps)
      · rw [hmarked.node, hlinks, Graph.nodeDirty_of_marks hmarks]

/-- The daemon has been told about a source, and knows its content. -/
theorem Current.notify (hS : H.CollisionFree S) (hL : L.Plain) (h : d.Current H S X L κ)
    (hn : n ∈ L.allocated) (hsource : L.child n = none) (hmakefile : L.path n ≠ C.jsonGraphFile)
    (hrun : setDirty H.platform C d.graph.depth d (L.path n) = .ok d')
    (hhashed : d'.graph.hashInputs (Function.update κ (L.path n) (d.world.content (L.path n)))
      ⊆ S) :
    d'.world = d.world ∧
      d'.Current H S X L (Function.update κ (L.path n) (d.world.content (L.path n))) := by
  obtain ⟨d₁, hrun₁, hworld, hco, hexact, hlinks, hcase⟩ :=
    setDirty_source hS.digest_ne_empty hL h hn hsource hmakefile
  obtain rfl : d₁ = d' := Except.ok.inj (hrun₁.symm.trans hrun)
  have hsnap : Snapshot H S L d₁.graph _ := ⟨hlinks, hco, hhashed⟩
  have hanchored : d₁.graph.Anchored := by
    refine setDirty_anchored (h.anchored hL) ⟨hmakefile, fun m hm r hr ↦ ?_⟩ hrun
    have hlookup : d.graph.nodes.lookup (L.path n) = some n := by
      rw [show d.graph.nodes = L.nodes from congrArg Links.nodes h.links]
      exact hL.lookup n hn
    obtain rfl : n = m := Option.some.inj (hlookup.symm.trans hm)
    rw [← h.links] at hsource
    exact absurd (hsource.symm.trans hr) (by simp)
  refine ⟨hworld, ⟨hsnap, ?_, ?_⟩, hexact, hanchored.dirty⟩
  · intro m r hm hcommand hclean c hc
    rw [hworld]
    rcases hcase with heq | hdirty
    · rw [heq] at hclean hsnap
      obtain ⟨hold, hmem⟩ := h.source_hash hn hsource
      obtain ⟨hnew, hmem'⟩ := hsnap.source_hash hn hsource
      have hjoin := hS.join_eq_of_digest_eq hmem hmem' (hold.symm.trans hnew)
      simp only [String.join_cons, String.join_nil, String.append_empty,
        String.append_right_inj, Function.update_self] at hjoin
      rw [← hjoin, Function.update_eq_self] at hc
      exact h.files m r hm hcommand hclean c hc
    · rw [← Bool.not_eq_true, hdirty, not_or, Bool.not_eq_true] at hclean
      refine h.files m r hm hcommand hclean.2 c (hc.of_sameBelow hL (hL.allocated_of_child hm) ?_)
      intro k hk _ habove
      have hkn : L.path k ≠ L.path n :=
        fun heq ↦ hclean.1 (hL.path_injective hk hn heq ▸ habove)
      rw [Function.update_of_ne hkn]
  · intro k c hk
    rw [hworld] at hk
    exact h.cache k c hk

/-- Saving a source file does not touch the targets. -/
theorem Current.of_edited (hL : L.Plain) (h : d.Current H S X L κ) (hn : n ∈ L.allocated)
    (hsource : L.child n = none) {content : String} {w' : Disk}
    (hedit : d.world.Edited (L.path n) content w') :
    ({ d with world := w' } : Daemon Disk).Current H S X L κ := by
  refine ⟨h.toSound.of_files hedit.entries fun m r hm _ ↦ ?_, h.exact, h.dirty⟩
  have hne : L.path m ≠ L.path n :=
    hL.path_ne (hL.allocated_of_child hm) hn (by simp [hm, hsource])
  rw [hedit.files, Function.update_of_ne hne]

end Notify

/-! ## Building -/

/-- The state that the lazy cache has reached from the graph `g` and the disk
`w₀`. -/
def Fetching (H : Host) (S : Set String) (X : Commands) (κ : String → String) (g : Graph)
    (w₀ : Disk) (s : Graph × Disk) : Prop :=
  g.Fetched s.1 ∧ Sound H S X g.links κ s.1 s.2 ∧ ∀ n ∈ g.links.allocated,
    g.links.child n = none → s.2.files (g.links.path n) = w₀.files (g.links.path n)

theorem fetching_traverseNode {g : Graph} (hS : H.CollisionFree S) (hL : g.links.Plain) {fuel : ℕ}
    {w₀ : Disk} {s s' : Graph × Disk} {n : NodeId}
    (hrun : LazyCache.traverseNode H.platform fuel s n = .ok s')
    (h : Fetching H S X κ g w₀ s) : Fetching H S X κ g w₀ s' := by
  refine LazyCache.traverseNode_invariant (Fetching H S X κ g w₀) ?_ ?_ hrun h
  · intro g₁ w n r w' ⟨hf, hs, hsrc⟩ _ hn _ hrestore
    have hn' : g.links.child n = some r := by
      rw [← hf.links]
      exact hn
    have hhash := hs.node_hash (hL.allocated_of_child hn')
    change CacheManager.restoreNode g₁ n w = _ at hrestore
    rw [CacheManager.restoreNode_eq hhash] at hrestore
    have hrestore' := (Except.ok.inj hrestore).symm
    split at hrestore'
    · obtain ⟨-, rfl⟩ := Prod.mk.inj hrestore'
      exact ⟨hf, hs, hsrc⟩
    · cases hrestore'
  · intro g₁ w n r w' g' ⟨hf, hs, hsrc⟩ hd hn hphony hrestore hmark
    refine ⟨LazyCache.Fetched.mark hL.twoWay hf hd hn hphony hmark, ?_⟩
    have hlinks := hf.links
    have hn' : g.links.child n = some r := by
      rw [← hlinks]
      exact hn
    have hhash := hs.node_hash (hL.allocated_of_child hn')
    change CacheManager.restoreNode g₁ n w = _ at hrestore
    rw [CacheManager.restoreNode_eq hhash] at hrestore
    have hrestore' := (Except.ok.inj hrestore).symm
    split at hrestore'
    · cases hrestore'
    · rename_i c hentry
      obtain ⟨-, rfl⟩ := Prod.mk.inj hrestore'
      rw [Graph.path_of_links hlinks] at hmark ⊢
      obtain ⟨g₂, hrun₂, hlinks₂, hhashes₂, -, hnode₂, -⟩ :=
        LazyCache.markFetched_spec (hlinks ▸ hL.twoWay) hf.exact hn hd _
      obtain rfl : g₂ = g' := Except.ok.inj (hrun₂.symm.trans hmark)
      have hcontent := hs.entry hS hL hn' hentry
      refine ⟨hs.step hlinks₂ hhashes₂ ?_ fun k d hk ↦ Or.inl hk, fun m hm hsource ↦ ?_⟩
      · intro m q hm _ hclean
        by_cases hmn : m = n
        · subst hmn
          exact Or.inr ⟨c, hcontent, (Disk.write_files _ _ _ _).trans (if_pos rfl)⟩
        · left
          rw [hnode₂, Function.update_of_ne hmn] at hclean
          refine ⟨hclean, hL.files_write hn' (hL.allocated_of_child hm) (fun heq ↦ hmn ?_) c⟩
          obtain ⟨o, -, -, hone⟩ := hL.output_eq ((hL.twoWay.child_eq_some n r).mp hn').1
          rw [hone m heq, hone n hn']
      · have hsame := hL.files_write (w := w) hn' hm (by simp [hsource]) c
        exact hsame.trans (hsrc m hm hsource)

/-- The commands of a run write what they make of the present contents of
their inputs. -/
def Obeyed (P : Platform Disk) (X : Commands) : List (Choice Disk) → Builder Disk → Prop
  | [], _ => True
  | c :: cs, s =>
    c.Obeys X (fun _ m ↦ {s.graph.links.read (c.environment s.world).content m}) s ∧
      ∀ evs s', Builder.step P s c = .ok (evs, s') → Obeyed P X cs s'

/-- `startBuild` and the builder have run on `d` for the given targets, and the
builder has ended in state `s`. -/
def Builds (H : Host) (X : Commands) (d : Daemon Disk) (targets : List String)
    (s : Builder Disk) (d' : Daemon Disk) : Prop :=
  ∃ lazyFetch p d₁ numThreads cs evs, 1 ≤ numThreads ∧
    d.startBuild H.platform d.graph.depth targets lazyFetch = .ok (p, d₁) ∧
    Obeyed H.platform X cs (Builder.create d₁.graph p d₁.world numThreads) ∧
    Builder.run H.platform cs (Builder.create d₁.graph p d₁.world numThreads) = .ok (evs, s) ∧
    s.phase = .finished ∧ d' = { d₁ with graph := s.graph, world := s.world }

section Build

variable (hS : H.CollisionFree S)
include hS

/-- What `startBuild` hands to the builder. -/
theorem Current.startBuild (hL : L.Plain) (h : d.Current H S X L κ) {targets : List String}
    {lazyFetch : Bool} {p : BuildPlan}
    (hrun : d.startBuild H.platform d.graph.depth targets lazyFetch = .ok (p, d')) :
    Sound H S X L κ d'.graph d'.world ∧ d'.graph.Exact ∧ d'.graph.DirtyHasDirtyRule ∧
      Planned d'.graph p ∧ (∀ n ∈ L.allocated, L.child n = none →
        d'.world.files (L.path n) = d.world.files (L.path n)) ∧
      ∀ T, targetsToBuild d.graph targets = .ok T →
        ∀ r, d'.graph.Needed T r → r ∈ p.rules := by
  have hlinks := h.links
  subst hlinks
  obtain ⟨⟨T, g, w⟩, hfetch, hrun⟩ := Lib.bind_eq_ok.mp hrun
  obtain ⟨p', hcreate, hpure⟩ := Lib.bind_eq_ok.mp hrun
  obtain ⟨rfl, rfl⟩ := Prod.mk.inj (Except.ok.inj hpure)
  obtain ⟨_, -, hfetch⟩ := Lib.bind_eq_ok.mp hfetch
  obtain ⟨T', htargets, hfetch⟩ := Lib.bind_eq_ok.mp hfetch
  obtain ⟨s, hloop, hpure⟩ := Lib.bind_eq_ok.mp hfetch
  obtain ⟨rfl, rfl⟩ := Prod.mk.inj (Except.ok.inj hpure)
  have hstart : Fetching H S X κ d.graph d.world (d.graph, d.world) :=
    ⟨.refl h.exact, h.toSound, fun _ _ _ ↦ rfl⟩
  have hdone : Fetching H S X κ d.graph d.world (g, w) := by
    cases lazyFetch with
    | false =>
        rw [← Except.ok.inj hloop]
        exact hstart
    | true =>
        refine Lib.foldlM_invariant (Fetching H S X κ d.graph d.world) ?_ hloop hstart
        exact fun n _ s s' hstep hs ↦ fetching_traverseNode hS hL hstep hs
  obtain ⟨hf, hs, hsrc⟩ := hdone
  have hdirty := hf.dirtyHasDirtyRule h.dirty
  have hlinks := hf.links
  obtain ⟨p₁, hcreate₁, hrules, hready, hstarted⟩ := BuildPlan.create_spec (hlinks ▸ hL.twoWay)
    (hlinks ▸ hL.acyclic) hf.exact hdirty T'
  obtain rfl : p₁ = p' := Except.ok.inj (hcreate₁.symm.trans hcreate)
  refine ⟨hs, hf.exact, hdirty, planned_of_needed hrules hready hstarted,
    hsrc, fun T'' hT r hr ↦ ?_⟩
  obtain rfl : T' = T'' := Except.ok.inj (htargets.symm.trans hT)
  exact (hrules r).mpr hr

section Steps

variable {g₀ : Graph} {p₀ : BuildPlan} {evs evs' : List BuildEvent} {s s' : Builder Disk}

/-- A step of a build, while nobody edits a source. -/
theorem sound_step (hL : g₀.links.Plain) (hplan : Planned g₀ p₀) {c : Choice Disk}
    (h : Builder.Live g₀ p₀ evs s) (hs : Sound H S X g₀.links κ s.graph s.world)
    (hdisk : s.world.Holds g₀.links κ)
    (hobeys : c.Obeys X (fun _ m ↦ {s.graph.links.read (c.environment s.world).content m}) s)
    (hstep : Builder.step H.platform s c = .ok (evs', s')) :
    Sound H S X g₀.links κ s'.graph s'.world ∧ s'.world.Holds g₀.links κ := by
  have hrules := hplan.mem_rules hL.twoWay
  have hsource : ∀ n, g₀.links.child n = none → s.graph.inputReady n = true := by
    intro n hn
    simp [Graph.inputReady, Node.isSource,
      show (s.graph.node n).childRule = none from (Graph.childRule_of_links h.links n).trans hn]
  have hperturb := Builder.sound_perturb hL hplan h hobeys hs
  have hreads : ∀ r ∈ s.running, ∀ m ∈ g₀.links.inputs r,
      ∀ v ∈ ({s.graph.links.read (c.environment s.world).content m} : Set String),
        CleanBuild X g₀.links κ m v := by
    rintro r hr m hm v rfl
    rw [h.links]
    refine hperturb.read hL (h.inputs_ready hL hplan hr m hm) fun hm' ↦ ?_
    have hmem := hL.allocated r (hrules r (h.found_planned r (h.mem_found_of_hand hr))) m
      (Or.inl hm)
    rw [← hdisk m hmem hm', Disk.content, Disk.content,
      Builder.files_perturb_clean hL hplan h hobeys hmem (hsource m hm')]
  obtain ⟨hs', hkeep⟩ := Builder.sound_step hL hplan hS h hs hobeys hreads hstep
  refine ⟨hs', fun n hn hn' ↦ ?_⟩
  rw [Disk.content, hkeep n hn (hsource n hn')]
  exact hdisk n hn hn'

theorem sound_run (hL : g₀.links.Plain) (hplan : Planned g₀ p₀) {cs : List (Choice Disk)}
    (h : Builder.Live g₀ p₀ evs s) (hs : Sound H S X g₀.links κ s.graph s.world)
    (hdisk : s.world.Holds g₀.links κ) (hobeyed : Obeyed H.platform X cs s)
    (hrun : Builder.run H.platform cs s = .ok (evs', s')) :
    Sound H S X g₀.links κ s'.graph s'.world ∧ s'.world.Holds g₀.links κ := by
  have hrules := hplan.mem_rules hL.twoWay
  have hdep : ∀ r ∈ p₀.rules, (g₀.rule r).isPhony = false → (g₀.rule r).hasDepfile = false :=
    fun r hr _ ↦ decide_eq_false (not_not_intro (hL.noDepfile r (hrules r hr)))
  refine (Builder.run_rule (fun evs cs s ↦ Obeyed H.platform X cs s ∧
    Builder.Live g₀ p₀ evs s ∧ Sound H S X g₀.links κ s.graph s.world ∧
      s.world.Holds g₀.links κ) ?_ hrun ⟨hobeyed, h, hs, hdisk⟩).2.2
  rintro c cs evs evs' s s' ⟨⟨hobeys, hlater⟩, h, hs, hdisk⟩ hstep
  exact ⟨hlater evs' s' hstep, h.step hL.twoWay hrules (h.noLoad hdep c) hstep,
    sound_step hS hL hplan h hs hdisk hobeys hstep⟩

end Steps

/-- A build leaves the daemon current, and every target clean if it succeeds. -/
theorem Current.build (hL : L.Plain) (h : d.Current H S X L κ) (hdisk : d.world.Holds L κ)
    {targets : List String} {s : Builder Disk} (hbuild : d.Builds H X targets s d') :
    d'.Current H S X L κ ∧ d'.world.Holds L κ ∧ (s.result = .succeeded → s.interrupted = false →
      ∀ T, targetsToBuild d.graph targets = .ok T → ∀ t ∈ T, ∀ r, L.child t = some r →
        (d'.graph.node t).isDirty = false) := by
  obtain ⟨lazyFetch, p, d₁, numThreads, cs, evs, -, hstart, hobeyed, hrun, hphase, rfl⟩ := hbuild
  obtain ⟨hs, hexact, hdirty, hplan, hsrc, hneeded⟩ := h.startBuild hS hL hstart
  have hdisk₁ : d₁.world.Holds L κ := by
    intro n hn hn'
    rw [Disk.content, hsrc n hn hn']
    exact hdisk n hn hn'
  have hlinks := hs.links
  subst hlinks
  have hdep : ∀ r ∈ p.rules, (d₁.graph.rule r).isPhony = false →
      (d₁.graph.rule r).hasDepfile = false := fun r hr _ ↦ decide_eq_false
    (not_not_intro (hL.noDepfile r (hplan.mem_rules hL.twoWay r hr)))
  have hfree := Builder.loadFree_create (P := H.platform) hL.twoWay hexact hplan hdep d₁.world
    numThreads cs
  obtain ⟨hlive, hcontrol⟩ := Builder.run_controlled hL.twoWay hexact hplan hfree hrun
  obtain ⟨hend, hdisk'⟩ := sound_run hS hL hplan (Builder.live_create hexact hplan _ _) hs hdisk₁
    hobeyed hrun
  refine ⟨⟨hend, hlive.exact (Builder.not_overrun_of_plain hL hplan), ?_⟩, hdisk', ?_⟩
  · intro n r hn hd
    rw [Graph.childRule_of_links hlive.links] at hn
    obtain ⟨hd₁, hnot⟩ := (hlive.node n r hn).mp hd
    exact (hlive.rule r).mpr ⟨hdirty n r hn hd₁, hnot⟩
  · intro hresult hint T hT t ht r hr
    have hnone := hcontrol.result_iff.mp hresult
    rw [← Bool.not_eq_true, hlive.node t r hr]
    rintro ⟨hd, hnot⟩
    exact hnot (hcontrol.built_of_finished hlive hnone hint hphase
      (hneeded T hT r (.target ht hd hr)))

end Build

/-- One request of a session: a source file is saved and the daemon is told,
or a build runs to its end. -/
inductive Turn (H : Host) (X : Commands) (C : DaemonConfig Disk) : Daemon Disk → Daemon Disk → Prop
  | edit {d d' : Daemon Disk} {n : NodeId} {content : String} {w' : Disk}
      (hn : n ∈ d.graph.allocated) (hsource : (d.graph.node n).childRule = none)
      (hmakefile : (d.graph.node n).path ≠ C.jsonGraphFile)
      (hexists : (d.world.files (d.graph.node n).path).isSome = true)
      (hedit : d.world.Edited (d.graph.node n).path content w')
      (hrun : setDirty H.platform C d.graph.depth { d with world := w' } (d.graph.node n).path =
        .ok d') : Turn H X C d d'
  | build {d d' : Daemon Disk} {targets : List String} {s : Builder Disk}
      (hbuild : d.Builds H X targets s d') : Turn H X C d d'

/-- A session in which only strings of `S` are hashed. -/
def Session (H : Host) (S : Set String) (X : Commands) (C : DaemonConfig Disk) :
    Daemon Disk → Daemon Disk → Prop :=
  Relation.ReflTransGen fun d d' ↦ Turn H X C d d' ∧ d'.graph.hashInputs d'.world.content ⊆ S

/-- Every target that is up to date and not phony has the content that a clean
build of the present sources would give it. -/
def FilesClean (X : Commands) (d : Daemon Disk) : Prop :=
  ∀ n r, (d.graph.node n).childRule = some r → (d.graph.rule r).isPhony = false →
    (d.graph.node n).isDirty = false → ∃ c, CleanBuild X d.graph.links d.world.content n c ∧
      d.world.files (d.graph.node n).path = some c

theorem Current.filesClean (hL : L.Plain) (h : d.Current H S X L κ) (hdisk : d.world.Holds L κ) :
    d.FilesClean X := by
  have hlinks := h.links
  subst hlinks
  intro n r hn hphony hclean
  obtain ⟨c, hc⟩ := CleanBuild.exists_content X hL.twoWay hL.acyclic κ n
  refine ⟨c, hc.of_sameBelow hL (hL.allocated_of_child hn) fun m hm hm' _ ↦ hdisk m hm hm', ?_⟩
  exact h.files n r hn (of_decide_eq_false hphony) hclean c hc

/-- The daemon starts with coherent hashes and an empty cache. -/
structure Started (H : Host) (S : Set String) (X : Commands) (d : Daemon Disk) : Prop where
  consistent : d.graph.Consistent
  output : ∀ r ∈ d.graph.rules, ∃ o, (d.graph.rule r).outputs = [o]
  noDepfile : ∀ r ∈ d.graph.rules, (d.graph.rule r).hasDepfile = false
  coherent : Hash.Coherent H.platform d.world.content d.graph
  hashed : d.graph.hashInputs d.world.content ⊆ S
  emptyCache : ∀ hash, d.world.entries hash = none
  files : d.FilesClean X

theorem Started.plain (h : Started H S X d) : d.graph.links.Plain where
  twoWay := h.consistent.twoWay
  acyclic := h.consistent.acyclic
  allocated := h.consistent.allocated
  lookup := h.consistent.lookup
  output := h.output
  noDepfile r hr := not_not.mp (of_decide_eq_false (h.noDepfile r hr))

theorem Started.current (h : Started H S X d) :
    d.Current H S X d.graph.links d.world.content where
  links := rfl
  coherent := h.coherent
  hashed := h.hashed
  files n r hn hcommand hclean c hc := by
    obtain ⟨c', hc', hfile⟩ := h.files n r hn (decide_eq_false hcommand) hclean
    rw [hc.unique hc']
    exact hfile
  cache k c hk := by
    rw [h.emptyCache] at hk
    cases hk
  exact := h.consistent.exact
  dirty := h.consistent.dirty_node

theorem hashInputs_congr {g : Graph} {κ' : String → String}
    (h : ∀ n ∈ g.allocated, (g.node n).childRule = none → κ' (g.node n).path = κ (g.node n).path) :
    g.hashInputs κ' ⊆ g.hashInputs κ := by
  rintro s ((⟨n, hn, hc, rfl⟩ | htarget) | hrule)
  · rw [h n hn hc]
    exact Or.inl (Or.inl ⟨n, hn, hc, rfl⟩)
  · exact Or.inl (Or.inr htarget)
  · exact Or.inr hrule

theorem Current.edit (hS : H.CollisionFree S) (hL : L.Plain) (h : d.Current H S X L κ)
    (hdisk : d.world.Holds L κ) {n : NodeId} {content : String} {w' : Disk} (hn : n ∈ L.allocated)
    (hsource : L.child n = none) (hmakefile : L.path n ≠ C.jsonGraphFile)
    (hedit : d.world.Edited (L.path n) content w')
    (hrun : setDirty H.platform C d.graph.depth { d with world := w' } (L.path n) = .ok d')
    (hhashed : d'.graph.hashInputs d'.world.content ⊆ S) :
    ∃ κ', d'.Current H S X L κ' ∧ d'.world.Holds L κ' := by
  have hedited := h.of_edited hL hn hsource hedit
  have hholds : w'.Holds L (Function.update κ (L.path n) (w'.content (L.path n))) := by
    intro m hm hm'
    by_cases heq : L.path m = L.path n
    · rw [heq, Function.update_self]
    · rw [Function.update_of_ne heq, ← hdisk m hm hm', Disk.content, Disk.content, hedit.files,
        Function.update_of_ne heq]
  obtain ⟨d₁, hrun₁, hworld, -, -, hlinks, -⟩ :=
    setDirty_source hS.digest_ne_empty hL hedited hn hsource hmakefile
  obtain rfl : d₁ = d' := Except.ok.inj (hrun₁.symm.trans hrun)
  have hsub : d₁.graph.hashInputs (Function.update κ (L.path n) (w'.content (L.path n))) ⊆
      d₁.graph.hashInputs d₁.world.content := by
    refine hashInputs_congr fun m hm hm' ↦ ?_
    rw [Graph.allocated_of_links (hlinks.trans h.links.symm)] at hm
    have hpath : (d₁.graph.node m).path = L.path m := congrFun (congrArg Links.path hlinks) m
    rw [hworld, hpath]
    refine (hholds m ?_ ?_).symm
    · rw [← h.links]
      exact hm
    · rw [← hlinks]
      exact hm'
  obtain ⟨-, hcurrent⟩ := hedited.notify hS hL hn hsource hmakefile hrun (hsub.trans hhashed)
  refine ⟨_, hcurrent, ?_⟩
  rw [hworld]
  exact hholds

theorem Current.turn (hS : H.CollisionFree S) (hL : L.Plain) (h : d.Current H S X L κ)
    (hdisk : d.world.Holds L κ) (hturn : Turn H X C d d')
    (hhashed : d'.graph.hashInputs d'.world.content ⊆ S) :
    ∃ κ', d'.Current H S X L κ' ∧ d'.world.Holds L κ' := by
  cases hturn with
  | edit hn hsource hmakefile _ hedit hrun =>
      have hlinks := h.links
      subst hlinks
      exact h.edit hS hL hdisk hn hsource hmakefile hedit hrun hhashed
  | build hbuild =>
      obtain ⟨hcurrent, hdisk', -⟩ := h.build hS hL hdisk hbuild
      exact ⟨κ, hcurrent, hdisk'⟩

/-- Whatever is edited and built, targets that are up to date are what a clean
build would make of the present sources, and a build that succeeds leaves its
targets up to date. -/
theorem incremental_build (hS : H.CollisionFree S) (hstart : Started H S X d)
    (hsession : Session H S X C d d') :
    d'.FilesClean X ∧ ∀ targets s d'', d'.Builds H X targets s d'' →
      d''.FilesClean X ∧ (s.result = .succeeded → s.interrupted = false →
        ∀ T, targetsToBuild d'.graph targets = .ok T → ∀ t ∈ T, ∀ r,
          (d''.graph.node t).childRule = some r → (d''.graph.node t).isDirty = false) := by
  have hL := hstart.plain
  have hcurrent : ∃ κ, d'.Current H S X d.graph.links κ ∧ d'.world.Holds d.graph.links κ := by
    induction hsession with
    | refl => exact ⟨_, hstart.current, fun _ _ _ ↦ rfl⟩
    | tail _ hturn ih =>
        obtain ⟨κ, hκ, hdisk⟩ := ih
        exact hκ.turn hS hL hdisk hturn.1 hturn.2
  obtain ⟨κ, hκ, hdisk⟩ := hcurrent
  refine ⟨hκ.filesClean hL hdisk, fun targets s d'' hbuild ↦ ?_⟩
  obtain ⟨hκ', hdisk', hsuccess⟩ := hκ.build hS hL hdisk hbuild
  refine ⟨hκ'.filesClean hL hdisk', fun hresult hint T hT t ht r hr ↦ ?_⟩
  apply hsuccess hresult hint T hT t ht r
  rw [← hκ'.links]
  exact hr

end Daemon

/-! ## One object file -/

/-- The SHA-256 digests of the strings that are hashed below. -/
def mainDigests : List (String × String) :=
  [("main.cint x;",
      "8ed7839b6c10f7287f44c6e48bc57523270634738dbc7e37cf9f130b2d1384e6"),
    ("8ed7839b6c10f7287f44c6e48bc57523270634738dbc7e37cf9f130b2d1384e6cc -c main.c",
      "9a948b8447b9ce3f19918938b2fec7acca7b02adf0fbce32b84a571b8f793c93"),
    ("main.o9a948b8447b9ce3f19918938b2fec7acca7b02adf0fbce32b84a571b8f793c93",
      "8d263fefc0b3dff320f9d8c8c730317cd5ccca895e0d6204ca7f8711cad6d8d6"),
    ("main.cint y;",
      "feb8594a4b80b28ea2dd4192985a61e39813bce1dbea014d1b5bb0f5e9decbc4"),
    ("feb8594a4b80b28ea2dd4192985a61e39813bce1dbea014d1b5bb0f5e9decbc4cc -c main.c",
      "0481cab54a4cfd28ef21097bf5b1dd51d0905964b88ef251cf3ff61272104554"),
    ("main.o0481cab54a4cfd28ef21097bf5b1dd51d0905964b88ef251cf3ff61272104554",
      "f6e1c485d6af0612c7788270af3bf330d94a4c2cb7cb64efb0b1965750c0aa51")]

def mainHost : Host where
  sha256 s := fromHex ((mainDigests.lookup s).getD (String.ofList (List.replicate 64 '0'))).toList
  parseDepfile := DepfileParser.parseDepfile
  newNode used := used.sup id + 1
  newNode_fresh := fresh_above
  uninitialised _ := false

/-- The compiler puts the texts of its inputs into the object file. -/
def compiler : Commands := fun _ inputs _ ↦ "object of " ++ String.join (inputs.map (·.2))

/-- The makefile `main.c -> main.o`, with everything built. -/
def mainGraph : Graph where
  node
    | 0 => { Node.create "main.c" true false with
        parentRules := [0]
        hash := "8ed7839b6c10f7287f44c6e48bc57523270634738dbc7e37cf9f130b2d1384e6"
        hashDepfile := "8ed7839b6c10f7287f44c6e48bc57523270634738dbc7e37cf9f130b2d1384e6" }
    | 1 => { Node.create "main.o" true false with
        childRule := some 0
        hash := "8d263fefc0b3dff320f9d8c8c730317cd5ccca895e0d6204ca7f8711cad6d8d6"
        hashDepfile := "8d263fefc0b3dff320f9d8c8c730317cd5ccca895e0d6204ca7f8711cad6d8d6" }
    | _ => Node.create "" true false
  rule
    | 0 => { Rule.create [0] [1] with
        command := "cc -c main.c"
        numInputsReady := 1
        hash := "9a948b8447b9ce3f19918938b2fec7acca7b02adf0fbce32b84a571b8f793c93"
        hashDepfile := "9a948b8447b9ce3f19918938b2fec7acca7b02adf0fbce32b84a571b8f793c93" }
    | _ => Rule.create [] []
  roots := {1}
  sources := {0}
  nodes := [("main.c", 0), ("main.o", 1)]
  rules := [0]
  allocated := {0, 1}

def mainDisk : Disk where
  files
    | "main.c" => some "int x;"
    | "main.o" => some "object of int x;"
    | _ => none
  mtimes _ := 0
  entries _ := none
  clock := 0

def mainDaemon : Daemon Disk := ⟨mainGraph, mainDisk, ∅⟩

def mainConfig : DaemonConfig Disk := ⟨"falcon.json", fun d ↦ .ok d⟩

theorem collisionFree_mainHost : mainHost.CollisionFree {s | s ∈ mainDigests.map (·.1)} where
  length s := by
    have hall : ∀ e ∈ mainDigests, (fromHex e.2.toList).length = 32 := by decide +kernel
    exact length_fromHex_lookup hall s
  injOn := by
    have hall : ∀ x ∈ mainDigests.map (·.1), ∀ y ∈ mainDigests.map (·.1),
        mainHost.sha256 x = mainHost.sha256 y → x = y := by decide +kernel
    exact fun x hx y hy h ↦ hall x hx y hy h

theorem mainGraph_rules {r : RuleId} (hr : r ∈ mainGraph.rules) : r = 0 := by
  simpa [mainGraph] using hr

theorem mainGraph_allocated {n : NodeId} (hn : n ∈ mainGraph.allocated) : n = 0 ∨ n = 1 := by
  simpa [mainGraph] using hn

theorem mainGraph_child {n : NodeId} {r : RuleId} (hn : (mainGraph.node n).childRule = some r) :
    n = 1 ∧ r = 0 := by
  match n with
  | 0 => cases hn
  | 1 => exact ⟨rfl, (Option.some.inj hn).symm⟩
  | n + 2 => cases hn

theorem twoWay_mainGraph : mainGraph.links.TwoWay :=
  @Links.twoWay_of_bounded _ 2 (fun _ ↦ ⟨rfl, rfl⟩) (by decide) (by decide)

theorem acyclic_mainGraph : mainGraph.links.Acyclic :=
  twoWay_mainGraph.acyclic_of_rank id (by decide)

theorem consistent_mainGraph : mainGraph.Consistent where
  twoWay := twoWay_mainGraph
  acyclic := acyclic_mainGraph
  allocated := by
    intro r hr n hn
    obtain rfl := mainGraph_rules hr
    simpa [mainGraph, Rule.create] using hn
  lookup := by
    intro n hn
    rcases mainGraph_allocated hn with rfl | rfl <;> decide
  nodes := by decide
  roots := by rintro (_ | _ | n) <;> simp [mainGraph, Node.create]
  sources := by rintro (_ | _ | n) <;> simp [mainGraph, Node.create]
  output := by
    intro r hr
    obtain rfl := mainGraph_rules hr
    decide
  phony_output := by
    intro r hr
    obtain rfl := mainGraph_rules hr
    decide
  node_hash := by
    intro n hn
    rcases mainGraph_allocated hn with rfl | rfl <;> decide
  rule_hash := by
    intro r hr
    obtain rfl := mainGraph_rules hr
    decide
  dirty_node := by
    intro n r hn hd
    obtain ⟨rfl, rfl⟩ := mainGraph_child hn
    exact hd
  dirty_rule := by
    intro r hr
    obtain rfl := mainGraph_rules hr
    decide
  dirty_input := by
    intro r hr
    obtain rfl := mainGraph_rules hr
    decide
  exact := by
    intro r hr
    obtain rfl := mainGraph_rules hr
    decide

theorem coherent_mainGraph : Hash.Coherent mainHost.platform mainDisk.content mainGraph where
  node n hn _ := by
    rcases mainGraph_allocated hn with rfl | rfl <;> exact ⟨rfl, rfl⟩
  rule r hr _ := by
    obtain rfl := mainGraph_rules hr
    exact ⟨rfl, rfl⟩
  source n hn hc := by
    rcases mainGraph_allocated hn with rfl | rfl
    · rfl
    · cases hc
  node_hash := consistent_mainGraph.node_hash
  rule_hash := consistent_mainGraph.rule_hash

theorem started_mainDaemon :
    Daemon.Started mainHost {s | s ∈ mainDigests.map (·.1)} compiler mainDaemon where
  consistent := consistent_mainGraph
  output r hr := by
    obtain rfl := mainGraph_rules hr
    exact ⟨1, rfl⟩
  noDepfile r hr := by
    obtain rfl := mainGraph_rules hr
    rfl
  coherent := coherent_mainGraph
  hashed := by
    rintro s ((⟨n, hn, hc, rfl⟩ | ⟨n, hn, r, hc, rfl⟩) | ⟨r, hr, rfl⟩)
    · rcases mainGraph_allocated hn with rfl | rfl
      · decide
      · cases hc
    · obtain ⟨rfl, rfl⟩ := mainGraph_child hc
      decide
    · obtain rfl := mainGraph_rules hr
      decide
  emptyCache _ := rfl
  files n r hn _ _ := by
    obtain ⟨rfl, rfl⟩ := mainGraph_child hn
    refine ⟨_, .built (fun _ ↦ "int x;") hn (by decide) fun m hm ↦ ?_, rfl⟩
    obtain rfl : m = 0 := by simpa [mainDaemon, mainGraph, Graph.links, Rule.create] using hm
    exact .source rfl

/-- The compiler has read `main.c` and written `main.o`. -/
def compileMain : Choice Disk where
  environment w := { w with
    files := Function.update w.files "main.o" (some ("object of " ++ w.content "main.c")) }
  interrupt := false
  next := 0
  status := .succeeded

theorem compileMain_files (w : Disk) (path : String) : (compileMain.environment w).files path =
    if path = "main.o" then some ("object of " ++ w.content "main.c") else w.files path := by
  simp [compileMain, Function.update_apply]

/-- The graph has the links of `mainGraph`, as far as a session needs them. -/
def Graph.IsMain (g : Graph) : Prop :=
  g.rules = [0] ∧ g.allocated = {0, 1} ∧ (g.node 0).path = "main.c" ∧
    (g.node 0).childRule = none ∧ (g.node 1).path = "main.o" ∧ (g.node 1).childRule = some 0 ∧
    (g.rule 0).inputs = [0] ∧ (g.rule 0).outputs = [1] ∧ (g.rule 0).command = "cc -c main.c"
  deriving Decidable

/-- The steps of a build; the command succeeds only where it is running. -/
def driveMain : List Bool → Builder Disk → Option (Builder Disk)
  | [], s => if s.phase = .finished then some s else none
  | compiled :: cs, s =>
    if compiled = true → s.running = [0] ∧ s.graph.IsMain then
      match Builder.step mainHost.platform s
          (if compiled then compileMain else ⟨id, false, 0, .unknown⟩) with
      | .ok (_, s') => driveMain cs s'
      | .error _ => none
    else none

theorem obeys_idle (s : Builder Disk) :
    (⟨id, false, 0, .unknown⟩ : Choice Disk).Obeys compiler
      (fun _ m ↦ {s.graph.links.read s.world.content m}) s where
  entries := rfl
  files _ _ := rfl
  output h := by cases h

theorem obeys_compileMain {s : Builder Disk} (hrunning : s.running = [0]) (hmain : s.graph.IsMain) :
    compileMain.Obeys compiler
      (fun _ m ↦ {s.graph.links.read (compileMain.environment s.world).content m}) s := by
  obtain ⟨-, -, hsource, hchild, htarget, -, hinputs, houtputs, -⟩ := hmain
  constructor
  · rfl
  · intro path hpath
    have hne := hpath 0 (by simp [hrunning]) 1 (by simp [houtputs])
    rw [htarget] at hne
    rw [compileMain_files, if_neg hne]
  · intro _ r hr
    obtain rfl : r = 0 := by simpa [hrunning, compileMain] using hr.symm
    refine ⟨fun m ↦ s.graph.links.read (compileMain.environment s.world).content m,
      fun m _ ↦ rfl, fun o ho ↦ ?_⟩
    obtain rfl : o = 1 := by simpa [houtputs] using ho
    have hread : s.graph.links.read (compileMain.environment s.world).content 0 =
        s.world.content "main.c" := by
      have hlinks : s.graph.links.child 0 = none := hchild
      have hpath : s.graph.links.path 0 = "main.c" := hsource
      rw [Links.read, hlinks]
      change (compileMain.environment s.world).content (s.graph.links.path 0) = _
      rw [hpath, Disk.content, compileMain_files, if_neg (by decide), Disk.content]
    have hin : s.graph.links.inputs 0 = [0] := hinputs
    rw [htarget, Links.exec, hin, List.map_singleton, hread, compileMain_files, if_pos rfl]
    simp [compiler]

theorem driveMain_spec {cs : List Bool} {s s' : Builder Disk} (h : driveMain cs s = some s') :
    ∃ choices, Daemon.Obeyed mainHost.platform compiler choices s ∧
      (∃ evs, Builder.run mainHost.platform choices s = .ok (evs, s')) ∧ s'.phase = .finished := by
  induction cs generalizing s with
  | nil =>
      simp only [driveMain, Option.ite_none_right_eq_some, Option.some.injEq] at h
      obtain ⟨hphase, rfl⟩ := h
      exact ⟨[], trivial, ⟨[], rfl⟩, hphase⟩
  | cons compiled cs ih =>
      simp only [driveMain, Option.ite_none_right_eq_some] at h
      obtain ⟨hcompiled, h⟩ := h
      split at h
      · rename_i evs t hstep
        obtain ⟨choices, hobeyed, ⟨evs', hrun⟩, hphase⟩ := ih h
        refine ⟨(if compiled then compileMain else ⟨id, false, 0, .unknown⟩) :: choices,
          ⟨?_, fun evs₁ t₁ hstep₁ ↦ ?_⟩, ⟨evs ++ evs', ?_⟩, hphase⟩
        · cases compiled with
          | false => exact obeys_idle s
          | true =>
              obtain ⟨hrunning, hmain⟩ := hcompiled rfl
              exact obeys_compileMain hrunning hmain
        · obtain ⟨-, rfl⟩ := Prod.mk.inj (Except.ok.inj (hstep.symm.trans hstep₁))
          exact hobeyed
        · simp [Builder.run, hstep, hrun]
      · cases h

def buildMain (lazyFetch : Bool) (cs : List Bool) (d : Daemon Disk) :
    Option (Builder Disk × Daemon Disk) :=
  match d.startBuild mainHost.platform d.graph.depth ["main.o"] lazyFetch with
  | .ok (p, d₁) => (driveMain cs (.create d₁.graph p d₁.world 1)).map fun s ↦
      (s, { d₁ with graph := s.graph, world := s.world })
  | .error _ => none

theorem builds_of_buildMain {lazyFetch : Bool} {cs : List Bool} {d d' : Daemon Disk}
    {s : Builder Disk} (h : buildMain lazyFetch cs d = some (s, d')) :
    d.Builds mainHost compiler ["main.o"] s d' := by
  rw [buildMain] at h
  split at h
  · rename_i p d₁ hstart
    obtain ⟨t, hdrive, heq⟩ := Option.map_eq_some_iff.mp h
    obtain ⟨rfl, rfl⟩ := Prod.mk.inj heq
    obtain ⟨choices, hobeyed, ⟨evs, hrun⟩, hphase⟩ := driveMain_spec hdrive
    exact ⟨lazyFetch, p, d₁, 1, choices, evs, le_refl 1, hstart, hobeyed, hrun, hphase, rfl⟩
  · cases h

def saveMain (content : String) (d : Daemon Disk) : Option (Daemon Disk) :=
  if d.graph.IsMain ∧ (d.world.files "main.c").isSome = true then
    (Daemon.setDirty mainHost.platform mainConfig d.graph.depth { d with world := { d.world with
      files := Function.update d.world.files "main.c" (some content) } } "main.c").toOption
  else none

theorem turn_of_saveMain {content : String} {d d' : Daemon Disk}
    (h : saveMain content d = some d') : Daemon.Turn mainHost compiler mainConfig d d' := by
  simp only [saveMain, Option.ite_none_right_eq_some] at h
  obtain ⟨⟨hmain, hexists⟩, h⟩ := h
  obtain ⟨-, hallocated, hpath, hchild, -⟩ := hmain
  have hrun := Lib.toOption_eq_some h
  have hedit : d.world.Edited "main.c" content
      { d.world with files := Function.update d.world.files "main.c" (some content) } := ⟨rfl, rfl⟩
  rw [← hpath] at hexists hrun hedit
  refine .edit (n := 0) ?_ hchild ?_ hexists hedit hrun
  · simp [hallocated]
  · rw [hpath]
    decide

/-- `main.c` is saved, or `main.o` is built. -/
inductive MainRequest where
  | save (content : String)
  | build (cs : List Bool)

/-- Only strings whose digests are known may be hashed. -/
def Daemon.Known (d : Daemon Disk) : Prop :=
  d.graph.IsMain ∧ "main.c" ++ d.world.content "main.c" ∈ mainDigests.map (·.1) ∧
    "main.o" ++ (d.graph.rule 0).hash ∈ mainDigests.map (·.1) ∧
    (d.graph.node 0).hash ++ "cc -c main.c" ∈ mainDigests.map (·.1)
  deriving Decidable

theorem Daemon.Known.hashed {d : Daemon Disk} (h : d.Known) :
    d.graph.hashInputs d.world.content ⊆ {s | s ∈ mainDigests.map (·.1)} := by
  obtain ⟨⟨hrules, hallocated, hsource, hchild, htarget, htargetChild, hinputs, -, hcommand⟩,
    hcontent, hrule, hnode⟩ := h
  rintro s ((⟨n, hn, hc, rfl⟩ | ⟨n, hn, r, hc, rfl⟩) | ⟨r, hr, rfl⟩)
  · rw [hallocated] at hn
    rcases Finset.mem_insert.mp hn with rfl | hn
    · simpa [hsource] using hcontent
    · rw [Finset.mem_singleton.mp hn, htargetChild] at hc
      cases hc
  · rw [hallocated] at hn
    rcases Finset.mem_insert.mp hn with rfl | hn
    · rw [hchild] at hc
      cases hc
    · obtain rfl := Finset.mem_singleton.mp hn
      obtain rfl := Option.some.inj (htargetChild.symm.trans hc)
      simpa [htarget] using hrule
  · rw [hrules] at hr
    obtain rfl := List.mem_singleton.mp hr
    simpa [hinputs, hcommand] using hnode

def MainRequest.handle (d : Daemon Disk) : MainRequest → Option (Daemon Disk)
  | .save content => (saveMain content d).filter fun d' ↦ decide d'.Known
  | .build cs => ((buildMain false cs d).map Prod.snd).filter fun d' ↦ decide d'.Known

theorem MainRequest.handle_spec {d d' : Daemon Disk} {q : MainRequest} (h : q.handle d = some d') :
    Daemon.Turn mainHost compiler mainConfig d d' ∧
      d'.graph.hashInputs d'.world.content ⊆ {s | s ∈ mainDigests.map (·.1)} := by
  cases q with
  | save content =>
      obtain ⟨hsave, hknown⟩ := Option.filter_eq_some_iff.mp h
      exact ⟨turn_of_saveMain hsave, (of_decide_eq_true hknown).hashed⟩
  | build cs =>
      obtain ⟨hbuild, hknown⟩ := Option.filter_eq_some_iff.mp h
      obtain ⟨⟨s, d₁⟩, hrun, rfl⟩ := Option.map_eq_some_iff.mp hbuild
      exact ⟨.build (builds_of_buildMain hrun), (of_decide_eq_true hknown).hashed⟩

theorem session_of_requests {d d' : Daemon Disk} {qs : List MainRequest}
    (h : qs.foldlM MainRequest.handle d = some d') :
    Daemon.Session mainHost {s | s ∈ mainDigests.map (·.1)} compiler mainConfig d d' := by
  induction qs generalizing d with
  | nil =>
      obtain rfl := Option.some.inj h
      exact .refl
  | cons q qs ih =>
      obtain ⟨d₁, hfirst, hrest⟩ := Option.bind_eq_some_iff.mp h
      exact .head (MainRequest.handle_spec hfirst) (ih hrest)

def mainRequests : List MainRequest :=
  [.save "int y;", .build [false, false, true, false, false],
    .save "int x;", .build [false, false, true, false, false],
    .save "int y;", .build [false, false, false, false, false], .save "int x;"]

/-- `main.c` is edited back and forth.  The compiler runs twice, the third build
takes `main.o` from the cache, and before the last one it is fetched. -/
theorem mainRequests_ok : (mainRequests.foldlM MainRequest.handle mainDaemon).any (fun d ↦
    (buildMain true [false, false] d).any fun x ↦ decide ((d.graph.node 1).isDirty = true ∧
      d.world.files "main.o" = some "object of int y;" ∧ x.1.result = .succeeded ∧
      x.1.interrupted = false ∧ (x.2.graph.node 1).isLazyFetched = true ∧
      x.2.world.files "main.o" = some "object of int x;")) = true := by
  decide +kernel

theorem incremental_main_session : ∃ d s d',
    mainRequests.foldlM MainRequest.handle mainDaemon = some d ∧
      d.Builds mainHost compiler ["main.o"] s d' ∧ (d'.graph.node 1).isLazyFetched = true ∧
      d'.world.files "main.o" = some "object of int x;" ∧ d.FilesClean compiler ∧
      d'.FilesClean compiler ∧ ∀ T, Daemon.targetsToBuild d.graph ["main.o"] = .ok T →
        ∀ t ∈ T, ∀ r, (d'.graph.node t).childRule = some r →
          (d'.graph.node t).isDirty = false := by
  obtain ⟨d, hsession, hlast⟩ := (Option.any_eq_true _ _).mp mainRequests_ok
  obtain ⟨⟨s, d'⟩, hbuild, hfacts⟩ := (Option.any_eq_true _ _).mp hlast
  obtain ⟨-, -, hresult, hset, hlazy, hfile⟩ := of_decide_eq_true hfacts
  have hbuilds := builds_of_buildMain hbuild
  obtain ⟨hclean, hall⟩ := Daemon.incremental_build collisionFree_mainHost started_mainDaemon
    (session_of_requests hsession)
  obtain ⟨hclean', htargets⟩ := hall ["main.o"] s d' hbuilds
  exact ⟨d, s, d', hsession, hbuilds, hlazy, hfile, hclean, hclean', htargets hresult hset⟩

end Falcon
