import Falcon.Build.Scheduling
import Falcon.Cache.Keys

/-!
# Builds that keep files and hashes together

Between two changes of the sources the hashes of the graph stay coherent.
Whatever the builder and the lazy cache mark up to date has the content that
belongs to its hash: a command has just made it from inputs with this
property, or the cache has kept it since a build did.
-/

namespace Falcon

variable {H : Host} {S : Set String} {X : Commands} {L : Links} {κ : String → String} {g g' : Graph}
  {w w' : Disk}

theorem Links.Plain.allocated_of_child (hL : L.Plain) {n : NodeId} {r : RuleId}
    (hn : L.child n = some r) : n ∈ L.allocated := by
  obtain ⟨hr, ho⟩ := (hL.twoWay.child_eq_some n r).mp hn
  exact hL.allocated r hr n (Or.inr ho)

theorem CleanBuild.of_sameBelow (hL : L.Plain) {κ' : String → String} {n : NodeId} {c : String}
    (hn : n ∈ L.allocated)
    (hκ : ∀ m ∈ L.allocated, L.child m = none → n ∈ L.Above m → κ' (L.path m) = κ (L.path m))
    (h : CleanBuild X L κ n c) : CleanBuild X L κ' n c := by
  refine h.congr fun m hm habove ↦ hκ m ?_ hm habove
  rcases Relation.ReflTransGen.cases_head habove with rfl | ⟨k, ⟨r, hr, hin⟩, -⟩
  · exact hn
  · exact hL.allocated r ((hL.twoWay.child_eq_some k r).mp hr).1 m (Or.inl hin)

theorem Hash.Coherent.of_hashes (h : Hash.Coherent H.platform κ g) (hl : g'.links = g.links)
    (hh : g'.hashes = g.hashes) : Hash.Coherent H.platform κ g' := by
  have hpath := Graph.path_of_links hl
  have hchild := Graph.childRule_of_links hl
  have hnode : ∀ n, (g'.node n).hash = (g.node n).hash := congrFun (congrArg Hashes.nodeHash hh)
  have hnodeDeps : ∀ n, (g'.node n).hashDepfile = (g.node n).hashDepfile :=
    congrFun (congrArg Hashes.nodeHashDepfile hh)
  have hrule : ∀ r, (g'.rule r).hash = (g.rule r).hash := congrFun (congrArg Hashes.ruleHash hh)
  have hruleDeps : ∀ r, (g'.rule r).hashDepfile = (g.rule r).hashDepfile :=
    congrFun (congrArg Hashes.ruleHashDepfile hh)
  have hexplicit : ∀ r, Hash.explicitInputs (g'.rule r) = Hash.explicitInputs (g.rule r) := by
    intro r
    have hnum : (g'.rule r).numImplicitDeps = (g.rule r).numImplicitDeps :=
      congrFun (congrArg Links.numImplicit hl) r
    rw [Hash.explicitInputs, Hash.explicitInputs, Graph.inputs_of_links hl, hnum]
  constructor
  · intro n hn hnot
    rw [Graph.allocated_of_links hl] at hn
    have hold := h.node n hn hnot
    unfold Hash.NodeHashed at hold ⊢
    rw [hchild, hnode, hnodeDeps, hpath]
    cases hc : (g.node n).childRule with
    | none =>
        simp only [hc] at hold ⊢
        exact hold
    | some r =>
        simp only [hc, hrule, hruleDeps] at hold ⊢
        exact hold
  · intro r hr hnot
    rw [Graph.rules_of_links hl] at hr
    have hold := h.rule r hr hnot
    simp only [Hash.RuleHashed, hrule, hruleDeps, hnode, hnodeDeps, hexplicit,
      Graph.inputs_of_links hl, Graph.command_of_links hl] at hold ⊢
    exact hold
  · intro n hn hc
    rw [Graph.allocated_of_links hl] at hn
    rw [hchild] at hc
    rw [hnode, hnodeDeps]
    exact h.source n hn hc
  · intro n hn
    rw [Graph.allocated_of_links hl] at hn
    rw [hnode, hnodeDeps]
    exact h.node_hash n hn
  · intro r hr
    rw [Graph.rules_of_links hl] at hr
    rw [hrule, hruleDeps]
    exact h.rule_hash r hr

theorem Graph.hashInputs_of_hashes (hl : g'.links = g.links) (hh : g'.hashes = g.hashes) :
    g'.hashInputs κ = g.hashInputs κ := by
  have hnode : ∀ n, (g'.node n).hash = (g.node n).hash := congrFun (congrArg Hashes.nodeHash hh)
  have hrule : ∀ r, (g'.rule r).hash = (g.rule r).hash := congrFun (congrArg Hashes.ruleHash hh)
  simp only [hashInputs, allocated_of_links hl, rules_of_links hl, childRule_of_links hl,
    path_of_links hl, inputs_of_links hl, command_of_links hl, hnode, hrule]

theorem Snapshot.of_hashes (h : Snapshot H S L g κ) (hl : g'.links = g.links)
    (hh : g'.hashes = g.hashes) : Snapshot H S L g' κ := by
  obtain ⟨rfl, hco, hsub⟩ := h
  refine ⟨hl, hco.of_hashes hl hh, ?_⟩
  rw [Graph.hashInputs_of_hashes hl hh]
  exact hsub

/-- The hashes are coherent with sources of contents `κ`, what is up to date is
what a clean build would make of them, and the cache holds what clean builds
of some sources make under the hashes that these sources give. -/
structure Sound (H : Host) (S : Set String) (X : Commands) (L : Links) (κ : String → String)
    (g : Graph) (w : Disk) : Prop extends Snapshot H S L g κ where
  files : ∀ n r, L.child n = some r → L.command r ≠ "" → (g.node n).isDirty = false →
    ∀ c, CleanBuild X L κ n c → w.files (L.path n) = some c
  cache : ∀ k c, w.entries k = some c → ∃ g₁ κ₁ n r, Snapshot H S L g₁ κ₁ ∧
    L.child n = some r ∧ (g₁.node n).hash = k ∧ CleanBuild X L κ₁ n c

namespace Sound

/-- The hashes stay; whatever becomes clean gets its content, and whatever
enters the cache is such a content. -/
theorem step (h : Sound H S X L κ g w) (hl : g'.links = g.links) (hh : g'.hashes = g.hashes)
    (hfiles : ∀ n r, L.child n = some r → L.command r ≠ "" → (g'.node n).isDirty = false →
      (g.node n).isDirty = false ∧ w'.files (L.path n) = w.files (L.path n) ∨
        ∃ c, CleanBuild X L κ n c ∧ w'.files (L.path n) = some c)
    (hcache : ∀ k c, w'.entries k = some c → w.entries k = some c ∨
      ∃ n r, L.child n = some r ∧ (g.node n).hash = k ∧ CleanBuild X L κ n c) :
    Sound H S X L κ g' w' where
  toSnapshot := h.toSnapshot.of_hashes hl hh
  files n r hn hcommand hclean c hc := by
    rcases hfiles n r hn hcommand hclean with ⟨hold, hsame⟩ | ⟨c', hc', hfile⟩
    · rw [hsame]
      exact h.files n r hn hcommand hold c hc
    · rw [hfile, hc'.unique hc]
  cache k c hk := by
    rcases hcache k c hk with hold | ⟨n, r, hn, hhash, hc⟩
    · exact h.cache k c hold
    · exact ⟨g, κ, n, r, h.toSnapshot, hn, hhash, hc⟩

/-- Other files may change. -/
theorem of_files (h : Sound H S X L κ g w) (hentries : w'.entries = w.entries)
    (hfiles : ∀ n r, L.child n = some r → (g.node n).isDirty = false →
      w'.files (L.path n) = w.files (L.path n)) : Sound H S X L κ g w' := by
  refine h.step rfl rfl (fun n r hn _ hclean ↦ Or.inl ⟨hclean, hfiles n r hn hclean⟩) ?_
  intro k c hk
  rw [hentries] at hk
  exact Or.inl hk

variable (hS : H.CollisionFree S) (hL : L.Plain) (h : Sound H S X L κ g w)
include hS hL h

/-- The entry under the hash of a target is what a clean build makes of it. -/
theorem entry {n : NodeId} {r : RuleId} {c : String} (hn : L.child n = some r)
    (hentry : w.entries (g.node n).hash = some c) : CleanBuild X L κ n c := by
  obtain ⟨g₁, κ₁, m, q, hsnap, hm, hhash, hc⟩ := h.cache _ c hentry
  have hm' := hL.allocated_of_child hm
  have heq : m = n := hsnap.target_eq hS hL h.toSnapshot hm' (hL.allocated_of_child hn) hm hn hhash
  subst heq
  exact hsnap.content_of_hash hS hL h.toSnapshot hm' hhash hc

omit hS in
/-- What a command reads from a ready input is what a clean build gives it,
unless the input is a source that has been edited. -/
theorem read {n : NodeId} (hready : g.inputReady n = true)
    (hsource : L.child n = none → w.content (L.path n) = κ (L.path n)) :
    CleanBuild X L κ n (L.read w.content n) := by
  cases hc : L.child n with
  | none =>
      rw [Links.read, hc]
      simp only [hsource hc]
      exact .source hc
  | some r =>
      rw [Links.read, hc]
      by_cases hcommand : L.command r = ""
      · simp only [hcommand, if_true]
        exact .phony hc hcommand
      · simp only [hcommand, if_false]
        obtain ⟨c, hclean⟩ := CleanBuild.exists_content X hL.twoWay hL.acyclic κ n
        have hchild : (g.node n).childRule = some r := by
          rw [← h.links] at hc
          exact hc
        have hdirty : (g.node n).isDirty = false := by
          simpa [Graph.inputReady, Node.isSource, hchild] using hready
        rw [Disk.content, h.files n r hc hcommand hdirty c hclean]
        exact hclean

end Sound

namespace Links.Plain

variable (hL : L.Plain)
include hL

/-- A rule has exactly one output. -/
theorem output_eq {r : RuleId} (hr : r ∈ L.rules) :
    ∃ o, L.outputs r = [o] ∧ L.child o = some r ∧ ∀ n, L.child n = some r → n = o := by
  obtain ⟨o, ho⟩ := hL.output r hr
  refine ⟨o, ho, (hL.twoWay.child_eq_some o r).mpr ⟨hr, by simp [ho]⟩, fun n hn ↦ ?_⟩
  have hmem := ((hL.twoWay.child_eq_some n r).mp hn).2
  rw [ho] at hmem
  exact List.mem_singleton.mp hmem

/-- Nodes with different rules, or with none, have different paths. -/
theorem path_ne {m n : NodeId} (hm : m ∈ L.allocated) (hn : n ∈ L.allocated)
    (hne : L.child m ≠ L.child n) : L.path m ≠ L.path n := by
  intro heq
  rw [hL.path_injective hm hn heq] at hne
  exact hne rfl

/-- Writing the output of `r` leaves the files of all other nodes alone. -/
theorem files_write {o n : NodeId} {r : RuleId} (ho : L.child o = some r) (hn : n ∈ L.allocated)
    (hne : L.child n ≠ some r) (c : String) :
    (w.write (L.path o) c).files (L.path n) = w.files (L.path n) := by
  have hpath : L.path n ≠ L.path o := hL.path_ne hn (hL.allocated_of_child ho) (ho ▸ hne)
  rw [Disk.write_files, if_neg hpath]

end Links.Plain

namespace Sound

variable (hL : L.Plain) (h : Sound H S X L κ g w) {r : RuleId} (hr : r ∈ L.rules)
  (hcommand : L.command r ≠ "")
include hL h hr hcommand

/-- Saving a rule adds the file of its output under the hash of the output. -/
theorem saved (hsave : CacheManager.saveRule g r w = .ok w') :
    w'.files = w.files ∧ ∀ k c, w'.entries k = some c → w.entries k = some c ∨
      ∃ o, L.child o = some r ∧ (g.node o).hash = k ∧ w.content (L.path o) = c := by
  obtain ⟨o, hout, hchild, -⟩ := hL.output_eq hr
  have hhash := h.node_hash (hL.allocated_of_child hchild)
  have hdep := hL.noDepfile r hr
  rw [← h.links] at hout hcommand hdep ⊢
  have hnodep : (g.rule r).hasDepfile = false := decide_eq_false (not_not_intro hdep)
  rw [CacheManager.saveRule_eq (decide_eq_false hcommand) hnodep hout hhash] at hsave
  have hsave' := (Except.ok.inj hsave).symm
  split at hsave'
  · subst hsave'
    exact ⟨rfl, fun k c hk ↦ Or.inl hk⟩
  · subst hsave'
    refine ⟨rfl, fun k c hk ↦ ?_⟩
    rw [Disk.addEntry_entries] at hk
    split at hk
    · rename_i heq
      exact Or.inr ⟨o, h.links ▸ hchild, heq.symm, Option.some.inj hk⟩
    · exact Or.inl hk

/-- Restoring a rule writes its output from the entry under its hash. -/
theorem restored {hit : Bool} (hrestore : CacheManager.restoreRule g r w = .ok (hit, w')) :
    hit = false ∧ w' = w ∨ hit = true ∧ ∃ o c, L.child o = some r ∧
      w.entries (g.node o).hash = some c ∧ w' = w.write (L.path o) c := by
  obtain ⟨o, hout, hchild, -⟩ := hL.output_eq hr
  have hhash := h.node_hash (hL.allocated_of_child hchild)
  rw [← h.links] at hout hcommand hchild ⊢
  rw [CacheManager.restoreRule_eq (decide_eq_false hcommand) hout hhash] at hrestore
  have hrestore' := (Except.ok.inj hrestore).symm
  split at hrestore'
  · obtain ⟨rfl, rfl⟩ := Prod.mk.inj hrestore'
    exact Or.inl ⟨rfl, rfl⟩
  · rename_i c hentry
    obtain ⟨rfl, rfl⟩ := Prod.mk.inj hrestore'
    exact Or.inr ⟨rfl, o, c, hchild, hentry, rfl⟩

omit hcommand in
/-- The rule is finished; unless it is phony its output has just been written. -/
theorem finish {V : Set RuleId} {add : RuleId → ℕ}
    (hclean : g.Cleaned (Graph.finishedNodes L r) V add g')
    (hother : ∀ n q, L.child n = some q → q ≠ r → w'.files (L.path n) = w.files (L.path n))
    (hout : L.command r ≠ "" → ∀ o, L.child o = some r →
      ∃ c, CleanBuild X L κ o c ∧ w'.files (L.path o) = some c)
    (hcache : ∀ k c, w'.entries k = some c → w.entries k = some c ∨
      ∃ n r, L.child n = some r ∧ (g.node n).hash = k ∧ CleanBuild X L κ n c) :
    Sound H S X L κ g' w' := by
  refine h.step hclean.links hclean.hashes ?_ hcache
  intro n q hn hcommand hdone
  by_cases hq : q = r
  · subst hq
    exact Or.inr (hout hcommand n hn)
  · left
    refine ⟨?_, hother n q hn hq⟩
    by_contra hdirty
    rw [Bool.not_eq_false] at hdirty
    have hstill := (hclean.node n).mpr ⟨hdirty, ?_⟩
    · rw [hdone] at hstill
      cases hstill
    · rintro (ho | ⟨-, hsource⟩)
      · have hchild := (hL.twoWay.child_eq_some n r).mpr ⟨hr, ho⟩
        exact hq (Option.some.inj (hn.symm.trans hchild))
      · rw [hn] at hsource
        cases hsource

end Sound

theorem Sound.touch (h : Sound H S X L κ g w) (r : RuleId) (t : Timestamp) :
    Sound H S X L κ (g.updateRule r (·.setTimestamp t)) w := by
  refine h.step (g.links_setTimestamp r t) (Graph.hashes_setRule rfl rfl) ?_ fun k c hk ↦ Or.inl hk
  exact fun n q _ _ hclean ↦ Or.inl ⟨hclean, rfl⟩

/-- What commands do until the next step is over: those that are running may
write their outputs, and one that succeeds has written what it makes of its
inputs, of which it may have read the contents `reads`. -/
structure Choice.Obeys (X : Commands) (reads : RuleId → NodeId → Set String) (s : Builder Disk)
    (c : Choice Disk) : Prop where
  entries : (c.environment s.world).entries = s.world.entries
  files : ∀ path, (∀ r ∈ s.running, ∀ o ∈ (s.graph.rule r).outputs, path ≠ (s.graph.node o).path) →
    (c.environment s.world).files path = s.world.files path
  output : c.status = .succeeded → ∀ r, s.running[c.next % s.running.length]? = some r →
    ∃ contents : NodeId → String, (∀ m ∈ (s.graph.rule r).inputs, contents m ∈ reads r m) ∧
      ∀ o ∈ (s.graph.rule r).outputs, (c.environment s.world).files (s.graph.node o).path =
        some (s.graph.links.exec X contents r o)

namespace Builder

variable {g₀ : Graph} {p₀ : BuildPlan} {evs evs' : List BuildEvent} {s s' : Builder Disk}
  {c : Choice Disk} {r : RuleId}

section Plain

variable (hL : g₀.links.Plain) (hplan : Planned g₀ p₀)
include hL hplan

theorem planned_output_dirty (hr : r ∈ p₀.rules) {o : NodeId} (ho : g₀.links.child o = some r) :
    (g₀.node o).isDirty = true := by
  obtain ⟨o', -, -, hone⟩ := hL.output_eq (hplan.mem_rules hL.twoWay r hr)
  obtain ⟨n, hn, hd⟩ := hplan.output r hr
  rw [hone o ho, ← hone n hn]
  exact hd

theorem not_overrun_of_plain : ¬ Overrun g₀ p₀ := by
  rintro ⟨r, hr, q, -, hpos⟩
  obtain ⟨n, -, hn⟩ := List.countP_pos_iff.mp hpos
  simp only [Bool.and_eq_true, decide_eq_true_eq, Bool.not_eq_true'] at hn
  have hchild := (hL.twoWay.child_eq_some n r).mpr ⟨hplan.mem_rules hL.twoWay r hr, hn.1⟩
  rw [planned_output_dirty hL hplan hr hchild] at hn
  exact Bool.noConfusion hn.2

theorem Live.output_dirty (h : Live g₀ p₀ evs s) (hr : r ∈ s.running) {o : NodeId}
    (ho : g₀.links.child o = some r) : (s.graph.node o).isDirty = true :=
  (h.node o r ho).mpr ⟨planned_output_dirty hL hplan
    (h.found_planned r (h.mem_found_of_hand hr)) ho, h.not_mem_built hr⟩

theorem Live.inputs_ready (h : Live g₀ p₀ evs s) (hr : r ∈ s.running) :
    ∀ m ∈ g₀.links.inputs r, s.graph.inputReady m = true := by
  have hfound := h.mem_found_of_hand hr
  have hrules : r ∈ s.graph.rules := by
    rw [Graph.rules_of_links h.links]
    exact hplan.mem_rules hL.twoWay r (h.found_planned r hfound)
  intro m hm
  have hexact := h.exact (not_overrun_of_plain hL hplan)
  apply (hexact.ready_iff hrules).mp (h.found_ready r hfound)
  rw [Graph.inputs_of_links h.links]
  exact hm

/-- Running commands leave the files of all other nodes alone. -/
theorem files_perturb {reads : RuleId → NodeId → Set String} (h : Live g₀ p₀ evs s)
    (hobeys : c.Obeys X reads s) {n : NodeId} (hn : n ∈ g₀.links.allocated)
    (hnot : ∀ r ∈ s.running, g₀.links.child n ≠ some r) :
    (s.perturb c).world.files (g₀.links.path n) = s.world.files (g₀.links.path n) := by
  apply hobeys.files
  intro r hr o ho
  rw [Graph.outputs_of_links h.links] at ho
  rw [Graph.path_of_links h.links]
  have hrules := hplan.mem_rules hL.twoWay r (h.found_planned r (h.mem_found_of_hand hr))
  have hchild := (hL.twoWay.child_eq_some o r).mpr ⟨hrules, ho⟩
  exact hL.path_ne hn (hL.allocated_of_child hchild) (hchild ▸ hnot r hr)

/-- Targets that are up to date are not written by running commands. -/
theorem files_perturb_clean {reads : RuleId → NodeId → Set String} (h : Live g₀ p₀ evs s)
    (hobeys : c.Obeys X reads s) {n : NodeId} (hn : n ∈ g₀.links.allocated)
    (hready : s.graph.inputReady n = true) :
    (s.perturb c).world.files (g₀.links.path n) = s.world.files (g₀.links.path n) := by
  apply files_perturb hL hplan h hobeys hn
  intro r hr hchild
  have hdirty := h.output_dirty hL hplan hr hchild
  have hchild' : (s.graph.node n).childRule = some r :=
    (Graph.childRule_of_links h.links n).trans hchild
  simp [Graph.inputReady, Node.isSource, hchild', hdirty] at hready

theorem sound_perturb {reads : RuleId → NodeId → Set String} (h : Live g₀ p₀ evs s)
    (hobeys : c.Obeys X reads s) (hs : Sound H S X g₀.links κ s.graph s.world) :
    Sound H S X g₀.links κ (s.perturb c).graph (s.perturb c).world := by
  refine hs.of_files hobeys.entries fun n r hn hclean ↦ ?_
  apply files_perturb_clean hL hplan h hobeys (hL.allocated_of_child hn)
  simp [Graph.inputReady, hclean]

/-- A command that has succeeded has written its output, which is saved. -/
theorem sound_reaped {rest : List RuleId} {res : BuildResult} (h : Live g₀ p₀ evs s)
    (hs : Sound H S X g₀.links κ s.graph s.world) (hmem : r ∈ s.running)
    (hperm : s.running.Perm (r :: rest))
    (hwritten : c.status = .succeeded → ∃ contents : NodeId → String,
      (∀ m ∈ g₀.links.inputs r, CleanBuild X g₀.links κ m (contents m)) ∧
      ∀ o, g₀.links.child o = some r →
        s.world.files (g₀.links.path o) = some (g₀.links.exec X contents r o))
    (hr : Reaped H.platform s c r rest res evs' s') :
    Sound H S X g₀.links κ s'.graph s'.world ∧ s'.world.files = s.world.files := by
  have hrules := hplan.mem_rules hL.twoWay
  have htouch := hs.touch r (H.platform.now s.world)
  cases hr with
  | failed => exact ⟨htouch, rfl⟩
  | built hstatus hdep hsave hfinish =>
      have hhand := (h.toOngoing.perm hperm).touch_setTimestamp r (H.platform.now s.world)
      obtain ⟨g', p', rfl, hclean, -⟩ := onRuleFinished_ok hL.twoWay hrules hhand hfinish
      have hplanned : r ∈ g₀.links.rules :=
        hrules r (h.found_planned r (h.mem_found_of_hand hmem))
      have hcommand : g₀.links.command r ≠ "" := of_decide_eq_false (h.command r hmem)
      obtain ⟨contents, hinputs, hfile⟩ := hwritten hstatus
      have hcontent : ∀ o, g₀.links.child o = some r →
          CleanBuild X g₀.links κ o (g₀.links.exec X contents r o) :=
        fun o ho ↦ .built contents ho hcommand hinputs
      obtain ⟨hfiles, hentries⟩ := htouch.saved hL hplanned hcommand hsave
      rw [show Graph.links _ = g₀.links from htouch.links] at hclean
      refine ⟨htouch.finish hL hplanned hclean ?_ ?_ ?_, hfiles⟩
      · exact fun n q _ _ ↦ congrFun hfiles _
      · exact fun _ o ho ↦ ⟨_, hcontent o ho, (congrFun hfiles _).trans (hfile o ho)⟩
      · intro k d hk
        refine (hentries k d hk).imp id ?_
        rintro ⟨o, ho, hhash, rfl⟩
        refine ⟨o, r, ho, hhash, ?_⟩
        rw [Disk.content, hfile o ho]
        exact hcontent o ho

/-- One step of the builder keeps the files of the sources and of the targets
that were up to date. -/
theorem sound_act (hS : H.CollisionFree S) (h : Live g₀ p₀ evs s)
    (hs : Sound H S X g₀.links κ s.graph s.world) (hload : s.NoLoad c)
    (hwritten : c.status = .succeeded → ∀ r, s.running[c.next % s.running.length]? = some r →
      ∃ contents : NodeId → String,
        (∀ m ∈ g₀.links.inputs r, CleanBuild X g₀.links κ m (contents m)) ∧
        ∀ o, g₀.links.child o = some r →
          s.world.files (g₀.links.path o) = some (g₀.links.exec X contents r o))
    (ha : Act H.platform s c evs' s') :
    Sound H S X g₀.links κ s'.graph s'.world ∧ ∀ n ∈ g₀.links.allocated,
      s.graph.inputReady n = true →
        s'.world.files (g₀.links.path n) = s.world.files (g₀.links.path n) := by
  have hrules := hplan.mem_rules hL.twoWay
  cases ha with
  | enter => exact ⟨hs, fun _ _ _ ↦ rfl⟩
  | leave => exact ⟨hs, fun _ _ _ ↦ rfl⟩
  | idle => exact ⟨hs, fun _ _ _ ↦ rfl⟩
  | finish => exact ⟨hs, fun _ _ _ ↦ rfl⟩
  | stay => exact ⟨hs, fun _ _ _ ↦ rfl⟩
  | @phony r p s' _ _ hwork hphony hfinish =>
      obtain ⟨hr, -, -, htake⟩ := h.take hwork
      obtain ⟨g', p', rfl, hclean, -⟩ := onRuleFinished_ok hL.twoWay hrules htake hfinish
      simp only at hclean
      rw [hs.links] at hclean
      have hcommand : g₀.links.command r = "" := by
        rw [← hs.links]
        exact of_decide_eq_true hphony
      refine ⟨?_, fun _ _ _ ↦ rfl⟩
      exact hs.finish hL (hrules r hr) hclean (fun _ _ _ _ ↦ rfl)
        (fun hne ↦ absurd hcommand hne) fun k d hk ↦ Or.inl hk
  | @restored r p w s' _ _ hwork hphony hrestore hfinish =>
      obtain ⟨hr, hnew, -, htake⟩ := h.take hwork
      obtain ⟨g', p', rfl, hclean, -⟩ := onRuleFinished_ok hL.twoWay hrules
        (htake.touch_setTimestamp r (H.platform.now w)) hfinish
      have hcommand : g₀.links.command r ≠ "" := by
        rw [← hs.links]
        exact of_decide_eq_false hphony
      rcases hs.restored hL (hrules r hr) hcommand hrestore with ⟨hmiss, -⟩ |
        ⟨-, o, d, ho, hentry, rfl⟩
      · cases hmiss
      · have htouch := hs.touch r (H.platform.now (s.world.write (g₀.links.path o) d))
        have hcontent := hs.entry hS hL ho hentry
        simp only at hclean
        rw [show Graph.links _ = g₀.links from htouch.links] at hclean
        refine ⟨htouch.finish hL (hrules r hr) hclean ?_ ?_ fun k d hk ↦ Or.inl hk, ?_⟩
        · intro n q hn hq
          refine hL.files_write ho (hL.allocated_of_child hn) (fun heq ↦ hq ?_) d
          exact Option.some.inj (hn.symm.trans heq)
        · intro _ o' ho'
          obtain ⟨o₁, -, -, hone⟩ := hL.output_eq (hrules r hr)
          rw [hone o' ho', ← hone o ho]
          exact ⟨d, hcontent, by rw [Disk.write_files, if_pos rfl]⟩
        · intro n hn hready
          refine hL.files_write ho hn (fun hchild ↦ ?_) d
          have hdirty := (h.node n r hchild).mpr ⟨planned_output_dirty hL hplan hr hchild,
            fun hb ↦ hnew (h.mem_found.mpr (Or.inl hb))⟩
          have hchild' : (s.graph.node n).childRule = some r :=
            (Graph.childRule_of_links h.links n).trans hchild
          simp [Graph.inputReady, Node.isSource, hchild', hdirty] at hready
  | @spawned r p w _ _ hwork hphony hrestore =>
      obtain ⟨hr, -, -, -⟩ := h.take hwork
      have hcommand : g₀.links.command r ≠ "" := by
        rw [← hs.links]
        exact of_decide_eq_false hphony
      rcases hs.restored hL (hrules r hr) hcommand hrestore with ⟨-, rfl⟩ | ⟨hhit, -⟩
      · exact ⟨hs, fun _ _ _ ↦ rfl⟩
      · cases hhit
  | reaped _ _ hwait =>
      obtain ⟨r, rest, hget, hperm, hr⟩ := Reaped.of_waitForNext hload hwait
      obtain ⟨hsound, hfiles⟩ := sound_reaped hL hplan h hs (List.mem_of_getElem? hget) hperm
        (fun hstatus ↦ hwritten hstatus r hget) hr
      exact ⟨hsound, fun _ _ _ ↦ congrFun hfiles _⟩
  | flushed _ hwait =>
      obtain ⟨r, rest, hget, hperm, hr⟩ := Reaped.of_waitForNext hload hwait
      obtain ⟨hsound, hfiles⟩ := sound_reaped hL hplan h hs (List.mem_of_getElem? hget) hperm
        (fun hstatus ↦ hwritten hstatus r hget) hr
      exact ⟨hsound, fun _ _ _ ↦ congrFun hfiles _⟩

/-- One step, if every content that a command may have read from an input is
the one that belongs to the input. -/
theorem sound_step (hS : H.CollisionFree S) {reads : RuleId → NodeId → Set String}
    (h : Live g₀ p₀ evs s) (hs : Sound H S X g₀.links κ s.graph s.world)
    (hobeys : c.Obeys X reads s)
    (hreads : ∀ r ∈ s.running, ∀ m ∈ g₀.links.inputs r, ∀ v ∈ reads r m,
      CleanBuild X g₀.links κ m v)
    (hstep : Builder.step H.platform s c = .ok (evs', s')) :
    Sound H S X g₀.links κ s'.graph s'.world ∧ ∀ n ∈ g₀.links.allocated,
      s.graph.inputReady n = true →
        s'.world.files (g₀.links.path n) = s.world.files (g₀.links.path n) := by
  have hrules := hplan.mem_rules hL.twoWay
  have hdep : ∀ r ∈ p₀.rules, (g₀.rule r).isPhony = false → (g₀.rule r).hasDepfile = false :=
    fun r hr _ ↦ decide_eq_false (not_not_intro (hL.noDepfile r (hrules r hr)))
  have hload := h.noLoad hdep c
  have hwritten : c.status = .succeeded → ∀ r,
      (s.perturb c).running[c.next % (s.perturb c).running.length]? = some r →
      ∃ contents : NodeId → String,
        (∀ m ∈ g₀.links.inputs r, CleanBuild X g₀.links κ m (contents m)) ∧
        ∀ o, g₀.links.child o = some r →
          (s.perturb c).world.files (g₀.links.path o) =
            some (g₀.links.exec X contents r o) := by
    intro hstatus r hr
    obtain ⟨contents, hcontents, hout⟩ := hobeys.output hstatus r hr
    have hmem : r ∈ s.running := List.mem_of_getElem? hr
    rw [Graph.inputs_of_links h.links] at hcontents
    refine ⟨contents, fun m hm ↦ hreads r hmem m hm _ (hcontents m hm), fun o ho ↦ ?_⟩
    rw [Graph.outputs_of_links h.links, h.links] at hout
    have hfile := hout o ((hL.twoWay.child_eq_some o r).mp ho).2
    rw [Graph.path_of_links h.links] at hfile
    exact hfile
  obtain ⟨hs', hkeep⟩ := sound_act hL hplan hS (h.perturb c) (sound_perturb hL hplan h hobeys hs)
    hload.perturb hwritten (.of_step hstep)
  refine ⟨hs', fun n hn hready ↦ ?_⟩
  rw [hkeep n hn hready]
  exact files_perturb_clean hL hplan h hobeys hn hready

end Plain

end Builder

end Falcon
