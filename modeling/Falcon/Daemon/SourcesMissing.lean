import Falcon.Daemon.DepfileKey
import Falcon.Daemon.MergingGraph

/-!
# Missing source files

`setDirty` records a source file that it does not find, and `startBuild` is
refused while there is one.  The record consists of nodes, and is emptied when
the makefile is reloaded.
-/

namespace Falcon

open Relation Lib

namespace Graph

variable {ω : Type} {P : Platform ω} {g k g' : Graph} {n : NodeId}

def ExplicitInput (g : Graph) (n : NodeId) : Prop :=
  ∃ r ∈ g.rules, n ∈ Hash.explicitInputs (g.rule r)

/-- A source file that some rule lists in the makefile. -/
def ExplicitSource (g : Graph) (n : NodeId) : Prop :=
  (g.node n).childRule = none ∧ g.ExplicitInput n

/-- Of the nodes of `S` those that have not been deleted. -/
def survivors (g g' : Graph) (S : Set NodeId) : Set NodeId :=
  {n | n ∈ S ∧ n ∈ g'.allocated ∧ (g'.node n).path = (g.node n).path}

/-- Edits, and then changes that leave the links alone. -/
def Reworked (P : Platform ω) (g g' : Graph) : Prop := ∃ k, Edits P g k ∧ g'.links = k.links

theorem ExplicitInput.declared (h : g.ExplicitInput n) : g.Declared n := by
  obtain ⟨r, hr, hn⟩ := h
  exact ⟨r, hr, Or.inl hn⟩

theorem Reworked.of_links (hl : g'.links = g.links) : Reworked P g g' := ⟨g, .refl, hl⟩

theorem Reworked.of_edits (h : Edits P g g') : Reworked P g g' := ⟨g', h, rfl⟩

namespace Reworked

variable (h : Reworked P g g') (hg : g.Wired)
include h hg

theorem wired : g'.Wired := by
  obtain ⟨k, hrun, hl⟩ := h
  exact (hg.edits hrun).of_links hl

theorem explicit : Explicit g g' := by
  obtain ⟨k, hrun, hl⟩ := h
  exact ((Explicit.refl g).edits hg hrun).of_links hl

theorem explicitInput_iff (n : NodeId) : g'.ExplicitInput n ↔ g.ExplicitInput n := by
  have hsame := h.explicit hg
  simp only [ExplicitInput, hsame.rules, hsame.inputs]

theorem explicitSource_iff (n : NodeId) : g'.ExplicitSource n ↔ g.ExplicitSource n := by
  rw [ExplicitSource, ExplicitSource, h.explicitInput_iff hg]
  constructor
  · rintro ⟨hchild, hin⟩
    exact ⟨((h.explicit hg).node n hin.declared).2.1 ▸ hchild, hin⟩
  · rintro ⟨hchild, hin⟩
    exact ⟨((h.explicit hg).node n hin.declared).2.1.trans hchild, hin⟩

/-- No explicit input is deleted. -/
theorem mem_survivors (hn : g.ExplicitInput n) (S : Set NodeId) :
    n ∈ survivors g g' S ↔ n ∈ S := by
  refine ⟨fun hin ↦ hin.1, fun hin ↦ ⟨hin, ?_, ((h.explicit hg).node n hn.declared).1⟩⟩
  apply (h.wired hg).allocated
  exact ((h.explicitInput_iff hg n).mpr hn).declared

end Reworked

end Graph

/-! ## Reloading the makefile -/

/-- What a reload depends on besides the graph: the JSON parser, the allocations
and the order of an unordered map. -/
structure ReloadConfig (ω : Type) where
  jsonGraphFile : String
  makefile : ω → Outcome (List JsonVal)
  allocator : Allocator
  order : List (String × NodeId) → List (String × NodeId)
  order_perm : ∀ l, (order l).Perm l

namespace ReloadConfig

variable {ω : Type} (P : Platform ω) (R : ReloadConfig ω)

/-- `processFile` and `checkGraphLoop`. -/
def parseMakefile (w : ω) : Outcome Graph := do
  let rules ← R.makefile w
  let g ← GraphParser.processJson R.allocator R.jsonGraphFile rules
  checkGraphLoop g
  pure g

/-- A makefile that cannot be read changes nothing. -/
def reloadGraph (d : Daemon ω) : Outcome (Daemon ω) :=
  match R.parseMakefile d.world with
  | .error (.exception _) => pure d
  | .error f => .error f
  | .ok new => do
    let g ← GraphReloader.updateGraph P R.allocator d.world new R.order d.graph
    pure { d with graph := g, sourcesMissing := ∅ }

/-- The check that follows a reload only writes to the log. -/
def config : DaemonConfig ω := ⟨R.jsonGraphFile, R.reloadGraph P⟩

variable {P R} {d d' : Daemon ω}

theorem reloadGraph_cases (hrun : R.reloadGraph P d = .ok d') :
    (∃ message, R.parseMakefile d.world = .error (.exception message) ∧ d' = d) ∨
      ∃ new g, R.parseMakefile d.world = .ok new ∧
        GraphReloader.updateGraph P R.allocator d.world new R.order d.graph = .ok g ∧
        d' = { d with graph := g, sourcesMissing := ∅ } := by
  rw [reloadGraph] at hrun
  cases hparse : R.parseMakefile d.world with
  | error f =>
      rw [hparse] at hrun
      cases f with
      | exception message => exact Or.inl ⟨message, rfl, (Except.ok.inj hrun).symm⟩
      | outOfFuel | assertion | nullDereference | heapOverflow => cases hrun
  | ok new =>
      rw [hparse] at hrun
      obtain ⟨g, hupdate, hpure⟩ := bind_eq_ok.mp hrun
      exact Or.inr ⟨new, g, rfl, hupdate, (Except.ok.inj hpure).symm⟩

end ReloadConfig

/-! ## Runs with a record of the notifications -/

/-- The daemon, and the nodes whose most recent notification has not found the
file. -/
structure NoticeLog (ω : Type) where
  daemon : Daemon ω
  absent : Set NodeId

namespace NoticeLog

open Graph

inductive Event where
  -- Files, states, counters and timestamps change.
  | work
  -- A build loads a depfile, and the hashes are brought up to date.
  | load (rule : RuleId)
  | notify (target : String)

variable {ω : Type} (P : Platform ω) (R : ReloadConfig ω)

/-- The notification looks for the file. -/
def noteAbsent (s : NoticeLog ω) (target : String) : Set NodeId :=
  match s.daemon.graph.nodes.lookup target with
  | none => s.absent
  | some n =>
    if (P.mtime s.daemon.world (s.daemon.graph.node n).path).isNone then insert n s.absent
    else s.absent \ {n}

inductive Step : NoticeLog ω → Event → NoticeLog ω → Prop
  | work (s d) (hl : d.graph.links = s.daemon.graph.links)
    (hmissing : d.sourcesMissing = s.daemon.sourcesMissing) :
    Step s .work { s with daemon := d }
  | load {s r loaded g w} (hr : r ∈ s.daemon.graph.rules)
    (hrun : Builder.loadDepfile P s.daemon.graph s.daemon.world r = .ok (loaded, g, w)) :
    Step s (.load r) ⟨{ s.daemon with graph := g, world := w },
      survivors s.daemon.graph g s.absent⟩
  | notify {s fuel target d}
    (hrun : Daemon.setDirty P (R.config P) fuel s.daemon target = .ok d) :
    Step s (.notify target) ⟨d, survivors s.daemon.graph d.graph (s.noteAbsent P target)⟩

/-- The daemon has parsed the makefile and scanned the graph. -/
structure Started (s : NoticeLog ω) : Prop where
  scanned : ∃ g₀ w₀, R.parseMakefile w₀ = .ok g₀ ∧
    GraphDependencyScan.scan P g₀ w₀ = .ok (s.daemon.graph, s.daemon.world)
  sourcesMissing : s.daemon.sourcesMissing = ∅
  absent : s.absent = ∅

/-- A source file in the graph that a rule lists, and that was not there when
the daemon was told about it last. -/
def Missing (s : NoticeLog ω) (n : NodeId) : Prop :=
  n ∈ s.daemon.graph.allocated ∧ s.daemon.graph.ExplicitSource n ∧ n ∈ s.absent

def Remembered (s : NoticeLog ω) : Prop := ∀ n, n ∈ s.daemon.sourcesMissing ↔ s.Missing n

/-- A build is refused if a file is missing, and not for this reason otherwise. -/
def Refuses (s : NoticeLog ω) : Prop :=
  ((∃ n, s.Missing n) → ∀ fuel targets lazyFetch, ∃ message,
    s.daemon.startBuild P fuel targets lazyFetch = .error (.exception message)) ∧
  ((¬ ∃ n, s.Missing n) → s.daemon.checkSourcesMissing = .ok ())

/-- Where a source file is not found, the flag of its node tells whether it is
an explicit input. -/
def FlagTells (s : NoticeLog ω) (target : String) : Prop :=
  ∀ n, s.daemon.graph.nodes.lookup target = some n → (s.daemon.graph.node n).childRule = none →
    P.mtime s.daemon.world (s.daemon.graph.node n).path = none →
      ((s.daemon.graph.node n).isExplicitDependency = true ↔ s.daemon.graph.ExplicitInput n)

/-- The reloader copes with the new makefile, and none of its source files was
absent when the daemon was told about it last.  A makefile that cannot be read is
no source file. -/
structure NothingToForget (s : NoticeLog ω) : Prop where
  unread : ∀ message, R.parseMakefile s.daemon.world = .error (.exception message) → ∀ n,
    s.daemon.graph.nodes.lookup R.jsonGraphFile = some n → ¬ s.daemon.graph.ExplicitSource n
  mergeable : ∀ new, R.parseMakefile s.daemon.world = .ok new →
    GraphReloader.Mergeable P s.daemon.world s.daemon.graph new
  present : ∀ new, R.parseMakefile s.daemon.world = .ok new → ∀ m, new.ExplicitSource m →
    ∀ n ∈ s.noteAbsent P R.jsonGraphFile, (s.daemon.graph.node n).path ≠ (new.node m).path

/-- The condition on a step. -/
def Meets (s : NoticeLog ω) : Event → Prop
  | .work | .load _ => True
  | .notify target =>
    if target = R.jsonGraphFile then NothingToForget P R s else s.FlagTells P target

variable {P R} {s s' : NoticeLog ω} {d : Daemon ω}

/-! ## What the calls do -/

theorem mem_noteAbsent {target : String} {n m : NodeId}
    (hlookup : s.daemon.graph.nodes.lookup target = some n) :
    m ∈ s.noteAbsent P target ↔ if m = n then
      P.mtime s.daemon.world (s.daemon.graph.node n).path = none else m ∈ s.absent := by
  simp only [noteAbsent, hlookup]
  cases P.mtime s.daemon.world (s.daemon.graph.node n).path with
  | none =>
      by_cases hm : m = n
      · simp [hm]
      · simp [hm]
  | some t =>
      by_cases hm : m = n
      · simp [hm]
      · simp [hm]

theorem mem_noteMissing {n m : NodeId} :
    m ∈ (Daemon.noteMissing P d n).sourcesMissing ↔
      if m = n then P.mtime d.world (d.graph.node n).path = none ∧
        ((d.graph.node n).isExplicitDependency = true ∨ n ∈ d.sourcesMissing)
      else m ∈ d.sourcesMissing := by
  rw [Daemon.noteMissing]
  cases P.mtime d.world (d.graph.node n).path with
  | none =>
      cases hflag : (d.graph.node n).isExplicitDependency with
      | true =>
          by_cases hm : m = n
          · simp [hm]
          · simp [hm]
      | false =>
          by_cases hm : m = n
          · simp [hm]
          · simp [hm]
  | some t =>
      by_cases hm : m = n
      · simp [hm]
      · simp [hm]

/-- A notification looks for a source file first, and then hashes and marks. -/
theorem setDirty_cases {C : DaemonConfig ω} {fuel : ℕ} {target : String} {d' : Daemon ω}
    (hg : d.graph.Wired) (hne : target ≠ C.jsonGraphFile)
    (hrun : Daemon.setDirty P C fuel d target = .ok d') :
    Reworked P d.graph d'.graph ∧ ∃ n, d.graph.nodes.lookup target = some n ∧
      (((d.graph.node n).childRule = none ∧
          d'.sourcesMissing = (Daemon.noteMissing P d n).sourcesMissing) ∨
        (d.graph.node n).childRule ≠ none ∧ d'.sourcesMissing = d.sourcesMissing) := by
  obtain ⟨n, hlookup, ⟨hc, hsource⟩ | ⟨r, hc, hrest⟩⟩ := Daemon.setDirty_ok hne hrun
  · obtain ⟨changed, g, w, g', hhash, hmark, rfl⟩ := Daemon.setSourceDirty_ok hsource
    have hedits := Hash.recomputeNodeHash_edits hg hhash
    refine ⟨?_, n, hlookup, Or.inl ⟨hc, rfl⟩⟩
    rcases hmark with rfl | hmark
    · exact .of_edits hedits
    · exact ⟨g, hedits, (History.markTarget_darker hmark).1.links⟩
  · have hchild : (d.graph.node n).childRule ≠ none := by
      rw [hc]
      exact Option.some_ne_none r
    rcases hrest with ⟨-, g, hmark, rfl⟩ | ⟨-, houtput⟩
    · exact ⟨.of_links (Graph.markDirty_darker hmark).1.links, n, hlookup, Or.inr ⟨hchild, rfl⟩⟩
    · rcases Daemon.setOutputDirty_ok houtput with ⟨-, rfl⟩ | ⟨g, hmark, rfl⟩
      · exact ⟨.of_links rfl, n, hlookup, Or.inr ⟨hchild, rfl⟩⟩
      · exact ⟨.of_links (History.markTarget_darker hmark).1.links, n, hlookup,
          Or.inr ⟨hchild, rfl⟩⟩

/-! ## The invariant -/

/-- Explicit source files are missing before and after. -/
theorem missing_iff {A : Set NodeId} (hwork : Reworked P s.daemon.graph d.graph)
    (hg : s.daemon.graph.Wired) (n : NodeId) :
    Missing ⟨d, survivors s.daemon.graph d.graph A⟩ n ↔
      s.daemon.graph.ExplicitSource n ∧ n ∈ A := by
  constructor
  · rintro ⟨-, hsource, hn⟩
    exact ⟨(hwork.explicitSource_iff hg n).mp hsource, hn.1⟩
  · rintro ⟨hsource, hn⟩
    have hsource' := (hwork.explicitSource_iff hg n).mpr hsource
    exact ⟨(hwork.wired hg).allocated hsource'.2.declared, hsource',
      (hwork.mem_survivors hg hsource.2 A).mpr hn⟩

theorem Remembered.mem_iff (h : s.Remembered) (hg : s.daemon.graph.Wired) (n : NodeId) :
    n ∈ s.daemon.sourcesMissing ↔ s.daemon.graph.ExplicitSource n ∧ n ∈ s.absent := by
  rw [h n]
  exact ⟨fun hn ↦ hn.2, fun hn ↦ ⟨hg.allocated hn.1.2.declared, hn⟩⟩

theorem Remembered.of_reworked (h : s.Remembered) (hg : s.daemon.graph.Wired)
    (hwork : Reworked P s.daemon.graph d.graph)
    (hmissing : d.sourcesMissing = s.daemon.sourcesMissing) :
    Remembered ⟨d, survivors s.daemon.graph d.graph s.absent⟩ := by
  intro n
  rw [missing_iff hwork hg, ← h.mem_iff hg]
  change n ∈ d.sourcesMissing ↔ _
  rw [hmissing]

theorem Remembered.notify {target : String} {fuel : ℕ} (h : s.Remembered)
    (hg : s.daemon.graph.Wired) (hne : target ≠ R.jsonGraphFile) (hflag : s.FlagTells P target)
    (hrun : Daemon.setDirty P (R.config P) fuel s.daemon target = .ok d) :
    d.graph.Wired ∧
      Remembered ⟨d, survivors s.daemon.graph d.graph (s.noteAbsent P target)⟩ := by
  obtain ⟨hwork, n, hlookup, hcases⟩ := setDirty_cases hg hne hrun
  refine ⟨hwork.wired hg, fun m ↦ ?_⟩
  rw [missing_iff hwork hg, mem_noteAbsent hlookup]
  change m ∈ d.sourcesMissing ↔ _
  rcases hcases with ⟨hsource, heq⟩ | ⟨htarget, heq⟩
  · rw [heq, mem_noteMissing]
    by_cases hm : m = n
    · subst hm
      rw [if_pos rfl, if_pos rfl, h.mem_iff hg]
      cases hfile : P.mtime s.daemon.world (s.daemon.graph.node m).path with
      | some t => simp
      | none =>
          have htells := hflag m hlookup hsource hfile
          simp only [true_and, and_true, htells]
          constructor
          · rintro (hin | hin)
            · exact ⟨hsource, hin⟩
            · exact hin.1
          · exact fun hin ↦ Or.inl hin.2
    · rw [if_neg hm, if_neg hm]
      exact h.mem_iff hg m
  · rw [heq, h.mem_iff hg]
    by_cases hm : m = n
    · have hno : ¬ s.daemon.graph.ExplicitSource m := fun hin ↦ htarget (hm ▸ hin.1)
      simp [hno]
    · rw [if_neg hm]

/-- A reload forgets everything, and is harmless just if nothing is missing. -/
theorem remembered_iff_of_empty (hempty : s.daemon.sourcesMissing = ∅) :
    s.Remembered ↔ ¬ ∃ n, s.Missing n := by
  rw [Remembered, hempty]
  simp

theorem parseMakefile_eq_ok {w : ω} {g : Graph} (hrun : R.parseMakefile w = .ok g) :
    ∃ rules, GraphParser.processJson R.allocator R.jsonGraphFile rules = .ok g := by
  obtain ⟨rules, -, hrun⟩ := bind_eq_ok.mp hrun
  obtain ⟨g', hparse, hrun⟩ := bind_eq_ok.mp hrun
  obtain ⟨u, -, hpure⟩ := bind_eq_ok.mp hrun
  exact ⟨rules, hparse.trans hpure⟩

theorem Remembered.reload (h : s.Remembered) (hg : s.daemon.graph.Wired)
    (hforget : NothingToForget P R s) (hrun : R.reloadGraph P s.daemon = .ok d) :
    d.graph.Wired ∧
      Remembered ⟨d, survivors s.daemon.graph d.graph (s.noteAbsent P R.jsonGraphFile)⟩ := by
  rcases ReloadConfig.reloadGraph_cases hrun with
    ⟨message, hparse, rfl⟩ | ⟨new, g, hparse, hupdate, rfl⟩
  · refine ⟨hg, fun m ↦ ?_⟩
    rw [missing_iff (.of_links (P := P) rfl) hg]
    cases hlookup : s.daemon.graph.nodes.lookup R.jsonGraphFile with
    | none =>
        rw [noteAbsent, hlookup]
        exact h.mem_iff hg m
    | some n =>
        rw [mem_noteAbsent hlookup]
        by_cases hm : m = n
        · have hno : ¬ s.daemon.graph.ExplicitSource m :=
            hm ▸ hforget.unread message hparse n hlookup
          rw [h.mem_iff hg]
          simp [hno]
        · rw [if_neg hm]
          exact h.mem_iff hg m
  · obtain ⟨rules, hjson⟩ := parseMakefile_eq_ok hparse
    have hnew := GraphReloader.fresh_of_processJson hjson
    have hmerge := hforget.mergeable new hparse
    obtain ⟨hwoven, hsources⟩ :=
      GraphReloader.updateGraph_merges hmerge (hmerge.clean hnew) R.order_perm hupdate
    refine ⟨hwoven.joined.wired, (remembered_iff_of_empty rfl).mpr ?_⟩
    rintro ⟨n, -, ⟨hchild, r, hr, hin⟩, hn⟩
    obtain ⟨m, hsource, ⟨q, hq, hm⟩, hpath⟩ := hsources r hr n hin hchild
    rw [← hnew.explicitInputs_eq] at hm
    exact hforget.present new hparse m ⟨hsource, q, hq, hm⟩ n hn.1 (hn.2.2.symm.trans hpath.symm)

/-- What one step preserves. -/
theorem Step.remembered {e : Event} (hstep : Step P R s e s') (hmeets : Meets P R s e)
    (hg : s.daemon.graph.Wired) (h : s.Remembered) : s'.daemon.graph.Wired ∧ s'.Remembered := by
  cases hstep with
  | work d hl hmissing =>
      refine ⟨hg.of_links hl, fun n ↦ ?_⟩
      have hsource := Reworked.explicitSource_iff (P := P) (.of_links hl) hg n
      change n ∈ d.sourcesMissing ↔ n ∈ d.graph.allocated ∧ d.graph.ExplicitSource n ∧ n ∈ s.absent
      rw [hmissing, allocated_of_links hl, hsource]
      exact h n
  | load hr hrun =>
      have hwork := Reworked.of_edits (Builder.loadDepfile_edits hg hr hrun)
      exact ⟨hwork.wired hg, h.of_reworked hg hwork rfl⟩
  | @notify fuel target d hrun =>
      rw [Meets] at hmeets
      by_cases hfile : target = R.jsonGraphFile
      · rw [if_pos hfile] at hmeets
        subst hfile
        rw [Daemon.setDirty] at hrun
        exact h.reload hg hmeets ((if_pos rfl).symm.trans hrun)
      · rw [if_neg hfile] at hmeets
        exact h.notify hg hfile hmeets hrun

theorem Remembered.refuses (h : s.Remembered) : s.Refuses P := by
  constructor
  · rintro ⟨n, hn⟩ fuel targets lazyFetch
    have hne : s.daemon.sourcesMissing ≠ ∅ := Finset.ne_empty_of_mem ((h n).mpr hn)
    rw [Daemon.startBuild, Daemon.fetchTargets, Daemon.checkSourcesMissing, if_neg hne]
    exact ⟨_, rfl⟩
  · intro hnone
    have hempty : s.daemon.sourcesMissing = ∅ :=
      Finset.eq_empty_iff_forall_notMem.mpr fun n hn ↦ hnone ⟨n, (h n).mp hn⟩
    rw [Daemon.checkSourcesMissing, if_pos hempty]
    rfl

theorem Started.remembered (h : Started P R s) : s.daemon.graph.Wired ∧ s.Remembered := by
  obtain ⟨g₀, w₀, hparse, hscan⟩ := h.scanned
  obtain ⟨rules, hjson⟩ := parseMakefile_eq_ok hparse
  have hg₀ := (grounded_of_processJson hjson).wired
  obtain ⟨κ, hsteps⟩ := GraphDependencyScan.scan_steps hg₀ hscan fun _ ↦ ""
  refine ⟨hsteps.wired hg₀, (remembered_iff_of_empty h.sourcesMissing).mpr ?_⟩
  rintro ⟨n, -, -, hn⟩
  rw [h.absent] at hn
  exact hn

/-- The flags of source files other than the makefile are right. -/
def Flagged (file : String) (g : Graph) : Prop :=
  ∀ n ∈ g.allocated, (g.node n).childRule = none → (g.node n).path ≠ file →
    ((g.node n).isExplicitDependency = true ↔ g.ExplicitInput n)

theorem created_of_edit {g g' : Graph} {n : NodeId} (hstep : Edit P g g') (hn : n ∈ g'.allocated)
    (hfree : n ∉ g.allocated) : (g'.node n).isExplicitDependency = false := by
  cases hstep with
  | relink h =>
      cases h with
      | create dep hash deps =>
          obtain rfl := (Finset.mem_insert.mp hn).resolve_right hfree
          rw [createNode_self]
          rfl
      | link =>
          rw [linkInput_frame.2.2] at hn
          exact absurd hn hfree
      | register _ hrun =>
          obtain ⟨roots, sources, -, rfl⟩ := Depfile.addNode_eq hrun
          exact absurd hn hfree
      | delete => exact absurd (Finset.mem_of_mem_erase hn) hfree
      | count | cut | unlink => exact absurd hn hfree
  | hashNode hrun =>
      rw [allocated_of_links (Hash.updateNodeHash_links hrun).1] at hn
      exact absurd hn hfree
  | hashRule hrun =>
      rw [allocated_of_links (Hash.updateRuleHash_links hrun).1] at hn
      exact absurd hn hfree

namespace Flagged

variable {file : String} {g g' : Graph}

theorem of_links (h : Flagged file g) (hl : g'.links = g.links) : Flagged file g' := by
  intro n hn hchild hpath
  have hsame := (Explicit.refl g).of_links hl
  have hflag : (g'.node n).isExplicitDependency = (g.node n).isExplicitDependency :=
    congrFun (congrArg Links.isExplicit hl) n
  rw [allocated_of_links hl] at hn
  rw [childRule_of_links hl] at hchild
  rw [path_of_links hl] at hpath
  rw [hflag, h n hn hchild hpath]
  simp only [ExplicitInput, hsame.rules, hsame.inputs]

/-- A new node comes from a depfile, and no explicit input is new. -/
theorem edit (h : Flagged file g) (hg : g.Wired) (hstep : Edit P g g') : Flagged file g' := by
  intro n hn hchild hpath
  rw [Reworked.explicitInput_iff (.of_edits (.single hstep)) hg]
  by_cases hmem : n ∈ g.allocated
  · rcases node_of_edit hstep n with ⟨_, _, _, hnode⟩ | ⟨hfree, -⟩
    · rw [hnode] at hchild hpath ⊢
      exact h n hmem hchild hpath
    · exact absurd hmem hfree
  · rw [created_of_edit hstep hn hmem]
    have hno : ¬ g.ExplicitInput n := fun hin ↦ hmem (hg.allocated hin.declared)
    simp [hno]

theorem edits (h : Flagged file g) (hg : g.Wired) (hrun : Edits P g g') : Flagged file g' := by
  induction hrun with
  | refl => exact h
  | tail hrun hstep ih => exact ih.edit (hg.edits hrun) hstep

theorem reworked (h : Flagged file g) (hg : g.Wired) (hwork : Reworked P g g') :
    Flagged file g' := by
  obtain ⟨k, hrun, hl⟩ := hwork
  exact (h.edits hg hrun).of_links hl

theorem scanSteps {x x' : Recorded ω} (h : Flagged file x.1) (hg : x.1.Wired)
    (hrun : ScanSteps P x x') : Flagged file x'.1 := by
  induction hrun with
  | refl => exact h
  | tail hrun hstep ih =>
      have hwired := ScanSteps.wired hrun hg
      cases hstep with
      | relink _ _ hrelink => exact ih.edit hwired (.relink hrelink)
      | hashNode _ _ hhash => exact ih.edit hwired (.hashNode hhash)
      | hashRule _ _ _ hhash => exact ih.edit hwired (.hashRule hhash)
      | work _ _ _ hl => exact ih.of_links hl

end Flagged

/-- Every node of the parser is taken for an explicit dependency. -/
theorem flag_of_processJson {A : Allocator} {graphFilePath : String} {rules : List JsonVal}
    {g : Graph} (hrun : GraphParser.processJson A graphFilePath rules = .ok g) (n : NodeId) :
    (g.node n).isExplicitDependency = true := by
  refine GraphParser.processJson_keeps (I := fun g ↦ ∀ n, (g.node n).isExplicitDependency = true)
    (fun _ ↦ rfl) ?_ ?_ (fun _ _ h ↦ h) hrun n
  · intro k path h m
    change ((k.setNode _ _).node m).isExplicitDependency = true
    rw [setNode_node]
    split
    · rfl
    · exact h m
  · intro k inputs outputs command depfile k' h hadd m
    obtain ⟨parents, child, hnode⟩ := GraphParser.addRule_relinked hadd m
    rw [hnode]
    exact h m

theorem flagged_of_processJson {A : Allocator} {graphFilePath : String} {rules : List JsonVal}
    {g : Graph} (hrun : GraphParser.processJson A graphFilePath rules = .ok g) :
    Flagged graphFilePath g := by
  have hwired := (grounded_of_processJson hrun).wired
  obtain ⟨-, hexplicit⟩ := unhashed_of_processJson hrun
  intro n hn hchild hpath
  refine ⟨fun _ ↦ ?_, fun _ ↦ flag_of_processJson hrun n⟩
  obtain ⟨g₀, hloop, hpure⟩ := bind_eq_ok.mp hrun
  obtain ⟨-, hloaded⟩ : GraphParser.Parsed g₀ ∧ GraphParser.Loaded g₀ := foldlM_invariant
    (fun k ↦ GraphParser.Parsed k ∧ GraphParser.Loaded k) (fun v _ k k' hstep hk ↦
      ⟨hk.1.processRule hstep, hk.2.processRule hk.1 hstep⟩) hloop
        ⟨GraphParser.parsed_empty, GraphParser.loaded_empty⟩
  obtain rfl : GraphParser.generateMandatoryNodes A graphFilePath g₀ = g := Except.ok.inj hpure
  rcases Finset.mem_insert.mp hn with rfl | hn
  · -- The node of the makefile.
    refine absurd ?_ hpath
    change ((g₀.setNode _ _).node _).path = _
    rw [setNode_node, if_pos rfl]
    rfl
  · obtain ⟨r, hr, hin | hout⟩ := hloaded.linked n hn
    · refine ⟨r, hr, ?_⟩
      rw [Hash.explicitInputs_none (hexplicit r)]
      exact hin
    · rw [hwired.outputs r hr n hout] at hchild
      cases hchild

theorem Started.flagged (h : Started P R s) : Flagged R.jsonGraphFile s.daemon.graph := by
  obtain ⟨g₀, w₀, hparse, hscan⟩ := h.scanned
  obtain ⟨rules, hjson⟩ := parseMakefile_eq_ok hparse
  have hg₀ := (grounded_of_processJson hjson).wired
  obtain ⟨κ, hsteps⟩ := GraphDependencyScan.scan_steps hg₀ hscan fun _ ↦ ""
  exact (flagged_of_processJson hjson).scanSteps hg₀ hsteps

theorem Flagged.tells {target : String} (h : Flagged R.jsonGraphFile s.daemon.graph)
    (hg : s.daemon.graph.Wired) (hne : target ≠ R.jsonGraphFile) : s.FlagTells P target := by
  intro n hlookup hchild _
  obtain ⟨hmem, hpath⟩ := hg.nodes (target, n) (Lib.mem_of_lookup_eq_some hlookup)
  exact h n hmem hchild (hpath.trans_ne hne)

/-- Only a reload changes the explicit part of the graph. -/
theorem Step.reworked {e : Event} (hstep : Step P R s e s') (hg : s.daemon.graph.Wired)
    (hne : .notify R.jsonGraphFile ≠ e) : Reworked P s.daemon.graph s'.daemon.graph := by
  cases hstep with
  | work d hl => exact .of_links hl
  | load hr hrun => exact .of_edits (Builder.loadDepfile_edits hg hr hrun)
  | @notify fuel target d hrun =>
      have hfile : target ≠ (R.config P).jsonGraphFile := by
        rintro rfl
        exact hne rfl
      exact (setDirty_cases hg hfile hrun).1

/-- Without a reload every step meets the condition. -/
theorem remembered_without_reload {s₀ : NoticeLog ω} {events : List Event}
    (hstart : Started P R s₀) (hrun : Trace (Step P R) s₀ events s)
    (hno : .notify R.jsonGraphFile ∉ events) : s.Remembered ∧ s.Refuses P := by
  have hinv : .notify R.jsonGraphFile ∉ events → (s.daemon.graph.Wired ∧ s.Remembered) ∧
      Flagged R.jsonGraphFile s.daemon.graph := by
    refine hrun.invariant (fun events s ↦ .notify R.jsonGraphFile ∉ events →
      (s.daemon.graph.Wired ∧ s.Remembered) ∧ Flagged R.jsonGraphFile s.daemon.graph)
      (fun _ ↦ ⟨hstart.remembered, hstart.flagged⟩) ?_
    intro events s e s' ih hstep hno
    rw [List.mem_append, not_or, List.mem_singleton] at hno
    obtain ⟨⟨hg, h⟩, hflagged⟩ := ih hno.1
    refine ⟨hstep.remembered ?_ hg h, hflagged.reworked hg (hstep.reworked hg hno.2)⟩
    cases e with
    | work => exact trivial
    | load r => exact trivial
    | notify target =>
        have hne : target ≠ R.jsonGraphFile := by
          rintro rfl
          exact hno.2 rfl
        rw [Meets, if_neg hne]
        exact hflagged.tells hg hne
  have h := (hinv hno).1.2
  exact ⟨h, h.refuses⟩

/-- What builds and fetches do are steps of this kind. -/
theorem step_of_history {C : DaemonConfig ω} {h h' : History ω} {e : History.Event ω}
    (hstep : History.Step P C h e h') (hne : ∀ target, e ≠ .notify target) (absent : Set NodeId) :
    ∃ e' absent', Step P R ⟨h.daemon, absent⟩ e' ⟨h'.daemon, absent'⟩ ∧
      e' ≠ .notify R.jsonGraphFile := by
  cases hstep with
  | change w => exact ⟨.work, absent, .work _ _ rfl rfl, by simp⟩
  | notify => exact absurd rfl (hne _)
  | stamp rule w succeeded content =>
      exact ⟨.work, absent, .work _ _ (links_setTimestamp _ _ _) rfl, by simp⟩
  | load hr hrun => exact ⟨_, _, .load hr hrun, by simp⟩
  | finish hr hrun =>
      exact ⟨.work, absent, .work _ _ (History.finishRule_refreshed hrun).links rfl, by simp⟩
  | fetch hrun =>
      exact ⟨.work, absent, .work _ _ (History.markFetched_frame hrun).1 rfl, by simp⟩

/-! ## Reloading a makefile without depfiles -/

instance (g new : Graph) (r q : RuleId) : Decidable (GraphReloader.Shares g new r q) :=
  inferInstanceAs (Decidable (∃ path ∈ g.paths (g.rule r).outputs,
    path ∈ new.paths (new.rule q).outputs))

/-- Where no depfile is used it is enough that a rule keeps its outputs and loses
no input, or goes altogether. -/
theorem mergeable_of_kept {w : ω} {g new : Graph} (hg : g.Woven fun _ ↦ [])
    (hunique : ∀ m ∈ new.allocated, ∀ m' ∈ new.allocated,
      (new.node m).path = (new.node m').path → m = m')
    (houtput : ∀ q ∈ new.rules, (new.rule q).outputs ≠ []) (hac : new.links.Acyclic)
    (himplicit : ∀ r ∈ g.rules, (g.rule r).numImplicitDeps = 0)
    (hdepfile : ∀ q ∈ new.rules, P.readFile w (new.rule q).depfile = none)
    (hkept : ∀ r ∈ g.rules, ∀ q ∈ new.rules, GraphReloader.Shares g new r q →
      g.paths (g.rule r).outputs = new.paths (new.rule q).outputs ∧
        g.paths (g.rule r).inputs ⊆ new.paths (new.rule q).inputs) :
    GraphReloader.Mergeable P w g new := by
  have hnone : ∀ r ∈ g.rules, Depfile.implicitDeps (g.rule r) = [] := by
    intro r hr
    simp [Depfile.implicitDeps, himplicit r hr]
  refine ⟨hg, hunique, houtput, hac, fun r hr q hq hshare path ↦ ?_, fun r hr q hq hshare n hn ↦ ?_,
    fun r hr q hq hshare n hn ↦ ?_, fun n r _ _ hlisted ↦ ?_⟩
  · rw [(hkept r hr q hq hshare).1]
  · exact Or.inl ((hkept r hr q hq hshare).2 (path_mem_paths (List.mem_of_mem_take hn)))
  · rw [hnone r hr] at hn
    cases hn
  · rcases hlisted with ⟨q, hq, hpath⟩ | ⟨q, hq, content, output, ins, hread, -⟩
    · rw [hnone q hq] at hpath
      cases hpath
    · rw [hdepfile q hq] at hread
      cases hread

/-! ## A source file is deleted -/

/-- The SHA-256 digests that are needed with and without `a`, before and after the
makefile has been edited. -/
def lostDigests : List (String × ℕ) :=
  [("ax", 0x5e85370e555e95d27df68f93c0ccaa4edfc1da5e281b47a2ebba2649a13ea5f4),
   ("5e85370e555e95d27df68f93c0ccaa4edfc1da5e281b47a2ebba2649a13ea5f4touch b",
    0xbb315cf9080d3847d7b49eb1bdcebf2a5aa6378659599c1d882b41afbaa0a206),
   ("bbb315cf9080d3847d7b49eb1bdcebf2a5aa6378659599c1d882b41afbaa0a206",
    0x2d82b06bfbd7a1f2dfd9495c5a2f63bee4efc7216e4bd0727f5c373aa96e1d77),
   ("5e85370e555e95d27df68f93c0ccaa4edfc1da5e281b47a2ebba2649a13ea5f4touch c",
    0xc5b38b8c4de4b36de57ef77bde78916810673442cad2f1f11a7b294e704503e8),
   ("cc5b38b8c4de4b36de57ef77bde78916810673442cad2f1f11a7b294e704503e8",
    0x8502d7f568b7a86ed735b83307892a94d64a9e96199a7aff9475aef52b92346c),
   ("falcon.json\x7b\"rules\":[\x7b\"inputs\":[\"a\"],\"outputs\":[\"b\"],\"cmd\":\"touch b\"\x7d,\x7b\"inputs\":[\"a\"],\"outputs\":[\"c\"],\"cmd\":\"touch c\"\x7d]\x7d",
    0x5a7b8997b571e70d8ee86dc645a696ed531ff4d24a11c306cc4fb709f3542705),
   ("a", 0xca978112ca1bbdcafac231b39a23dc4da786eff8147c4e72b9807785afee48bb),
   ("ca978112ca1bbdcafac231b39a23dc4da786eff8147c4e72b9807785afee48bbtouch b",
    0x03eb5f8e5fac7527259a025f7e5ec3110009f13d7a6f93a3e6810c97667de30e),
   ("b03eb5f8e5fac7527259a025f7e5ec3110009f13d7a6f93a3e6810c97667de30e",
    0xecde348a87afcbdcc1166a7f2895c12afe9505cac2279477e96cb009999a08d4),
   ("ca978112ca1bbdcafac231b39a23dc4da786eff8147c4e72b9807785afee48bbtouch c",
    0x7057385959929285a1fad238fe2040a719a2a22043de908d29b42778e579c0cf),
   ("c7057385959929285a1fad238fe2040a719a2a22043de908d29b42778e579c0cf",
    0xa3e42365bd185e3a5075c740d5f926104cced1c381c0fbda0679f100824f165a),
   ("2d82b06bfbd7a1f2dfd9495c5a2f63bee4efc7216e4bd0727f5c373aa96e1d77touch d",
    0xcdffd390ba5067251307e62a26ecb47667dd4797f411ca08c73a748b515fa526),
   ("dcdffd390ba5067251307e62a26ecb47667dd4797f411ca08c73a748b515fa526",
    0x327fc7f3fcbdded69bc4b16610f5beaeed5b1dafad74fabde8e2e61d0e7807f0),
   ("ecde348a87afcbdcc1166a7f2895c12afe9505cac2279477e96cb009999a08d4touch d",
    0x1e61a1a4e2f0413121baf2f7fe2aa9fc6519185621696a47e737cf642b436686),
   ("d1e61a1a4e2f0413121baf2f7fe2aa9fc6519185621696a47e737cf642b436686",
    0x856089e11c5549f87dbc475e4e577ce66bfb348a89c914adc30822d3cd5539fa)]

def lostHost : Host :=
  { touchHost with sha256 := fun s ↦ digestBytes ((lostDigests.lookup s).getD 0) }

/-- `a` has been deleted. -/
def lostDisk : Disk :=
  { touchDisk 1 with files := Function.update (touchDisk 1).files "a" none }

/-- The makefile with the rules `a -> b` and `b -> d`. -/
def editedMakefile : List JsonVal := [touchRule "a" "b", touchRule "b" "d"]

def editedText : String :=
  "\x7b\"rules\":[\x7b\"inputs\":[\"a\"],\"outputs\":[\"b\"],\"cmd\":\"touch b\"\x7d,\x7b\"inputs\":[\"b\"],\"outputs\":[\"d\"],\"cmd\":\"touch d\"\x7d]\x7d"

def editedDisk : Disk :=
  { touchDisk 1 with files := Function.update (touchDisk 1).files "falcon.json" (some editedText) }

/-- The makefile has been edited, and `a` deleted. -/
def editedLostDisk : Disk :=
  { editedDisk with files := Function.update editedDisk.files "a" none }

/-- The makefile says that `b` and `c` are made from `a`, until it is edited. -/
def lostReload : ReloadConfig Disk where
  jsonGraphFile := "falcon.json"
  makefile w :=
    if w.files "falcon.json" = (touchDisk 1).files "falcon.json" then .ok touchMakefile
    else if w.files "falcon.json" = editedDisk.files "falcon.json" then .ok editedMakefile
    else .error (.exception "No dom for this json file")
  allocator := bumpAllocator
  order := id
  order_perm l := .refl l

theorem lostReload_touch (w : Disk)
    (hw : w.files "falcon.json" = (touchDisk 1).files "falcon.json") :
    lostReload.makefile w = .ok touchMakefile := if_pos hw

theorem lostReload_edited (w : Disk)
    (hne : w.files "falcon.json" ≠ (touchDisk 1).files "falcon.json")
    (hw : w.files "falcon.json" = editedDisk.files "falcon.json") :
    lostReload.makefile w = .ok editedMakefile := (if_neg hne).trans (if_pos hw)

theorem length_lostHost (s : String) : (lostHost.platform.sha256 s).length = 32 :=
  length_digestBytes _

/-- The reload of a graph, for roots listed in the order of their addresses. -/
theorem updateGraph_of_roots {A : Allocator} {w : ω} {new g g' : Graph} {l : List NodeId}
    {order : List (String × NodeId) → List (String × NodeId)} {s : GraphReloader.Reload}
    (hroots : new.roots = l.toFinset) (hl : l.Nodup ∧ l.Pairwise (· ≤ ·))
    (hloop : l.foldlM (GraphReloader.updateRoot P A w new)
      ⟨{ g with roots := ∅, sources := ∅ }, g.nodes, ∅⟩ = .ok s)
    (hclean : GraphReloader.cleanStaleSubgraph order s = .ok g') :
    GraphReloader.updateGraph P A w new order g = .ok g' := by
  have hsort : new.roots.sort (· ≤ ·) = l := by
    rw [hroots]
    exact (List.toFinset_sort (· ≤ ·) hl.1).mpr hl.2
  rw [GraphReloader.updateGraph, GraphReloader.updateRoots, hsort]
  exact bind_eq_ok.mpr ⟨s, hloop, hclean⟩

/-- `a` is a source file that the first rule lists. -/
structure LostGraph (g : Graph) : Prop where
  allocated : 1 ∈ g.allocated
  source : (g.node 1).childRule = none
  input : 1 ∈ g.rules ∧ 1 ∈ Hash.explicitInputs (g.rule 1)
  flag : (g.node 1).isExplicitDependency = true
  path : (g.node 1).path = "a"
  lookup : g.nodes.lookup "a" = some 1
  makefile : g.nodes.lookup "falcon.json" = some 4 ∧ (g.node 4).path = "falcon.json"

instance (g : Graph) : Decidable (LostGraph g) :=
  decidable_of_iff (1 ∈ g.allocated ∧ (g.node 1).childRule = none ∧
    (1 ∈ g.rules ∧ 1 ∈ Hash.explicitInputs (g.rule 1)) ∧
    (g.node 1).isExplicitDependency = true ∧ (g.node 1).path = "a" ∧
    g.nodes.lookup "a" = some 1 ∧
    (g.nodes.lookup "falcon.json" = some 4 ∧ (g.node 4).path = "falcon.json"))
    ⟨fun ⟨h₁, h₂, h₃, h₄, h₅, h₆, h₇⟩ ↦ ⟨h₁, h₂, h₃, h₄, h₅, h₆, h₇⟩,
      fun ⟨h₁, h₂, h₃, h₄, h₅, h₆, h₇⟩ ↦ ⟨h₁, h₂, h₃, h₄, h₅, h₆, h₇⟩⟩

theorem LostGraph.explicitSource {g : Graph} (h : LostGraph g) : g.ExplicitSource 1 :=
  ⟨h.source, 1, h.input⟩

/-- A daemon with the graph `x` after its start is told that `a` is missing, giving
`e`, and reloads the makefile then, giving `k`. -/
structure LostRuns (g x k : Graph) (e : Daemon Disk) : Prop where
  parse : lostReload.parseMakefile (touchDisk 1) = .ok g ∧
    lostReload.parseMakefile lostDisk = .ok g
  scan : GraphDependencyScan.scan lostHost.platform g (touchDisk 1) = .ok (x, touchDisk 1)
  notified : Daemon.setDirty lostHost.platform (lostReload.config lostHost.platform) 8
    ⟨x, lostDisk, ∅⟩ "a" = .ok e
  reload : GraphReloader.updateGraph lostHost.platform bumpAllocator lostDisk g id e.graph = .ok k
  lost : LostGraph x ∧ LostGraph e.graph ∧ LostGraph k

open GraphDependencyScan in
theorem exists_lostRuns : ∃ g x k e, LostRuns g x k e := by
  have hall : (do
      let P := lostHost.platform
      let g ← GraphParser.processJson bumpAllocator "falcon.json" touchMakefile
      let g₁ := statNodes P (touchDisk 1) g
      let x ← [2, 3, 4].foldlM (scanRoot P g₁.depth) ⟨g₁, touchDisk 1, ∅⟩
      let e ← Daemon.setDirty P (lostReload.config P) 8 ⟨x.graph, lostDisk, ∅⟩ "a"
      let s ← [2, 3, 4].foldlM (GraphReloader.updateRoot P bumpAllocator lostDisk g)
        ⟨{ e.graph with roots := ∅, sources := ∅ }, e.graph.nodes, ∅⟩
      let k ← GraphReloader.cleanStaleSubgraph id s
      pure (decide ((g.roots = [2, 3, 4].toFinset ∧ g₁.roots = [2, 3, 4].toFinset) ∧
        LostGraph x.graph ∧ LostGraph e.graph ∧ LostGraph k)) : Outcome Bool) = .ok true := by
    decide +kernel
  obtain ⟨g, hparse, hall⟩ := bind_eq_ok.mp hall
  obtain ⟨x, hscan, hall⟩ := bind_eq_ok.mp hall
  obtain ⟨e, he, hall⟩ := bind_eq_ok.mp hall
  obtain ⟨s, hroots, hall⟩ := bind_eq_ok.mp hall
  obtain ⟨k, hclean, hall⟩ := bind_eq_ok.mp hall
  obtain ⟨⟨hg, hg₁⟩, hlost⟩ := of_decide_eq_true (Except.ok.inj hall)
  obtain ⟨g', htouch, -⟩ := exists_touchGraph
  obtain rfl : g' = g := Except.ok.inj (htouch.parse.symm.trans hparse)
  have hloop := checkGraphLoop_of_acyclic (GraphParser.processJson_accepted hparse)
    htouch.startable.acyclic
  have hok : ∀ w : Disk, w.files "falcon.json" = (touchDisk 1).files "falcon.json" →
      lostReload.parseMakefile w = .ok g' := by
    intro w hw
    apply bind_eq_ok.mpr
    refine ⟨touchMakefile, lostReload_touch w hw, bind_eq_ok.mpr ⟨g', hparse, ?_⟩⟩
    exact bind_eq_ok.mpr ⟨(), hloop, rfl⟩
  have hscanned := HashLog.scan_of_roots hg₁ (by decide) hscan
  obtain ⟨x', hrun, -⟩ := htouch.startable.check_scan hparse length_lostHost (touchDisk 1)
  obtain ⟨rfl, hworld⟩ := Prod.mk.inj (Except.ok.inj (hrun.symm.trans hscanned))
  exact ⟨g', _, k, e, {
    parse := ⟨hok _ rfl, hok _ (by decide)⟩
    scan := hrun
    notified := he
    reload := updateGraph_of_roots hg (by decide) hroots hclean
    lost := hlost }⟩

theorem reloadGraph_of_parse {new g : Graph} (hparse : R.parseMakefile d.world = .ok new)
    (hupdate : GraphReloader.updateGraph P R.allocator d.world new R.order d.graph = .ok g) :
    Daemon.setDirty P (R.config P) 0 d R.jsonGraphFile =
      .ok { d with graph := g, sourcesMissing := ∅ } := by
  have hreload : R.reloadGraph P d = .ok { d with graph := g, sourcesMissing := ∅ } := by
    rw [ReloadConfig.reloadGraph, hparse]
    exact bind_eq_ok.mpr ⟨g, hupdate, rfl⟩
  rw [Daemon.setDirty]
  exact (if_pos rfl).trans hreload

/-- The daemon with the graph `x` after its start reloads the edited makefile, giving
`k`, and is told then that `a` is missing, giving `d`. -/
structure EditRuns (g new x k : Graph) (d : Daemon Disk) : Prop where
  parse : lostReload.parseMakefile (touchDisk 1) = .ok g ∧
    lostReload.parseMakefile editedDisk = .ok new
  scan : GraphDependencyScan.scan lostHost.platform g (touchDisk 1) = .ok (x, touchDisk 1)
  mergeable : GraphReloader.Mergeable lostHost.platform editedDisk x new
  reload : GraphReloader.updateGraph lostHost.platform bumpAllocator editedDisk new id x = .ok k
  notified : Daemon.setDirty lostHost.platform (lostReload.config lostHost.platform) 8
    ⟨k, editedLostDisk, ∅⟩ "a" = .ok d
  lost : LostGraph x ∧ LostGraph k
  gone : d.graph.nodes.map Prod.fst = ["a", "b", "falcon.json", "d"]
  missing : d.sourcesMissing = {1}

/-- The parts of the two graphs that the reload depends on. -/
structure EditGraphs (x new : Graph) : Prop where
  rules : x.rules.Nodup ∧ (∀ r ∈ x.rules, (x.rule r).numImplicitDeps = 0) ∧
    ∀ r ∈ x.rules, ∀ q ∈ new.rules, GraphReloader.Shares x new r q →
      x.paths (x.rule r).outputs = new.paths (new.rule q).outputs ∧
        x.paths (x.rule r).inputs ⊆ new.paths (new.rule q).inputs
  unique : ∀ m ∈ new.allocated, ∀ m' ∈ new.allocated,
    (new.node m).path = (new.node m').path → m = m'
  output : ∀ q ∈ new.rules, (new.rule q).outputs ≠ []
  depfile : ∀ q ∈ new.rules, lostHost.platform.readFile editedDisk (new.rule q).depfile = none
  lt : ∀ q ∈ new.rules, ∀ m ∈ (new.rule q).inputs, ∀ o ∈ (new.rule q).outputs, m < o

instance (x new : Graph) : Decidable (EditGraphs x new) :=
  decidable_of_iff ((x.rules.Nodup ∧ (∀ r ∈ x.rules, (x.rule r).numImplicitDeps = 0) ∧
    ∀ r ∈ x.rules, ∀ q ∈ new.rules, GraphReloader.Shares x new r q →
      x.paths (x.rule r).outputs = new.paths (new.rule q).outputs ∧
        x.paths (x.rule r).inputs ⊆ new.paths (new.rule q).inputs) ∧
    (∀ m ∈ new.allocated, ∀ m' ∈ new.allocated,
      (new.node m).path = (new.node m').path → m = m') ∧
    (∀ q ∈ new.rules, (new.rule q).outputs ≠ []) ∧
    (∀ q ∈ new.rules, lostHost.platform.readFile editedDisk (new.rule q).depfile = none) ∧
    ∀ q ∈ new.rules, ∀ m ∈ (new.rule q).inputs, ∀ o ∈ (new.rule q).outputs, m < o)
    ⟨fun ⟨h₁, h₂, h₃, h₄, h₅⟩ ↦ ⟨h₁, h₂, h₃, h₄, h₅⟩,
      fun ⟨h₁, h₂, h₃, h₄, h₅⟩ ↦ ⟨h₁, h₂, h₃, h₄, h₅⟩⟩

open GraphDependencyScan in
theorem exists_editRuns : ∃ g new x k d, EditRuns g new x k d := by
  have hall : (do
      let P := lostHost.platform
      let g ← GraphParser.processJson bumpAllocator "falcon.json" touchMakefile
      let new ← GraphParser.processJson bumpAllocator "falcon.json" editedMakefile
      let g₁ := statNodes P (touchDisk 1) g
      let x ← [2, 3, 4].foldlM (scanRoot P g₁.depth) ⟨g₁, touchDisk 1, ∅⟩
      let s ← [3, 4].foldlM (GraphReloader.updateRoot P bumpAllocator editedDisk new)
        ⟨{ x.graph with roots := ∅, sources := ∅ }, x.graph.nodes, ∅⟩
      let k ← GraphReloader.cleanStaleSubgraph id s
      let d ← Daemon.setDirty P (lostReload.config P) 8 ⟨k, editedLostDisk, ∅⟩ "a"
      pure (decide ((new.roots = [3, 4].toFinset ∧ g₁.roots = [2, 3, 4].toFinset) ∧
        EditGraphs x.graph new ∧ (LostGraph x.graph ∧ LostGraph k) ∧
        d.graph.nodes.map Prod.fst = ["a", "b", "falcon.json", "d"] ∧
        d.sourcesMissing = {1})) : Outcome Bool) = .ok true := by
    decide +kernel
  obtain ⟨g, hparse, hall⟩ := bind_eq_ok.mp hall
  obtain ⟨new, hparse', hall⟩ := bind_eq_ok.mp hall
  obtain ⟨x, hscan, hall⟩ := bind_eq_ok.mp hall
  obtain ⟨s, hroots, hall⟩ := bind_eq_ok.mp hall
  obtain ⟨k, hclean, hall⟩ := bind_eq_ok.mp hall
  obtain ⟨d, hd, hall⟩ := bind_eq_ok.mp hall
  obtain ⟨⟨hnewRoots, hg₁⟩, hgraphs, hlost, hgone, hmissing⟩ :=
    of_decide_eq_true (Except.ok.inj hall)
  obtain ⟨g', htouch, -⟩ := exists_touchGraph
  obtain rfl : g' = g := Except.ok.inj (htouch.parse.symm.trans hparse)
  have haccepted := GraphParser.processJson_accepted hparse'
  have hac : new.links.Acyclic := by
    apply Lib.acyclic_of_rank id
    rintro m n ⟨q, hn, hm⟩
    obtain ⟨hq, hout⟩ := (haccepted.twoWay.child_eq_some n q).mp hn
    exact hgraphs.lt q hq m hm n hout
  have hloop := checkGraphLoop_of_acyclic (GraphParser.processJson_accepted hparse)
    htouch.startable.acyclic
  have hscanned := HashLog.scan_of_roots hg₁ (by decide) hscan
  obtain ⟨x', hrun, -⟩ := htouch.startable.check_scan hparse length_lostHost (touchDisk 1)
  obtain ⟨rfl, hworld⟩ := Prod.mk.inj (Except.ok.inj (hrun.symm.trans hscanned))
  have hreloadable := (htouch.startable.reloadable_scan hparse length_lostHost hrun).1
  have hedited := lostReload_edited editedDisk (by decide +kernel) rfl
  exact ⟨g', new, _, k, d, {
    parse := ⟨bind_eq_ok.mpr ⟨_, lostReload_touch (touchDisk 1) rfl, bind_eq_ok.mpr ⟨g', hparse,
        bind_eq_ok.mpr ⟨(), hloop, rfl⟩⟩⟩,
      bind_eq_ok.mpr ⟨_, hedited, bind_eq_ok.mpr ⟨new, hparse',
        bind_eq_ok.mpr ⟨(), checkGraphLoop_of_acyclic haccepted hac, rfl⟩⟩⟩⟩
    scan := hrun
    mergeable := mergeable_of_kept (hreloadable.woven hgraphs.rules.1) hgraphs.unique
      hgraphs.output hac hgraphs.rules.2.1 hgraphs.depfile hgraphs.rules.2.2
    reload := updateGraph_of_roots hnewRoots (by decide) hroots hclean
    notified := hd
    lost := hlost
    gone := hgone
    missing := hmissing }⟩

end NoticeLog

end Falcon
