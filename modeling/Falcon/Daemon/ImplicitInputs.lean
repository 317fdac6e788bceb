import Falcon.Daemon.ScanLoads

/-!
# The implicit inputs of the scan

A depfile is loaded after the files have been looked up and after the loop over
the inputs of its rule.  A new file has no timestamp then, and a target that is
out of date does not make the rule so; the ready counter is even decreased for
it.
-/

namespace Falcon

open Relation

namespace GraphDependencyScan

open Graph Depfile

variable {ω : Type} {P : Platform ω}

/-! ## What the implicit inputs should do -/

/-- What `stat` tells of a path; a file that does not exist has time zero. -/
def pathTime (P : Platform ω) (w : ω) (path : String) : Timestamp := (P.mtime w path).getD 0

/-- The file is newer than the oldest output of the rule. -/
def NewerPath (P : Platform ω) (w : ω) (g : Graph) (r : RuleId) (path : String) : Prop :=
  ∃ oldest, ((g.rule r).outputs.map fun o ↦ pathTime P w (g.node o).path).min? = some oldest ∧
    oldest < pathTime P w path

/-- The implicit inputs of the rule have been accounted for: its state and its
counter are right, given the files at the start of the scan. -/
structure Accounted (P : Platform ω) (w : ω) (g : Graph) (r : RuleId) : Prop where
  dirty : ∀ n ∈ implicitDeps (g.rule r), NewerPath P w g r (g.node n).path ∨
    ((g.node n).isSource = false ∧ (g.node n).isDirty = true) → (g.rule r).isDirty = true
  ready : (g.rule r).numInputsReady = g.nbReady r

/-- The depfile of the rule, which lists `ins`, adds no target that is out of
date, and if it adds a file that is newer than the oldest output, the rule is out
of date anyway. -/
structure Noticed (P : Platform ω) (w : ω) (g : Graph) (order : List NodeId) (r : RuleId)
    (ins : List String) : Prop where
  ready : ∀ dep ∈ ins, NamesNew g r dep → ∀ n q, g.nodes.lookup dep = some n →
    g.links.child n = some q → ¬ Overdue P w g order q
  newer : ∀ dep ∈ ins, NamesNew g r dep → NewerPath P w g r dep → Overdue P w g order r

/-- The same of the state before the load. -/
structure NoticedAt (P : Platform ω) (w : ω) (g : Graph) (r : RuleId) (ins : List String) :
    Prop where
  ready : ∀ dep ∈ ins, NamesReady g r dep
  newer : ∀ dep ∈ ins, NamesNew g r dep → NewerPath P w g r dep → Caught g r ins

/-! ## The state before the load -/

section Loaded

variable {g g' k : Graph} {m : Turn ω} {ins : List String} {w : ω} {more : List NodeId}
  (hinstalled : Installed P g m.rule ins more g') (h : Loaded m g ins more g')
  (hend : LoadEnd m g' k)
include hinstalled h hend

theorem newerPath_end_iff (path : String) :
    NewerPath P w k m.rule path ↔ NewerPath P w g m.rule path := by
  obtain ⟨hash, hashDepfile, state, hrule⟩ := hend.rule
  obtain ⟨implicit, numReady, hself⟩ := hinstalled.loading.self
  have houtputs : (k.rule m.rule).outputs = (g.rule m.rule).outputs := by
    rw [hrule]
    change (g'.rule m.rule).outputs = _
    rw [hself]
  have hpath : ∀ o ∈ (g.rule m.rule).outputs,
      pathTime P w (k.node o).path = pathTime P w (g.node o).path := by
    intro o ho
    have hmem := h.tied.allocated m.rule h.mem o (Or.inr ho)
    rw [hend.kept.path o (hinstalled.grown.allocated hmem),
      hinstalled.grown.proj Node.path (fun _ ↦ rfl) hmem]
  rw [NewerPath, NewerPath, houtputs, List.map_congr_left hpath]

/-- What the rule comes to in the end is seen from the state before the load. -/
theorem accounted_end_iff : Accounted P w k m.rule ↔ NoticedAt P w g m.rule ins := by
  have hcounter := counter_end_iff h hend
  have hdirty := isDirty_end_iff hinstalled h hend
  have htied' : g'.Tied := hinstalled.loading.tied h.tied
  have hmore : ∀ n, n ∈ implicitDeps (k.rule m.rule) ↔ n ∈ more ∧ n ∉ (g.rule m.rule).inputs := by
    intro n
    rw [implicitDeps_end hinstalled hend, mem_newImplicit, h.explicit]
  -- The path of a node in the end is the one that the depfile lists.
  have hpath : ∀ dep n, n ∈ more → g'.nodes.lookup dep = some n → (k.node n).path = dep := by
    intro dep n hn hlookup
    have he := (Lib.lookup_eq_some_iff_mem hinstalled.adds.keys).mp hlookup
    rw [hend.kept.path n (hinstalled.adds.named_allocated n hn)]
    exact (htied'.nodes _ he).2
  constructor
  · intro hacc
    refine ⟨hcounter.mp hacc.ready, fun dep hdep hnew hnewer ↦ ?_⟩
    obtain ⟨n, hn, hlookup⟩ := hinstalled.mem_of_name hdep
    have hnot := (namesNew_iff hinstalled h.tied h.keys h.mem hlookup).mp hnew
    apply hdirty.mp
    apply hacc.dirty n ((hmore n).mpr ⟨hn, hnot⟩)
    left
    rw [hpath dep n hn hlookup]
    exact (newerPath_end_iff hinstalled h hend dep).mpr hnewer
  · intro hnoticed
    refine ⟨fun n hn hcause ↦ ?_, hcounter.mpr hnoticed.ready⟩
    obtain ⟨hn, hnot⟩ := (hmore n).mp hn
    obtain ⟨dep, hdep, hlookup⟩ := hinstalled.name_of_mem hn
    rcases hcause with hnewer | hcause
    · rw [hpath dep n hn hlookup] at hnewer
      apply hdirty.mpr
      apply hnoticed.newer dep hdep
      · exact (namesNew_iff hinstalled h.tied h.keys h.mem hlookup).mpr hnot
      · exact (newerPath_end_iff hinstalled h hend dep).mp hnewer
    · have hunready : g'.inputReady n = false := by
        have hin : n ∈ (g'.rule m.rule).inputs := by
          rw [hinstalled.inputs, List.mem_append, mem_newImplicit, h.explicit]
          exact Or.inr ⟨hn, hnot⟩
        rw [← hend.kept.ready n (hend.hashed n hin).1 (hend.hashed n hin).2]
        exact inputReady_eq_false.mpr hcause
      rcases hinstalled.old_or_new h.tied h.keys hlookup with ⟨hold, hmem⟩ | ⟨-, hfree⟩
      · have hready := hnoticed.ready dep hdep n hold hnot
        rw [inputReady, hinstalled.grown.proj Node.isSource (fun _ ↦ rfl) hmem,
          hinstalled.grown.proj Node.isDirty (fun _ ↦ rfl) hmem] at hunready
        rw [inputReady, hunready] at hready
        cases hready
      · have hclean := (hinstalled.grown.new n (hinstalled.adds.named_allocated n hn) hfree).1
        rw [(inputReady_eq_false.mp hunready).2] at hclean
        cases hclean

end Loaded

/-! ## The parsed graph -/

section Parsed

variable {g₀ g g' : Graph} {O : Set RuleId} {m : Turn ω} {ins : List String} {w : ω}
  {order : List NodeId} {s' : Scan ω}

theorem Visiting.namesNew_iff (hg : Scannable g₀) {t : NodeId → Timestamp} {done : List NodeId}
    (hv : Visiting g₀ t done g) {r : RuleId} (hr : r ∈ g₀.rules)
    (hinputs : (g.rule r).inputs = g₀.links.inputs r) (dep : String) :
    NamesNew g r dep ↔ NamesNew g₀ r dep := by
  rw [NamesNew, NamesNew, hinputs]
  constructor
  · exact fun hnew n hn ↦ hnew n (hv.lookup dep n hn)
  · intro hnew n hn
    rcases hv.named dep n hn with hold | ⟨hfree, -⟩
    · exact hnew n hold
    · exact fun hin ↦ hfree (hg.tied.allocated r hr n (Or.inl hin))

theorem newerPath_congr (h : Explicit g₀ g) {r : RuleId} (hr : r ∈ g₀.rules) (path : String) :
    NewerPath P w g r path ↔ NewerPath P w g₀ r path := by
  have hpath : ∀ o ∈ (g₀.rule r).outputs,
      pathTime P w (g.node o).path = pathTime P w (g₀.node o).path := by
    intro o ho
    rw [(h.node o ⟨r, hr, Or.inr ho⟩).1]
  rw [NewerPath, NewerPath, h.outputs, List.map_congr_left hpath]

/-- From the load to the end of the scan. -/
theorem Load.kept_end (hload : Load P m g ins g') (h : Completed P g₀ w order s')
    (hm : ScanTurn P g₀ w order m) :
    ∃ O more, AtTurn g₀ O m ∧ Installed P g m.rule ins more g' ∧ Loaded m g ins more g' ∧
      LoadEnd m g' s'.graph := by
  obtain ⟨hne, O, hturn⟩ := hm.atTurn h.digest h.scannable h.acyclic
  obtain ⟨dirty, s₁, hfinish, -, hlater⟩ :=
    (hm.passed h.digest h.scannable h.acyclic h.run).finished
  obtain ⟨more, hinstalled, hloaded⟩ := hload.loaded h.digest hturn
  exact ⟨O, more, hturn, hinstalled, hloaded,
    (hload.finish h.digest hturn hne hfinish).later hlater⟩

/-- A listed node that is no explicit input is ready at the load unless it is a
target that is out of date. -/
theorem Load.namesReady_iff (hload : Load P m g ins g') (h : Completed P g₀ w order s')
    (hm : ScanTurn P g₀ w order m) {dep : String} (hdep : dep ∈ ins) :
    NamesReady g m.rule dep ↔ (NamesNew g₀ m.rule dep → ∀ n q, g₀.nodes.lookup dep = some n →
      g₀.links.child n = some q → ¬ Overdue P w g₀ order q) := by
  obtain ⟨O, more, hturn, hinstalled, hloaded, hend⟩ := hload.kept_end h hm
  obtain ⟨done, hv, -⟩ := hm.visiting h.digest h.scannable h.acyclic h.allocated
  have hv' := hv.hashRule hload.hash
  have hwalk := (hload.atTurn hturn).walk
  have hinputs : (g.rule m.rule).inputs = g₀.links.inputs m.rule := (hload.atTurn hturn).inputs
  -- The load has succeeded, so that the node has been hashed and is final.
  have hready : ∀ n, g.nodes.lookup dep = some n → n ∉ (g.rule m.rule).inputs →
      (s'.graph.node n).hash ≠ "" ∧
        (n ∈ g.allocated → s'.graph.inputReady n = g.inputReady n) := by
    intro n hn hnot
    obtain ⟨n', hmore, hlookup⟩ := hinstalled.mem_of_name hdep
    obtain rfl : n = n' := Option.some.inj ((hinstalled.lookup_old hn).symm.trans hlookup)
    have hin : n ∈ (g'.rule m.rule).inputs := by
      rw [hinstalled.inputs, List.mem_append, mem_newImplicit, hloaded.explicit]
      exact Or.inr ⟨hmore, hnot⟩
    obtain ⟨hmem, hhash⟩ := hend.hashed n hin
    refine ⟨hend.kept.hash n hmem hhash ▸ hhash, fun hold ↦ ?_⟩
    rw [hend.kept.ready n hmem hhash, inputReady,
      hinstalled.grown.proj Node.isSource (fun _ ↦ rfl) hold,
      hinstalled.grown.proj Node.isDirty (fun _ ↦ rfl) hold]
    rfl
  constructor
  · intro hnames hnew n q hn hq hover
    have hn' := hv'.lookup dep n hn
    have hnot : n ∉ (g.rule m.rule).inputs := hinputs ▸ hnew n hn
    have hmem : n ∈ g.allocated :=
      (hwalk.tied.nodes _ ((Lib.lookup_eq_some_iff_mem hwalk.keys).mp hn')).1
    obtain ⟨hhash, hsame⟩ := hready n hn' hnot
    have hdirty := h.isDirty_of_overdue hover (h.seen_of_hashed hhash hq)
    have hunready := (h.ready_iff hhash).mpr ⟨q, hq, hdirty⟩
    rw [hsame hmem, hnames n hn' hnot] at hunready
    cases hunready
  · intro hclean n hn hnot
    have hmem : n ∈ g.allocated :=
      (hwalk.tied.nodes _ ((Lib.lookup_eq_some_iff_mem hwalk.keys).mp hn)).1
    rcases hv'.named dep n hn with hold | ⟨hfree, -⟩
    · obtain ⟨hhash, hsame⟩ := hready n hn hnot
      rw [← hsame hmem, ← Bool.not_eq_false, h.ready_iff hhash]
      rintro ⟨q, hq, hdirty⟩
      refine hclean (fun n' hn' ↦ ?_) n q hold hq ?_
      · obtain rfl : n = n' := Option.some.inj (hold.symm.trans hn')
        rw [hinputs] at hnot
        exact hnot
      · exact (h.isDirty_iff_overdue (h.seen_of_hashed hhash hq)).mp hdirty
    · have hsource : (g.node n).childRule = none := by
        rw [hwalk.childRule h.scannable.tied.twoWay]
        exact h.scannable.tied.childRule_of_free hfree
      simp [inputReady, Node.isSource, hsource]

/-- What has to be noticed can be told from the parsed graph. -/
theorem Load.noticedAt_iff (hload : Load P m g ins g') (h : Completed P g₀ w order s')
    (hm : ScanTurn P g₀ w order m) :
    NoticedAt P w g m.rule ins ↔ Noticed P w g₀ order m.rule ins := by
  obtain ⟨O, more, hturn, hinstalled, hloaded, hend⟩ := hload.kept_end h hm
  obtain ⟨done, hv, -⟩ := hm.visiting h.digest h.scannable h.acyclic h.allocated
  have hwalk := (hload.atTurn hturn).walk
  have hnew := (hv.hashRule hload.hash).namesNew_iff h.scannable hturn.mem
    (hload.atTurn hturn).inputs
  have hnewer : ∀ path, NewerPath P w g m.rule path ↔ NewerPath P w g₀ m.rule path :=
    newerPath_congr hwalk.explicit hturn.mem
  have hcaught : Caught g m.rule ins ↔ Overdue P w g₀ order m.rule := by
    rw [← isDirty_end_iff hinstalled hloaded hend, h.isDirty_iff_overdue (h.seen_of_turn hm)]
  constructor
  · intro hnoticed
    refine ⟨fun dep hdep ↦ (hload.namesReady_iff h hm hdep).mp (hnoticed.ready dep hdep),
      fun dep hdep hn hlt ↦ ?_⟩
    exact hcaught.mp (hnoticed.newer dep hdep ((hnew dep).mpr hn) ((hnewer dep).mpr hlt))
  · intro hnoticed
    refine ⟨fun dep hdep ↦ (hload.namesReady_iff h hm hdep).mpr (hnoticed.ready dep hdep),
      fun dep hdep hn hlt ↦ ?_⟩
    exact hcaught.mpr (hnoticed.newer dep hdep ((hnew dep).mp hn) ((hnewer dep).mp hlt))

end Parsed

end GraphDependencyScan

/-- In a scan of an accepted graph that comes to its end, with the roots and the
inputs of the rules in any order: the implicit inputs of a rule whose depfile is
loaded are accounted for if and only if they are noticed, which the times of the
files and the depfiles decide. -/
theorem scan_accounted_iff {A : Allocator} {graphFilePath : String} {rules : List JsonVal}
    {g g₂ : Graph} {ω : Type} {P : Platform ω}
    (hparse : GraphParser.processJson A graphFilePath rules = .ok g)
    (hloop : checkGraphLoop g = .ok ()) (hsha : ∀ s, (P.sha256 s).length = 32)
    (h : GraphDependencyScan.Shuffled g g₂) {order : List NodeId}
    (horder : order.Perm (g.roots.sort (· ≤ ·))) {w w' : ω} {g' : Graph}
    (hscan : GraphDependencyScan.scanFrom P g₂ w order = .ok (g', w')) :
    ∀ r ins, GraphDependencyScan.Listed P g₂ w order r ins →
      (GraphDependencyScan.Accounted P w g' r ↔
        GraphDependencyScan.Noticed P w g₂ order r ins) := by
  open GraphDependencyScan in
  obtain ⟨s', hrun, hpure⟩ := Lib.bind_eq_ok.mp hscan
  obtain ⟨rfl, rfl⟩ := Prod.mk.inj (Except.ok.inj hpure)
  have hdone : Completed P g₂ w order s' := {
    digest := Platform.digest_ne_empty hsha
    scannable := h.scannable (scannable_of_processJson hparse)
    acyclic := h.acyclicBelow hloop horder
    allocated := h.allocated_of_order hparse horder
    run := hrun }
  rintro r ins ⟨m, k, k', hm, rfl, hload⟩
  obtain ⟨O, more, hturn, hinstalled, hloaded, hend⟩ := hload.kept_end hdone hm
  rw [← hload.noticedAt_iff hdone hm]
  exact accounted_end_iff hinstalled hloaded hend

/-! ## A generated header -/

/-- The digests for the rules in the other order. -/
def headerDigests : List (String × ℕ) :=
  ("falcon.json\x7b\"rules\":[\x7b\"inputs\":[\"a\"],\"outputs\":[\"c\"],\"cmd\":\"touch c\"\x7d,\x7b\"inputs\":[\"a\"],\"outputs\":[\"b\"],\"cmd\":\"cc a -o b\",\"depfile\":\"b.d\"\x7d]\x7d",
    0x41114b8a2d9e111232861e08668ab24277ec2a30fbda0ed3c6e9f8cfde426431) :: siblingDigests

def headerHost : Host :=
  { siblingHost with sha256 := fun s ↦ digestBytes ((headerDigests.lookup s).getD 0) }

/-- `a` has been written at time 2 and `b` at time 3, `c` at the given time. -/
def headerDisk (time : Timestamp) : Disk where
  files
    | "falcon.json" => some "\x7b\"rules\":[\x7b\"inputs\":[\"a\"],\"outputs\":[\"c\"],\"cmd\":\"touch c\"\x7d,\x7b\"inputs\":[\"a\"],\"outputs\":[\"b\"],\"cmd\":\"cc a -o b\",\"depfile\":\"b.d\"\x7d]\x7d"
    | path => siblingDisk.files path
  mtimes
    | "a" => 2
    | "b" => 3
    | "c" => time
    | _ => 1
  entries _ := none
  clock := 4

theorem length_headerHost (s : String) : (headerHost.platform.sha256 s).length = 32 :=
  length_digestBytes _

/-- The scan of `c` and then `b`, whose depfile names `c`. -/
structure HeaderRun (time : Timestamp) (g : Graph) (g' : Graph) : Prop where
  parse : GraphParser.processJson bumpAllocator "falcon.json" siblingMakefile.reverse = .ok g
  loop : checkGraphLoop g = .ok ()
  listed : GraphDependencyScan.Listed headerHost.platform g (headerDisk time)
    (g.roots.sort (· ≤ ·)) 2 ["a", "c"]
  scan : ∃ w', GraphDependencyScan.scanFrom headerHost.platform g (headerDisk time)
    (g.roots.sort (· ≤ ·)) = .ok (g', w')
  lookup : g.nodes.lookup "a" = some 1 ∧ g.nodes.lookup "c" = some 2
  links : (g.rule 2).inputs = [1] ∧ ((g.rule 2).outputs.map fun o ↦
    GraphDependencyScan.pathTime headerHost.platform (headerDisk time) (g.node o).path) = [3] ∧
      (g.node 2).childRule = some 1
  header : (g'.node 2).hash ≠ "" ∧ (g'.rule 1).isDirty = decide (time = 1)
  after : Depfile.implicitDeps (g'.rule 2) = [2] ∧ (g'.rule 2).isDirty = false ∧
    (g'.node 2).isSource = false ∧ (g'.node 2).isDirty = decide (time = 1)

open GraphDependencyScan in
theorem exists_headerRun (time : Timestamp) (htime : time ∈ ([1, 2] : List Timestamp)) :
    ∃ g g', HeaderRun time g g' := by
  have hall : ∀ time ∈ ([1, 2] : List Timestamp), (do
      let g ← GraphParser.processJson bumpAllocator "falcon.json" siblingMakefile.reverse
      let g₁ := statNodes headerHost.platform (headerDisk time) g
      let s ← scanRoot headerHost.platform g₁.depth ⟨g₁, headerDisk time, ∅⟩ 2
      let x ← [1].foldlM (updateInput (updateNode headerHost.platform (g₁.depth - 1)) 2) (s.enter 2)
      let k ← Hash.updateRuleHash headerHost.platform x.2.graph 2 true true
      let (loaded, k', w') ← ruleLoadDepfile headerHost.platform k x.2.world 2
      let s' ← [2, 3, 4].foldlM (scanRoot headerHost.platform g₁.depth)
        ⟨g₁, headerDisk time, ∅⟩
      pure (decide ((∀ r ∈ g.rules, (g.rule r).inputs = [1] ∧ ∀ o ∈ (g.rule r).outputs, 1 < o) ∧
        (g.roots = [2, 3, 4].toFinset ∧ 0 < g₁.depth ∧ (s.graph.node 3).childRule = some 2 ∧
          2 ∉ s.seen ∧ (s.graph.rule 2).inputs = [1]) ∧
        ((k.rule 2).hasDepfile = true ∧
          loadedNames headerHost.platform k x.2.world 2 = some ["a", "c"] ∧ loaded = true) ∧
        (g.nodes.lookup "a" = some 1 ∧ g.nodes.lookup "c" = some 2) ∧
        ((g.rule 2).inputs = [1] ∧ ((g.rule 2).outputs.map fun o ↦
          pathTime headerHost.platform (headerDisk time) (g.node o).path) = [3] ∧
            (g.node 2).childRule = some 1) ∧
        ((s'.graph.node 2).hash ≠ "" ∧ (s'.graph.rule 1).isDirty = decide (time = 1)) ∧
        (Depfile.implicitDeps (s'.graph.rule 2) = [2] ∧ (s'.graph.rule 2).isDirty = false ∧
          (s'.graph.node 2).isSource = false ∧
          (s'.graph.node 2).isDirty = decide (time = 1)))) : Outcome Bool) = .ok true := by
    decide +kernel
  obtain ⟨g, hparse, hall⟩ := Lib.bind_eq_ok.mp (hall time htime)
  obtain ⟨s, hroot, hall⟩ := Lib.bind_eq_ok.mp hall
  obtain ⟨x, hinputs, hall⟩ := Lib.bind_eq_ok.mp hall
  obtain ⟨k, hhash, hall⟩ := Lib.bind_eq_ok.mp hall
  obtain ⟨⟨loaded, k', w'⟩, hload, hall⟩ := Lib.bind_eq_ok.mp hall
  obtain ⟨s', hscan, hall⟩ := Lib.bind_eq_ok.mp hall
  obtain ⟨hrules, ⟨hroots, hdepth, hchild, hnew, hin⟩, ⟨hdepfile, hnames, rfl⟩, hlookup, hlinks,
    hheader, hafter⟩ := of_decide_eq_true (Except.ok.inj hall)
  have hloop : checkGraphLoop g = .ok () := by
    apply checkGraphLoop_of_lt hparse
    intro r hr a ha o ho
    obtain ⟨hinputs, houtputs⟩ := hrules r hr
    rw [hinputs, List.mem_singleton] at ha
    exact ha ▸ houtputs o ho
  have hsort : g.roots.sort (· ≤ ·) = [2, 3, 4] := by
    rw [hroots]
    exact (List.toFinset_sort (· ≤ ·) (by decide)).mpr (by decide)
  have hturn : ScanTurn headerHost.platform g (headerDisk time) (g.roots.sort (· ≤ ·))
      ⟨x.1, x.2, 2⟩ := by
    refine ⟨[2], 3, [4], s, hsort, ?_, ?_⟩
    · rw [List.foldlM_cons, hroot]
      rfl
    · rw [← Nat.sub_add_cancel hdepth]
      refine ⟨2, hchild, hnew, Or.inr ⟨x, ?_, rfl⟩⟩
      rw [hin]
      exact hinputs
  refine ⟨g, s'.graph, hparse, hloop, ⟨_, k, k', hturn, rfl, ?_⟩, ⟨s'.world, ?_⟩, hlookup, hlinks,
    hheader, hafter⟩
  · exact ⟨hhash, hdepfile, hnames, w', hload⟩
  · rw [hsort]
    exact Lib.bind_eq_ok.mpr ⟨s', hscan, rfl⟩

/-- The header has been made after `a`, and everything is up to date. -/
theorem scan_accounted_header : ∃ g g', HeaderRun 2 g g' ∧
    GraphDependencyScan.Accounted headerHost.platform (headerDisk 2) g' 2 := by
  open GraphDependencyScan in
  obtain ⟨g, g', h⟩ := exists_headerRun 2 (by decide)
  obtain ⟨w', hscan⟩ := h.scan
  obtain ⟨ha, hc⟩ := h.lookup
  obtain ⟨hinputs, htimes, hchild⟩ := h.links
  have hnoticed : Noticed headerHost.platform (headerDisk 2) g (g.roots.sort (· ≤ ·)) 2
      ["a", "c"] := by
    refine ⟨fun dep hdep hnew n q hn hq hover ↦ ?_, fun dep hdep _ hnewer ↦ ?_⟩
    · rcases List.mem_pair.mp hdep with rfl | rfl
      · exact hnew 1 ha (hinputs ▸ List.mem_singleton_self 1)
      · obtain rfl : 2 = n := Option.some.inj (hc.symm.trans hn)
        obtain rfl : 1 = q := Option.some.inj (hchild.symm.trans hq)
        obtain ⟨s', hrun, hpure⟩ := Lib.bind_eq_ok.mp hscan
        obtain ⟨rfl, -⟩ := Prod.mk.inj (Except.ok.inj hpure)
        have hdone : Completed headerHost.platform g (headerDisk 2) (g.roots.sort (· ≤ ·)) s' := {
          digest := Platform.digest_ne_empty length_headerHost
          scannable := scannable_of_processJson h.parse
          acyclic := (Shuffled.refl g).acyclicBelow h.loop (.refl _)
          allocated := (Shuffled.refl g).allocated_of_order h.parse (.refl _)
          run := hrun }
        have hdirty := hdone.isDirty_of_overdue hover (hdone.seen_of_hashed h.header.1 hchild)
        rw [h.header.2] at hdirty
        cases hdirty
    · obtain ⟨oldest, hmin, hlt⟩ := hnewer
      rw [htimes] at hmin
      obtain rfl : 3 = oldest := Option.some.inj hmin
      rcases List.mem_pair.mp hdep with rfl | rfl
      · exact absurd hlt (by decide)
      · exact absurd hlt (by decide)
  exact ⟨g, g', h, (scan_accounted_iff h.parse h.loop length_headerHost (.refl g) (.refl _) hscan 2
    ["a", "c"] h.listed).mpr hnoticed⟩

/-- The header is out of date, and the rule that includes it is left up to date. -/
theorem not_accounted_header : ¬ ∀ (A : Allocator) (graphFilePath : String)
    (rules : List JsonVal) (g g₂ : Graph) (P : Platform Disk) (order : List NodeId) (w w' : Disk)
    (g' : Graph), GraphParser.processJson A graphFilePath rules = .ok g →
      checkGraphLoop g = .ok () → (∀ s, (P.sha256 s).length = 32) →
        GraphDependencyScan.Shuffled g g₂ → order.Perm (g.roots.sort (· ≤ ·)) →
          GraphDependencyScan.scanFrom P g₂ w order = .ok (g', w') →
            ∀ r ins, GraphDependencyScan.Listed P g₂ w order r ins →
              GraphDependencyScan.Accounted P w g' r := by
  intro hclaim
  obtain ⟨g, g', h⟩ := exists_headerRun 1 (by decide)
  obtain ⟨w', hscan⟩ := h.scan
  have hacc := hclaim bumpAllocator "falcon.json" siblingMakefile.reverse g g headerHost.platform _
    (headerDisk 1) w' g' h.parse h.loop length_headerHost (.refl g) (.refl _) hscan 2 ["a", "c"]
    h.listed
  obtain ⟨himplicit, hclean, hsource, hdirty⟩ := h.after
  have hd := hacc.dirty 2 (by rw [himplicit]; exact List.mem_singleton_self 2)
    (Or.inr ⟨hsource, hdirty⟩)
  rw [hclean] at hd
  cases hd

end Falcon
