import Falcon.Daemon.DepfileKey
import Falcon.Daemon.ExactScan
import Falcon.Graph.VisitOrder

/-!
# The calls of `updateRuleHash` in the scan

At the turn of a rule its hash is computed, and once more if its depfile has
been loaded.  The first call finds all the hashes it needs.  The second finds
them unless the depfile names a node that the traversal has not hashed yet,
which is a matter of the order in which the roots and the inputs are visited.
-/

namespace Falcon

open Relation

namespace GraphDependencyScan

open Graph Depfile

variable {ω : Type} {P : Platform ω}

/-! ## The start -/

/-- The graph of the parser, with the roots and the inputs of the rules in
another order. -/
structure Shuffled (g g₂ : Graph) : Prop extends SameUpToOrder g g₂ where
  allocated : g₂.allocated = g.allocated

theorem Shuffled.refl (g : Graph) : Shuffled g g := ⟨.refl g, rfl⟩

theorem Shuffled.scannable {g g₂ : Graph} (h : Shuffled g g₂) (hg : Scannable g) :
    Scannable g₂ where
  tied := by
    have hL := h.toSameUpToOrder.toReordered.twoWay hg.tied.twoWay
    refine ⟨⟨hL, fun r hr n hn ↦ ?_, fun e he ↦ ?_⟩, fun r hr ↦ ?_⟩
    · rw [h.allocated]
      obtain ⟨inputs, hperm, heq⟩ := h.rule r
      rw [heq] at hn
      exact hg.tied.allocated r (h.rules ▸ hr) n (hn.imp_left hperm.mem_iff.mpr)
    · rw [h.allocated, h.node]
      exact hg.tied.nodes e (h.nodes.mem_iff.mp he)
    · obtain ⟨inputs, hperm, heq⟩ := h.rule r
      rw [heq]
      exact (hg.tied.implicit r (h.rules ▸ hr)).trans hperm.length_eq.le
  keys := (h.nodes.map Prod.fst).nodup_iff.mpr hg.keys
  explicit r hr := by
    obtain ⟨inputs, hperm, heq⟩ := h.rule r
    rw [heq]
    exact hg.explicit r (h.rules ▸ hr)
  pristine := h.toSameUpToOrder.pristine hg.pristine

theorem Shuffled.allocated_of_order {A : Allocator} {graphFilePath : String} {rules : List JsonVal}
    {g g₂ : Graph} (h : Shuffled g g₂)
    (hparse : GraphParser.processJson A graphFilePath rules = .ok g) {order : List NodeId}
    (horder : order.Perm (g.roots.sort (· ≤ ·))) : ∀ n ∈ order, n ∈ g₂.allocated := by
  intro n hn
  rw [h.allocated]
  have hroot := (Finset.mem_sort _).mp (horder.mem_iff.mp hn)
  exact (((GraphParser.processJson_accepted hparse).roots n).mp hroot).1

theorem scannable_of_processJson {A : Allocator} {graphFilePath : String} {rules : List JsonVal}
    {g : Graph} (hparse : GraphParser.processJson A graphFilePath rules = .ok g) :
    Scannable g where
  tied := GraphParser.tied_of_processJson hparse
  keys := by
    obtain ⟨g₀, -, hl, rfl⟩ := GraphParser.processJson_loop hparse
    change ((GraphParser.assignNode g₀.nodes graphFilePath _).map Prod.fst).Nodup
    rw [GraphParser.assignNode, List.map_append, List.nodup_append]
    refine ⟨hl.keys.sublist (List.filter_sublist.map _), List.nodup_singleton _, ?_⟩
    rintro a ha b hb rfl
    obtain ⟨e, he, rfl⟩ := List.mem_map.mp ha
    have hne := (List.mem_filter.mp he).2
    rw [List.map_singleton, List.mem_singleton] at hb
    simp [hb] at hne
  explicit r _ := by
    obtain ⟨g₀, hp, -, rfl⟩ := GraphParser.processJson_loop hparse
    exact hp.explicit r
  pristine := GraphParser.processJson_pristine hparse

/-! ## The calls of a turn -/

/-- At the turn `m` the depfile of the rule is loaded: it lists `ins`, and `g`
becomes `g'`. -/
structure Load (P : Platform ω) (m : Turn ω) (g : Graph) (ins : List String) (g' : Graph) :
    Prop where
  hash : Hash.updateRuleHash P m.scan.graph m.rule true true = .ok g
  depfile : (g.rule m.rule).hasDepfile = true
  names : loadedNames P g m.scan.world m.rule = some ins
  run : ∃ w', ruleLoadDepfile P g m.scan.world m.rule = .ok (true, g', w')

/-- `updateRule` calls `updateRuleHash` at the turn, on the graph and with the
last argument that are given. -/
inductive HashCall (P : Platform ω) (m : Turn ω) : Graph → Bool → Prop
  | first : HashCall P m m.scan.graph true
  | second {g g' ins} (h : Load P m g ins g') : HashCall P m g' false

/-- What the assertions of `updateRuleHash` are about. -/
structure HashReady (g : Graph) (r : RuleId) : Prop where
  inputs : ∀ n ∈ (g.rule r).inputs, (g.node n).hash ≠ ""
  explicit : ∀ n ∈ Hash.explicitInputs (g.rule r), (g.node n).hashDepfile ≠ ""

/-- All calls of the turn find the hashes they need, and come back. -/
def CallsReady (P : Platform ω) (m : Turn ω) : Prop :=
  ∀ g b, HashCall P m g b →
    HashReady g m.rule ∧ ∃ g', Hash.updateRuleHash P g m.rule true b = .ok g'

/-- The scan loads a depfile for the rule, which lists `ins`. -/
def Listed (P : Platform ω) (g : Graph) (w : ω) (order : List NodeId) (r : RuleId)
    (ins : List String) : Prop :=
  ∃ m k k', ScanTurn P g w order m ∧ m.rule = r ∧ Load P m k ins k'

/-- No depfile that is loaded lists a node of the makefile that is visited only
after the rule. -/
def NamesVisited (P : Platform ω) (g : Graph) (w : ω) (order : List NodeId) : Prop :=
  ∀ r ins, Listed P g w order r ins → ∀ dep ∈ ins, ∀ n, g.nodes.lookup dep = some n →
    g.VisitedBefore order r n

theorem HashReady.call {g : Graph} {r : RuleId} (h : HashReady g r) (b : Bool) :
    ∃ g', Hash.updateRuleHash P g r true b = .ok g' :=
  ⟨_, Hash.updateRuleHash_eq_ok.mpr ⟨fun _ ↦ h.inputs, fun _ ↦ h.explicit, rfl⟩⟩

section Turn

variable {g₀ g g' : Graph} {O : Set RuleId} {m : Turn ω} {ins : List String}

theorem AtTurn.hashReady (h : AtTurn g₀ O m) : HashReady m.scan.graph m.rule where
  inputs := h.hashed
  explicit n hn := by
    have hmem := List.mem_of_mem_take hn
    apply h.walk.hashed n _ (h.hashed n hmem)
    exact h.walk.tied.allocated m.rule (h.walk.explicit.rules ▸ h.mem) n (Or.inl hmem)

/-- It is still the turn of the rule when the load begins. -/
theorem Load.atTurn (hload : Load P m g ins g') (h : AtTurn g₀ O m) :
    AtTurn g₀ O { m with scan := { m.scan with graph := g } } :=
  h.hashRule hload.hash

theorem Load.installed (hload : Load P m g ins g') (hdigest : ∀ data, P.digest data ≠ "")
    (h : AtTurn g₀ O m) : ∃ more, Installed P g m.rule ins more g' := by
  obtain ⟨w', hrun⟩ := hload.run
  obtain ⟨ins', more, hnames, hinstalled⟩ := (hload.atTurn h).loaded hdigest hrun
  obtain rfl : ins = ins' := Option.some.inj (hload.names.symm.trans hnames)
  exact ⟨more, hinstalled⟩

/-- The second call is ready if and only if the names have been hashed. -/
theorem Load.hashReady_iff (hload : Load P m g ins g') (hdigest : ∀ data, P.digest data ≠ "")
    (h : AtTurn g₀ O m) : HashReady g' m.rule ↔
      ∀ dep ∈ ins, ∀ n, g.nodes.lookup dep = some n → (g.node n).hash ≠ "" := by
  have hturn := hload.atTurn h
  obtain ⟨more, hinstalled⟩ := hload.installed hdigest h
  have hkeys : (g.nodes.map Prod.fst).Nodup := hturn.walk.keys
  have hhash : ∀ n ∈ g.allocated, (g'.node n).hash = (g.node n).hash :=
    fun n hn ↦ hinstalled.grown.proj Node.hash (fun _ ↦ rfl) hn
  have hexplicit : Hash.explicitInputs (g.rule m.rule) = (g.rule m.rule).inputs :=
    Hash.explicitInputs_none hturn.none
  have hold : ∀ n ∈ Hash.explicitInputs (g.rule m.rule), n ∈ g.allocated ∧ (g.node n).hash ≠ "" ∧
      (g.node n).hashDepfile ≠ "" := by
    intro n hn
    have hin : n ∈ (g.rule m.rule).inputs := hexplicit ▸ hn
    refine ⟨?_, hturn.hashReady.inputs n hin, hturn.hashReady.explicit n hn⟩
    exact hturn.walk.tied.allocated m.rule (hturn.walk.explicit.rules ▸ h.mem) n (Or.inl hin)
  constructor
  · intro hready dep hdep n hlookup
    have hn : n ∈ g.allocated :=
      (hturn.walk.tied.nodes (dep, n) ((Lib.lookup_eq_some_iff_mem hkeys).mp hlookup)).1
    rw [← hhash n hn]
    apply hready.inputs
    rw [hinstalled.inputs, List.mem_append, mem_newImplicit]
    by_cases hin : n ∈ Hash.explicitInputs (g.rule m.rule)
    · exact Or.inl hin
    · exact Or.inr ⟨(hinstalled.mem_iff_named hturn.walk.tied hkeys hn).mpr
        ⟨dep, hdep, hlookup⟩, hin⟩
  · intro hnames
    refine ⟨fun n hn ↦ ?_, fun n hn ↦ ?_⟩
    · rw [hinstalled.inputs, List.mem_append, mem_newImplicit] at hn
      rcases hn with hn | ⟨hmore, -⟩
      · rw [hhash n (hold n hn).1]
        exact (hold n hn).2.1
      · by_cases hmem : n ∈ g.allocated
        · obtain ⟨dep, hdep, hlookup⟩ :=
            (hinstalled.mem_iff_named hturn.walk.tied hkeys hmem).mp hmore
          rw [hhash n hmem]
          exact hnames dep hdep n hlookup
        · exact (hinstalled.adds.created n (hinstalled.adds.named_allocated n hmore) hmem).2.1
    · have hn' : n ∈ Hash.explicitInputs (g.rule m.rule) := by
        obtain ⟨implicit, numReady, hself⟩ := hinstalled.loading.self
        rw [hself, Hash.explicitInputs] at hn
        simpa using hn
      rw [hinstalled.grown.proj Node.hashDepfile (fun _ ↦ rfl) (hold n hn').1]
      exact (hold n hn').2.2

/-- The names that lead to nodes with a hash lead to nodes that have been
visited, or to new ones. -/
theorem Load.names_iff (hload : Load P m g ins g') (hg : Scannable g₀) {t : NodeId → Timestamp}
    {done : List NodeId}
    (hv : Visiting g₀ t done m.scan.graph) :
    (∀ dep ∈ ins, ∀ n, g.nodes.lookup dep = some n → (g.node n).hash ≠ "") ↔
      ∀ dep ∈ ins, ∀ n, g₀.nodes.lookup dep = some n → n ∈ done := by
  have hv' : Visiting g₀ t done g := hv.hashRule hload.hash
  have hmem : ∀ {dep n}, g₀.nodes.lookup dep = some n → n ∈ g₀.allocated := fun hn ↦
    (hg.tied.nodes _ ((Lib.lookup_eq_some_iff_mem hg.keys).mp hn)).1
  constructor
  · intro hnames dep hdep n hn
    exact (hv'.hashed n (hmem hn)).mp (hnames dep hdep n (hv'.lookup dep n hn))
  · intro hvisited dep hdep n hn
    rcases hv'.named dep n hn with hold | ⟨-, hne, -⟩
    · exact (hv'.hashed n (hmem hold)).mpr (hvisited dep hdep n hold)
    · exact hne

/-- The first call is ready in any case, the second if the names have been visited. -/
theorem AtTurn.callsReady_iff (h : AtTurn g₀ O m) (hdigest : ∀ data, P.digest data ≠ "")
    (hg : Scannable g₀) {t : NodeId → Timestamp}
    {done : List NodeId} (hv : Visiting g₀ t done m.scan.graph) :
    CallsReady P m ↔ ∀ g ins g', Load P m g ins g' →
      ∀ dep ∈ ins, ∀ n, g₀.nodes.lookup dep = some n → n ∈ done := by
  constructor
  · intro hready g ins g' hload
    apply (hload.names_iff hg hv).mp
    exact (hload.hashReady_iff hdigest h).mp (hready g' false (.second hload)).1
  · intro hnames g b hcall
    cases hcall with
    | first => exact ⟨h.hashReady, h.hashReady.call true⟩
    | second hload =>
        have hready := (hload.hashReady_iff hdigest h).mpr
          ((hload.names_iff hg hv).mpr (hnames _ _ _ hload))
        exact ⟨hready, hready.call false⟩

end Turn

theorem Shuffled.acyclicBelow {g g₂ : Graph} (h : Shuffled g g₂)
    (hloop : checkGraphLoop g = .ok ()) {order : List NodeId}
    (horder : order.Perm (g.roots.sort (· ≤ ·))) : ∀ n ∈ order, g₂.links.AcyclicBelow n := by
  intro n hn
  rw [Links.AcyclicBelow, h.toSameUpToOrder.toReordered.feeds]
  apply acyclicBelow_roots hloop
  exact (Finset.mem_sort _).mp (horder.mem_iff.mp hn)

end GraphDependencyScan

/-- In the scan of an accepted graph, with the roots and the inputs of the rules
in any order, all calls of `updateRuleHash` find the hashes they need if and
only if no depfile names a node that is visited after the rule. -/
theorem scan_callsReady_iff {A : Allocator} {graphFilePath : String} {rules : List JsonVal}
    {g g₂ : Graph} {ω : Type} {P : Platform ω}
    (hparse : GraphParser.processJson A graphFilePath rules = .ok g)
    (hloop : checkGraphLoop g = .ok ()) (hsha : ∀ s, (P.sha256 s).length = 32)
    (h : GraphDependencyScan.Shuffled g g₂) {order : List NodeId}
    (horder : order.Perm (g.roots.sort (· ≤ ·))) (w : ω) :
    (∀ m, GraphDependencyScan.ScanTurn P g₂ w order m → GraphDependencyScan.CallsReady P m) ↔
      GraphDependencyScan.NamesVisited P g₂ w order := by
  open GraphDependencyScan in
  have hdigest := Platform.digest_ne_empty hsha
  have hg₂ := h.scannable (scannable_of_processJson hparse)
  have hno := h.acyclicBelow hloop horder
  have hready : ∀ m, ScanTurn P g₂ w order m → (CallsReady P m ↔ ∀ k ins k', Load P m k ins k' →
      ∀ dep ∈ ins, ∀ n, g₂.nodes.lookup dep = some n → g₂.VisitedBefore order m.rule n) := by
    intro m hm
    obtain ⟨-, O, hturn⟩ := hm.atTurn hdigest hg₂ hno
    obtain ⟨done, hv, hvisited⟩ := hm.visiting hdigest hg₂ hno (h.allocated_of_order hparse horder)
    simp only [hturn.callsReady_iff hdigest hg₂ hv, hvisited]
  constructor
  · rintro hall r ins ⟨m, k, k', hm, rfl, hload⟩
    exact (hready m hm).mp (hall m hm) k ins k' hload
  · intro hvisited m hm
    refine (hready m hm).mpr fun k ins k' hload ↦ ?_
    exact hvisited m.rule ins ⟨m, k, k', hm, rfl, hload⟩

/-! ## A depfile that names another target -/

/-- The rules `a -> b`, which has a depfile, and `a -> c`. -/
def siblingMakefile : List JsonVal :=
  [.object [("inputs", .array [.string "a"]), ("outputs", .array [.string "b"]),
    ("cmd", .string "cc a -o b"), ("depfile", .string "b.d")], touchRule "a" "c"]

def siblingText : String := "\x7b\"rules\":[\x7b\"inputs\":[\"a\"],\"outputs\":[\"b\"],\"cmd\":\"cc a -o b\",\"depfile\":\"b.d\"\x7d,\x7b\"inputs\":[\"a\"],\"outputs\":[\"c\"],\"cmd\":\"touch c\"\x7d]\x7d"

/-- The SHA-256 digests that a scan needs. -/
def siblingDigests : List (String × ℕ) :=
  [("ax",
    0x5e85370e555e95d27df68f93c0ccaa4edfc1da5e281b47a2ebba2649a13ea5f4),
   ("5e85370e555e95d27df68f93c0ccaa4edfc1da5e281b47a2ebba2649a13ea5f4cc a -o b",
    0x0ef1731bd22d66006402f658998e58871d8902710e93dd53d4939576b14d42bf),
   ("5e85370e555e95d27df68f93c0ccaa4edfc1da5e281b47a2ebba2649a13ea5f4touch c",
    0xc5b38b8c4de4b36de57ef77bde78916810673442cad2f1f11a7b294e704503e8),
   ("cc5b38b8c4de4b36de57ef77bde78916810673442cad2f1f11a7b294e704503e8",
    0x8502d7f568b7a86ed735b83307892a94d64a9e96199a7aff9475aef52b92346c),
   ("5e85370e555e95d27df68f93c0ccaa4edfc1da5e281b47a2ebba2649a13ea5f48502d7f568b7a86ed735b83307892a94d64a9e96199a7aff9475aef52b92346ccc a -o b",
    0x4e7461f5670d65bfa683b9bc4ca6522b1157eff3169fe5004d021c0436456453),
   ("b4e7461f5670d65bfa683b9bc4ca6522b1157eff3169fe5004d021c0436456453",
    0x39eebcd82ea07891c6ef57cdf5f2602588ead5cc57691fa77bf457cd67048631),
   ("falcon.json" ++ siblingText,
    0x90fb09bac39f181ea3d96ada25cacb140e899d447fbeef66c6268f4aa66afc1d)]

def siblingHost : Host :=
  { touchHost with sha256 := fun s ↦ digestBytes ((siblingDigests.lookup s).getD 0) }

/-- Everything has been built, and compiling `b` has read `c`. -/
def siblingDisk : Disk where
  files
    | "a" => some "x"
    | "b" => some "obj"
    | "b.d" => some "b: a c"
    | "c" => some ""
    | "falcon.json" => some siblingText
    | _ => none
  mtimes _ := 1
  entries _ := none
  clock := 2

theorem length_siblingHost (s : String) : (siblingHost.platform.sha256 s).length = 32 :=
  length_digestBytes _

/-- A turn of the scan at which the depfile names a node that is visited later. -/
structure SiblingTurn (g : Graph) (m : GraphDependencyScan.Turn Disk) (k k' : Graph) : Prop where
  parse : GraphParser.processJson bumpAllocator "falcon.json" siblingMakefile = .ok g
  loop : checkGraphLoop g = .ok ()
  turn : GraphDependencyScan.ScanTurn siblingHost.platform g siblingDisk (g.roots.sort (· ≤ ·)) m
  load : GraphDependencyScan.Load siblingHost.platform m k ["a", "c"] k'
  lookup : g.nodes.lookup "c" = some 3 ∧ k.nodes.lookup "c" = some 3
  unhashed : (k.node 3).hash = ""
  later : ¬ g.VisitedBefore (g.roots.sort (· ≤ ·)) m.rule 3

open GraphDependencyScan in
theorem exists_siblingTurn : ∃ g m k k', SiblingTurn g m k k' := by
  have hall : (do
      let g ← GraphParser.processJson bumpAllocator "falcon.json" siblingMakefile
      let k := statNodes siblingHost.platform siblingDisk g
      let x ← [1].foldlM (updateInput (updateNode siblingHost.platform (k.depth - 1)) 1)
        (Scan.enter ⟨k, siblingDisk, ∅⟩ 1)
      let g₁ ← Hash.updateRuleHash siblingHost.platform x.2.graph 1 true true
      let (loaded, g₂, w₂) ← ruleLoadDepfile siblingHost.platform g₁ x.2.world 1
      pure (decide ((∀ r ∈ g.rules, (g.rule r).inputs = [1] ∧ ∀ o ∈ (g.rule r).outputs, 1 < o) ∧
        (g.roots = [2, 3, 4].toFinset ∧ 0 < k.depth ∧ (k.node 2).childRule = some 1 ∧
          (k.rule 1).inputs = [1]) ∧ (g₁.rule 1).hasDepfile = true ∧
        loadedNames siblingHost.platform g₁ x.2.world 1 = some ["a", "c"] ∧ loaded = true ∧
        (g.nodes.lookup "c" = some 3 ∧ g₁.nodes.lookup "c" = some 3) ∧
        (g₁.node 3).hash = "" ∧ ¬ g.VisitedBefore [2, 3, 4] 1 3)) : Outcome Bool) =
          .ok true := by
    decide +kernel
  obtain ⟨g, hparse, hall⟩ := Lib.bind_eq_ok.mp hall
  obtain ⟨x, hinputs, hall⟩ := Lib.bind_eq_ok.mp hall
  obtain ⟨g₁, hhash, hall⟩ := Lib.bind_eq_ok.mp hall
  obtain ⟨⟨loaded, g₂, w₂⟩, hload, hall⟩ := Lib.bind_eq_ok.mp hall
  obtain ⟨hrules, ⟨hroots, hdepth, hchild, hin⟩, hdepfile, hnames, rfl, hlookup, hempty, hlater⟩ :=
    of_decide_eq_true (Except.ok.inj hall)
  have hloop : checkGraphLoop g = .ok () := by
    apply checkGraphLoop_of_lt hparse
    intro r hr a ha o ho
    obtain ⟨hinputs, houtputs⟩ := hrules r hr
    rw [hinputs, List.mem_singleton] at ha
    exact ha ▸ houtputs o ho
  have hsort : g.roots.sort (· ≤ ·) = [2, 3, 4] := by
    rw [hroots]
    exact (List.toFinset_sort (· ≤ ·) (by decide)).mpr (by decide)
  have hturn : ScanTurn siblingHost.platform g siblingDisk (g.roots.sort (· ≤ ·))
      ⟨x.1, x.2, 1⟩ := by
    refine ⟨[], 2, [3, 4], _, hsort, rfl, ?_⟩
    rw [← Nat.sub_add_cancel hdepth]
    refine ⟨1, hchild, Finset.notMem_empty 1, Or.inr ⟨x, ?_, rfl⟩⟩
    rw [hin]
    exact hinputs
  exact ⟨g, ⟨x.1, x.2, 1⟩, g₁, g₂, hparse, hloop, hturn,
    ⟨hhash, hdepfile, hnames, w₂, hload⟩, hlookup, hempty, hsort ▸ hlater⟩

/-- The scan of `b` before `c` fails at the second call. -/
theorem scan_callsReady_sibling : ∃ g,
    GraphParser.processJson bumpAllocator "falcon.json" siblingMakefile = .ok g ∧
      ¬ ∀ m, GraphDependencyScan.ScanTurn siblingHost.platform g siblingDisk
        (g.roots.sort (· ≤ ·)) m → GraphDependencyScan.CallsReady siblingHost.platform m := by
  obtain ⟨g, m, k, k', h⟩ := exists_siblingTurn
  refine ⟨g, h.parse, fun hready ↦ h.later ?_⟩
  have hvisited := (scan_callsReady_iff h.parse h.loop length_siblingHost (.refl g) (.refl _)
    siblingDisk).mp hready
  exact hvisited m.rule ["a", "c"] ⟨m, k, k', h.turn, rfl, h.load⟩ "c" (by decide) 3 h.lookup.1

/-- Not every call of every scan is ready. -/
theorem not_callsReady_sibling : ¬ ∀ (A : Allocator) (graphFilePath : String)
    (rules : List JsonVal) (g g₂ : Graph) (P : Platform Disk) (order : List NodeId) (w : Disk),
    GraphParser.processJson A graphFilePath rules = .ok g → checkGraphLoop g = .ok () →
      (∀ s, (P.sha256 s).length = 32) → GraphDependencyScan.Shuffled g g₂ →
        order.Perm (g.roots.sort (· ≤ ·)) → ∀ m, GraphDependencyScan.ScanTurn P g₂ w order m →
          GraphDependencyScan.CallsReady P m := by
  open GraphDependencyScan in
  intro hclaim
  obtain ⟨g, m, k, k', h⟩ := exists_siblingTurn
  have hready := hclaim bumpAllocator "falcon.json" siblingMakefile g g siblingHost.platform _
    siblingDisk h.parse h.loop length_siblingHost (.refl g) (.refl _) m h.turn
  have hdigest := Platform.digest_ne_empty length_siblingHost
  obtain ⟨-, O, hturn⟩ := h.turn.atTurn hdigest (scannable_of_processJson h.parse)
    ((Shuffled.refl g).acyclicBelow h.loop (.refl _))
  have hnames := (h.load.hashReady_iff hdigest hturn).mp (hready k' false (.second h.load)).1
  exact hnames "c" (by decide) 3 h.lookup.2 h.unhashed

end Falcon
