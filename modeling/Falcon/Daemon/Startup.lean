import Falcon.Cache.Manager
import Falcon.Graph.Checker
import Falcon.Graph.DepfileParser
import Falcon.Graph.Stale
import Falcon.Parser.Cycle
import Falcon.Parser.Loaded

/-!
# Starting the daemon

The makefile is parsed, the graph is scanned, and the consistency checker
looks at the result.  The scan writes the state of a source file for one rule
at a time, and the checker compares it with all the rules that use the file.
-/

namespace Falcon

/-- A source file that is newer than an output of one rule is used by stale
rules only. -/
def Links.SourcesAgree (L : Links) (t : NodeId → Timestamp) : Prop :=
  ∀ n, L.child n = none → ∀ q ∈ L.rules, L.Newer t q n → ∀ r ∈ L.rules, n ∈ L.inputs r →
    L.Stale t r

namespace GraphDependencyScan

variable {ω : Type} {P : Platform ω} {L : Links} {t : NodeId → Timestamp} {s : Scan ω}

/-- The ready counter of a rule whose scan is over. -/
theorem Scanned.ready_of_done (h : Scanned L t ∅ s) {r : RuleId}
    (hdone : RuleDone L t s.graph r) : (s.graph.rule r).numInputsReady = s.graph.nbReady r := by
  classical
  have hinputs : (s.graph.rule r).inputs = L.inputs r := by
    rw [← h.links]
    rfl
  have hnb : s.graph.nbReady r = (L.inputs r).countP (fun n ↦ !decide (L.StaleNode t n)) := by
    rw [Graph.nbReady, hinputs]
    apply List.countP_congr
    intro n hn
    have hchild : (s.graph.node n).childRule = L.child n := by
      rw [← h.links]
      rfl
    obtain ⟨-, hdirty, -⟩ := h.hashed n (hdone.inputs n hn)
    simp only [Graph.inputReady, Node.isSource, hchild, Bool.or_eq_true, Option.isNone_iff_eq_none,
      Bool.not_eq_true', decide_eq_false_iff_not]
    constructor
    · rintro (hsource | hclean) hstale
      · obtain ⟨q, hq, -⟩ := hstale
        rw [hsource] at hq
        cases hq
      · rw [hdirty hstale] at hclean
        cases hclean
    · intro hstale
      by_cases hsource : L.child n = none
      · exact Or.inl hsource
      · right
        rw [← Bool.not_eq_true]
        exact fun hd ↦ hstale (h.dirty n hd hsource)
  have hsplit := List.length_eq_countP_add_countP (fun n ↦ decide (L.StaleNode t n))
    (l := L.inputs r)
  have hready := hdone.ready
  rw [hnb]
  simp only [Bool.not_eq_true] at hsplit
  have hneg : (L.inputs r).countP (fun n ↦ decide (decide (L.StaleNode t n) = false)) =
      (L.inputs r).countP (fun n ↦ !decide (L.StaleNode t n)) := by
    apply List.countP_congr
    intro n _
    simp
  omega

section Scanned

variable (h : Scanned L t ∅ s) (hseen : ∀ r ∈ L.rules, r ∈ s.seen)
include h hseen

theorem Scanned.ruleDone {r : RuleId} (hr : r ∈ L.rules) : RuleDone L t s.graph r :=
  h.done r (hseen r hr) (Set.notMem_empty r)

theorem Scanned.ready {r : RuleId} (hr : r ∈ L.rules) :
    (s.graph.rule r).numInputsReady = s.graph.nbReady r :=
  h.ready_of_done (h.ruleDone hseen hr)

/-- The only thing that the scan can get wrong is a source file it shares. -/
theorem Scanned.ruleOk_iff (hL : L.TwoWay) {r : RuleId} (hr : r ∈ L.rules)
    (hhashed : ∀ o ∈ L.outputs r, (s.graph.node o).hash ≠ "") :
    GraphConsistencyChecker.RuleOk s.graph r ↔
      ∀ n ∈ L.inputs r, L.child n = none → (∃ q ∈ L.rules, L.Newer t q n) → L.Stale t r := by
  have hdone := h.ruleDone hseen hr
  have hinputs : (s.graph.rule r).inputs = L.inputs r := by
    rw [← h.links]
    rfl
  have houtputs : (s.graph.rule r).outputs = L.outputs r := by
    rw [← h.links]
    rfl
  have hsource : ∀ n, L.child n = none → ((s.graph.node n).isDirty = true ↔
      ∃ q ∈ L.rules, L.Newer t q n) := by
    intro n hn
    rw [h.source n hn]
    constructor
    · rintro ⟨q, hq, -, hnewer⟩
      exact ⟨q, h.rules q hq, hnewer⟩
    · rintro ⟨q, hq, hnewer⟩
      exact ⟨q, hseen q hq, Set.notMem_empty q, hnewer⟩
  constructor
  · intro hok n hn hchild hnewer
    rw [← hdone.dirty]
    exact hok.inputs n (hinputs ▸ hn) ((hsource n hchild).mpr hnewer)
  · intro hagree
    refine ⟨hdone.hash, hdone.hashDepfile, ?_, ?_, h.ready hseen hr⟩
    · intro hdirty o ho
      rw [houtputs] at ho
      have hchild : L.child o = some r := (hL.child_eq_some o r).mpr ⟨hr, ho⟩
      obtain ⟨-, hstale, -⟩ := h.hashed o (hhashed o ho)
      exact Or.inr (hstale ⟨r, hchild, hdone.dirty.mp hdirty⟩)
    · intro n hn hdirty
      rw [hdone.dirty]
      rw [hinputs] at hn
      by_cases hchild : L.child n = none
      · exact hagree n hn hchild ((hsource n hchild).mp hdirty)
      · obtain ⟨q, hq, hstale⟩ := h.dirty n hdirty hchild
        exact .input hn hq hstale

end Scanned

/-- The verdict of the checker on the graph that the scan leaves. -/
theorem check_scan (hdigest : ∀ data, P.digest data ≠ "") {g : Graph} (hg : g.Linked)
    (hpristine : Pristine g) (hkeys : (g.nodes.map Prod.fst).Nodup) (hrules : g.rules.Nodup)
    (hdep : ∀ r ∈ g.rules, (g.rule r).hasDepfile = false) (w : ω) :
    ∃ g', scan P g w = .ok (g', w) ∧ ∃ b, GraphConsistencyChecker.check g' = .ok b ∧
      (b = true ↔ g.links.SourcesAgree (fileTime P w g)) := by
  obtain ⟨s, hrun, hs, hhashed, hseen⟩ := scan_spec hdigest hg hpristine hdep w
  have hl := hs.links
  have hg' : s.graph.Linked := hg.of_links hl
  have hnodes : s.graph.nodes = g.nodes := congrArg Links.nodes hl
  obtain ⟨b, hcheck, hb⟩ := GraphConsistencyChecker.check_spec hg' (hnodes ▸ hkeys)
    (Graph.rules_of_links hl ▸ hrules)
  refine ⟨s.graph, hrun, b, hcheck, hb.trans ?_⟩
  rw [Graph.allocated_of_links hl, Graph.rules_of_links hl]
  have hnodeOk : ∀ n ∈ g.allocated, GraphConsistencyChecker.NodeOk s.graph n := by
    intro n hn
    obtain ⟨hdepfile, -, -⟩ := hs.hashed n (hhashed n hn)
    refine ⟨hhashed n hn, hdepfile, fun r hr hdirty ↦ ?_⟩
    rw [Graph.childRule_of_links hl] at hr
    have hchild : g.links.child n = some r := hr
    obtain ⟨q, hq, hstale⟩ := hs.dirty n hdirty (by simp [hchild])
    rw [hchild] at hq
    obtain rfl : r = q := Option.some.inj hq
    have hmem : r ∈ g.rules := ((hg.twoWay.child_eq_some n r).mp hr).1
    exact (hs.ruleDone hseen hmem).dirty.mpr hstale
  have hruleOk : ∀ r ∈ g.rules, (GraphConsistencyChecker.RuleOk s.graph r ↔
      ∀ n ∈ g.links.inputs r, g.links.child n = none →
        (∃ q ∈ g.links.rules, g.links.Newer (fileTime P w g) q n) →
          g.links.Stale (fileTime P w g) r) :=
    fun r hr ↦ hs.ruleOk_iff hseen hg.twoWay hr fun o ho ↦
      hhashed o (hg.allocated r hr o (Or.inr ho))
  constructor
  · rintro ⟨-, hok⟩ n hn q hq hnewer r hr hin
    exact (hruleOk r hr).mp (hok r hr) n hin hn ⟨q, hq, hnewer⟩
  · intro hagree
    refine ⟨hnodeOk, fun r hr ↦ (hruleOk r hr).mpr fun n hin hn hnewer ↦ ?_⟩
    obtain ⟨q, hq, hnewer⟩ := hnewer
    exact hagree n hn q hq hnewer r hr hin

end GraphDependencyScan

/-- What is asked of a makefile: the graph can be walked over and built. -/
structure Startable (graphFilePath : String) (g : Graph) : Prop where
  acyclic : g.links.Acyclic
  noDepfile : ∀ r ∈ g.rules, (g.rule r).hasDepfile = false
  output : ∀ r ∈ g.rules, (g.rule r).outputs ≠ []
  phony_output : ∀ r ∈ g.rules, (g.rule r).isPhony = true → (g.rule r).outputs.length = 1
  makefile : ∀ r ∈ g.rules, ∀ n, n ∈ (g.rule r).inputs ∨ n ∈ (g.rule r).outputs →
    (g.node n).path ≠ graphFilePath

namespace Startable

variable {A : Allocator} {graphFilePath : String} {rules : List JsonVal} {g : Graph} {ω : Type}
  {P : Platform ω}

theorem linked (h : Startable graphFilePath g) (hg : GraphParser.Parsed g) : g.Linked where
  twoWay := hg.twoWay
  acyclic := h.acyclic
  allocated := hg.allocated
  lookup := hg.lookup
  nodes := hg.nodes
  roots := hg.roots
  sources := hg.sources
  output := h.output
  phony_output := h.phony_output

/-- The scan and the check after the makefile has been parsed. -/
theorem check_scan (h : Startable graphFilePath g)
    (hparse : GraphParser.processJson A graphFilePath rules = .ok g)
    (hsha : ∀ s, (P.sha256 s).length = 32) (w : ω) :
    ∃ g', GraphDependencyScan.scan P g w = .ok (g', w) ∧
      ∃ b, GraphConsistencyChecker.check g' = .ok b ∧
        (b = true ↔ g.links.SourcesAgree (GraphDependencyScan.fileTime P w g)) := by
  obtain ⟨hparsed, hpristine, hkeys⟩ := GraphParser.processJson_parsed hparse h.makefile
  exact GraphDependencyScan.check_scan (Platform.digest_ne_empty hsha) (h.linked hparsed)
    hpristine hkeys hparsed.rules_nodup h.noDepfile w

end Startable

/-- The daemon starts with a consistent graph exactly if every source file that
is newer than an output of some rule is used by stale rules only. -/
theorem startup_consistent_iff {A : Allocator} {graphFilePath : String} {rules : List JsonVal}
    {g : Graph} {ω : Type} {P : Platform ω}
    (hparse : GraphParser.processJson A graphFilePath rules = .ok g)
    (h : Startable graphFilePath g) (hsha : ∀ s, (P.sha256 s).length = 32) (w : ω) :
    ∃ g', GraphDependencyScan.scan P g w = .ok (g', w) ∧
      ∃ b, GraphConsistencyChecker.check g' = .ok b ∧
        (b = true ↔ g.links.SourcesAgree (GraphDependencyScan.fileTime P w g)) :=
  h.check_scan hparse hsha w

/-! ## Two files that are made from one -/

/-- The makefile with the rules `a -> b` and `a -> c`. -/
def touchMakefile : List JsonVal := [touchRule "a" "b", touchRule "a" "c"]

/-- The SHA-256 digests that a scan of the makefile needs. -/
def touchDigests : List (String × String) :=
  [("ax",
    "5e85370e555e95d27df68f93c0ccaa4edfc1da5e281b47a2ebba2649a13ea5f4"),
   ("5e85370e555e95d27df68f93c0ccaa4edfc1da5e281b47a2ebba2649a13ea5f4touch b",
    "bb315cf9080d3847d7b49eb1bdcebf2a5aa6378659599c1d882b41afbaa0a206"),
   ("bbb315cf9080d3847d7b49eb1bdcebf2a5aa6378659599c1d882b41afbaa0a206",
    "2d82b06bfbd7a1f2dfd9495c5a2f63bee4efc7216e4bd0727f5c373aa96e1d77"),
   ("5e85370e555e95d27df68f93c0ccaa4edfc1da5e281b47a2ebba2649a13ea5f4touch c",
    "c5b38b8c4de4b36de57ef77bde78916810673442cad2f1f11a7b294e704503e8"),
   ("cc5b38b8c4de4b36de57ef77bde78916810673442cad2f1f11a7b294e704503e8",
    "8502d7f568b7a86ed735b83307892a94d64a9e96199a7aff9475aef52b92346c"),
   ("falcon.json\x7b\"rules\":[\x7b\"inputs\":[\"a\"],\"outputs\":[\"b\"],\"cmd\":\"touch b\"\x7d,\x7b\"inputs\":[\"a\"],\"outputs\":[\"c\"],\"cmd\":\"touch c\"\x7d]\x7d",
    "5a7b8997b571e70d8ee86dc645a696ed531ff4d24a11c306cc4fb709f3542705")]

def touchHost : Host where
  sha256 s := fromHex ((touchDigests.lookup s).getD (String.ofList (List.replicate 64 '0'))).toList
  parseDepfile := DepfileParser.parseDepfile
  newNode used := used.sup id + 1
  newNode_fresh := fresh_above
  uninitialised _ := false

/-- `a` has been written after `b`; `c` has the given time. -/
def touchDisk (time : Timestamp) : Disk where
  files
    | "a" => some "x"
    | "b" => some ""
    | "c" => some ""
    | "falcon.json" => some "\x7b\"rules\":[\x7b\"inputs\":[\"a\"],\"outputs\":[\"b\"],\"cmd\":\"touch b\"\x7d,\x7b\"inputs\":[\"a\"],\"outputs\":[\"c\"],\"cmd\":\"touch c\"\x7d]\x7d"
    | _ => none
  mtimes
    | "a" => 2
    | "b" => 1
    | "c" => time
    | _ => 0
  entries _ := none
  clock := 3

/-- The parts of the parsed graph that matter here. -/
structure TouchGraph (g : Graph) : Prop where
  parse : GraphParser.processJson bumpAllocator "falcon.json" touchMakefile = .ok g
  rules : g.rules = [1, 2]
  rule₁ : (g.rule 1).inputs = [1] ∧ (g.rule 1).outputs = [2] ∧ (g.rule 1).depfile = "" ∧
    (g.rule 1).command = "touch b"
  rule₂ : (g.rule 2).inputs = [1] ∧ (g.rule 2).outputs = [3] ∧ (g.rule 2).depfile = "" ∧
    (g.rule 2).command = "touch c"
  path : (g.node 1).path = "a" ∧ (g.node 2).path = "b" ∧ (g.node 3).path = "c"

theorem exists_touchGraph : ∃ g, TouchGraph g ∧ ∀ time ∈ ([1, 3] : List Timestamp),
    GraphDependencyScan.fileTime touchHost.platform (touchDisk time) g 1 = 2 ∧
    GraphDependencyScan.fileTime touchHost.platform (touchDisk time) g 2 = 1 ∧
    GraphDependencyScan.fileTime touchHost.platform (touchDisk time) g 3 = time := by
  have hfacts : (GraphParser.processJson bumpAllocator "falcon.json" touchMakefile).toOption.map
      (fun g ↦ (g.rules, g.rule 1, g.rule 2, (g.node 1).path, (g.node 2).path, (g.node 3).path)) =
      some ([1, 2], { Rule.create [1] [2] with command := "touch b", numInputsReady := 1 },
        { Rule.create [1] [3] with command := "touch c", numInputsReady := 1 }, "a", "b", "c") := by
    decide +kernel
  have htimes : (GraphParser.processJson bumpAllocator "falcon.json" touchMakefile).toOption.all
      (fun g ↦ decide (∀ time ∈ ([1, 3] : List Timestamp),
        GraphDependencyScan.fileTime touchHost.platform (touchDisk time) g 1 = 2 ∧
        GraphDependencyScan.fileTime touchHost.platform (touchDisk time) g 2 = 1 ∧
        GraphDependencyScan.fileTime touchHost.platform (touchDisk time) g 3 = time)) = true := by
    decide +kernel
  cases hparse : GraphParser.processJson bumpAllocator "falcon.json" touchMakefile with
  | error f =>
      rw [hparse] at hfacts
      cases hfacts
  | ok g =>
      rw [hparse] at hfacts htimes
      simp only [Except.toOption, Option.map_some, Option.some.injEq, Prod.mk.injEq] at hfacts
      obtain ⟨hrules, h₁, h₂, hpath⟩ := hfacts
      refine ⟨g, ⟨hparse, hrules, ?_, ?_, hpath⟩, ?_⟩
      · rw [h₁]
        exact ⟨rfl, rfl, rfl, rfl⟩
      · rw [h₂]
        exact ⟨rfl, rfl, rfl, rfl⟩
      · simpa [Except.toOption] using htimes

namespace TouchGraph

variable {g : Graph} (h : TouchGraph g)
include h

theorem cases_rule {r : RuleId} (hr : r ∈ g.rules) : r = 1 ∨ r = 2 := by
  simpa [h.rules] using hr

theorem inputs {r : RuleId} (hr : r ∈ g.rules) : (g.rule r).inputs = [1] := by
  rcases h.cases_rule hr with rfl | rfl
  · exact h.rule₁.1
  · exact h.rule₂.1

theorem startable : Startable "falcon.json" g where
  acyclic := by
    have hL := (GraphParser.processJson_accepted h.parse).twoWay
    apply Lib.acyclic_of_rank id
    rintro a n ⟨r, hn, ha⟩
    obtain ⟨hr, hout⟩ := (hL.child_eq_some n r).mp hn
    have ha' : a ∈ (g.rule r).inputs := ha
    have hout' : n ∈ (g.rule r).outputs := hout
    rw [h.inputs hr, List.mem_singleton] at ha'
    rcases h.cases_rule hr with rfl | rfl
    · rw [h.rule₁.2.1, List.mem_singleton] at hout'
      simp [ha', hout']
    · rw [h.rule₂.2.1, List.mem_singleton] at hout'
      simp [ha', hout']
  noDepfile r hr := by
    rcases h.cases_rule hr with rfl | rfl
    · simp [Rule.hasDepfile, h.rule₁.2.2.1]
    · simp [Rule.hasDepfile, h.rule₂.2.2.1]
  output r hr := by
    rcases h.cases_rule hr with rfl | rfl
    · simp [h.rule₁.2.1]
    · simp [h.rule₂.2.1]
  phony_output r hr := by
    rcases h.cases_rule hr with rfl | rfl
    · simp [Rule.isPhony, h.rule₁.2.2.2]
    · simp [Rule.isPhony, h.rule₂.2.2.2]
  makefile r hr n hn := by
    rw [h.inputs hr] at hn
    rcases h.cases_rule hr with rfl | rfl
    · rw [h.rule₁.2.1] at hn
      rcases hn with hn | hn
      · rw [List.mem_singleton.mp hn, h.path.1]
        decide
      · rw [List.mem_singleton.mp hn, h.path.2.1]
        decide
    · rw [h.rule₂.2.1] at hn
      rcases hn with hn | hn
      · rw [List.mem_singleton.mp hn, h.path.1]
        decide
      · rw [List.mem_singleton.mp hn, h.path.2.2]
        decide

end TouchGraph

theorem length_touchHost (s : String) : (touchHost.platform.sha256 s).length = 32 := by
  have hall : ∀ e ∈ touchDigests, (fromHex e.2.toList).length = 32 := by decide +kernel
  exact length_fromHex_lookup hall s

/-- Both outputs are older than the source file. -/
theorem TouchGraph.newer {g : Graph} (hg : TouchGraph g)
    (htimes : GraphDependencyScan.fileTime touchHost.platform (touchDisk 1) g 1 = 2 ∧
      GraphDependencyScan.fileTime touchHost.platform (touchDisk 1) g 2 = 1 ∧
      GraphDependencyScan.fileTime touchHost.platform (touchDisk 1) g 3 = 1) {r : RuleId}
    (hr : r ∈ g.rules) :
    g.links.Newer (GraphDependencyScan.fileTime touchHost.platform (touchDisk 1) g) r 1 := by
  obtain ⟨h₁, h₂, h₃⟩ := htimes
  have hin : 1 ∈ g.links.inputs r := by
    change 1 ∈ (g.rule r).inputs
    rw [hg.inputs hr]
    exact List.mem_singleton_self 1
  rcases hg.cases_rule hr with rfl | rfl
  · refine ⟨?_, hin, 2, ?_, ?_⟩
    · change (g.rule 1).command ≠ ""
      simp [hg.rule₁.2.2.2]
    · change 2 ∈ (g.rule 1).outputs
      simp [hg.rule₁.2.1]
    · rw [h₁, h₂]
      decide
  · refine ⟨?_, hin, 3, ?_, ?_⟩
    · change (g.rule 2).command ≠ ""
      simp [hg.rule₂.2.2.2]
    · change 3 ∈ (g.rule 2).outputs
      simp [hg.rule₂.2.1]
    · rw [h₁, h₃]
      decide

theorem startup_consistent_touch :
    ∃ g g', GraphParser.processJson bumpAllocator "falcon.json" touchMakefile = .ok g ∧
      GraphDependencyScan.scan touchHost.platform g (touchDisk 1) = .ok (g', touchDisk 1) ∧
      GraphConsistencyChecker.check g' = .ok true := by
  obtain ⟨g, hg, htimes⟩ := exists_touchGraph
  obtain ⟨g', hscan, b, hcheck, hb⟩ :=
    startup_consistent_iff hg.parse hg.startable length_touchHost (touchDisk 1)
  refine ⟨g, g', hg.parse, hscan, ?_⟩
  rw [hcheck, hb.mpr]
  intro n _ q _ _ r hr _
  exact .newer (hg.newer (htimes 1 (by decide)) hr)

/-- `a` is newer than `b` and older than `c`: the file is marked out of date for
the first rule, and the second rule stays up to date. -/
theorem not_startup_consistent_touch :
    ∃ g g', GraphParser.processJson bumpAllocator "falcon.json" touchMakefile = .ok g ∧
      Startable "falcon.json" g ∧ (∀ s, (touchHost.platform.sha256 s).length = 32) ∧
      GraphDependencyScan.scan touchHost.platform g (touchDisk 3) = .ok (g', touchDisk 3) ∧
      GraphConsistencyChecker.check g' = .ok false := by
  obtain ⟨g, hg, htimes⟩ := exists_touchGraph
  obtain ⟨g', hscan, b, hcheck, hb⟩ :=
    hg.startable.check_scan hg.parse length_touchHost (touchDisk 3)
  refine ⟨g, g', hg.parse, hg.startable, length_touchHost, hscan, ?_⟩
  rw [hcheck]
  have hL := (GraphParser.processJson_accepted hg.parse).twoWay
  obtain ⟨h₁, h₂, h₃⟩ := htimes 3 (by decide)
  have hsource : g.links.child 1 = none := by
    cases hc : g.links.child 1 with
    | none => rfl
    | some r =>
        obtain ⟨hr, hout⟩ := (hL.child_eq_some 1 r).mp hc
        have hout' : 1 ∈ (g.rule r).outputs := hout
        rcases hg.cases_rule hr with rfl | rfl
        · simp [hg.rule₁.2.1] at hout'
        · simp [hg.rule₂.2.1] at hout'
  have hnewer : g.links.Newer
      (GraphDependencyScan.fileTime touchHost.platform (touchDisk 3) g) 1 1 := by
    refine ⟨?_, ?_, 2, ?_, ?_⟩
    · change (g.rule 1).command ≠ ""
      simp [hg.rule₁.2.2.2]
    · change 1 ∈ (g.rule 1).inputs
      simp [hg.rule₁.1]
    · change 2 ∈ (g.rule 1).outputs
      simp [hg.rule₁.2.1]
    · rw [h₁, h₂]
      decide
  have hfresh : ¬ g.links.Stale
      (GraphDependencyScan.fileTime touchHost.platform (touchDisk 3) g) 2 := by
    have hinputs : g.links.inputs 2 = [1] := hg.rule₂.1
    have houtputs : g.links.outputs 2 = [3] := hg.rule₂.2.1
    rw [Links.stale_iff]
    rintro (⟨n, hn, q, hq, -⟩ | ⟨n, -, hn, o, ho, hlt⟩)
    · rw [hinputs, List.mem_singleton] at hn
      rw [hn, hsource] at hq
      cases hq
    · rw [hinputs, List.mem_singleton] at hn
      rw [houtputs, List.mem_singleton] at ho
      rw [hn, ho, h₁, h₃] at hlt
      exact absurd hlt (by decide)
  have hrules : ∀ r, r = 1 ∨ r = 2 → r ∈ g.links.rules := by
    intro r hr
    change r ∈ g.rules
    rw [hg.rules]
    simpa using hr
  cases b with
  | false => rfl
  | true =>
      have hagree := hb.mp rfl 1 hsource 1 (hrules 1 (Or.inl rfl)) hnewer 2
        (hrules 2 (Or.inr rfl)) (by change 1 ∈ (g.rule 2).inputs; simp [hg.rule₂.1])
      exact absurd hagree hfresh

end Falcon
