import Falcon.Daemon.ExactScan

/-!
# Stale targets that look up to date

The scan compares the inputs of one rule with its outputs at a time.  That
shows every newer source as long as the files on the way to it have been looked
up; a file that does not exist and a node that is not looked up have time zero
in the comparison.
-/

namespace Falcon

open Relation

namespace Links

/-- `q` is `r` itself, or makes something that is used for `r`. -/
def AtOrBelow (L : Links) (r q : RuleId) : Prop := q = r ∨ ∃ n, L.child n = some q ∧ L.Uses r n

variable {L : Links} {t : NodeId → Timestamp}

theorem AtOrBelow.of_input {r q p : RuleId} {n : NodeId} (hn : n ∈ L.inputs r)
    (hq : L.child n = some q) (h : L.AtOrBelow q p) : L.AtOrBelow r p := by
  rcases h with rfl | ⟨m, hm, k, hk, hpath⟩
  · exact Or.inr ⟨n, hq, uses_input hn⟩
  · exact Or.inr ⟨m, hm, n, hn, hpath.tail ⟨q, hq, hk⟩⟩

theorem StaleNode.of_path {n m : NodeId} (h : L.StaleNode t n)
    (hpath : ReflTransGen L.Feeds n m) : L.StaleNode t m := by
  induction hpath with
  | refl => exact h
  | tail _ hfeeds ih =>
      obtain ⟨p, hp, hin⟩ := hfeeds
      obtain ⟨q, hq, hs⟩ := ih
      exact ⟨p, hp, .input hin hq hs⟩

theorem Stale.of_uses {r q : RuleId} {n : NodeId} (hq : L.child n = some q) (h : L.Stale t q)
    (huses : L.Uses r n) : L.Stale t r := by
  obtain ⟨m, hm, hpath⟩ := huses
  obtain ⟨p, hp, hs⟩ := StaleNode.of_path ⟨q, hq, h⟩ hpath
  exact .input hm hp hs

/-- A rule is stale if a comparison at or below it says so. -/
theorem stale_iff_below {r : RuleId} :
    L.Stale t r ↔ ∃ q n, L.AtOrBelow r q ∧ L.Newer t q n := by
  constructor
  · intro h
    induction h with
    | newer h => exact ⟨_, _, Or.inl rfl, h⟩
    | input hn hq _ ih =>
        obtain ⟨p, m, hp, hnewer⟩ := ih
        exact ⟨p, m, hp.of_input hn hq, hnewer⟩
  · rintro ⟨q, n, rfl | ⟨m, hm, huses⟩, hnewer⟩
    · exact .newer hnewer
    · exact (Stale.newer hnewer).of_uses hm huses

/-! ## Files and timestamps -/

/-- The scan looks up the file of the node: it is not the output of a phony
rule, and no other node stands for its path in the node map. -/
def LookedUp (L : Links) (n : NodeId) : Prop :=
  n ∈ L.nodes.map Prod.snd ∧ ∀ q, L.child n = some q → L.command q ≠ ""

/-- Without a comparison that shows it, the timestamps do not decrease from a
source up to a rule whose files are looked up. -/
theorem time_le_of_path (hL : L.TwoWay) {r : RuleId} {n m : NodeId}
    (hclean : ∀ q x, L.AtOrBelow r q → ¬ L.Newer t q x)
    (hlooked : ∀ k, ReflTransGen L.Feeds n k → L.Uses r k → L.LookedUp k)
    (hpath : ReflTransGen L.Feeds n m) (huses : L.Uses r m) : t n ≤ t m := by
  induction hpath with
  | refl => exact le_refl _
  | @tail k m hnk hfeeds ih =>
      obtain ⟨q, hq, hin⟩ := hfeeds
      have hk : t n ≤ t k := ih (huses.of_feeds ⟨q, hq, hin⟩)
      have hcommand : L.command q ≠ "" :=
        (hlooked m (hnk.tail ⟨q, hq, hin⟩) huses).2 q hq
      have hout : m ∈ L.outputs q := ((hL.child_eq_some m q).mp hq).2
      apply hk.trans
      apply not_lt.mp
      intro hlt
      exact hclean q k (Or.inr ⟨m, hq, huses⟩) ⟨hcommand, hin, m, hout, hlt⟩

end Links

namespace GraphDependencyScan

variable {ω : Type} (P : Platform ω) (w : ω) (L : Links)

/-- Both files exist, and that of `n` has been written after that of `o`. -/
def WrittenAfter (n o : NodeId) : Prop :=
  ∃ x y, P.mtime w (L.path n) = some x ∧ P.mtime w (L.path o) = some y ∧ y < x

/-- The outputs of `r` exist, and no source that `r` depends on is newer than
the oldest of them. -/
structure Fresh (r : RuleId) : Prop where
  exist : ∀ o ∈ L.outputs r, P.mtime w (L.path o) ≠ none
  newest : ∀ n, L.child n = none → L.Uses r n → ∀ o ∈ L.outputs r, ¬ WrittenAfter P w L n o

/-- An output of `r` does not exist, or a source is newer than it of which the
scan cannot know: the output, the source or a file on the way is not looked up. -/
def Uncompared (r : RuleId) : Prop :=
  (∃ o ∈ L.outputs r, P.mtime w (L.path o) = none) ∨
    ∃ n o, L.child n = none ∧ L.Uses r n ∧ o ∈ L.outputs r ∧ WrittenAfter P w L n o ∧
      (¬ L.LookedUp o ∨ ∃ k, ReflTransGen L.Feeds n k ∧ L.Uses r k ∧ ¬ L.LookedUp k)

variable {P w}

theorem fileTime_of_lookedUp {g : Graph} {n : NodeId} (h : g.links.LookedUp n) :
    fileTime P w g n = (P.mtime w (g.node n).path).getD 0 := by
  have hphony : isPhonyOutput g n = false := by
    rw [isPhonyOutput]
    cases hc : (g.node n).childRule with
    | none => rfl
    | some q =>
        have hcommand : (g.rule q).command ≠ "" := h.2 q hc
        simpa [Rule.isPhony] using hcommand
  rw [fileTime, if_pos ⟨h.1, hphony⟩]

/-- A rule that no comparison shows to be stale is fresh, unless there is
something that the scan does not compare. -/
theorem fresh_of_compared {g : Graph} (hL : g.links.TwoWay) {r : RuleId}
    (hclean : ¬ g.links.Stale (fileTime P w g) r) (hcommand : g.links.command r ≠ "")
    (hcompared : ¬ Uncompared P w g.links r) : Fresh P w g.links r := by
  have hnever : ∀ q x, g.links.AtOrBelow r q → ¬ g.links.Newer (fileTime P w g) q x :=
    fun q x hq hx ↦ hclean (Links.stale_iff_below.mpr ⟨q, x, hq, hx⟩)
  rw [Uncompared, not_or] at hcompared
  obtain ⟨hexist, hsource⟩ := hcompared
  refine ⟨fun o ho hnone ↦ hexist ⟨o, ho, hnone⟩, fun n hn huses o ho hafter ↦ ?_⟩
  have hseen : g.links.LookedUp o ∧
      ∀ k, ReflTransGen g.links.Feeds n k → g.links.Uses r k → g.links.LookedUp k := by
    by_contra hnot
    refine hsource ⟨n, o, hn, huses, ho, hafter, ?_⟩
    by_cases hlooked : g.links.LookedUp o
    · have hk : ¬ ∀ k, ReflTransGen g.links.Feeds n k → g.links.Uses r k →
          g.links.LookedUp k := fun h ↦ hnot ⟨hlooked, h⟩
      push Not at hk
      exact Or.inr hk
    · exact Or.inl hlooked
  obtain ⟨hlooked, hway⟩ := hseen
  obtain ⟨x, y, hx, hy, hlt⟩ := hafter
  have hx' : fileTime P w g n = x := by
    have hpath : P.mtime w (g.node n).path = some x := hx
    rw [fileTime_of_lookedUp (hway n .refl huses), hpath, Option.getD_some]
  have hy' : fileTime P w g o = y := by
    have hpath : P.mtime w (g.node o).path = some y := hy
    rw [fileTime_of_lookedUp hlooked, hpath, Option.getD_some]
  obtain ⟨m, hm, hpath⟩ := huses
  have hle := Links.time_le_of_path hL hnever hway hpath (Links.uses_input hm)
  rw [hx'] at hle
  apply hnever r m (Or.inl rfl)
  exact ⟨hcommand, hm, o, ho, hy' ▸ hlt.trans_le hle⟩

theorem not_fresh_of_uncompared {r : RuleId} (h : Uncompared P w L r) : ¬ Fresh P w L r := by
  intro hfresh
  rcases h with ⟨o, ho, hnone⟩ | ⟨n, o, hn, huses, ho, hafter, -⟩
  · exact hfresh.exist o ho hnone
  · exact hfresh.newest n hn huses o ho hafter

variable (P w) in
/-- The rules below the roots that have a command and that the scan leaves up to
date are fresh. -/
def NoStaleClean (g' : Graph) : Prop :=
  ∀ r, g'.links.ReachedRule r → (g'.rule r).isPhony = false → (g'.rule r).state = .upToDate →
    Fresh P w g'.links r

end GraphDependencyScan

/-- The scan leaves no stale target clean exactly if every rule with something
that is not compared is shown to be stale by a comparison at or below it. -/
theorem scan_noStaleClean_iff {A : Allocator} {graphFilePath : String} {rules : List JsonVal}
    {g : Graph} {ω : Type} {P : Platform ω}
    (hparse : GraphParser.processJson A graphFilePath rules = .ok g)
    (hloop : checkGraphLoop g = .ok ()) (hdep : ∀ r ∈ g.rules, (g.rule r).hasDepfile = false)
    (hsha : ∀ s, (P.sha256 s).length = 32) (w : ω) :
    ∃ g', GraphDependencyScan.scan P g w = .ok (g', w) ∧
      (GraphDependencyScan.NoStaleClean P w g' ↔
        ∀ r, g.links.ReachedRule r → (g.rule r).isPhony = false →
          GraphDependencyScan.Uncompared P w g.links r →
            ∃ q n, g.links.AtOrBelow r q ∧
              g.links.Newer (GraphDependencyScan.fileTime P w g) q n) := by
  open GraphDependencyScan in
  have hL := (GraphParser.processJson_accepted hparse).twoWay
  obtain ⟨s, hscan, hs⟩ := scan_visited hparse hloop hdep hsha w
  have hlinks := hs.scanned.links
  refine ⟨s.graph, hscan, ?_⟩
  have hphony : ∀ r, (s.graph.rule r).isPhony = (g.rule r).isPhony := Graph.isPhony_of_links hlinks
  simp only [NoStaleClean, hlinks, hphony, ← Links.stale_iff_below]
  constructor
  · intro h r hr hcommand huncompared
    by_contra hstale
    exact not_fresh_of_uncompared _ huncompared (h r hr hcommand ((hs.upToDate_iff hr).mpr hstale))
  · intro h r hr hcommand hup
    have hstale := (hs.upToDate_iff hr).mp hup
    apply fresh_of_compared hL hstale
    · change (g.rule r).command ≠ ""
      simpa [Rule.isPhony] using hcommand
    · exact fun huncompared ↦ hstale (h r hr hcommand huncompared)

/-- Two files that are older than the one they are made from. -/
theorem scan_noStaleClean_touch :
    ∃ g g', GraphParser.processJson bumpAllocator "falcon.json" touchMakefile = .ok g ∧
      GraphDependencyScan.scan touchHost.platform g (touchDisk 1) = .ok (g', touchDisk 1) ∧
      GraphDependencyScan.NoStaleClean touchHost.platform (touchDisk 1) g' := by
  obtain ⟨g, hg, htimes⟩ := exists_touchGraph
  have haccepted := GraphParser.processJson_accepted hg.parse
  obtain ⟨g', hscan, hiff⟩ := scan_noStaleClean_iff hg.parse
    (checkGraphLoop_of_acyclic haccepted hg.startable.acyclic) hg.startable.noDepfile
    length_touchHost (touchDisk 1)
  refine ⟨g, g', hg.parse, hscan, hiff.mpr fun r hr _ _ ↦ ?_⟩
  exact ⟨r, 1, Or.inl rfl, hg.newer (htimes 1 (by decide)) (hr.mem_rules haccepted.twoWay)⟩

/-! ## A rule without inputs -/

def aloneMakefile : List JsonVal :=
  [.object [("inputs", .array []), ("outputs", .array [.string "b"]), ("cmd", .string "touch b")]]

def aloneText : String :=
  "\x7b\"rules\":[\x7b\"inputs\":[],\"outputs\":[\"b\"],\"cmd\":\"touch b\"\x7d]\x7d"

/-- The SHA-256 digests that a scan of the makefile needs. -/
def aloneDigests : List (String × String) :=
  [("touch b",
    "5ed6463589b285eaa6080f1bd49423ee271a84b1f6ec3144abe17ddc8160f003"),
   ("b5ed6463589b285eaa6080f1bd49423ee271a84b1f6ec3144abe17ddc8160f003",
    "b4b690d981084611f4afa1c39f86bdd7e4b66a6f10cc44b603745325da1d3c42"),
   ("falcon.json" ++ aloneText,
    "7f59de147420d5e5801f24390d3f3ba1c8b97d95efb7f0d6c7e9a9c540b159cd")]

def aloneHost : Host :=
  { touchHost with
    sha256 := fun s ↦ fromHex
      ((aloneDigests.lookup s).getD (String.ofList (List.replicate 64 '0'))).toList }

theorem length_aloneHost (s : String) : (aloneHost.platform.sha256 s).length = 32 := by
  have hall : ∀ e ∈ aloneDigests, (fromHex e.2.toList).length = 32 := by decide +kernel
  exact length_fromHex_lookup hall s

/-- Nothing has been built yet. -/
def aloneDisk : Disk where
  files path := if path = "falcon.json" then some aloneText else none
  mtimes _ := 1
  entries _ := none
  clock := 2

theorem exists_aloneGraph : ∃ g,
    GraphParser.processJson bumpAllocator "falcon.json" aloneMakefile = .ok g ∧ g.rules = [1] ∧
      g.rule 1 = { Rule.create [] [1] with command := "touch b" } ∧ (g.node 1).path = "b" ∧
      (g.node 1).childRule = some 1 ∧ 1 ∈ g.roots := by
  have hfacts : (GraphParser.processJson bumpAllocator "falcon.json" aloneMakefile).toOption.map
      (fun g ↦ (g.rules, g.rule 1, (g.node 1).path, (g.node 1).childRule,
        decide (1 ∈ g.roots))) =
      some ([1], { Rule.create [] [1] with command := "touch b" }, "b", some 1, true) := by
    decide +kernel
  cases hparse : GraphParser.processJson bumpAllocator "falcon.json" aloneMakefile with
  | error f =>
      rw [hparse] at hfacts
      cases hfacts
  | ok g =>
      rw [hparse] at hfacts
      simp only [Except.toOption, Option.map_some, Option.some.injEq, Prod.mk.injEq,
        decide_eq_true_eq] at hfacts
      exact ⟨g, rfl, hfacts⟩

/-- The file `b` does not exist, and its rule is left up to date. -/
theorem not_noStaleClean_alone : ¬ ∀ (A : Allocator) (graphFilePath : String)
    (rules : List JsonVal) (g : Graph) (P : Platform Disk) (w : Disk) (g' : Graph),
    GraphParser.processJson A graphFilePath rules = .ok g → checkGraphLoop g = .ok () →
      (∀ r ∈ g.rules, (g.rule r).hasDepfile = false) → (∀ s, (P.sha256 s).length = 32) →
        GraphDependencyScan.scan P g w = .ok (g', w) →
          GraphDependencyScan.NoStaleClean P w g' := by
  open GraphDependencyScan in
  intro hclaim
  obtain ⟨g, hparse, hrules, hrule, hpath, hchild, hroot⟩ := exists_aloneGraph
  have hinputs : ∀ r ∈ g.rules, (g.rule r).inputs = [] := by
    intro r hr
    rw [hrules, List.mem_singleton] at hr
    rw [hr, hrule]
    rfl
  have hloop : checkGraphLoop g = .ok () := by
    apply checkGraphLoop_of_lt hparse
    intro r hr a ha o ho
    rw [hinputs r hr] at ha
    exact absurd ha List.not_mem_nil
  have hdep : ∀ r ∈ g.rules, (g.rule r).hasDepfile = false := by
    intro r hr
    rw [hrules, List.mem_singleton] at hr
    rw [hr, hrule]
    rfl
  obtain ⟨s, hscan, hs⟩ := scan_visited hparse hloop hdep length_aloneHost aloneDisk
  have hlinks := hs.scanned.links
  have hreached : g.links.ReachedRule 1 := ⟨1, hchild, 1, hroot, .refl⟩
  have hclean : ¬ g.links.Stale (fileTime aloneHost.platform aloneDisk g) 1 := by
    have hnil : g.links.inputs 1 = [] := hinputs 1 (by simp [hrules])
    rw [Links.stale_iff]
    rintro (⟨n, hn, -⟩ | ⟨n, -, hn, -⟩)
    · exact absurd (hnil ▸ hn) List.not_mem_nil
    · exact absurd (hnil ▸ hn) List.not_mem_nil
  have hup : (s.graph.rule 1).state = .upToDate := (hs.upToDate_iff hreached).mpr hclean
  have hphony : (s.graph.rule 1).isPhony = false := by
    rw [Graph.isPhony_of_links hlinks, hrule]
    decide
  have hfresh := hclaim bumpAllocator "falcon.json" aloneMakefile g aloneHost.platform aloneDisk
    s.graph hparse hloop hdep length_aloneHost hscan 1 (hlinks ▸ hreached) hphony hup
  rw [hlinks] at hfresh
  have hout : 1 ∈ g.links.outputs 1 := by
    change 1 ∈ (g.rule 1).outputs
    rw [hrule]
    exact List.mem_singleton_self 1
  refine hfresh.exist 1 hout ?_
  change aloneHost.platform.mtime aloneDisk (g.node 1).path = none
  rw [hpath]
  rfl

end Falcon
