import Falcon.Daemon.ScanCalls

/-!
# The loads of the scan

A depfile is loaded after the files have been looked up and after the loop over
the inputs of its rule.  What the rule comes to in the end can be told from the
state before the load, and from the times of the files, the links of the parsed
graph and the depfiles that are loaded.
-/

namespace Falcon

open Relation

namespace GraphDependencyScan

open Graph Depfile

variable {ω : Type} {P : Platform ω}

/-- The timestamp of the node of a path; a new node has time zero. -/
def nameTime (g : Graph) (dep : String) : Timestamp :=
  match g.nodes.lookup dep with
  | some n => (g.node n).timestamp
  | none => 0

/-- The path is no input of the rule before the load. -/
def NamesNew (g : Graph) (r : RuleId) (dep : String) : Prop :=
  ∀ n, g.nodes.lookup dep = some n → n ∉ (g.rule r).inputs

/-- An explicit input is out of date, or the timestamp of an input or of a path
in the depfile exceeds that of an output of the rule, which is not phony. -/
def Caught (g : Graph) (r : RuleId) (ins : List String) : Prop :=
  (∃ n ∈ (g.rule r).inputs, g.inputReady n = false) ∨
    (g.rule r).isPhony = false ∧ ∃ o ∈ (g.rule r).outputs,
      (∃ n ∈ (g.rule r).inputs, (g.node o).timestamp < (g.node n).timestamp) ∨
        ∃ dep ∈ ins, (g.node o).timestamp < nameTime g dep

/-! ## From the load to the end of the scan -/

/-- What of the load is left in the end. -/
structure LoadEnd (m : Turn ω) (g g' : Graph) : Prop where
  rule : ∃ hash hashDepfile state, g'.rule m.rule = { g.rule m.rule with
    hash := hash, hashDepfile := hashDepfile, state := state }
  dirty : (g'.rule m.rule).isDirty = true ↔ m.inputDirty = true ∨
    ∃ n, g.links.Newer (fun n ↦ (g.node n).timestamp) m.rule n
  kept : Kept ∅ g g'
  hashed : ∀ n ∈ (g.rule m.rule).inputs, n ∈ g.allocated ∧ (g.node n).hash ≠ ""

section Turn

variable {g₀ g g' : Graph} {O : Set RuleId} {m : Turn ω} {ins : List String} {w : ω}

theorem Load.finish (hload : Load P m g ins g') (hdigest : ∀ data, P.digest data ≠ "")
    (h : AtTurn g₀ O m) (hne : g₀.links.outputs m.rule ≠ []) {dirty : Bool} {s' : Scan ω}
    (hrun : finishRule P m = .ok (dirty, s')) : LoadEnd m g' s'.graph := by
  have hdirty := (h.finish hdigest hne hrun).2.2
  obtain ⟨more, hinstalled⟩ := hload.installed hdigest h
  have htied : g'.Tied := hinstalled.loading.tied (hload.atTurn h).walk.tied
  obtain ⟨g₁, hhash, hrest⟩ := Lib.bind_eq_ok.mp hrun
  obtain rfl : g₁ = g := Except.ok.inj (hhash.symm.trans hload.hash)
  obtain ⟨⟨depDirty, g₂, w₂⟩, hdepfile, hrest⟩ := Lib.bind_eq_ok.mp hrest
  obtain ⟨⟨timeDirty, g₃⟩, htimes, hpure⟩ := Lib.bind_eq_ok.mp hrest
  obtain ⟨w', hrun'⟩ := hload.run
  simp only [GraphDependencyScan.scanDepfile, hload.depfile, if_true, hrun', Lib.except_ok_bind,
    Bool.not_true, Bool.false_eq_true, if_false] at hdepfile
  obtain ⟨g₂', hhash₂, hpure₂⟩ := Lib.bind_eq_ok.mp hdepfile
  obtain ⟨rfl, hpair⟩ := Prod.mk.inj (Except.ok.inj hpure₂)
  obtain ⟨rfl, rfl⟩ := Prod.mk.inj hpair
  obtain ⟨hinputs, -, -⟩ := Hash.updateRuleHash_eq_ok.mp hhash₂
  obtain ⟨hash, hashDepfile, rfl⟩ := Hash.updateRuleHash_frame hhash₂
  have hself : (g'.setRule m.rule { g'.rule m.rule with
      hash := hash, hashDepfile := hashDepfile }).rule m.rule = { g'.rule m.rule with
      hash := hash, hashDepfile := hashDepfile } := by
    rw [setRule_rule, if_pos rfl]
  have hlinks : (g'.setRule m.rule { g'.rule m.rule with
      hash := hash, hashDepfile := hashDepfile }).links = g'.links :=
    links_setRule rfl rfl rfl rfl rfl
  have houtputs : g'.links.outputs m.rule ≠ [] := by
    obtain ⟨implicit, numReady, hrule⟩ := hinstalled.loading.self
    change (g'.rule m.rule).outputs ≠ []
    rw [hrule]
    change (g₁.rule m.rule).outputs ≠ []
    rw [(hload.atTurn h).walk.explicit.outputs]
    exact hne
  obtain ⟨b, g₄, htimes', hnewer, hcompared⟩ := scanTimes_spec (t := fun n ↦ (g'.node n).timestamp)
    hlinks (fun _ ↦ rfl) houtputs
  obtain ⟨rfl, rfl⟩ : timeDirty = b ∧ g₃ = g₄ :=
    Prod.mk.inj (Except.ok.inj (htimes.symm.trans htimes'))
  obtain ⟨rfl, rfl⟩ := Prod.mk.inj (Except.ok.inj hpure)
  have hkept : Kept ∅ g' g₃ := by
    refine (Kept.setRule g' _ (Set.notMem_empty _)).trans (Compared.kept hcompared ?_)
    exact fun n hn ↦ hn.1
  refine ⟨?_, ?_, ?_, fun n hn ↦ ⟨?_, hinputs rfl n hn⟩⟩
  · have hrule : g₃.rule m.rule = { g'.rule m.rule with
        hash := hash, hashDepfile := hashDepfile } := by
      rw [hcompared.rule, hself]
    split
    · refine ⟨hash, hashDepfile, .outOfDate, ?_⟩
      rw [Graph.updateRule, setRule_rule, if_pos rfl, hrule]
      rfl
    · exact ⟨hash, hashDepfile, (g'.rule m.rule).state, hrule⟩
  · rw [← hdirty, Bool.or_false, Bool.or_eq_true, hnewer]
  · split
    · exact hkept.trans (.setRule g₃ _ (Set.notMem_empty _))
    · exact hkept
  · refine htied.allocated m.rule ?_ n (Or.inl hn)
    rw [hinstalled.loading.rules]
    exact (hload.atTurn h).walk.explicit.rules ▸ h.mem

/-- The rest of the scan does not touch the rule. -/
theorem LoadEnd.later {s' s'' : Scan ω} (h : LoadEnd m g s'.graph)
    (hlater : Later {m.rule} s' s'') : LoadEnd m g s''.graph where
  rule := by
    rw [hlater.kept.rule m.rule rfl]
    exact h.rule
  dirty := by
    rw [hlater.kept.rule m.rule rfl]
    exact h.dirty
  kept := h.kept.trans (hlater.kept.mono (Set.empty_subset _))
  hashed := h.hashed

/-! ## The rule after the load -/

theorem nameTime_eq {r : RuleId} {more : List NodeId} (h : Installed P g r ins more g')
    (hg : g.Tied) (hkeys : (g.nodes.map Prod.fst).Nodup) {dep : String} {n : NodeId}
    (hmore : n ∈ more) (hlookup : g'.nodes.lookup dep = some n) :
    nameTime g dep = (g'.node n).timestamp := by
  rw [nameTime]
  rcases h.old_or_new hg hkeys hlookup with ⟨hold, hn⟩ | ⟨hnone, hn⟩
  · rw [hold, h.grown.proj Node.timestamp (fun _ ↦ rfl) hn]
  · rw [hnone, (h.grown.new n (h.adds.named_allocated n hmore) hn).2]

theorem namesNew_iff {r : RuleId} {more : List NodeId} (h : Installed P g r ins more g')
    (hg : g.Tied) (hkeys : (g.nodes.map Prod.fst).Nodup) (hr : r ∈ g.rules) {dep : String}
    {n : NodeId} (hlookup : g'.nodes.lookup dep = some n) :
    NamesNew g r dep ↔ n ∉ (g.rule r).inputs := by
  rcases h.old_or_new hg hkeys hlookup with ⟨hold, -⟩ | ⟨hnone, hn⟩
  · constructor
    · exact fun hnew ↦ hnew n hold
    · intro hnot n' hn'
      obtain rfl : n = n' := Option.some.inj (hold.symm.trans hn')
      exact hnot
  · refine iff_of_true (fun n' hn' ↦ ?_) fun hin ↦ hn (hg.allocated r hr n (Or.inl hin))
    rw [hnone] at hn'
    cases hn'

/-- What the load has made of its rule, and what that comes to. -/
structure Loaded (m : Turn ω) (g : Graph) (ins : List String) (more : List NodeId) (g' : Graph) :
    Prop where
  tied : g.Tied
  keys : (g.nodes.map Prod.fst).Nodup
  mem : m.rule ∈ g.rules
  inputDirty : m.inputDirty = true ↔ ∃ n ∈ (g.rule m.rule).inputs, g.inputReady n = false
  explicit : Hash.explicitInputs (g.rule m.rule) = (g.rule m.rule).inputs
  counter : (g'.rule m.rule).numInputsReady = g'.nbReady m.rule ↔
    ∀ dep ∈ ins, NamesReady g m.rule dep

theorem Load.loaded (hload : Load P m g ins g') (hdigest : ∀ data, P.digest data ≠ "")
    (h : AtTurn g₀ O m) : ∃ more, Installed P g m.rule ins more g' ∧ Loaded m g ins more g' := by
  have hturn := hload.atTurn h
  obtain ⟨more, hinstalled⟩ := hload.installed hdigest h
  have hmem : m.rule ∈ g.rules := hturn.walk.explicit.rules ▸ h.mem
  refine ⟨more, hinstalled, hturn.walk.tied, hturn.walk.keys, hmem, hturn.dirty,
    Hash.explicitInputs_none hturn.none, ?_⟩
  · obtain ⟨w', hrun⟩ := hload.run
    obtain ⟨ins', v, hnames, hadd⟩ := (ruleLoadDepfile_none hturn.none hrun).resolve_left
      (fun hfalse ↦ Bool.false_ne_true hfalse.1.symm) |>.2
    obtain rfl : ins = ins' := Option.some.inj (hload.names.symm.trans hnames)
    have hlive : Live g m.rule := {
      inputs := fun n hn ↦ hturn.walk.tied.allocated m.rule hmem n (Or.inl hn)
      nodes := fun e he ↦ (hturn.walk.tied.nodes e he).1 }
    have hbehind : Behind 0 g m.rule := hturn.ready
    rcases addDependencies_counted (P := P) (w := v) hlive hbehind ins [] with
      ⟨k, left, e, hok, -, hadded⟩ | ⟨hfail, -⟩
    · obtain ⟨rfl, -⟩ := Prod.mk.inj (Except.ok.inj (hok.symm.trans hadd))
      have hcount := hadded.behind
      rw [Behind, Nat.zero_add] at hcount
      rw [← hadded.ready]
      omega
    · rw [hadd] at hfail
      cases hfail

section Loaded

variable {k : Graph} {more : List NodeId} (hinstalled : Installed P g m.rule ins more g')
  (h : Loaded m g ins more g') (hend : LoadEnd m g' k)
include hinstalled h hend

omit h in
theorem implicitDeps_end : implicitDeps (k.rule m.rule) = newImplicit (g.rule m.rule) more := by
  obtain ⟨hash, hashDepfile, state, hrule⟩ := hend.rule
  rw [implicitDeps, hrule]
  change (g'.rule m.rule).inputs.drop
    ((g'.rule m.rule).inputs.length - (g'.rule m.rule).numImplicitDeps) = _
  rw [hinstalled.adds.number, hinstalled.inputs, List.length_append, Nat.add_sub_cancel,
    List.drop_left]

/-- The rule is out of date in the end if and only if it is caught. -/
theorem isDirty_end_iff : (k.rule m.rule).isDirty = true ↔ Caught g m.rule ins := by
  have hout : ∀ o ∈ (g.rule m.rule).outputs, (g'.node o).timestamp = (g.node o).timestamp :=
    fun o ho ↦ hinstalled.grown.proj Node.timestamp (fun _ ↦ rfl)
      (h.tied.allocated m.rule h.mem o (Or.inr ho))
  have hin : ∀ n ∈ (g.rule m.rule).inputs, (g'.node n).timestamp = (g.node n).timestamp :=
    fun n hn ↦ hinstalled.grown.proj Node.timestamp (fun _ ↦ rfl)
      (h.tied.allocated m.rule h.mem n (Or.inl hn))
  obtain ⟨implicit, numReady, hself⟩ := hinstalled.loading.self
  have hcommand : g'.links.command m.rule = (g.rule m.rule).command := by
    change (g'.rule m.rule).command = _
    rw [hself]
  have houtputs : g'.links.outputs m.rule = (g.rule m.rule).outputs := by
    change (g'.rule m.rule).outputs = _
    rw [hself]
  have hinputs : ∀ n, n ∈ g'.links.inputs m.rule ↔ n ∈ (g.rule m.rule).inputs ∨ n ∈ more := by
    intro n
    change n ∈ (g'.rule m.rule).inputs ↔ _
    rw [hinstalled.inputs, List.mem_append, mem_newImplicit, h.explicit]
    tauto
  have hphony : (g.rule m.rule).isPhony = false ↔ (g.rule m.rule).command ≠ "" := by
    simp [Rule.isPhony]
  rw [hend.dirty, h.inputDirty, Caught, hphony]
  refine or_congr_right ?_
  constructor
  · rintro ⟨n, hne, hn, o, ho, hlt⟩
    rw [houtputs] at ho
    have hlt' : (g.node o).timestamp < (g'.node n).timestamp := hout o ho ▸ hlt
    refine ⟨hcommand ▸ hne, o, ho, ?_⟩
    rcases (hinputs n).mp hn with hn | hn
    · exact Or.inl ⟨n, hn, hin n hn ▸ hlt'⟩
    · obtain ⟨dep, hdep, hlookup⟩ := hinstalled.name_of_mem hn
      refine Or.inr ⟨dep, hdep, ?_⟩
      rw [nameTime_eq hinstalled h.tied h.keys hn hlookup]
      exact hlt'
  · rintro ⟨hne, o, ho, ⟨n, hn, hlt⟩ | ⟨dep, hdep, hlt⟩⟩
    · refine ⟨n, hcommand.symm ▸ hne, (hinputs n).mpr (Or.inl hn), o, houtputs.symm ▸ ho, ?_⟩
      change (g'.node o).timestamp < (g'.node n).timestamp
      rw [hout o ho, hin n hn]
      exact hlt
    · obtain ⟨n, hn, hlookup⟩ := hinstalled.mem_of_name hdep
      rw [nameTime_eq hinstalled h.tied h.keys hn hlookup] at hlt
      refine ⟨n, hcommand.symm ▸ hne, (hinputs n).mpr (Or.inr hn), o, houtputs.symm ▸ ho, ?_⟩
      change (g'.node o).timestamp < (g'.node n).timestamp
      rw [hout o ho]
      exact hlt

omit hinstalled in
theorem counter_end_iff : (k.rule m.rule).numInputsReady = k.nbReady m.rule ↔
    ∀ dep ∈ ins, NamesReady g m.rule dep := by
  obtain ⟨hash, hashDepfile, state, hrule⟩ := hend.rule
  have hready : k.nbReady m.rule = g'.nbReady m.rule := by
    rw [nbReady, hrule]
    change (g'.rule m.rule).inputs.countP k.inputReady = _
    apply List.countP_congr
    intro n hn
    rw [hend.kept.ready n (hend.hashed n hn).1 (hend.hashed n hn).2]
  rw [hready, ← h.counter, hrule]

end Loaded

end Turn

/-! ## The rules that are out of date -/

/-- At the turn the depfile can neither be loaded nor restored. -/
def Unloaded (P : Platform ω) (m : Turn ω) : Prop :=
  ∃ k k' w', Hash.updateRuleHash P m.scan.graph m.rule true true = .ok k ∧
    (k.rule m.rule).hasDepfile = true ∧
      ruleLoadDepfile P k m.scan.world m.rule = .ok (false, k', w')

/-- The rule has a depfile, and the scan does not find it. -/
def Unlisted (P : Platform ω) (g : Graph) (w : ω) (order : List NodeId) (r : RuleId) : Prop :=
  ∃ m, ScanTurn P g w order m ∧ m.rule = r ∧ Unloaded P m

/-- The time that the scan sees for a path in a depfile: zero unless the path
has a node in the makefile. -/
def listedTime (P : Platform ω) (w : ω) (g : Graph) (dep : String) : Timestamp :=
  match g.nodes.lookup dep with
  | some n => fileTime P w g n
  | none => 0

/-- The scan sees a path of the depfile to be newer than an output. -/
def ListsNewer (P : Platform ω) (w : ω) (g : Graph) (r : RuleId) (ins : List String) : Prop :=
  g.links.command r ≠ "" ∧ ∃ o ∈ g.links.outputs r, ∃ dep ∈ ins,
    fileTime P w g o < listedTime P w g dep

/-- A rule is out of date because of a target that the makefile lists, because
of the time of an input or of a path in its depfile, or for want of its depfile. -/
inductive Overdue (P : Platform ω) (w : ω) (g : Graph) (order : List NodeId) : RuleId → Prop
  | input {r q n} (hn : n ∈ g.links.inputs r) (hq : g.links.child n = some q)
    (h : Overdue P w g order q) : Overdue P w g order r
  | newer {r n} (h : g.links.Newer (fileTime P w g) r n) : Overdue P w g order r
  | listed {r ins} (hins : Listed P g w order r ins) (h : ListsNewer P w g r ins) :
    Overdue P w g order r
  | unlisted {r} (h : Unlisted P g w order r) : Overdue P w g order r

section Verdict

variable {g₀ g g' : Graph} {O : Set RuleId} {m : Turn ω} {ins : List String} {w : ω}

theorem Load.not_unloaded (hload : Load P m g ins g') : ¬ Unloaded P m := by
  rintro ⟨k, k', w', hhash, -, hrun⟩
  obtain rfl : k = g := Except.ok.inj (hhash.symm.trans hload.hash)
  obtain ⟨w'', hrun'⟩ := hload.run
  cases hrun.symm.trans hrun'

theorem Load.names_unique {k k' : Graph} {ins' : List String} (hload : Load P m g ins g')
    (hload' : Load P m k ins' k') : ins' = ins := by
  obtain rfl : k = g := Except.ok.inj (hload'.hash.symm.trans hload.hash)
  exact Option.some.inj (hload'.names.symm.trans hload.names)

/-- A turn at which no depfile is loaded. -/
theorem AtTurn.finish_unloaded (h : AtTurn g₀ O m) (hdigest : ∀ data, P.digest data ≠ "")
    (hne : g₀.links.outputs m.rule ≠ []) (hno : ∀ k ins k', ¬ Load P m k ins k') {dirty : Bool}
    {s' : Scan ω} (hrun : finishRule P m = .ok (dirty, s')) : dirty = true ↔
      m.inputDirty = true ∨ Unloaded P m ∨
        ∃ n, m.scan.graph.links.Newer (fun n ↦ (m.scan.graph.node n).timestamp) m.rule n := by
  obtain ⟨k, hhash, hrest⟩ := Lib.bind_eq_ok.mp hrun
  obtain ⟨⟨depDirty, g₂, w₂⟩, hdepfile, hrest⟩ := Lib.bind_eq_ok.mp hrest
  obtain ⟨⟨timeDirty, g₃⟩, htimes, hpure⟩ := Lib.bind_eq_ok.mp hrest
  obtain ⟨rfl, -⟩ := Prod.mk.inj (Except.ok.inj hpure)
  rw [GraphDependencyScan.scanDepfile] at hdepfile
  split at hdepfile
  · rename_i hdep
    obtain ⟨⟨loaded, g₁, w₁⟩, hload, hrest⟩ := Lib.bind_eq_ok.mp hdepfile
    cases loaded with
    | true =>
        obtain ⟨ins, more, hnames, -⟩ := (h.hashRule hhash).loaded hdigest hload
        exact absurd ⟨hhash, hdep, hnames, w₁, hload⟩ (hno k ins g₁)
    | false =>
        obtain ⟨rfl, -⟩ := Prod.mk.inj (Except.ok.inj hrest)
        exact iff_of_true (by simp) (Or.inr (Or.inl ⟨k, g₁, w₁, hhash, hdep, hload⟩))
  · rename_i hdep
    obtain ⟨rfl, hpair⟩ := Prod.mk.inj (Except.ok.inj hdepfile)
    obtain ⟨rfl, -⟩ := Prod.mk.inj hpair
    have hloaded : ¬ Unloaded P m := by
      rintro ⟨k', -, -, hhash', hdep', -⟩
      obtain rfl : k' = k := Except.ok.inj (hhash'.symm.trans hhash)
      exact hdep hdep'
    have hlinks : k.links = m.scan.graph.links := (Hash.updateRuleHash_links hhash).1
    have htime : ∀ n, (k.node n).timestamp = (m.scan.graph.node n).timestamp := by
      obtain ⟨hash, hashDepfile, rfl⟩ := Hash.updateRuleHash_frame hhash
      exact fun _ ↦ rfl
    have houtputs : m.scan.graph.links.outputs m.rule ≠ [] := by
      change (m.scan.graph.rule m.rule).outputs ≠ []
      rw [h.walk.explicit.outputs]
      exact hne
    obtain ⟨b, g₄, htimes', hnewer, -⟩ := scanTimes_spec hlinks htime houtputs
    obtain ⟨rfl, -⟩ : timeDirty = b ∧ g₃ = g₄ :=
      Prod.mk.inj (Except.ok.inj (htimes.symm.trans htimes'))
    rw [Bool.or_false, Bool.or_eq_true, hnewer, or_iff_right hloaded]

/-- The links and the times of a rule at its turn are those of the parsed graph. -/
theorem AtTurn.newer_iff (h : AtTurn g₀ O m) (hg : Scannable g₀) {done : List NodeId}
    (hv : Visiting g₀ (fileTime P w g₀) done m.scan.graph) (n : NodeId) :
    m.scan.graph.links.Newer (fun n ↦ (m.scan.graph.node n).timestamp) m.rule n ↔
      g₀.links.Newer (fileTime P w g₀) m.rule n := by
  have htime : ∀ k, k ∈ (g₀.rule m.rule).inputs ∨ k ∈ (g₀.rule m.rule).outputs →
      (m.scan.graph.node k).timestamp = fileTime P w g₀ k :=
    fun k hk ↦ hv.time k (hg.tied.allocated m.rule h.mem k hk)
  have hcommand : m.scan.graph.links.command m.rule = g₀.links.command m.rule :=
    h.walk.explicit.command m.rule
  have hinputs : m.scan.graph.links.inputs m.rule = g₀.links.inputs m.rule := h.inputs
  have houtputs : m.scan.graph.links.outputs m.rule = g₀.links.outputs m.rule :=
    h.walk.explicit.outputs m.rule
  rw [Links.Newer, Links.Newer, hcommand, hinputs, houtputs]
  refine and_congr_right fun _ ↦ and_congr_right fun hn ↦ exists_congr fun o ↦
    and_congr_right fun ho ↦ ?_
  rw [htime n (Or.inl hn), htime o (Or.inr ho)]

theorem Visiting.nameTime_eq (hg : Scannable g₀) {done : List NodeId}
    (hv : Visiting g₀ (fileTime P w g₀) done g) (dep : String) :
    nameTime g dep = listedTime P w g₀ dep := by
  have hmem : ∀ {n}, g₀.nodes.lookup dep = some n → n ∈ g₀.allocated := fun hn ↦
    (hg.tied.nodes _ ((Lib.lookup_eq_some_iff_mem hg.keys).mp hn)).1
  rw [nameTime, listedTime]
  cases hold : g₀.nodes.lookup dep with
  | some n =>
      rw [hv.lookup dep n hold]
      exact hv.time n (hmem hold)
  | none =>
      cases hnew : g.nodes.lookup dep with
      | none => rfl
      | some n =>
          rcases hv.named dep n hnew with hn | ⟨-, -, htime⟩
          · rw [hold] at hn
            cases hn
          · exact htime

/-- What the load finds can be told from the parsed graph. -/
theorem Load.caught_iff (hload : Load P m g ins g') (h : AtTurn g₀ O m)
    (hdigest : ∀ data, P.digest data ≠ "") (hg : Scannable g₀) {done : List NodeId}
    (hv : Visiting g₀ (fileTime P w g₀) done m.scan.graph) : Caught g m.rule ins ↔
      m.inputDirty = true ∨ (∃ n, g₀.links.Newer (fileTime P w g₀) m.rule n) ∨
        ListsNewer P w g₀ m.rule ins := by
  obtain ⟨more, -, hloaded⟩ := hload.loaded hdigest h
  have hturn := hload.atTurn h
  have hv' : Visiting g₀ (fileTime P w g₀) done g := hv.hashRule hload.hash
  have hphony : (g.rule m.rule).isPhony = false ↔ g₀.links.command m.rule ≠ "" := by
    rw [show g₀.links.command m.rule = (g.rule m.rule).command from
      (hturn.walk.explicit.command m.rule).symm]
    simp [Rule.isPhony]
  have hinputs : (g.rule m.rule).inputs = g₀.links.inputs m.rule := hturn.inputs
  have houtputs : (g.rule m.rule).outputs = g₀.links.outputs m.rule :=
    hturn.walk.explicit.outputs m.rule
  have htime : ∀ k, k ∈ g₀.links.inputs m.rule ∨ k ∈ g₀.links.outputs m.rule →
      (g.node k).timestamp = fileTime P w g₀ k :=
    fun k hk ↦ hv'.time k (hg.tied.allocated m.rule h.mem k hk)
  rw [Caught, ← hloaded.inputDirty, hphony, hinputs, houtputs]
  refine or_congr_right ?_
  simp only [Links.Newer, ListsNewer, hv'.nameTime_eq hg]
  constructor
  · rintro ⟨hne, o, ho, ⟨n, hn, hlt⟩ | ⟨dep, hdep, hlt⟩⟩
    · rw [htime o (Or.inr ho), htime n (Or.inl hn)] at hlt
      exact Or.inl ⟨n, hne, hn, o, ho, hlt⟩
    · rw [htime o (Or.inr ho)] at hlt
      exact Or.inr ⟨hne, o, ho, dep, hdep, hlt⟩
  · rintro (⟨n, hne, hn, o, ho, hlt⟩ | ⟨hne, o, ho, dep, hdep, hlt⟩)
    · rw [← htime o (Or.inr ho), ← htime n (Or.inl hn)] at hlt
      exact ⟨hne, o, ho, Or.inl ⟨n, hn, hlt⟩⟩
    · rw [← htime o (Or.inr ho)] at hlt
      exact ⟨hne, o, ho, Or.inr ⟨dep, hdep, hlt⟩⟩

end Verdict

/-! ## A scan that comes to its end -/

section Turns

variable {s s' : Scan ω} {r : RuleId}

theorem updateInput_seen {node : Scan ω → NodeId → Outcome (Bool × Scan ω)} {n : NodeId}
    {x x' : Bool × Scan ω} (hrun : updateInput node r x n = .ok x') :
    ∃ b s₁, node x.2 n = .ok (b, s₁) ∧ x'.2.seen = s₁.seen := by
  obtain ⟨⟨b, s₁⟩, hrec, hrest⟩ := Lib.bind_eq_ok.mp hrun
  refine ⟨b, s₁, hrec, ?_⟩
  cases b with
  | false => rw [← Except.ok.inj hrest]
  | true =>
      simp only [if_true] at hrest
      split at hrest
      · rw [← Except.ok.inj hrest]
      · obtain ⟨g₂, -, hpure⟩ := Lib.bind_eq_ok.mp hrest
        rw [← Except.ok.inj hpure]

theorem finishRule_seen {m : Turn ω} {dirty : Bool} (hrun : finishRule P m = .ok (dirty, s')) :
    s'.seen = m.scan.seen := by
  obtain ⟨g₁, -, hrest⟩ := Lib.bind_eq_ok.mp hrun
  obtain ⟨⟨depDirty, g₂, w₂⟩, -, hrest⟩ := Lib.bind_eq_ok.mp hrest
  obtain ⟨⟨timeDirty, g₃⟩, -, hpure⟩ := Lib.bind_eq_ok.mp hrest
  obtain ⟨-, rfl⟩ := Prod.mk.inj (Except.ok.inj hpure)
  rfl

theorem hashNode_seen {n : NodeId} (hrun : hashNode P s n = .ok s') : s'.seen = s.seen := by
  rw [hashNode] at hrun
  split at hrun
  · obtain ⟨⟨changed, g⟩, -, hpure⟩ := Lib.bind_eq_ok.mp hrun
    rw [← Except.ok.inj hpure]
  · rw [← Except.ok.inj hrun]

/-- A rule that is entered has its turn. -/
theorem exists_nodeTurn {fuel : ℕ} {n : NodeId} {dirty : Bool}
    (hrun : updateNode P fuel s n = .ok (dirty, s')) {q : RuleId} (hq : q ∈ s'.seen)
    (hnot : q ∉ s.seen) : ∃ m, NodeTurn P fuel s n m ∧ m.rule = q := by
  induction fuel generalizing s n dirty s' with
  | zero => cases hrun
  | succ fuel ih =>
      cases hc : (s.graph.node n).childRule with
      | none =>
          obtain ⟨⟨dirty₁, s₁⟩, hchild, hrest⟩ := Lib.bind_eq_ok.mp hrun
          obtain ⟨s₂, hhash, hpure⟩ := Lib.bind_eq_ok.mp hrest
          obtain ⟨-, rfl⟩ := Prod.mk.inj (Except.ok.inj hpure)
          simp only [updateChild, hc] at hchild
          obtain ⟨-, rfl⟩ := Prod.mk.inj (Except.ok.inj hchild)
          exact absurd (hashNode_seen hhash ▸ hq) hnot
      | some r =>
          obtain ⟨s₁, hrule, hhash⟩ := updateNode_target hc hrun
          have hq₁ : q ∈ s₁.seen := by
            rw [hashNode_seen hhash] at hq
            split at hq
            · exact hq
            · exact hq
          by_cases hnew : r ∈ s.seen
          · rw [updateRule, if_pos hnew] at hrule
            obtain ⟨-, rfl⟩ := Prod.mk.inj (Except.ok.inj hrule)
            exact absurd hq₁ hnot
          · rw [updateRule_of_new P _ hnew] at hrule
            obtain ⟨x, hloop, hfinish⟩ := Lib.bind_eq_ok.mp hrule
            rw [finishRule_seen hfinish] at hq₁
            by_cases hqr : q = r
            · subst hqr
              exact ⟨⟨x.1, x.2, q⟩, ⟨q, hc, hnew, Or.inr ⟨x, hloop, rfl⟩⟩, rfl⟩
            · -- The rule has been entered while one of the inputs was visited.
              have hnot' : q ∉ (s.enter r).2.seen := fun hmem ↦
                (Finset.mem_insert.mp hmem).elim hqr hnot
              obtain ⟨pre, k, post, x₁, x₂, hsplit, hpre, hstep, hbefore, hafter⟩ :=
                Lib.foldlM_gains (P := fun x : Bool × Scan ω ↦ q ∈ x.2.seen) hloop hq₁ hnot'
              obtain ⟨b, s₂, hrec, hseen⟩ := updateInput_seen hstep
              obtain ⟨m, hm, hrule⟩ := ih hrec (hseen ▸ hafter) hbefore
              exact ⟨m, ⟨r, hc, hnew, Or.inl ⟨pre, k, post, x₁, hsplit, hpre, hm⟩⟩, hrule⟩

end Turns

/-- The scan of a graph as the parser makes it has come to its end. -/
structure Completed (P : Platform ω) (g₀ : Graph) (w : ω) (order : List NodeId) (s' : Scan ω) :
    Prop where
  digest : ∀ data, P.digest data ≠ ""
  scannable : Scannable g₀
  acyclic : ∀ n ∈ order, g₀.links.AcyclicBelow n
  allocated : ∀ n ∈ order, n ∈ g₀.allocated
  run : order.foldlM (scanRoot P (statNodes P w g₀).depth) ⟨statNodes P w g₀, w, ∅⟩ = .ok s'

namespace Completed

variable {g₀ : Graph} {w : ω} {order : List NodeId} {s' : Scan ω} {m : Turn ω} {r q : RuleId}
  {n : NodeId} (h : Completed P g₀ w order s')
include h

theorem walk : Walk g₀ ∅ s' :=
  (scanRoots_walked h.digest h.scannable h.acyclic (h.scannable.walk w) h.run).1

theorem exists_turn (hr : r ∈ s'.seen) : ∃ m, ScanTurn P g₀ w order m ∧ m.rule = r := by
  obtain ⟨pre, n, post, s₁, s₂, hsplit, hpre, hstep, hbefore, hafter⟩ :=
    Lib.foldlM_gains (P := fun s : Scan ω ↦ r ∈ s.seen) h.run hr (Finset.notMem_empty r)
  obtain ⟨⟨b, s₃⟩, hnode, hpure⟩ := Lib.bind_eq_ok.mp hstep
  obtain rfl := Except.ok.inj hpure
  obtain ⟨m, hm, hrule⟩ := exists_nodeTurn hnode hafter hbefore
  exact ⟨m, ⟨pre, n, post, s₁, hsplit, hpre, hm⟩, hrule⟩

theorem seen_of_turn (hm : ScanTurn P g₀ w order m) : m.rule ∈ s'.seen := by
  obtain ⟨dirty, s₁, -, hseen, hlater⟩ :=
    (hm.passed h.digest h.scannable h.acyclic h.run).finished
  exact hlater.seen hseen

/-- From a turn to the end of the scan. -/
theorem kept_of_turn (hm : ScanTurn P g₀ w order m) : Kept ∅ m.scan.graph s'.graph := by
  obtain ⟨hne, O, hturn⟩ := hm.atTurn h.digest h.scannable h.acyclic
  obtain ⟨dirty, s₁, hfinish, -, hlater⟩ :=
    (hm.passed h.digest h.scannable h.acyclic h.run).finished
  exact ((hturn.finish h.digest hne hfinish).2.1.kept.mono (Set.empty_subset _)).trans
    (hlater.kept.mono (Set.empty_subset _))

/-- A target that has been hashed is marked just if its rule is. -/
theorem ready_iff (hhash : (s'.graph.node n).hash ≠ "") : s'.graph.inputReady n = false ↔
    ∃ q, g₀.links.child n = some q ∧ (s'.graph.rule q).isDirty = true := by
  have hc := h.walk.childRule h.scannable.tied.twoWay n
  rw [inputReady_eq_false]
  constructor
  · rintro ⟨hsource, hdirty⟩
    cases hr : (s'.graph.node n).childRule with
    | none => simp [Node.isSource, hr] at hsource
    | some q => exact ⟨q, hc.symm.trans hr, h.walk.dirty n q hr hdirty⟩
  · rintro ⟨q, hq, hdirty⟩
    have hr := hc.trans hq
    exact ⟨by simp [Node.isSource, hr], (h.walk.target n q hr hhash).2.2 hdirty⟩

theorem seen_of_hashed (hhash : (s'.graph.node n).hash ≠ "") (hq : g₀.links.child n = some q) :
    q ∈ s'.seen :=
  (h.walk.target n q ((h.walk.childRule h.scannable.tied.twoWay n).trans hq) hhash).1

/-- The inputs of a rule that has had its turn. -/
theorem hashed_input (hm : ScanTurn P g₀ w order m) (hn : n ∈ g₀.links.inputs m.rule) :
    (s'.graph.node n).hash ≠ "" ∧ s'.graph.inputReady n = m.scan.graph.inputReady n := by
  obtain ⟨-, O, hturn⟩ := hm.atTurn h.digest h.scannable h.acyclic
  have hmem : n ∈ m.scan.graph.allocated := by
    apply hturn.walk.tied.allocated m.rule (hturn.walk.explicit.rules ▸ hturn.mem) n
    rw [hturn.inputs]
    exact Or.inl hn
  have hhash := hturn.hashed n (hturn.inputs ▸ hn)
  have hkept := h.kept_of_turn hm
  exact ⟨hkept.hash n hmem hhash ▸ hhash, hkept.ready n hmem hhash⟩

theorem inputDirty_iff (hm : ScanTurn P g₀ w order m) : m.inputDirty = true ↔
    ∃ n ∈ g₀.links.inputs m.rule, ∃ q, g₀.links.child n = some q ∧
      (s'.graph.rule q).isDirty = true := by
  obtain ⟨-, O, hturn⟩ := hm.atTurn h.digest h.scannable h.acyclic
  rw [hturn.dirty, hturn.inputs]
  refine exists_congr fun n ↦ and_congr_right fun hn ↦ ?_
  obtain ⟨hhash, hready⟩ := h.hashed_input hm hn
  rw [← hready, h.ready_iff hhash]

/-- What a rule has come to, given what the rules below have come to. -/
theorem isDirty_iff (hm : ScanTurn P g₀ w order m) : (s'.graph.rule m.rule).isDirty = true ↔
    (∃ n ∈ g₀.links.inputs m.rule, ∃ q, g₀.links.child n = some q ∧
      (s'.graph.rule q).isDirty = true) ∨ Unloaded P m ∨
        (∃ n, g₀.links.Newer (fileTime P w g₀) m.rule n) ∨
          ∃ k ins k', Load P m k ins k' ∧ ListsNewer P w g₀ m.rule ins := by
  obtain ⟨hne, O, hturn⟩ := hm.atTurn h.digest h.scannable h.acyclic
  obtain ⟨done, hv, -⟩ := hm.visiting h.digest h.scannable h.acyclic h.allocated
  obtain ⟨dirty, s₁, hfinish, -, hlater⟩ :=
    (hm.passed h.digest h.scannable h.acyclic h.run).finished
  rw [← h.inputDirty_iff hm]
  by_cases hload : ∃ k ins k', Load P m k ins k'
  · obtain ⟨k, ins, k', hload⟩ := hload
    have hend := (hload.finish h.digest hturn hne hfinish).later hlater
    obtain ⟨more, hinstalled, hloaded⟩ := hload.loaded h.digest hturn
    rw [isDirty_end_iff hinstalled hloaded hend,
      hload.caught_iff hturn h.digest h.scannable hv, or_iff_right hload.not_unloaded]
    refine or_congr_right (or_congr_right ⟨fun hnewer ↦ ⟨k, ins, k', hload, hnewer⟩, ?_⟩)
    rintro ⟨k₁, ins', k₁', hload', hnewer⟩
    obtain rfl := hload.names_unique hload'
    exact hnewer
  · have hno : ∀ k ins k', ¬ Load P m k ins k' := fun k ins k' hl ↦ hload ⟨k, ins, k', hl⟩
    have hdirty := (hturn.finish h.digest hne hfinish).2.2
    rw [hlater.kept.rule m.rule rfl, ← hdirty,
      hturn.finish_unloaded h.digest hne hno hfinish]
    simp only [hturn.newer_iff h.scannable hv]
    refine or_congr_right (or_congr_right ⟨Or.inl, fun hor ↦ hor.resolve_right ?_⟩)
    rintro ⟨k, ins, k', hl, -⟩
    exact hno k ins k' hl

theorem isDirty_of_overdue (ho : Overdue P w g₀ order r) (hr : r ∈ s'.seen) :
    (s'.graph.rule r).isDirty = true := by
  induction ho with
  | @input r q n hn hq _ ih =>
      obtain ⟨m, hm, rfl⟩ := h.exists_turn hr
      have hseen := h.seen_of_hashed (h.hashed_input hm hn).1 hq
      exact (h.isDirty_iff hm).mpr (Or.inl ⟨n, hn, q, hq, ih hseen⟩)
  | newer hnewer =>
      obtain ⟨m, hm, rfl⟩ := h.exists_turn hr
      exact (h.isDirty_iff hm).mpr (Or.inr (Or.inr (Or.inl ⟨_, hnewer⟩)))
  | listed hins hnewer =>
      obtain ⟨m, k, k', hm, rfl, hload⟩ := hins
      exact (h.isDirty_iff hm).mpr (Or.inr (Or.inr (Or.inr ⟨k, _, k', hload, hnewer⟩)))
  | unlisted hun =>
      obtain ⟨m, hm, rfl, hunloaded⟩ := hun
      exact (h.isDirty_iff hm).mpr (Or.inr (Or.inl hunloaded))

/-- The induction goes up from the nodes with nothing below. -/
theorem overdue_of_isDirty (ho : g₀.links.child n = some r) (hno : g₀.links.AcyclicBelow n)
    (hr : r ∈ s'.seen) (hdirty : (s'.graph.rule r).isDirty = true) : Overdue P w g₀ order r := by
  obtain ⟨k, hk⟩ : ∃ k, g₀.links.rankBelow n = k := ⟨_, rfl⟩
  induction k using Nat.strong_induction_on generalizing n r with
  | _ k ih =>
      obtain ⟨m, hm, rfl⟩ := h.exists_turn hr
      rcases (h.isDirty_iff hm).mp hdirty with
        ⟨x, hx, q, hq, hd⟩ | hunloaded | ⟨x, hnewer⟩ | ⟨k, ins, k', hload, hnewer⟩
      · have hno' : g₀.links.AcyclicBelow x := hno.of_feeds ⟨m.rule, ho, hx⟩
        have hlt := Links.rankBelow_lt_of_input h.scannable.tied.twoWay (hno' x .refl) ho hx
        have hseen := h.seen_of_hashed (h.hashed_input hm hx).1 hq
        exact .input hx hq (ih _ (hk ▸ hlt) hq hno' hseen hd rfl)
      · exact .unlisted ⟨m, hm, rfl, hunloaded⟩
      · exact .newer hnewer
      · exact .listed ⟨m, k, k', hm, rfl, hload⟩ hnewer

/-- The rules that the scan marks. -/
theorem isDirty_iff_overdue (hr : r ∈ s'.seen) :
    (s'.graph.rule r).isDirty = true ↔ Overdue P w g₀ order r := by
  refine ⟨fun hdirty ↦ ?_, fun hover ↦ h.isDirty_of_overdue hover hr⟩
  obtain ⟨m, hm, rfl⟩ := h.exists_turn hr
  obtain ⟨done, hvisited⟩ := hm.visited h.digest h.scannable h.acyclic h.allocated
  obtain ⟨n, hn, hno, -⟩ := hvisited.next
  exact h.overdue_of_isDirty hn hno hr hdirty

end Completed

end GraphDependencyScan

end Falcon
