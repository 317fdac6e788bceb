import Mathlib.Order.Filter.AtTopBot.Basic
import Mathlib.Order.Filter.Finite
import Falcon.Daemon.Acyclic
import Falcon.Daemon.External
import Falcon.Graph.ScanHashes

/-!
# The key of a depfile

The cache keeps a depfile under the depfile hash of its rule.  The key is made
from the explicit part of the graph and from what the explicit source files
contained when they were hashed; it is the same in two daemons that agree on
these, whatever depfiles they have loaded.
-/

namespace Falcon

open Relation Lib Filter

namespace Graph

variable {ω ω' : Type}

/-- The depfile hash of a node, computed from the makefile and the contents of
the source files. -/
def nodeKey (P : Platform ω) (κ : NodeId → String) (g : Graph) : ℕ → NodeId → String
  | 0, _ => ""
  | fuel + 1, n =>
    match (g.node n).childRule with
    | none => P.digest [(g.node n).path, κ n]
    | some r => P.digest [(g.node n).path, P.digest
        ((Hash.explicitInputs (g.rule r)).map (nodeKey P κ g fuel) ++ [(g.rule r).command])]

def ruleKey (P : Platform ω) (κ : NodeId → String) (g : Graph) (fuel : ℕ) (r : RuleId) : String :=
  P.digest ((Hash.explicitInputs (g.rule r)).map (nodeKey P κ g fuel) ++ [(g.rule r).command])

/-- `h` has the explicit part of `g`, under other addresses. -/
structure SameExplicit (g h : Graph) (ν : NodeId → NodeId) (ρ : RuleId → RuleId) : Prop where
  rules : ∀ q, q ∈ h.rules ↔ ∃ r ∈ g.rules, ρ r = q
  inputs : ∀ r ∈ g.rules,
    Hash.explicitInputs (h.rule (ρ r)) = (Hash.explicitInputs (g.rule r)).map ν
  command : ∀ r ∈ g.rules, (h.rule (ρ r)).command = (g.rule r).command
  node : ∀ n, g.Declared n → (h.node (ν n)).path = (g.node n).path ∧
    (h.node (ν n)).childRule = (g.node n).childRule.map ρ

theorem SameExplicit.refl (g : Graph) : SameExplicit g g id id where
  rules q := by simp
  inputs r _ := by simp
  command _ _ := rfl
  node n _ := ⟨rfl, by simp⟩

/-- The scan reaches every rule from the roots. -/
structure Scannable (g : Graph) : Prop where
  acyclic : g.links.Acyclic
  output : ∀ r ∈ g.rules, (g.rule r).outputs ≠ []

variable {P : Platform ω} {Q : Platform ω'} {κ κ' : NodeId → String} {g₀ g g' h : Graph}
  {ν : NodeId → NodeId} {ρ : RuleId → RuleId}

/-- Hashes that are right are the keys, as far down as the hashes go. -/
theorem DepsRight.eventually_nodeKey (hright : DepsRight P κ g) (hg : Grounded g₀ g) {n : NodeId}
    (hn : g₀.Declared n) (hhash : (g.node n).hashDepfile ≠ "") :
    ∀ᶠ fuel in atTop, nodeKey P κ g₀ fuel n = (g.node n).hashDepfile := by
  have hfounded := hright.below.founded n ((hg.explicit.declared_iff n).mpr hn) hhash
  induction hfounded with
  | intro n _ ih =>
      have hn' := (hg.explicit.declared_iff n).mpr hn
      obtain ⟨hpath, hchild, -⟩ := hg.explicit.node n hn
      cases hc : (g₀.node n).childRule with
      | none =>
          rw [hc] at hchild
          filter_upwards [eventually_ge_atTop 1] with fuel hfuel
          obtain ⟨fuel, rfl⟩ := Nat.exists_eq_add_of_le' hfuel
          rw [nodeKey, hright.source n hn' (Set.notMem_empty n) hchild hhash, hpath]
          simp only [hc]
      | some r =>
          rw [hc] at hchild
          obtain ⟨hr, -, -⟩ := hg.wired.child n r hchild
          have hr₀ : r ∈ g₀.rules := hg.explicit.rules ▸ hr
          have hrule := hright.below.child n r hn' hchild hhash
          have hinputs : ∀ᶠ fuel in atTop, ∀ m ∈ Hash.explicitInputs (g₀.rule r),
              nodeKey P κ g₀ fuel m = (g.node m).hashDepfile := by
            apply (eventually_all_finite (List.finite_toSet (Hash.explicitInputs (g₀.rule r)))).mpr
            intro m hm
            have hm' : m ∈ Hash.explicitInputs (g.rule r) := by
              rw [hg.explicit.inputs]
              exact hm
            exact ih m ⟨r, hchild, hm'⟩ ⟨r, hr₀, Or.inl hm⟩
              (hright.below.inputs r hr hrule m hm')
          filter_upwards [(tendsto_sub_atTop_nat 1).eventually hinputs, eventually_ge_atTop 1]
            with fuel hfuel hpos
          obtain ⟨fuel, rfl⟩ := Nat.exists_eq_add_of_le' hpos
          rw [Nat.add_sub_cancel] at hfuel
          rw [hright.node n hn' (Set.notMem_empty n) hhash r hchild,
            hright.rule r hr (Set.notMem_empty r) hrule, hg.explicit.inputs, hg.explicit.command,
            hpath, nodeKey]
          simp only [hc, List.map_congr_left hfuel]

theorem DepsRight.eventually_ruleKey (hright : DepsRight P κ g) (hg : Grounded g₀ g) {r : RuleId}
    (hr : r ∈ g₀.rules) (hhash : (g.rule r).hashDepfile ≠ "") :
    ∀ᶠ fuel in atTop, ruleKey P κ g₀ fuel r = (g.rule r).hashDepfile := by
  have hr' : r ∈ g.rules := hg.explicit.rules ▸ hr
  have hinputs : ∀ᶠ fuel in atTop, ∀ m ∈ Hash.explicitInputs (g₀.rule r),
      nodeKey P κ g₀ fuel m = (g.node m).hashDepfile := by
    apply (eventually_all_finite (List.finite_toSet (Hash.explicitInputs (g₀.rule r)))).mpr
    intro m hm
    apply hright.eventually_nodeKey hg ⟨r, hr, Or.inl hm⟩
    apply hright.below.inputs r hr' hhash
    rw [hg.explicit.inputs]
    exact hm
  filter_upwards [hinputs] with fuel hfuel
  rw [hright.rule r hr' (Set.notMem_empty r) hhash, hg.explicit.inputs, hg.explicit.command,
    ruleKey, List.map_congr_left hfuel]

/-- The keys are made from the explicit part and the contents alone. -/
theorem SameExplicit.nodeKey_eq (hsame : SameExplicit g h ν ρ) (hg : g.Wired)
    (hdigest : Q.digest = P.digest)
    (hκ : ∀ n, g.Declared n → (g.node n).childRule = none → κ' (ν n) = κ n) (fuel : ℕ) {n : NodeId}
    (hn : g.Declared n) : nodeKey Q κ' h fuel (ν n) = nodeKey P κ g fuel n := by
  induction fuel generalizing n with
  | zero => rfl
  | succ fuel ih =>
      obtain ⟨hpath, hchild⟩ := hsame.node n hn
      rw [nodeKey, nodeKey, hpath, hdigest]
      cases hc : (g.node n).childRule with
      | none =>
          rw [hc, Option.map_none] at hchild
          simp only [hchild, hκ n hn hc]
      | some r =>
          rw [hc, Option.map_some] at hchild
          have hr : r ∈ g.rules := (hg.child n r hc).1
          have hmap : ((Hash.explicitInputs (g.rule r)).map ν).map (nodeKey Q κ' h fuel) =
              (Hash.explicitInputs (g.rule r)).map (nodeKey P κ g fuel) := by
            rw [List.map_map]
            exact List.map_congr_left fun m hm ↦ ih ⟨r, hr, Or.inl hm⟩
          simp only [hchild, hsame.inputs r hr, hsame.command r hr, hmap]

theorem SameExplicit.ruleKey_eq (hsame : SameExplicit g h ν ρ) (hg : g.Wired)
    (hdigest : Q.digest = P.digest)
    (hκ : ∀ n, g.Declared n → (g.node n).childRule = none → κ' (ν n) = κ n) (fuel : ℕ)
    {r : RuleId} (hr : r ∈ g.rules) : ruleKey Q κ' h fuel (ρ r) = ruleKey P κ g fuel r := by
  have hmap : ((Hash.explicitInputs (g.rule r)).map ν).map (nodeKey Q κ' h fuel) =
      (Hash.explicitInputs (g.rule r)).map (nodeKey P κ g fuel) := by
    rw [List.map_map]
    exact List.map_congr_left fun m hm ↦ hsame.nodeKey_eq hg hdigest hκ fuel ⟨r, hr, Or.inl hm⟩
  rw [ruleKey, ruleKey, hsame.inputs r hr, hsame.command r hr, hmap, hdigest]

/-! ## The graph of the parser -/

namespace Unhashed

theorem of_maps (h : g.Unhashed) (hnode : g'.node = g.node) (hrule : g'.rule = g.rule) :
    g'.Unhashed where
  node n := by
    rw [hnode]
    exact h.node n
  rule r := by
    rw [hrule]
    exact h.rule r

theorem of_hashes (h : g.Unhashed) (hh : g'.hashes = g.hashes) : g'.Unhashed where
  node n := by
    rw [(nodeHash_of_hashes hh n).1, (nodeHash_of_hashes hh n).2]
    exact h.node n
  rule r := by
    rw [ruleDeps_of_hashes hh]
    exact h.rule r

theorem setNode (h : g.Unhashed) (n : NodeId) {x : Node} (hx : x.hash = "" ∧ x.hashDepfile = "") :
    (g.setNode n x).Unhashed where
  node m := by
    rw [setNode_node]
    split
    · exact hx
    · exact h.node m
  rule := h.rule

theorem setRule (h : g.Unhashed) (r : RuleId) {x : Rule} (hx : x.hashDepfile = "") :
    (g.setRule r x).Unhashed where
  node := h.node
  rule q := by
    rw [setRule_rule]
    split
    · exact hx
    · exact h.rule q

theorem addPath (h : g.Unhashed) (A : Allocator) (path : String) :
    (GraphParser.addPath A g path).Unhashed := by
  have hset := h.setNode (A.newNode g.allocated)
    (x := Node.create path true (A.uninitialised g.allocated)) ⟨rfl, rfl⟩
  exact hset.of_maps rfl rfl

theorem addRule {A : Allocator} {inputs outputs : List NodeId} {command depfile : String}
    (h : g.Unhashed) (hrun : GraphParser.addRule A g inputs outputs command depfile = .ok g') :
    g'.Unhashed := by
  obtain ⟨g₁, hinputs, houtputs⟩ := bind_eq_ok.mp hrun
  have hnew := h.setRule (A.newRule g.rules)
    (x := { Rule.create inputs outputs with command := command, depfile := depfile }) rfl
  have h₁ : g₁.Unhashed := by
    refine foldlM_invariant Unhashed ?_ hinputs (hnew.of_maps rfl rfl)
    intro n _ k k' hstep hk
    obtain ⟨k₁, hready, hpure⟩ := bind_eq_ok.mp hstep
    obtain ⟨numReady, hk₁⟩ := Depfile.onRule_ready (fun _ _ ↦ Depfile.markInputReady_eq) hready
    have hparent : (k.updateNode n (·.addParentRule (A.newRule g.rules))).hashes = k.hashes :=
      hashes_setNode rfl rfl
    have hsame : k₁.hashes = k.hashes := by
      rw [hk₁, ← hparent]
      exact hashes_setRule rfl rfl
    rw [← Except.ok.inj hpure]
    exact hk.of_hashes hsame
  refine foldlM_invariant Unhashed ?_ houtputs h₁
  intro n _ k k' hstep hk
  obtain ⟨k₁, hchild, hpure⟩ := bind_eq_ok.mp hstep
  rw [← Except.ok.inj hpure]
  rw [onNode, Node.setChild] at hchild
  split at hchild
  · cases hchild
  · rw [← Except.ok.inj hchild]
    exact hk.of_hashes (hashes_setNode rfl rfl)

end Unhashed

/-- The graph of a makefile: nothing is hashed yet, and nothing is implicit. -/
theorem unhashed_of_processJson {A : Allocator} {graphFilePath : String} {rules : List JsonVal}
    (hrun : GraphParser.processJson A graphFilePath rules = .ok g) :
    g.Unhashed ∧ ∀ r, (g.rule r).numImplicitDeps = 0 := by
  constructor
  · exact GraphParser.processJson_keeps ⟨fun _ ↦ ⟨rfl, rfl⟩, fun _ ↦ rfl⟩
      (fun _ path h ↦ h.addPath A path) (fun _ _ _ _ _ _ h hadd ↦ h.addRule hadd)
      (fun _ _ h ↦ h.of_maps rfl rfl) hrun
  · obtain ⟨g₁, hloop, hpure⟩ := bind_eq_ok.mp hrun
    have h₁ : GraphParser.Parsed g₁ := foldlM_invariant GraphParser.Parsed
      (fun v _ k k' hstep hk ↦ hk.processRule hstep) hloop GraphParser.parsed_empty
    rw [← Except.ok.inj hpure]
    exact h₁.explicit

theorem grounded_of_processJson {A : Allocator} {graphFilePath : String} {rules : List JsonVal}
    (hrun : GraphParser.processJson A graphFilePath rules = .ok g) : Grounded g g :=
  (GraphParser.tied_of_processJson hrun).grounded fun r _ ↦ (unhashed_of_processJson hrun).2 r

end Graph

/-! ## Runs of the daemon -/

/-- The daemon, and what each source file contained when its node was hashed
last. -/
structure HashLog (ω : Type) where
  daemon : Daemon ω
  content : NodeId → String

namespace HashLog

open Graph

variable {ω ω' : Type} (P : Platform ω) (C : DaemonConfig ω)

/-- The notification about a source file hashes it first of all. -/
def noteContent (s : HashLog ω) (target : String) : NodeId → String :=
  match s.daemon.graph.nodes.lookup target with
  | none => s.content
  | some n =>
    if (s.daemon.graph.node n).isSource then
      Function.update s.content n
        (Hash.contentOf P s.daemon.world (s.daemon.graph.node n).path)
    else s.content

inductive Step : HashLog ω → HashLog ω → Prop
  -- Files are changed; states, counters and timestamps are set.
  | work {s} (d) (hl : d.graph.links = s.daemon.graph.links)
    (hh : d.graph.hashes = s.daemon.graph.hashes) : Step s { s with daemon := d }
  | load {s r loaded g} (hr : r ∈ s.daemon.graph.rules)
    (hrun : Depfile.loadFromfile P s.daemon.world s.daemon.graph r = .ok (loaded, g)) :
    Step s { s with daemon := { s.daemon with graph := g } }
  | recompute {s r a b fuel g w} (hr : r ∈ s.daemon.graph.rules)
    (hrun : Hash.recomputeRuleHash P (fun s n ↦ do
      let (_, s) ← Hash.recomputeNodeHash P a b fuel s n
      pure s) (s.daemon.graph, s.daemon.world) r = .ok (g, w)) :
    Step s { s with daemon := { s.daemon with graph := g, world := w } }
  | notify {s fuel target d} (hne : target ≠ C.jsonGraphFile)
    (hrun : Daemon.setDirty P C fuel s.daemon target = .ok d) :
    Step s { daemon := d, content := s.noteContent P target }

/-- A daemon that has been started with the makefile of `g₀`. -/
inductive Reached (g₀ : Graph) : HashLog ω → Prop
  | scan {w₀ κ₀ d κ} (hrun : GraphDependencyScan.scan P g₀ w₀ = .ok (d.graph, d.world))
    (hrecord : ScanSteps P (g₀, w₀, κ₀) (d.graph, d.world, κ)) : Reached g₀ ⟨d, κ⟩
  | step {s s'} (hs : Reached g₀ s) (hstep : Step P C s s') : Reached g₀ s'

/-- The depfile hash of a rule. -/
def key (s : HashLog ω) (r : RuleId) : String := (s.daemon.graph.rule r).hashDepfile

/-- The invariant of a run. -/
def Right (g₀ : Graph) (s : HashLog ω) : Prop :=
  Grounded g₀ s.daemon.graph ∧ DepsRight P s.content s.daemon.graph

variable {P C} {g₀ h₀ : Graph} {s s' : HashLog ω}

/-- The hashes of rules that have been computed stay. -/
theorem hashed_of_edit (hdigest : ∀ data, P.digest data ≠ "") {g g' : Graph}
    (hstep : Edit P g g') {r : RuleId} (h : (g.rule r).hashDepfile ≠ "") :
    (g'.rule r).hashDepfile ≠ "" := by
  cases hstep with
  | relink hrelink =>
      obtain ⟨_, _, _, hrule⟩ := rule_of_relink hrelink r
      rw [hrule]
      exact h
  | hashNode hrun =>
      obtain ⟨hash, deps, rfl⟩ := Hash.updateNodeHash_frame hrun
      exact h
  | @hashRule q a b hrun =>
      obtain ⟨-, -, rfl⟩ := Hash.updateRuleHash_eq_ok.mp hrun
      rw [setRule_rule]
      split
      · rename_i heq
        cases b with
        | true => exact hdigest _
        | false => exact heq ▸ h
      · exact h

theorem hashed_of_edits (hdigest : ∀ data, P.digest data ≠ "") {g g' : Graph}
    (hrun : Edits P g g') {r : RuleId} (h : (g.rule r).hashDepfile ≠ "") :
    (g'.rule r).hashDepfile ≠ "" := by
  induction hrun with
  | refl => exact h
  | tail _ hstep ih => exact hashed_of_edit hdigest hstep ih

theorem Right.of_darker {g : Graph} {κ : NodeId → String} (hg : Grounded g₀ g)
    (hright : DepsRight P κ g) {d : Daemon ω} (hdark : g.Darker d.graph) :
    Right P g₀ ⟨d, κ⟩ :=
  ⟨hg.of_links hdark.links, hright.of_hashes hdark.links (hashes_of_stamps hdark.stamps)⟩

theorem hashed_of_darker {g g' : Graph} (hdark : g.Darker g') {r : RuleId}
    (h : (g.rule r).hashDepfile ≠ "") : (g'.rule r).hashDepfile ≠ "" := by
  rw [ruleDeps_of_hashes (hashes_of_stamps hdark.stamps)]
  exact h

/-- What a notification does: a source file is hashed, and then nodes and rules
are marked. -/
theorem notify_cases {fuel : ℕ} {target : String} {d : Daemon ω} (hne : target ≠ C.jsonGraphFile)
    (hrun : Daemon.setDirty P C fuel s.daemon target = .ok d) :
    (s.noteContent P target = s.content ∧ s.daemon.graph.Darker d.graph) ∨
      ∃ n changed g w, (s.daemon.graph.node n).childRule = none ∧
        s.noteContent P target = Function.update s.content n
          (Hash.contentOf P s.daemon.world (s.daemon.graph.node n).path) ∧
        Hash.recomputeNodeHash P true true fuel (s.daemon.graph, s.daemon.world) n =
          .ok (changed, g, w) ∧ g.Darker d.graph := by
  obtain ⟨n, hlookup, ⟨hc, hsource⟩ | ⟨r, hc, hrest⟩⟩ := Daemon.setDirty_ok hne hrun
  · right
    obtain ⟨changed, g, w, g', hhash, hmark, rfl⟩ := Daemon.setSourceDirty_ok hsource
    refine ⟨n, changed, g, w, hc, by simp [noteContent, hlookup, Node.isSource, hc], hhash, ?_⟩
    rcases hmark with rfl | hmark
    · exact .refl _
    · exact (History.markTarget_darker hmark).1
  · left
    refine ⟨by simp [noteContent, hlookup, Node.isSource, hc], ?_⟩
    rcases hrest with ⟨-, g, hmark, rfl⟩ | ⟨-, houtput⟩
    · exact (Graph.markDirty_darker hmark).1
    · rcases History.setOutputDirty_cases houtput with ⟨rfl, -⟩ | ⟨hdark, -⟩
      · exact .refl _
      · exact hdark

section Digest

variable (hdigest : ∀ data, P.digest data ≠ "")
include hdigest

/-- The recomputation from a rule whose hashes are right already. -/
theorem recompute_right {a b : Bool} {fuel : ℕ} {g g' : Graph} {w w' : ω} {r : RuleId}
    {κ : NodeId → String} (hg : Grounded g₀ g) (hright : DepsRight P κ g) (hr : r ∈ g.rules)
    (hrun : Hash.recomputeRuleHash P (fun s n ↦ do
      let (_, s) ← Hash.recomputeNodeHash P a b fuel s n
      pure s) (g, w) r = .ok (g', w')) : Grounded g₀ g' ∧ DepsRight P κ g' := by
  cases b with
  | true =>
      have hstart : DepsRightBut P κ g ∅ (insert r ∅) :=
        hright.mono Set.Subset.rfl fun _ _ hin ↦ Or.inr hin
      refine Hash.recomputeRuleHash_depsRight hdigest (s := (g, w)) hg hr ?_ hstart hrun
      intro N o t t' ht hchild hbut hnode
      obtain ⟨⟨changed, t₁⟩, hrec, hpure⟩ := bind_eq_ok.mp hnode
      rw [← Except.ok.inj hpure]
      apply Hash.recomputeNodeHash_depsRight hdigest ht _ hbut hrec
      intro hnone
      rw [hchild] at hnone
      cases hnone
  | false =>
      refine Hash.recomputeRuleHash_false_depsRight hdigest (s := (g, w)) hg hr ?_ hright hrun
      intro o t t' ht hchild hnow hnode
      obtain ⟨⟨changed, t₁⟩, hrec, hpure⟩ := bind_eq_ok.mp hnode
      rw [← Except.ok.inj hpure]
      apply Hash.recomputeNodeHash_false_depsRight hdigest ht _ hnow hrec
      rw [hchild]
      exact Option.some_ne_none r

theorem Step.right (hstep : Step P C s s') (h : Right P g₀ s) : Right P g₀ s' := by
  obtain ⟨hg, hright⟩ := h
  cases hstep with
  | work d hl hh => exact ⟨hg.of_links hl, hright.of_hashes hl hh⟩
  | load hr hrun =>
      have hrelinks := Depfile.loadFromfile_relinks hg.wired hr hrun
      exact ⟨hg.relinks hrelinks, hright.relinks hg.wired hrelinks⟩
  | recompute hr hrun => exact recompute_right hdigest hg hright hr hrun
  | notify hne hrun =>
      rcases notify_cases hne hrun with
          ⟨hcontent, hdark⟩ | ⟨n, changed, g, w, hc, hcontent, hhash, hdark⟩
      · rw [hcontent]
        exact Right.of_darker hg hright hdark
      · rw [hcontent]
        have hstart := DepsRightBut.forget hright n
          (Hash.contentOf P s.daemon.world (s.daemon.graph.node n).path)
        obtain ⟨hg', hright'⟩ := Hash.recomputeNodeHash_depsRight hdigest hg
          (fun _ ↦ ⟨rfl, Function.update_self ..⟩) hstart hhash
        exact Right.of_darker hg' hright' hdark

theorem Step.hashed (hstep : Step P C s s') (hw : s.daemon.graph.Wired) {r : RuleId}
    (h : s.key r ≠ "") : s'.key r ≠ "" := by
  cases hstep with
  | work d hl hh =>
      rw [key, ruleDeps_of_hashes hh]
      exact h
  | load hr hrun =>
      exact hashed_of_edits hdigest (edits_of_relinks (Depfile.loadFromfile_relinks hw hr hrun)) h
  | recompute hr hrun =>
      refine hashed_of_edits hdigest (Hash.recomputeRuleHash_edits ?_ hw hr hrun) h
      intro t n t' ht hnode
      obtain ⟨⟨changed, t₁⟩, hrec, hpure⟩ := bind_eq_ok.mp hnode
      rw [← Except.ok.inj hpure]
      exact Hash.recomputeNodeHash_edits ht hrec
  | notify hne hrun =>
      rcases notify_cases hne hrun with ⟨-, hdark⟩ | ⟨n, changed, g, w, -, -, hhash, hdark⟩
      · exact hashed_of_darker hdark h
      · have hedits := Hash.recomputeNodeHash_edits hw hhash
        exact hashed_of_darker hdark (hashed_of_edits hdigest hedits h)

/-- In every run the hashes that have been computed are right. -/
theorem Reached.right {A : Allocator} {graphFilePath : String} {rules : List JsonVal}
    (hparse : GraphParser.processJson A graphFilePath rules = .ok g₀)
    (hs : Reached P C g₀ s) : Right P g₀ s := by
  induction hs with
  | @scan w₀ κ₀ d κ hrun hrecord =>
      have hunhashed := (unhashed_of_processJson hparse).1
      have hstart : Hashing P g₀ (g₀, w₀, κ₀) :=
        ⟨grounded_of_processJson hparse, hunhashed.right, fun n _ ↦ by simp [hunhashed.node n]⟩
      have hend := hrecord.hashing hdigest hstart
      exact ⟨hend.grounded, hend.right⟩
  | step _ hstep ih => exact hstep.right hdigest ih

/-- In every run all rules have been hashed, if the scan has reached them. -/
theorem Reached.hashed {A : Allocator} {graphFilePath : String} {rules : List JsonVal}
    (hparse : GraphParser.processJson A graphFilePath rules = .ok g₀) (hscan : g₀.Scannable)
    (hs : Reached P C g₀ s) : ∀ r ∈ g₀.rules, s.key r ≠ "" := by
  induction hs with
  | scan hrun hrecord =>
      obtain ⟨hunhashed, hexplicit⟩ := unhashed_of_processJson hparse
      have haccepted := GraphParser.processJson_accepted hparse
      exact GraphDependencyScan.scan_hashed hdigest (grounded_of_processJson hparse)
        haccepted.twoWay hunhashed (fun n hn hp ↦ (haccepted.roots n).mpr ⟨hn, hp⟩)
        hscan.acyclic hscan.output hexplicit hrun
  | step hs hstep ih =>
      intro r hr
      exact hstep.hashed hdigest (hs.right hdigest hparse).1.wired (ih r hr)

end Digest

/-- The depfile hash of a rule, once it has been computed, is the key made from
the makefile and the contents of the explicit source files.  Two daemons that
agree on these have the same depfile hashes. -/
theorem depfileKey_of_explicit {Q : Platform ω'} {D : DaemonConfig ω'} {A B : Allocator}
    {file₁ file₂ : String} {rules₁ rules₂ : List JsonVal} {ν : NodeId → NodeId}
    {ρ : RuleId → RuleId} {t : HashLog ω'} (hsha : ∀ x, (P.sha256 x).length = 32)
    (hhash : Q.sha256 = P.sha256)
    (hparse₁ : GraphParser.processJson A file₁ rules₁ = .ok g₀)
    (hparse₂ : GraphParser.processJson B file₂ rules₂ = .ok h₀)
    (hsame : SameExplicit g₀ h₀ ν ρ) (hs : Reached P C g₀ s) (ht : Reached Q D h₀ t)
    (hcontent : ∀ r ∈ g₀.rules, ∀ n ∈ Hash.explicitInputs (g₀.rule r),
      (g₀.node n).childRule = none → t.content (ν n) = s.content n) :
    ∀ r ∈ g₀.rules,
      (s.key r ≠ "" → ∀ᶠ fuel in atTop, ruleKey P s.content g₀ fuel r = s.key r) ∧
      (s.key r ≠ "" → t.key (ρ r) ≠ "" → t.key (ρ r) = s.key r) ∧
      (g₀.Scannable → h₀.Scannable → s.key r ≠ "" ∧ t.key (ρ r) = s.key r) := by
  have hdigest₁ : ∀ data, P.digest data ≠ "" := Platform.digest_ne_empty hsha
  have hdigest : Q.digest = P.digest := by
    funext data
    rw [Platform.digest, Platform.digest, hhash]
  have hdigest₂ : ∀ data, Q.digest data ≠ "" := by
    rw [hdigest]
    exact hdigest₁
  obtain ⟨hg, hright₁⟩ := hs.right hdigest₁ hparse₁
  obtain ⟨hh, hright₂⟩ := ht.right hdigest₂ hparse₂
  have hκ : ∀ n, g₀.Declared n → (g₀.node n).childRule = none →
      t.content (ν n) = s.content n := by
    rintro n ⟨r, hr, hin | hout⟩ hc
    · exact hcontent r hr n hin hc
    · rw [hg.base.outputs r hr n hout] at hc
      cases hc
  intro r hr
  have hρ : ρ r ∈ h₀.rules := (hsame.rules (ρ r)).mpr ⟨r, hr, rfl⟩
  have hboth : s.key r ≠ "" → t.key (ρ r) ≠ "" → t.key (ρ r) = s.key r := by
    intro hne₁ hne₂
    obtain ⟨fuel, h₁, h₂⟩ := ((hright₁.eventually_ruleKey hg hr hne₁).and
      (hright₂.eventually_ruleKey hh hρ hne₂)).exists
    calc t.key (ρ r) = ruleKey Q t.content h₀ fuel (ρ r) := h₂.symm
      _ = ruleKey P s.content g₀ fuel r := hsame.ruleKey_eq hg.base hdigest hκ fuel hr
      _ = s.key r := h₁
  refine ⟨hright₁.eventually_ruleKey hg hr, hboth, fun hscan₁ hscan₂ ↦ ?_⟩
  have hne₁ := hs.hashed hdigest₁ hparse₁ hscan₁ r hr
  exact ⟨hne₁, hboth hne₁ (ht.hashed hdigest₂ hparse₂ hscan₂ (ρ r) hρ)⟩

/-! ## A rule with a depfile, and a rule without outputs -/

/-- `b` is made from `a` with a depfile; the other rule only looks at `a`. -/
def lintMakefile : List JsonVal :=
  [.object [("inputs", .array [.string "a"]), ("outputs", .array [.string "b"]),
    ("cmd", .string "cc a -o b"), ("depfile", .string "b.d")],
   .object [("inputs", .array [.string "a"]), ("outputs", .array []), ("cmd", .string "lint a")]]

/-- The SHA-256 digests that scans and notifications need. -/
def lintDigests : List (String × ℕ) :=
  [("ax",
    0x5e85370e555e95d27df68f93c0ccaa4edfc1da5e281b47a2ebba2649a13ea5f4),
   ("ay",
    0x69d61997a241e97931db9dd1cfcef218041a752485f5f7956b09766287682da3),
   ("hz",
    0x5a6509b77b9a987ab78ea504689414e4216cede7d0489b8b22296f458daf6c68),
   ("5e85370e555e95d27df68f93c0ccaa4edfc1da5e281b47a2ebba2649a13ea5f4cc a -o b",
    0x0ef1731bd22d66006402f658998e58871d8902710e93dd53d4939576b14d42bf),
   ("b0ef1731bd22d66006402f658998e58871d8902710e93dd53d4939576b14d42bf",
    0xb99ce663374cca9d53040bfbe8c10bac6df698ad770cfe6135d38bf4c7ad8f93),
   ("69d61997a241e97931db9dd1cfcef218041a752485f5f7956b09766287682da3cc a -o b",
    0x19197b96d351c1c63ecd6d2fb1650beb961a735f39a5c0a23db73a8209373c8e),
   ("b19197b96d351c1c63ecd6d2fb1650beb961a735f39a5c0a23db73a8209373c8e",
    0x4ad41a920e490e861058a7c6a666bca7616ee885e31b5a5abbc6b3715a2e59cd),
   ("5e85370e555e95d27df68f93c0ccaa4edfc1da5e281b47a2ebba2649a13ea5f4lint a",
    0xa4532637f4e8cd87c24ca22a91cd3ea4c762afced8b2d87138be0bf5926129bc),
   ("69d61997a241e97931db9dd1cfcef218041a752485f5f7956b09766287682da35a6509b77b9a987ab78ea504689414e4216cede7d0489b8b22296f458daf6c68cc a -o b",
    0x1042772ac4cdc8c1ceaa420c13f82cc2ecee82448d17d944be87b7ef4c776452),
   ("b1042772ac4cdc8c1ceaa420c13f82cc2ecee82448d17d944be87b7ef4c776452",
    0x5e6f08ffeb2c1cec83e809b05a43472e5a9bd3685c2df7f9f799eae16bf11fb0),
   ("5e85370e555e95d27df68f93c0ccaa4edfc1da5e281b47a2ebba2649a13ea5f45a6509b77b9a987ab78ea504689414e4216cede7d0489b8b22296f458daf6c68cc a -o b",
    0x9d38d3ad4aa74ce2f9e71b761bcb6a4f55112e8f6ef3d5c1ae8657cb2d1fdb3a),
   ("b9d38d3ad4aa74ce2f9e71b761bcb6a4f55112e8f6ef3d5c1ae8657cb2d1fdb3a",
    0x5673286633a82daf498593db86a8055af416b120e9930499098dffe662dd28cb),
   ("falcon.json\x7b\"rules\":[\x7b\"inputs\":[\"a\"],\"outputs\":[\"b\"],\"cmd\":\"cc a -o b\",\"depfile\":\"b.d\"\x7d,\x7b\"inputs\":[\"a\"],\"outputs\":[],\"cmd\":\"lint a\"\x7d]\x7d",
    0xc3ed0a5a01032376b45797777810b7d95101b130301b144ad0848a04ee81ee49)]

def lintHost : Host :=
  { touchHost with sha256 := fun s ↦ digestBytes ((lintDigests.lookup s).getD 0) }

/-- The disk with the given `a` and `b.d`. -/
def lintDisk (a : String) (depfile : Option String) : Disk where
  files
    | "a" => some a
    | "b" => some "obj"
    | "b.d" => depfile
    | "h" => some "z"
    | "falcon.json" => some "\x7b\"rules\":[\x7b\"inputs\":[\"a\"],\"outputs\":[\"b\"],\"cmd\":\"cc a -o b\",\"depfile\":\"b.d\"\x7d,\x7b\"inputs\":[\"a\"],\"outputs\":[],\"cmd\":\"lint a\"\x7d]\x7d"
    | _ => none
  mtimes _ := 1
  entries _ := none
  clock := 2

theorem length_lintHost (s : String) : (lintHost.platform.sha256 s).length = 32 :=
  length_digestBytes _

/-- Two runs with the same `a` in the end: it has not changed in the first, where
there is no depfile; in the second it has, and the depfile names `h`. -/
structure LintRuns (g : Graph) (s t : HashLog Disk) : Prop where
  parse : GraphParser.processJson bumpAllocator "falcon.json" lintMakefile = .ok g
  first : Reached lintHost.platform History.diskConfig g s
  second : Reached lintHost.platform History.diskConfig g t
  rules : g.rules = [1, 2]
  inputs : ∀ r ∈ g.rules, Hash.explicitInputs (g.rule r) = [1]
  content : t.content 1 = s.content 1
  implicit : (s.daemon.graph.rule 1).inputs = [1] ∧ (t.daemon.graph.rule 1).inputs = [1, 4]
  keys : s.key 1 ≠ "" ∧ t.key 1 ≠ "" ∧ s.key 2 = "" ∧ t.key 2 ≠ ""

open GraphDependencyScan in
/-- The scan of a graph whose roots are listed in the order of their addresses. -/
theorem scan_of_roots {P : Platform ω} {g : Graph} {w : ω} {x : Scan ω} {l : List NodeId}
    (hroots : (statNodes P w g).roots = l.toFinset) (hl : l.Nodup ∧ l.Pairwise (· ≤ ·))
    (hrun : l.foldlM (scanRoot P (statNodes P w g).depth) ⟨statNodes P w g, w, ∅⟩ = .ok x) :
    scan P g w = .ok (x.graph, x.world) := by
  have hsort : (statNodes P w g).roots.sort (· ≤ ·) = l := by
    rw [hroots]
    exact (List.toFinset_sort (· ≤ ·) hl.1).mpr hl.2
  rw [scan]
  simp only [hsort]
  exact bind_eq_ok.mpr ⟨x, hrun, rfl⟩

open GraphDependencyScan in
theorem exists_lintRuns : ∃ g s t, LintRuns g s t := by
  have hall : (do
      let g ← GraphParser.processJson bumpAllocator "falcon.json" lintMakefile
      let g₁ := statNodes lintHost.platform (lintDisk "x" none) g
      let x ← [2, 3].foldlM (scanRoot lintHost.platform g₁.depth) ⟨g₁, lintDisk "x" none, ∅⟩
      let d ← Daemon.setDirty lintHost.platform History.diskConfig 8
        ⟨x.graph, lintDisk "x" none, ∅⟩ "a"
      let g₂ := statNodes lintHost.platform (lintDisk "y" (some "b: a h")) g
      let y ← [2, 3].foldlM (scanRoot lintHost.platform g₂.depth)
        ⟨g₂, lintDisk "y" (some "b: a h"), ∅⟩
      let e ← Daemon.setDirty lintHost.platform History.diskConfig 8
        ⟨y.graph, lintDisk "x" (some "b: a h"), ∅⟩ "a"
      pure (decide (
        (g₁.roots = [2, 3].toFinset ∧ g₂.roots = [2, 3].toFinset) ∧
        (g.rules = [1, 2] ∧ (∀ r ∈ g.rules, Hash.explicitInputs (g.rule r) = [1])) ∧
        ((x.graph.nodes.lookup "a" = some 1 ∧ (x.graph.node 1).isSource = true ∧
            (x.graph.node 1).path = "a") ∧ y.graph.nodes.lookup "a" = some 1 ∧
          (y.graph.node 1).isSource = true ∧ (y.graph.node 1).path = "a") ∧
        ((d.graph.rule 1).inputs = [1] ∧ (e.graph.rule 1).inputs = [1, 4]) ∧
        (d.graph.rule 1).hashDepfile ≠ "" ∧ (e.graph.rule 1).hashDepfile ≠ "" ∧
          (d.graph.rule 2).hashDepfile = "" ∧ (e.graph.rule 2).hashDepfile ≠ "")) :
        Outcome Bool) = .ok true := by
    decide +kernel
  obtain ⟨g, hparse, hall⟩ := bind_eq_ok.mp hall
  obtain ⟨x, hloop₁, hall⟩ := bind_eq_ok.mp hall
  obtain ⟨d, hnotify₁, hall⟩ := bind_eq_ok.mp hall
  obtain ⟨y, hloop₂, hall⟩ := bind_eq_ok.mp hall
  obtain ⟨e, hnotify₂, hall⟩ := bind_eq_ok.mp hall
  obtain ⟨⟨hroots₁, hroots₂⟩, ⟨hrules, hinputs⟩, ⟨⟨hx, hxsource, hxpath⟩, hy, hysource, hypath⟩,
    himplicit, hkeys⟩ := of_decide_eq_true (Except.ok.inj hall)
  have hscan₁ := scan_of_roots hroots₁ (by decide) hloop₁
  have hscan₂ := scan_of_roots hroots₂ (by decide) hloop₂
  have hwired := (grounded_of_processJson hparse).wired
  have hne : "a" ≠ History.diskConfig.jsonGraphFile := by decide
  obtain ⟨κ₁, hrecord₁⟩ := scan_steps hwired hscan₁ fun _ ↦ ""
  obtain ⟨κ₂, hrecord₂⟩ := scan_steps hwired hscan₂ fun _ ↦ ""
  have hfirst : Reached lintHost.platform History.diskConfig g ⟨⟨x.graph, x.world, ∅⟩, κ₁⟩ :=
    .scan hscan₁ hrecord₁
  have hsecond : Reached lintHost.platform History.diskConfig g ⟨⟨y.graph, y.world, ∅⟩, κ₂⟩ :=
    .scan hscan₂ hrecord₂
  have hfirst' := (hfirst.step (.work ⟨x.graph, lintDisk "x" none, ∅⟩ rfl rfl)).step
    (.notify hne hnotify₁)
  have hsecond' := (hsecond.step (.work ⟨y.graph, lintDisk "x" (some "b: a h"), ∅⟩ rfl rfl)).step
    (.notify hne hnotify₂)
  refine ⟨g, _, _, hparse, hfirst', hsecond', hrules, hinputs, ?_, himplicit, hkeys⟩
  simp only [noteContent, hx, hy, hxsource, hysource, hxpath, hypath, if_true,
    Function.update_self]
  rfl

/-- The key of the rule with the depfile is the same in both runs. -/
theorem depfileKey_of_explicit_lint :
    ∃ g s t, LintRuns g s t ∧ s.key 1 ≠ "" ∧ t.key 1 = s.key 1 ∧
      (t.daemon.graph.rule 1).inputs ≠ (s.daemon.graph.rule 1).inputs := by
  obtain ⟨g, s, t, h⟩ := exists_lintRuns
  have hcontent : ∀ r ∈ g.rules, ∀ n ∈ Hash.explicitInputs (g.rule r),
      (g.node n).childRule = none → t.content (id n) = s.content n := by
    intro r hr n hn _
    rw [h.inputs r hr, List.mem_singleton] at hn
    rw [hn]
    exact h.content
  have hr : 1 ∈ g.rules := by
    rw [h.rules]
    decide
  obtain ⟨hne₁, hne₂, -⟩ := h.keys
  refine ⟨g, s, t, h, hne₁, ?_, ?_⟩
  · exact (depfileKey_of_explicit length_lintHost rfl h.parse h.parse (.refl g) h.first h.second
      hcontent 1 hr).2.1 hne₁ hne₂
  · rw [h.implicit.1, h.implicit.2]
    decide

/-- The scan does not reach the rule without outputs.  It has no depfile hash in
the first run, and gets one in the second when `a` changes. -/
theorem depfileKey_differs_lint :
    ¬ ∀ (g : Graph) (s t : HashLog Disk),
      GraphParser.processJson bumpAllocator "falcon.json" lintMakefile = .ok g →
      Reached lintHost.platform History.diskConfig g s →
        Reached lintHost.platform History.diskConfig g t →
      (∀ r ∈ g.rules, ∀ n ∈ Hash.explicitInputs (g.rule r),
        (g.node n).childRule = none → t.content n = s.content n) →
      ∀ r ∈ g.rules, t.key r = s.key r := by
  intro hall
  obtain ⟨g, s, t, h⟩ := exists_lintRuns
  have hsame : t.key 2 = s.key 2 := by
    apply hall g s t h.parse h.first h.second
    · intro r hr n hn _
      rw [h.inputs r hr, List.mem_singleton] at hn
      rw [hn]
      exact h.content
    · rw [h.rules]
      decide
  obtain ⟨-, -, hempty, hne⟩ := h.keys
  exact hne (hsame.trans hempty)

end HashLog

end Falcon
