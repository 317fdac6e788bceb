import Falcon.Build.Ongoing
import Falcon.Build.Consistent
import Falcon.Graph.DepfileText
import Falcon.Graph.OneDigest

/-!
# A load in the middle of a build

The command of a rule has ended, and its depfile names a node that is ready.
The build goes on from there as if the rule had always had that input.
-/

namespace Falcon

open BuildEvent Relation

namespace Graph

variable {g g' k k' : Graph} {q : RuleId} {o : NodeId}

/-- The graph `k` once the rule `q` of `g` has got the node `o` for its only
implicit input. -/
structure Exposes (g : Graph) (q : RuleId) (o : NodeId) (k : Graph) : Prop where
  joined : k.Joined
  rules : k.rules = g.rules
  child : ∀ n, (k.node n).childRule = (g.node n).childRule
  ready : ∀ n, k.inputReady n = g.inputReady n
  rule : ∀ j, (k.rule j).outputs = (g.rule j).outputs ∧
    (k.rule j).isPhony = (g.rule j).isPhony ∧
    (k.rule j).hasDepfile = (g.rule j).hasDepfile ∧ (k.rule j).isDirty = (g.rule j).isDirty
  other : ∀ j ≠ q, (k.rule j).inputs = (g.rule j).inputs ∧
    (k.rule j).numInputsReady = (g.rule j).numInputsReady
  inputs : ∀ x ∈ (k.rule q).inputs, x ∈ (g.rule q).inputs ∨ x = o
  mem : o ∈ (k.rule q).inputs
  exact : (k.rule q).numInputsReady = k.nbReady q

theorem inputReady_of_links_marks (hl : k'.links = k.links) (hm : k'.marks = k.marks)
    (n : NodeId) : k'.inputReady n = k.inputReady n := by
  have hstate : (k'.node n).state = (k.node n).state := congrFun (congrArg Marks.nodeState hm) n
  rw [inputReady, inputReady, isSource_of_links hl, Node.isDirty, Node.isDirty, hstate]

theorem Exposes.of_links_marks (h : g.Exposes q o k) (hl : k'.links = k.links)
    (hm : k'.marks = k.marks) : g.Exposes q o k' where
  joined := h.joined.of_links hl
  rules := (rules_of_links hl).trans h.rules
  child n := (childRule_of_links hl n).trans (h.child n)
  ready n := (inputReady_of_links_marks hl hm n).trans (h.ready n)
  rule j := by
    have hstate : (k'.rule j).state = (k.rule j).state := congrFun (congrArg Marks.ruleState hm) j
    rw [outputs_of_links hl, isPhony_of_links hl, hasDepfile_of_links hl, Rule.isDirty, hstate]
    exact h.rule j
  other j hj := by
    have hcount : (k'.rule j).numInputsReady = (k.rule j).numInputsReady :=
      congrFun (congrArg Marks.ruleReady hm) j
    rw [inputs_of_links hl, hcount]
    exact h.other j hj
  inputs := by
    rw [inputs_of_links hl]
    exact h.inputs
  mem := by
    rw [inputs_of_links hl]
    exact h.mem
  exact := by
    have hcount : (k'.rule q).numInputsReady = (k.rule q).numInputsReady :=
      congrFun (congrArg Marks.ruleReady hm) q
    rw [hcount, nbReady_of_links_marks hl hm]
    exact h.exact

end Graph

namespace Depfile

open Graph

variable {ω : Type} {P : Platform ω} {w : ω} {g k k' : Graph} {q : RuleId} {o : NodeId}
  {dep content : String}

theorem addDependencies_single {before left : List NodeId} (hlookup : k.nodes.lookup dep = some o)
    (hrun : addDependencies P w q [dep] (k, before) = .ok (k', left)) :
    ∀ x ∈ (k'.rule q).inputs, x ∈ (k.rule q).inputs ∨ x = o := by
  obtain ⟨⟨t, k₁⟩, hset, hpure⟩ := Lib.bind_eq_ok.mp hrun
  obtain ⟨rfl, -⟩ := Prod.mk.inj (Except.ok.inj hpure)
  rcases setRuleDependency_cases P w k q dep with ⟨t', -, -, heq⟩ | ⟨t', k₂, hjoin, heq⟩
  · rw [heq] at hset
    obtain ⟨-, rfl⟩ := Prod.mk.inj (Except.ok.inj hset)
    exact fun x hx ↦ Or.inl hx
  · have hself := hjoin.rule_self
    obtain rfl : t' = o := by
      cases hjoin with
      | found hfound => exact Option.some.inj (hfound.symm.trans hlookup)
      | created hnone => cases hnone.symm.trans hlookup
    rw [heq] at hset
    cases hcount : countInput k₂ q t' with
    | error f =>
        rw [hcount] at hset
        cases hset
    | ok k₃ =>
        rw [hcount] at hset
        obtain ⟨-, rfl⟩ := Prod.mk.inj (Except.ok.inj hset)
        obtain ⟨c, rfl, -⟩ := countInput_moves hcount
        intro x hx
        rw [setRule_rule, if_pos rfl, hself] at hx
        simpa [Rule.addImplicitInput] using hx

/-- A depfile that names a single node, which is ready. -/
theorem load_exposes (hg : g.Joined) (hq : q ∈ g.rules)
    (hexact : (g.rule q).numInputsReady = g.nbReady q) (hnames : Names P g q content [dep])
    (hlookup : g.nodes.lookup dep = some o) (hready : g.inputReady o = true) :
    ∃ k, load P w g q content = .ok (true, k) ∧ g.Exposes q o k ∧ Loading g q [] k := by
  have hnamed : ∀ d ∈ [dep], NamesReady (detached g q) q d := by
    intro d hd n hn _
    rw [List.mem_singleton.mp hd] at hn
    obtain rfl : n = o := Option.some.inj (hn.symm.trans hlookup)
    exact hready
  rcases load_counted (w := w) (loadable_of_joined hg hq) hexact hnames with
    ⟨k, e, hrun, hcount, he⟩ | ⟨-, hnot⟩
  swap
  · exact absurd hnamed hnot
  have hspec := load_spec hg hq hnames hrun
  have hwired := hg.wired
  obtain ⟨added, hrec, -⟩ := load_recounted hwired hq hrun
  refine ⟨k, hrun, {
    joined := hspec.loading.joined hg
    rules := hspec.loading.rules
    child := hspec.loading.child
    ready := (hwired.inputReady_edits (edits_of_relinks (load_relinks hwired hq hrun))).2
    rule := fun j ↦ ?_
    other := fun j hj ↦ ?_
    inputs := fun x hx ↦ ?_
    mem := hspec.listed dep List.mem_cons_self o hlookup
    exact := ?_ }, hspec.loading⟩
  · by_cases hj : j = q
    · obtain ⟨implicit, numReady, hself⟩ := hspec.loading.self
      rw [hj, hself]
      exact ⟨rfl, rfl, rfl, rfl⟩
    · rw [hrec.other j hj]
      exact ⟨rfl, rfl, rfl, rfl⟩
  · rw [hrec.other j hj]
    exact ⟨rfl, rfl⟩
  · obtain ⟨first, hfirst, hparse⟩ := hnames
    obtain ⟨k₁, hdetach, ⟨hfalse, -⟩ |
      ⟨-, first', ins, k₂, left, hfirst', hparse', hadd, hdrop⟩⟩ := load_ok hrun
    · cases hfalse
    obtain ⟨c, -, hk₁⟩ := detachImplicit_counts hdetach
    have hself : k₁.rule q = { g.rule q with
        inputs := Hash.explicitInputs (g.rule q), numImplicitDeps := 0, numInputsReady := c } := by
      rw [hk₁, setRule_rule, if_pos rfl]
    have hnode : k₁.node = g.node := by rw [hk₁]; rfl
    have hnodes : k₁.nodes = g.nodes := by rw [hk₁]; rfl
    obtain rfl : first = first' := by
      rw [hself] at hfirst'
      exact Option.some.inj (hfirst.symm.trans hfirst')
    rw [hnode] at hparse'
    obtain rfl : [dep] = ins := (Prod.mk.inj (Option.some.inj (hparse.symm.trans hparse'))).2
    have hrule : k.rule = k₂.rule :=
      Lib.foldlM_invariant (fun t : Graph ↦ t.rule = k₂.rule) (fun n _ t t' hstep ht ↦ by
        obtain ⟨-, ⟨-, -, rfl⟩ | ⟨-, rfl⟩⟩ := dropDependency_cases hstep
        · exact ht
        · exact ht) hdrop rfl
    rw [hrule] at hx
    rcases addDependencies_single (hnodes ▸ hlookup) hadd x hx with hin | hin
    · rw [hself] at hin
      exact Or.inl (List.mem_of_mem_take hin)
    · exact Or.inr hin
  · rw [he.mpr hnamed] at hcount
    exact hcount

end Depfile

namespace Builder

open Graph

variable {ω : Type} {P : Platform ω} {w : ω} {g : Graph} {q : RuleId} {o : NodeId}

/-- The command of `q` has ended, and its depfile names the output `o`.  Where
all digests are the same, the hashes above are up to date in the end. -/
theorem loadDepfile_exposes {dep content digest : String} (hdigest : ∀ l, P.digest l = digest)
    (hne : digest ≠ "") (hrestore : ∀ g r w, P.restoreDepfile g r w = .ok (false, w))
    (hg : g.Joined) (hhashed : g.Hashed)
    (ho : o ∈ g.allocated ∧ (g.node o).hash ≠ "" ∧ (g.node o).hashDepfile ≠ "")
    (hq : q ∈ g.rules) (hdepfile : (g.rule q).hasDepfile = true)
    (hread : P.readFile w (g.rule q).depfile = some content) (hcontent : content ≠ "")
    (hexact : (g.rule q).numInputsReady = g.nbReady q) (hnames : Depfile.Names P g q content [dep])
    (hlookup : g.nodes.lookup dep = some o) (hready : g.inputReady o = true) :
    ∃ k, loadDepfile P g w q = .ok (true, k, w) ∧ g.Exposes q o k := by
  obtain ⟨k, hload, hk, hloading⟩ :=
    Depfile.load_exposes (P := P) (w := w) hg hq hexact hnames hlookup hready
  have hrun : Depfile.loadFromfile P w g q = .ok (true, k) := by
    simp only [Depfile.loadFromfile, hread, hcontent, if_false]
    exact hload
  have hhashed' : k.Hashed := by
    refine ⟨fun j hj n hn ↦ ?_, fun j hj ↦ ?_⟩
    · rw [hk.rules] at hj
      have hold : n ∈ g.allocated ∧ (g.node n).hash ≠ "" ∧ (g.node n).hashDepfile ≠ "" := by
        by_cases hjq : j = q
        · rcases hk.inputs n (hjq ▸ hn) with hin | rfl
          · exact ⟨hg.allocated q hq n (Or.inl hin), hhashed.inputs q hq n hin⟩
          · exact ho
        · rw [(hk.other j hjq).1] at hn
          exact ⟨hg.allocated j hj n (Or.inl hn), hhashed.inputs j hj n hn⟩
      obtain ⟨-, hhash, hdeps⟩ := hloading.node n hold.1
      rw [hhash, hdeps]
      exact hold.2
    · rw [hk.rules] at hj
      by_cases hjq : j = q
      · obtain ⟨implicit, numReady, hself⟩ := hloading.self
        rw [hjq, hself]
        exact hhashed.rules q hq
      · rw [hloading.other j hjq]
        exact hhashed.rules j hj
  have hq' : q ∈ k.rules := hk.rules ▸ hq
  have hwired := hk.joined.wired
  have hno : Hash.NoRestore P k.links := by
    intro g' r w' restored w'' _ _ hcache
    rw [hrestore] at hcache
    exact (Prod.mk.inj (Except.ok.inj hcache)).1.symm
  let nodeHash : Graph × ω → NodeId → Outcome (Graph × ω) :=
    fun s m ↦ Hash.recomputeNodeHash P true false k.depth s m >>= fun x ↦ pure x.2
  have hnode : ∀ t n, Hash.Redigested digest k w t → (t.1.node n).childRule = some q →
      ∃ t', nodeHash t n = .ok t' ∧ Hash.Redigested digest t.1 t.2 t' := by
    intro t n ht hn
    have hfuel : (t.1.undigested digest).card < k.depth := by
      refine lt_of_le_of_lt (Finset.card_le_card (Finset.filter_subset _ _)) ?_
      rw [ht.links]
      exact k.card_targets_lt_depth
    obtain ⟨changed, t', hrec, ht'⟩ := Hash.recomputeNodeHash_redigested (w := t.2) hdigest hne
      hrestore (hwired.of_links ht.links) ht.hashed hn hfuel
    exact ⟨t', by simp only [nodeHash, hrec]; rfl, ht'⟩
  obtain ⟨⟨k', w'⟩, hhash, hs⟩ := Hash.recomputeRuleHash_redigested (s := (k, w)) hdigest hne
    hrestore hwired hhashed' hq' hnode
  have hframe : k'.links = k.links ∧ k'.marks = k.marks := by
    refine Hash.recomputeRuleHash_frame hno (fun k₁ w₁ n k₂ w₂ hl hm ↦ ?_) rfl hhash
    obtain ⟨⟨changed, t⟩, hrec, hpure⟩ := Lib.bind_eq_ok.mp hm
    obtain rfl := Except.ok.inj hpure
    exact Hash.recomputeNodeHash_frame hno hl hrec
  obtain rfl : w' = w := hs.world
  refine ⟨k', ?_, hk.of_links_marks hframe.1 hframe.2⟩
  rw [loadDepfile, if_pos hdepfile, hrun, Lib.except_ok_bind]
  simp only [if_true]
  exact congrArg (· >>= fun x : Graph × ω ↦ pure (true, x.1, x.2)) hhash

end Builder

/-! ## The build after the load -/

namespace Graph

/-- The graph `k` with the states that rules and targets have in `g₀`. -/
def restated (g₀ k : Graph) : Graph :=
  { k with
    node := fun n ↦ { k.node n with
      state := if (k.node n).isSource then (k.node n).state else (g₀.node n).state }
    rule := fun j ↦ { k.rule j with state := (g₀.rule j).state } }

theorem restated_isDirty (g₀ : Graph) {k : Graph} {n : NodeId} {j : RuleId}
    (hn : (k.node n).childRule = some j) :
    ((restated g₀ k).node n).isDirty = (g₀.node n).isDirty := by
  have hsource : (k.node n).isSource = false := by rw [Node.isSource, hn]; rfl
  simp only [restated, Node.isDirty, hsource, Bool.false_eq_true, if_false]

theorem cleanReports_congr {g g' : Graph} {j i : RuleId}
    (hinputs : (g'.rule j).inputs = (g.rule j).inputs)
    (houtputs : (g'.rule i).outputs = (g.rule i).outputs)
    (hdirty : ∀ n ∈ (g.rule i).outputs, (g'.node n).isDirty = (g.node n).isDirty) :
    cleanReports g' j i = cleanReports g j i := by
  rw [cleanReports, cleanReports, hinputs, houtputs]
  refine List.countP_congr fun n _ ↦ ?_
  by_cases hn : n ∈ (g.rule i).outputs
  · rw [hdirty n hn]
  · simp [hn]

end Graph

/-- The rule `q` is in hand, all that it needs is ready, and what the rules that
have been built have reported to it was dirty before. -/
theorem Ongoing.expose {g₀ g k : Graph} {p₀ p : BuildPlan} {found built failed rest : List RuleId}
    {q : RuleId} {o : NodeId} (h : Ongoing g₀ p₀ found built failed (q :: rest) g p)
    (hL : g₀.links.TwoWay) (hrules : ∀ j ∈ p₀.rules, j ∈ g₀.rules) (hk : g.Exposes q o k)
    (hfull : ∀ x ∈ (k.rule q).inputs, k.inputReady x = true)
    (hfresh : ∀ j ∈ built, ∀ x ∈ (k.rule q).inputs, x ∈ (g₀.rule j).outputs →
      (g₀.node x).isDirty = true) :
    Ongoing (g₀.restated k) p₀ found built failed (q :: rest) k p := by
  have hq : q ∈ found := h.mem_found_of_hand List.mem_cons_self
  have hchild : ∀ n, (k.node n).childRule = (g₀.node n).childRule :=
    fun n ↦ (hk.child n).trans (Graph.childRule_of_links h.links n)
  have hbuilt : ∀ j ∈ built, j ∈ g₀.rules :=
    fun j hj ↦ hrules j (h.found_planned j (h.mem_found.mpr (Or.inl hj)))
  have houtputs : ∀ j, (k.rule j).outputs = (g₀.rule j).outputs :=
    fun j ↦ (hk.rule j).1.trans (Graph.outputs_of_links h.links j)
  have hoff : ∀ n j, (g₀.node n).childRule = some j →
      (k.node n).isDirty = (g.node n).isDirty := by
    intro n j hn
    have hready := hk.ready n
    have hk' : (k.node n).isSource = false := by rw [Node.isSource, hchild, hn]; rfl
    have hg' : (g.node n).isSource = false := by
      rw [Graph.isSource_of_links h.links, Node.isSource, hn]
      rfl
    simpa [Graph.inputReady, hk', hg'] using hready
  have hdirty : ∀ n j, (g₀.node n).childRule = some j →
      ((g₀.restated k).node n).isDirty = (g₀.node n).isDirty :=
    fun n j hn ↦ Graph.restated_isDirty g₀ ((hchild n).trans hn)
  have hnb : k.nbReady q = (k.rule q).inputs.length := List.countP_eq_length.mpr hfull
  have hother : ∀ j ≠ q, (k.rule j).ready = (g.rule j).ready := by
    intro j hj
    rw [Rule.ready, Rule.ready, (hk.other j hj).1, (hk.other j hj).2]
  refine { h with
    links := rfl
    hashes := rfl
    node := fun n j hn ↦ ?_
    source := fun n hn ↦ ?_
    rule := fun j ↦ ?_
    numReady := fun j hj ↦ ?_
    bound := fun j hj ↦ ?_
    grows := fun j ↦ le_refl _
    ready_iff := fun j ↦ ?_
    found_ready := fun j hj ↦ ?_ }
  · have hn' : (g₀.node n).childRule = some j := (hchild n).symm.trans hn
    rw [hoff n j hn', hdirty n j hn']
    exact h.node n j hn'
  · cases hc : (g₀.node n).childRule with
    | none =>
        have hsource : (k.node n).isSource = true := by rw [Node.isSource, hchild, hc]; rfl
        simpa [Graph.restated, Node.isDirty, hsource] using hn
    | some j =>
        rw [hoff n j hc] at hn
        rw [hdirty n j hc]
        exact ((h.node n j hc).mp hn).1
  · rw [(hk.rule j).2.2.2, h.rule]
    rfl
  · have hj₀ : j ∈ g₀.rules := by
      rw [← Graph.rules_of_links h.links, ← hk.rules]
      exact hj
    by_cases hjq : j = q
    · have hzero : excess (g₀.restated k) built j = 0 := by
        refine excess_eq_zero fun i hi ↦ cleanReports_eq_zero fun x hx hout ↦ ?_
        have hout₀ : x ∈ (g₀.rule i).outputs := houtputs i ▸ hout
        rw [hdirty x i ((hL.child_eq_some x i).mpr ⟨hbuilt i hi, hout₀⟩)]
        exact hfresh i hi x (hjq ▸ hx) hout₀
      rw [hzero, Nat.add_zero, hjq]
      exact hk.exact
    · have hsame : excess (g₀.restated k) built j = excess g₀ built j := by
        refine congrArg List.sum (List.map_congr_left fun i hi ↦ ?_)
        refine Graph.cleanReports_congr ?_ (houtputs i) fun n hn ↦ ?_
        · exact (hk.other j hjq).1.trans (Graph.inputs_of_links h.links j)
        · exact hdirty n i ((hL.child_eq_some n i).mpr ⟨hbuilt i hi, hn⟩)
      have hready : k.nbReady j = g.nbReady j := by
        rw [Graph.nbReady, Graph.nbReady, (hk.other j hjq).1, funext hk.ready]
      rw [hsame, (hk.other j hjq).2, hready]
      exact h.numReady j hj₀
  · have hj₀ : j ∈ g₀.rules := by
      rw [← Graph.rules_of_links h.links, ← hk.rules]
      exact hj
    by_cases hjq : j = q
    · rw [hjq, hk.exact, hnb]
      exact le_rfl
    · have hlen : ((g₀.restated k).rule j).inputs = (g₀.rule j).inputs :=
        (hk.other j hjq).1.trans (Graph.inputs_of_links h.links j)
      rw [(hk.other j hjq).2, hlen]
      exact h.bound j hj₀
  · by_cases hjq : j = q
    · rw [h.ready_iff, hjq]
      exact ⟨fun hj ↦ absurd hq hj.2.1, fun hj ↦ absurd hq hj.2.1⟩
    · rw [hother j hjq]
      exact h.ready_iff j
  · by_cases hjq : j = q
    · rw [hjq, Rule.ready, hk.exact, hnb, decide_eq_true rfl]
    · rw [hother j hjq]
      exact h.found_ready j hj

end Falcon
