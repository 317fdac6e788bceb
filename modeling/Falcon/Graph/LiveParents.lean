import Falcon.Graph.Counted
import Falcon.Graph.Explicit
import Falcon.Graph.Reloads

/-!
# Rehashing while depfiles are restored

The loop of `recomputeNodeHash` runs over the vector of parents itself, and a
depfile that is restored several levels further down may take a rule out of it.
A rule at or before the position of the loop makes the rest of the vector move
up, and the loop passes over one parent.  A depfile may also append a rule to a
vector that is full: the vector moves, and the loop goes on in memory that has been
given back.  A run in which neither happens brings all hashes up to date, whatever
else the depfiles bring and take.
-/

namespace Falcon.Hash

open Graph Relation Depfile

variable {ω : Type} (P : Platform ω) (capacity : NodeId → ℕ)

/-- The loops in progress: a node, and the position in its parents. -/
abbrev Frames := List (NodeId × ℕ)

/-- The parents up to the position are those they were, for each of the loops. -/
def inPlace (F : Frames) (g g' : Graph) : Bool :=
  F.all fun f ↦ ((g.node f.1).parentRules.take (f.2 + 1)).isPrefixOf (g'.node f.1).parentRules

/-- No rule has been appended to the vector of a loop in progress, or there was room
for it: `capacity` is what the vectors can hold when the call begins, and no vector
ever holds less. -/
def hasRoom (F : Frames) (g g' : Graph) : Bool :=
  F.all fun f ↦ (g'.node f.1).parentRules.length ≤
    max (g.node f.1).parentRules.length (capacity f.1)

def invalidIterator : Fault := .exception "invalid iterator"

/-- `restoreDepfile` with checked iterators: an error where a loop in progress
has lost a parent at or before its position, or its vector has moved. -/
def checkedRestore (F : Frames) (tmp : String) (g : Graph) (w : ω) (r : RuleId) :
    Outcome (Graph × ω) := do
  let s ← restoreDepfile P tmp g w r
  if inPlace F g s.1 && hasRoom capacity F g s.1 then pure s else .error invalidIterator

/-- `recomputeRuleHash` with checked iterators. -/
def checkedRuleHash (F : Frames) (nodeHash : Graph × ω → NodeId → Outcome (Graph × ω))
    (s : Graph × ω) (r : RuleId) : Outcome (Graph × ω) := do
  let g ← updateRuleHash P s.1 r true true
  let s ← checkedRestore P capacity F (s.1.rule r).hashDepfile g s.2 r
  (s.1.rule r).outputs.foldlM nodeHash s

/-- `recomputeNodeHash` with checked iterators. -/
def checkedNodeHash : ℕ → Frames → Graph × ω → NodeId → Outcome (Bool × Graph × ω)
  | 0, _, _, _ => .error .outOfFuel
  | fuel + 1, F, (g, w), n => do
    let (changed, g) ← updateNodeHash P w g n true true
    if !changed then pure (false, g, w)
    else do
      let s ← Lib.liveLoopAt .outOfFuel (fun s : Graph × ω ↦ (s.1.node n).parentRules)
        (fun i ↦ checkedRuleHash P capacity ((n, i) :: F) fun s m ↦ do
          let (_, s) ← checkedNodeHash fuel ((n, i) :: F) s m
          pure s)
        ((g.node n).parentRules.length + fuel + 1) 0 (g, w)
      pure (true, s)

variable {P} {capacity} {w w' w₀ : ω} {g g' g₁ g₂ g₃ : Graph} {κ κ' : String → String} {F : Frames}
  {N N' : Set NodeId} {R R' : Set RuleId} {n : NodeId} {r : RuleId}

theorem restoreDepfile_of_checked {tmp : String} {s : Graph × ω}
    (hrun : checkedRestore P capacity F tmp g w r = .ok s) :
    restoreDepfile P tmp g w r = .ok s ∧ inPlace F g s.1 = true := by
  obtain ⟨s', hrestore, hcheck⟩ := Lib.bind_eq_ok.mp hrun
  split at hcheck
  · rename_i hvalid
    obtain rfl := Except.ok.inj hcheck
    exact ⟨hrestore, (Bool.and_eq_true_iff.mp hvalid).1⟩
  · cases hcheck

/-! ## A run is checked -/

theorem checked_restoreDepfile (tmp : String) (g : Graph) (w : ω) (r : RuleId) :
    Lib.Checked invalidIterator (restoreDepfile P tmp g w r)
      (checkedRestore P capacity F tmp g w r) := by
  rw [checkedRestore]
  cases restoreDepfile P tmp g w r with
  | error e => exact Lib.Checked.refl _
  | ok s =>
      rw [Lib.except_ok_bind]
      split
      · exact Or.inl rfl
      · exact Or.inr rfl

theorem checked_recomputeRuleHash {nodeHash checked : Graph × ω → NodeId → Outcome (Graph × ω)}
    (hnode : ∀ s n, Lib.Checked invalidIterator (nodeHash s n) (checked s n)) (s : Graph × ω)
    (r : RuleId) : Lib.Checked invalidIterator (recomputeRuleHash P nodeHash s r)
      (checkedRuleHash P capacity F checked s r) := by
  refine (Lib.Checked.refl _).bind fun g₁ ↦ ?_
  exact (checked_restoreDepfile _ g₁ s.2 r).bind fun s₁ ↦ Lib.Checked.foldlM hnode s₁

theorem checked_recomputeNodeHash {fuel : ℕ} (F : Frames) (s : Graph × ω) (n : NodeId) :
    Lib.Checked invalidIterator (recomputeNodeHash P true true fuel s n)
      (checkedNodeHash P capacity fuel F s n) := by
  induction fuel generalizing F s n with
  | zero => exact Lib.Checked.refl _
  | succ fuel ih =>
      obtain ⟨g, w⟩ := s
      rw [recomputeNodeHash, checkedNodeHash]
      refine (Lib.Checked.refl _).bind fun x ↦ ?_
      obtain ⟨changed, g₁⟩ := x
      cases changed with
      | false => exact Lib.Checked.refl _
      | true =>
          refine (Lib.Checked.liveLoop (fun i s r ↦ ?_) _ 0 _).bind fun _ ↦ Lib.Checked.refl _
          refine checked_recomputeRuleHash (fun t m ↦ ?_) s r
          exact (ih _ t m).bind fun _ ↦ Lib.Checked.refl _

/-! ## Between two steps -/

def looped (F : Frames) : Set NodeId := {n | ∃ f ∈ F, f.1 = n}

/-- The rules that the loops in progress have not come to. -/
def Pending (F : Frames) (g : Graph) : Set RuleId :=
  {q | ∃ f ∈ F, q ∈ (g.node f.1).parentRules.drop (f.2 + 1)}

/-- The state of a run: what is not coherent is among the nodes `N` and the rules `R`. -/
structure Midway (P : Platform ω) (κ : String → String) (F : Frames) (N : Set NodeId)
    (R : Set RuleId) (g : Graph) : Prop where
  wired : g.Wired
  mapped : g.Mapped
  standing : ∀ f ∈ F, f.1 ∈ g.allocated ∧ f.2 < (g.node f.1).parentRules.length
  coherent : CoherentBut P κ g N R

/-- The worlds that a run can reach by asking the cache for depfiles. -/
abbrev Later (P : Platform ω) : ω → ω → Prop :=
  ReflTransGen fun w w' ↦ ∃ g r restored, P.restoreDepfile g r w = .ok (restored, w')

/-- What `κ'` says of a file is what `κ` said, or what the file has contained since. -/
def Reads (P : Platform ω) (w : ω) (κ κ' : String → String) : Prop :=
  ∀ path, κ' path = κ path ∨ ∃ w', Later P w w' ∧ κ' path = contentOf P w' path

/-- A part of a run: the nodes of `K` are what they were, and so is what is said
of their files. -/
structure Follows (P : Platform ω) (K : Set NodeId) (κ : String → String) (s : Graph × ω)
    (κ' : String → String) (s' : Graph × ω) : Prop where
  edits : Edits P s.1 s'.1
  later : Later P s.2 s'.2
  reads : Reads P s.2 κ κ'
  path : ∀ n ∈ K, (s'.1.node n).path = (s.1.node n).path
  child : ∀ n ∈ K, (s'.1.node n).childRule = (s.1.node n).childRule
  content : ∀ n ∈ K, κ' (s.1.node n).path = κ (s.1.node n).path

/-- A part of a run that leaves the nodes `N` to be hashed. -/
structure Advance (P : Platform ω) (F : Frames) (K N : Set NodeId) (κ : String → String)
    (s : Graph × ω) (κ' : String → String) (s' : Graph × ω) : Prop where
  follows : Follows P K κ s κ' s'
  midway : Midway P κ' F N (Pending F s'.1) s'.1

theorem looped_cons (n : NodeId) (i : ℕ) (F : Frames) :
    looped ((n, i) :: F) = insert n (looped F) := by
  ext m
  simp [looped, eq_comm]

theorem pending_cons (n : NodeId) (i : ℕ) (F : Frames) (g : Graph) :
    Pending ((n, i) :: F) g =
      Pending F g ∪ {q | q ∈ (g.node n).parentRules.drop (i + 1)} := by
  ext q
  simp [Pending, or_comm]

theorem pending_of_links (hl : g'.links = g.links) (F : Frames) : Pending F g' = Pending F g := by
  simp only [Pending, parentRules_of_links hl]

theorem CoherentBut.mono_rules (h : CoherentBut P κ g N R) (hN : N ⊆ N')
    (hR : ∀ r ∈ g.rules, r ∈ R → r ∈ R') : CoherentBut P κ g N' R' where
  node n hn hnot := h.node n hn fun hin ↦ hnot (hN hin)
  rule r hr hnot := h.rule r hr fun hin ↦ hnot (hR r hr hin)
  source := h.source
  node_hash := h.node_hash
  rule_hash := h.rule_hash

namespace Follows

variable {K : Set NodeId} {s s' : Graph × ω}

theorem of_links (hedits : Edits P g g') (hlater : Later P w w') (hl : g'.links = g.links) :
    Follows P K κ (g, w) κ (g', w') where
  edits := hedits
  later := hlater
  reads _ := Or.inl rfl
  path n _ := path_of_links hl n
  child n _ := childRule_of_links hl n
  content _ _ := rfl

theorem mono {K' : Set NodeId} (h : Follows P K κ s κ' s') (hsub : K' ⊆ K) :
    Follows P K' κ s κ' s' where
  edits := h.edits
  later := h.later
  reads := h.reads
  path n hn := h.path n (hsub hn)
  child n hn := h.child n (hsub hn)
  content n hn := h.content n (hsub hn)

theorem trans {κ'' : String → String} {s'' : Graph × ω} (h : Follows P K κ s κ' s')
    (h' : Follows P K κ' s' κ'' s'') : Follows P K κ s κ'' s'' where
  edits := h.edits.trans h'.edits
  later := h.later.trans h'.later
  reads path := by
    rcases h'.reads path with heq | ⟨w₁, hw₁, heq⟩
    · rw [heq]
      exact h.reads path
    · exact Or.inr ⟨w₁, h.later.trans hw₁, heq⟩
  path n hn := (h'.path n hn).trans (h.path n hn)
  child n hn := (h'.child n hn).trans (h.child n hn)
  content n hn := by
    rw [← h.content n hn, ← h.path n hn]
    exact h'.content n hn

end Follows

namespace Midway

theorem of_links (h : Midway P κ F N R g) (hl : g'.links = g.links)
    (hco : CoherentBut P κ g' N' R') : Midway P κ F N' R' g' where
  wired := h.wired.of_links hl
  mapped := h.mapped.of_links hl
  standing f hf := by
    rw [allocated_of_links hl, parentRules_of_links hl]
    exact h.standing f hf
  coherent := hco

theorem mono (h : Midway P κ F N R g) (hN : N ⊆ N') (hR : ∀ r ∈ g.rules, r ∈ R → r ∈ R') :
    Midway P κ F N' R' g :=
  ⟨h.wired, h.mapped, h.standing, h.coherent.mono_rules hN hR⟩

end Midway

/-- A loop over the parents of `n` that stands at `i`. -/
theorem Midway.push {i : ℕ} (hn : n ∈ g.allocated) (hr : (g.node n).parentRules[i]? = some r)
    (h : Midway P κ F N (Pending F g ∪ {q | q ∈ (g.node n).parentRules.drop i}) g) :
    Midway P κ ((n, i) :: F) N (insert r (Pending ((n, i) :: F) g)) g where
  wired := h.wired
  mapped := h.mapped
  standing := List.forall_mem_cons.mpr ⟨⟨hn, (List.getElem?_eq_some_iff.mp hr).1⟩, h.standing⟩
  coherent := by
    refine h.coherent.mono (Set.Subset.refl N) ?_
    obtain ⟨hi, rfl⟩ := List.getElem?_eq_some_iff.mp hr
    rw [pending_cons, List.drop_eq_getElem_cons hi]
    rintro q (hq | hq)
    · exact Or.inr (Or.inl hq)
    · exact (List.mem_cons.mp hq).imp_right Or.inr

theorem Midway.pop {i : ℕ} (h : Midway P κ ((n, i) :: F) N (Pending ((n, i) :: F) g) g) :
    Midway P κ F N (Pending F g ∪ {q | q ∈ (g.node n).parentRules.drop (i + 1)}) g :=
  ⟨h.wired, h.mapped, (List.forall_mem_cons.mp h.standing).2, pending_cons n i F g ▸ h.coherent⟩

/-! ## A restored depfile -/

/-- What `κ` says once new nodes have been hashed in the world `w`. -/
def readNew (P : Platform ω) (w : ω) (g : Graph) (κ : String → String) (path : String) : String :=
  if g.nodes.lookup path = none then contentOf P w path else κ path

theorem readNew_old (hm : g.Mapped) (hn : n ∈ g.allocated) :
    readNew P w g κ (g.node n).path = κ (g.node n).path := by
  rw [readNew, if_neg]
  rw [hm n hn]
  exact Option.some_ne_none n

theorem readNew_new {path : String} (h : g.nodes.lookup path = none) :
    readNew P w g κ path = contentOf P w path := by
  rw [readNew, if_pos h]

section Reload

variable (hload : Depfile.Reloading P w g r g₂)
include hload

theorem follows_reload (hm : g.Mapped) (hrun : Relinks P g g₂) (hlater : Later P w₀ w)
    {K : Set NodeId} (hK : ∀ n ∈ K, n ∈ g.allocated) :
    Follows P K κ (g, w₀) (readNew P w g κ) (g₂, w) where
  edits := edits_of_relinks hrun
  later := hlater
  reads path := by
    cases hlookup : g.nodes.lookup path with
    | none => exact Or.inr ⟨w, hlater, readNew_new hlookup⟩
    | some n => exact Or.inl (if_neg (hlookup ▸ Option.some_ne_none n))
  path n hn := hload.proj Node.path (fun _ ↦ rfl) (hK n hn)
  child n hn := hload.proj Node.childRule (fun _ ↦ rfl) (hK n hn)
  content n hn := readNew_old hm (hK n hn)

/-- The loops in progress still come to the rules that they had not come to,
but for the rule that the depfile is about. -/
theorem pending_reload (hF : ∀ f ∈ F, f.1 ∈ g.allocated) (hplace : inPlace F g g₂ = true)
    {q : RuleId} (hq : q ∈ Pending F g) (hne : q ≠ r) : q ∈ Pending F g₂ := by
  obtain ⟨f, hf, hmem⟩ := hq
  have hpre := List.isPrefixOf_iff_prefix.mp (List.all_eq_true.mp hplace f hf)
  exact ⟨f, hf, Lib.mem_drop_of_prefix hpre (hload.parents f.1 (hF f hf)) hne hmem⟩

theorem nodeHashed_reload (hm : g.Mapped) (hchild : (g.node n).childRule ≠ some r)
    (hn : n ∈ g.allocated) (h : NodeHashed P κ g n) :
    NodeHashed P (readNew P w g κ) g₂ n := by
  unfold NodeHashed at h ⊢
  rw [hload.proj Node.childRule (fun _ ↦ rfl) hn, hload.proj Node.path (fun _ ↦ rfl) hn,
    hload.proj Node.hash (fun _ ↦ rfl) hn, hload.proj Node.hashDepfile (fun _ ↦ rfl) hn]
  cases hc : (g.node n).childRule with
  | none =>
      rw [hc] at h
      simp only [readNew_old hm hn]
      exact h
  | some q =>
      rw [hc] at h hchild
      simp only [hload.other q fun heq ↦ hchild (heq ▸ rfl)]
      exact h

theorem ruleHashed_reload (hg : g.Wired) {q : RuleId} (hq : q ∈ g.rules) (hne : q ≠ r)
    (h : RuleHashed P g q) : RuleHashed P g₂ q := by
  have hhash : (g.rule q).inputs.map (fun n ↦ (g₂.node n).hash) =
      (g.rule q).inputs.map (fun n ↦ (g.node n).hash) :=
    List.map_congr_left fun n hn ↦ hload.proj Node.hash (fun _ ↦ rfl) (hg.inputs q hq n hn).2
  have hdeps : (explicitInputs (g.rule q)).map (fun n ↦ (g₂.node n).hashDepfile) =
      (explicitInputs (g.rule q)).map (fun n ↦ (g.node n).hashDepfile) :=
    List.map_congr_left fun n hn ↦
      hload.proj Node.hashDepfile (fun _ ↦ rfl) (hg.inputs q hq n (List.mem_of_mem_take hn)).2
  unfold RuleHashed
  rw [hload.other q hne, hhash, hdeps]
  exact h

omit hload in
theorem standing_reload (hrun : Relinks P g g₂) {f : NodeId × ℕ} (hn : f.1 ∈ g.allocated)
    (hlt : f.2 < (g.node f.1).parentRules.length)
    (hpre : (g.node f.1).parentRules.take (f.2 + 1) <+: (g₂.node f.1).parentRules) :
    f.1 ∈ g₂.allocated ∧ f.2 < (g₂.node f.1).parentRules.length := by
  have hlen := hpre.length_le
  rw [List.length_take, Nat.min_eq_left hlt] at hlen
  refine ⟨Depfile.allocated_of_relinks hrun hn fun hnil ↦ ?_, hlen⟩
  rw [hnil] at hlen
  exact Nat.not_succ_le_zero _ hlen

theorem created_reload (κ : String → String) (hn : n ∈ g₂.allocated) (hnot : n ∉ g.allocated) :
    (g₂.node n).childRule = none ∧
      (g₂.node n).hash = P.digest [(g₂.node n).path, readNew P w g κ (g₂.node n).path] ∧
      (g₂.node n).hashDepfile = (g₂.node n).hash := by
  obtain ⟨hchild, hhash, hdeps, hlookup⟩ := hload.new n hn hnot
  rw [readNew_new hlookup]
  exact ⟨hchild, hhash, hdeps⟩

/-- The rule is hashed with its new inputs; the explicit ones, and what they
make of the depfile hash, are those it had. -/
theorem ruleHashed_rehash (hg : g.Wired) (hrun : Relinks P g g₂) (hr : r ∈ g.rules)
    (hself : RuleHashed P g r) (hupdate : updateRuleHash P g₂ r true false = .ok g₃) :
    RuleHashed P g₃ r := by
  obtain ⟨-, -, rfl⟩ := updateRuleHash_eq_ok.mp hupdate
  have hexplicit : explicitInputs (g₂.rule r) = explicitInputs (g.rule r) :=
    ((Explicit.refl g).edits hg (edits_of_relinks hrun)).inputs r
  have hdeps : (explicitInputs (g.rule r)).map (fun n ↦ (g₂.node n).hashDepfile) =
      (explicitInputs (g.rule r)).map (fun n ↦ (g.node n).hashDepfile) :=
    List.map_congr_left fun n hn ↦
      hload.proj Node.hashDepfile (fun _ ↦ rfl) (hg.inputs r hr n (List.mem_of_mem_take hn)).2
  unfold RuleHashed
  rw [setRule_rule, if_pos rfl]
  refine ⟨rfl, ?_⟩
  change (g₂.rule r).hashDepfile = P.digest
    ((explicitInputs (g₂.rule r)).map (fun n ↦ (g₂.node n).hashDepfile) ++ [(g₂.rule r).command])
  rw [hload.self.1, hload.self.2, hexplicit, hdeps]
  exact hself.2

theorem CoherentBut.reload (hsha : ∀ data, P.digest data ≠ "") (hg : g.Wired) (hm : g.Mapped)
    (hrun : Relinks P g g₂) (hr : r ∈ g.rules) (hself : RuleHashed P g r)
    (hN : ∀ n, (g.node n).childRule = some r → n ∈ N) (hco : CoherentBut P κ g N R)
    (hupdate : updateRuleHash P g₂ r true false = .ok g₃) :
    CoherentBut P (readNew P w g κ) g₃ N R := by
  have hrehashed := ruleHashed_rehash hload hg hrun hr hself hupdate
  have hrules : g₃.rules = g.rules :=
    (rules_of_links (updateRuleHash_links hupdate).1).trans (rules_of_relinks hrun)
  obtain ⟨-, -, hg₃⟩ := updateRuleHash_eq_ok.mp hupdate
  have hnode : g₃.node = g₂.node := hg₃ ▸ rfl
  have hallocated : g₃.allocated = g₂.allocated := hg₃ ▸ rfl
  have hother : ∀ q, q ≠ r → g₃.rule q = g₂.rule q := by
    intro q hq
    rw [← hg₃, setRule_rule, if_neg hq]
  constructor
  · intro n hn hnot
    by_cases hold : n ∈ g.allocated
    · have hne : (g.node n).childRule ≠ some r := fun hc ↦ hnot (hN n hc)
      refine (nodeHashed_reload hload hm hne hold (hco.node n hold hnot)).congr
        (congrFun hnode n) fun q hq ↦ ?_
      rw [hload.proj Node.childRule (fun _ ↦ rfl) hold] at hq
      rw [hother q fun heq ↦ hne (heq ▸ hq)]
      exact ⟨rfl, rfl⟩
    · obtain ⟨hchild, hhash, hdeps⟩ := created_reload hload κ (hallocated ▸ hn) hold
      unfold NodeHashed
      rw [hnode, hchild]
      exact ⟨hhash, hdeps.trans hhash⟩
  · intro q hq hnot
    rw [hrules] at hq
    by_cases hqr : q = r
    · exact hqr ▸ hrehashed
    · exact (ruleHashed_reload hload hg hq hqr (hco.rule q hq hnot)).congr (hother q hqr)
        fun n _ ↦ congrFun hnode n
  · intro n hn hchild
    rw [hnode] at hchild ⊢
    by_cases hold : n ∈ g.allocated
    · rw [hload.proj Node.childRule (fun _ ↦ rfl) hold] at hchild
      rw [hload.proj Node.hashDepfile (fun _ ↦ rfl) hold,
        hload.proj Node.hash (fun _ ↦ rfl) hold]
      exact hco.source n hold hchild
    · exact (created_reload hload κ (hallocated ▸ hn) hold).2.2
  · intro n hn
    rw [hnode]
    by_cases hold : n ∈ g.allocated
    · rw [hload.proj Node.hashDepfile (fun _ ↦ rfl) hold,
        hload.proj Node.hash (fun _ ↦ rfl) hold]
      exact hco.node_hash n hold
    · obtain ⟨-, hhash, hdeps⟩ := created_reload hload κ (hallocated ▸ hn) hold
      rw [hdeps, hhash]
      exact ⟨hsha _, hsha _⟩
  · intro q hq
    rw [hrules] at hq
    by_cases hqr : q = r
    · subst hqr
      rw [hrehashed.1, hrehashed.2]
      exact ⟨hsha _, hsha _⟩
    · rw [hother q hqr, hload.other q hqr]
      exact hco.rule_hash q hq

end Reload

/-! ## The steps of a run -/

/-- The loop over the parents of `n` that began in `s` stands at `i`: the parents
before that have been hashed. -/
def Iterating (P : Platform ω) (F : Frames) (N : Set NodeId) (κ : String → String)
    (s : Graph × ω) (n : NodeId) (i : ℕ) (t : Graph × ω) : Prop :=
  n ∈ t.1.allocated ∧ ∃ κ', Follows P (insert n (looped F)) κ s κ' t ∧
    Midway P κ' F N (Pending F t.1 ∪ {q | q ∈ (t.1.node n).parentRules.drop i}) t.1

namespace Advance

variable {K : Set NodeId} {s s' : Graph × ω}

theorem trans {κ'' : String → String} {s'' : Graph × ω} (h : Advance P F K N κ s κ' s')
    (h' : Advance P F K N' κ' s' κ'' s'') : Advance P F K N' κ s κ'' s'' :=
  ⟨h.follows.trans h'.follows, h'.midway⟩

theorem mono (h : Advance P F K N κ s κ' s') (hN : N ⊆ N') : Advance P F K N' κ s κ' s' :=
  ⟨h.follows, h.midway.mono hN fun _ _ hq ↦ hq⟩

end Advance

section Digest

variable (hsha : ∀ data, P.digest data ≠ "")
include hsha

/-- The rule is coherent before the depfile is restored, and afterwards. -/
theorem checkedRestore_advance {tmp : String} {s : Graph × ω} (hr : r ∈ g.rules)
    (hN : ∀ n, (g.node n).childRule = some r → n ∈ N)
    (h : Midway P κ F N (Pending F g \ {r}) g) (hrun : checkedRestore P capacity F tmp g w r = .ok s) :
    ∃ κ', Advance P F (looped F) N κ (g, w) κ' s := by
  obtain ⟨hrestore, hplace⟩ := restoreDepfile_of_checked hrun
  obtain ⟨g', w'⟩ := s
  obtain ⟨rfl, hworld⟩ | ⟨loaded, k, -, -, hcache, hfile, hupdate⟩ := restoreDepfile_ok hrestore
  · have hlater : Later P w w' := by
      rcases hworld with rfl | hcache
      · exact .refl
      · exact .single ⟨g', r, false, hcache⟩
    exact ⟨κ, .of_links .refl hlater rfl, h.mono (Set.Subset.refl N) fun q _ hq ↦ hq.1⟩
  have hload := Depfile.loadFromfile_reloading h.wired h.mapped hr hfile
  have hrelinks := Depfile.loadFromfile_relinks h.wired hr hfile
  have hl := (updateRuleHash_links hupdate).1
  have hplaceMid : inPlace F g k = true := by
    simpa only [inPlace, parentRules_of_links hl] using hplace
  have hallocated : ∀ f ∈ F, f.1 ∈ g.allocated := fun f hf ↦ (h.standing f hf).1
  have hself : RuleHashed P g r := h.coherent.rule r hr fun hin ↦ hin.2 rfl
  have hco := h.coherent.reload hload hsha h.wired h.mapped hrelinks hr hself hN hupdate
  have hfollows : Follows P (looped F) κ (g, w) (readNew P w' g κ) (k, w') :=
    follows_reload hload h.mapped hrelinks (.single ⟨g, r, true, hcache⟩) fun n hn ↦ by
      obtain ⟨f, hf, rfl⟩ := hn
      exact hallocated f hf
  have hrehash : Follows P (looped F) (readNew P w' g κ) (k, w') (readNew P w' g κ) (g', w') :=
    .of_links (.single (.hashRule hupdate)) .refl hl
  refine ⟨readNew P w' g κ, hfollows.trans hrehash, ?_, ?_, fun f hf ↦ ?_, ?_⟩
  · exact (h.wired.relinks hrelinks).of_links hl
  · exact hload.mapped.of_links hl
  · rw [allocated_of_links hl, parentRules_of_links hl]
    have hpre := List.isPrefixOf_iff_prefix.mp (List.all_eq_true.mp hplaceMid f hf)
    exact standing_reload hrelinks (hallocated f hf) (h.standing f hf).2 hpre
  · refine hco.mono_rules (Set.Subset.refl N) fun q _ hq ↦ ?_
    rw [pending_of_links hl]
    exact pending_reload hload hallocated hplaceMid hq.1 hq.2

theorem checkedRuleHash_advance {checked : Graph × ω → NodeId → Outcome (Graph × ω)}
    {s s' : Graph × ω} (hr : r ∈ s.1.rules)
    (hnode : ∀ o N κ t t', o ∈ t.1.allocated → (t.1.node o).childRule = some r →
      Midway P κ F (insert o N) (Pending F t.1) t.1 → checked t o = .ok t' →
        ∃ κ', Advance P F (looped F) N κ t κ' t')
    (h : Midway P κ F N (insert r (Pending F s.1)) s.1)
    (hrun : checkedRuleHash P capacity F checked s r = .ok s') :
    ∃ κ', Advance P F (looped F) N κ s κ' s' := by
  obtain ⟨g₁, hupdate, hrun⟩ := Lib.bind_eq_ok.mp hrun
  obtain ⟨s₁, hrestore, hloop⟩ := Lib.bind_eq_ok.mp hrun
  have hl := (updateRuleHash_links hupdate).1
  have hin : ∀ n ∈ (s.1.rule r).inputs, n ∈ s.1.allocated := fun n hn ↦ (h.wired.inputs r hr n hn).2
  have hco : CoherentBut P κ s.1 N (insert r (Pending F s.1 \ {r})) :=
    h.coherent.mono (Set.Subset.refl N) (by simp)
  obtain ⟨g₁', hupdate', hco₁⟩ := updateRuleHash_coherent hsha hr hin hco
  obtain rfl : g₁ = g₁' := Except.ok.inj (hupdate.symm.trans hupdate')
  have hr₁ : r ∈ g₁.rules := by
    rw [rules_of_links hl]
    exact hr
  have hout₁ : ∀ n, (g₁.node n).childRule = some r →
      n ∈ N ∪ {n | (s.1.node n).childRule = some r} := by
    intro n hn
    rw [childRule_of_links hl] at hn
    exact Or.inr hn
  have h₁ : Midway P κ F (N ∪ {n | (s.1.node n).childRule = some r}) (Pending F g₁ \ {r}) g₁ :=
    h.of_links hl (pending_of_links hl F ▸ hco₁)
  obtain ⟨κ₁, hrestored⟩ := checkedRestore_advance hsha hr₁ hout₁ h₁ hrestore
  have hedits₁ : Edits P s.1 s₁.1 := .head (.hashRule hupdate) hrestored.follows.edits
  have hexplicit : ∀ {t : Graph}, Edits P s.1 t → Explicit s.1 t :=
    (Explicit.refl s.1).edits h.wired
  have houts := (hexplicit hedits₁).outputs r
  -- What the rule has left to be hashed are its outputs.
  have hchild : {n | (s.1.node n).childRule = some r} ⊆
      {n | n ∈ (s₁.1.rule r).outputs ∧ n ∉ ([] : List NodeId)} := by
    intro n hn
    rw [Set.mem_ofPred_eq, houts]
    exact ⟨(h.wired.child n r hn).2.1, List.not_mem_nil⟩
  have hrehash : Follows P (looped F) κ s κ (g₁, s.2) :=
    .of_links (.single (.hashRule hupdate)) .refl hl
  have hstart : Advance P F (looped F)
      (N ∪ {n | n ∈ (s₁.1.rule r).outputs ∧ n ∉ ([] : List NodeId)}) κ s κ₁ s₁ :=
    ⟨hrehash.trans hrestored.follows,
      hrestored.midway.mono (Set.union_subset_union_right N hchild) fun _ _ hq ↦ hq⟩
  have houtput : ∀ pre o post (t t' : Graph × ω), (s₁.1.rule r).outputs = pre ++ o :: post →
      (∃ κ', Advance P F (looped F) (N ∪ {n | n ∈ (s₁.1.rule r).outputs ∧ n ∉ pre}) κ s κ' t) →
      checked t o = .ok t' → ∃ κ', Advance P F (looped F)
        (N ∪ {n | n ∈ (s₁.1.rule r).outputs ∧ n ∉ pre ++ [o]}) κ s κ' t' := by
    rintro pre o post t t' heq ⟨κ₂, ht⟩ hstep
    have hmem : o ∈ (t.1.rule r).outputs := by
      rw [(hexplicit ht.follows.edits).outputs r, ← houts, heq]
      exact List.mem_append_right pre List.mem_cons_self
    have hrt : r ∈ t.1.rules := by
      rw [rules_of_edits ht.follows.edits]
      exact hr
    have ho := ht.midway.wired.outputs r hrt o hmem
    obtain ⟨κ₃, ht'⟩ := hnode o _ κ₂ t t' (ht.midway.wired.child o r ho).2.2 ho
      (ht.midway.mono (pending_snoc o) fun _ _ hq ↦ hq) hstep
    exact ⟨κ₃, ht.trans ht'⟩
  obtain ⟨κ', hdone⟩ := Lib.foldlM_prefix
    (fun pre (t : Graph × ω) ↦ ∃ κ', Advance P F (looped F)
      (N ∪ {n | n ∈ (s₁.1.rule r).outputs ∧ n ∉ pre}) κ s κ' t) ⟨κ₁, hstart⟩ houtput hloop
  exact ⟨κ', hdone.mono pending_self⟩

/-- Whatever the vectors of parents look like by then, no rule is passed over. -/
theorem checkedNodeHash_advance {fuel : ℕ} {s : Graph × ω} {x : Bool × Graph × ω}
    (hn : n ∈ s.1.allocated) (hκ : (s.1.node n).childRule = none →
      κ (s.1.node n).path = contentOf P s.2 (s.1.node n).path)
    (h : Midway P κ F (insert n N) (Pending F s.1) s.1)
    (hrun : checkedNodeHash P capacity fuel F s n = .ok x) :
    n ∈ x.2.1.allocated ∧ ∃ κ', Advance P F (insert n (looped F)) N κ s κ' x.2 := by
  induction fuel generalizing F s n N κ x with
  | zero => cases hrun
  | succ fuel ih =>
      obtain ⟨g, w⟩ := s
      rw [checkedNodeHash] at hrun
      obtain ⟨⟨changed, g₁⟩, hupdate, hrun⟩ := Lib.bind_eq_ok.mp hrun
      obtain ⟨changed', g₁', hupdate', hsame, hco⟩ := updateNodeHash_coherent hsha hn
        (fun r hr ↦ (h.wired.child n r hr).1) hκ h.coherent
      obtain ⟨rfl, rfl⟩ := Prod.mk.inj (Except.ok.inj (hupdate.symm.trans hupdate'))
      have hl := (updateNodeHash_links hupdate).1
      have hn₁ : n ∈ g₁.allocated := by
        rw [allocated_of_links hl]
        exact hn
      have hrehash : Follows P (insert n (looped F)) κ (g, w) κ (g₁, w) :=
        .of_links (.single (.hashNode hupdate)) .refl hl
      cases changed with
      | false =>
          obtain ⟨hg₁, hdone⟩ := hsame rfl
          obtain rfl : (false, g₁, w) = x := Except.ok.inj hrun
          refine ⟨hn₁, κ, hrehash, h.of_links hl ?_⟩
          rw [pending_of_links hl]
          exact hdone
      | true =>
          obtain ⟨s', hloop, hx⟩ := Lib.bind_eq_ok.mp hrun
          obtain rfl : (true, s') = x := Except.ok.inj hx
          have husers : CoherentBut P κ g₁ N
              (Pending F g₁ ∪ {q | q ∈ (g₁.node n).parentRules.drop 0}) := by
            refine hco.mono_rules (Set.Subset.refl N) fun r hr hin ↦ ?_
            rw [pending_of_links hl, parentRules_of_links hl]
            rw [rules_of_links hl] at hr
            exact hin.imp_right fun hmem ↦ (h.wired.inputs r hr n hmem).1
          have houtput : ∀ i r o N κ (u u' : Graph × ω), o ∈ u.1.allocated →
              (u.1.node o).childRule = some r →
              Midway P κ ((n, i) :: F) (insert o N) (Pending ((n, i) :: F) u.1) u.1 →
              (do
                let (_, u) ← checkedNodeHash P capacity fuel ((n, i) :: F) u o
                pure u) = .ok u' →
              ∃ κ', Advance P ((n, i) :: F) (looped ((n, i) :: F)) N κ u κ' u' := by
            intro i r o N κ u u' ho hchild hu hbind
            obtain ⟨y, hrec, hu'⟩ := Lib.bind_eq_ok.mp hbind
            obtain rfl : y.2 = u' := Except.ok.inj hu'
            have hnone : (u.1.node o).childRule ≠ none := hchild ▸ Option.some_ne_none r
            obtain ⟨-, κ₃, ho'⟩ := ih ho (fun hc ↦ absurd hc hnone) hu hrec
            exact ⟨κ₃, ho'.follows.mono (Set.subset_insert o _), ho'.midway⟩
          have hstart : Iterating P F N κ (g, w) n 0 (g₁, w) :=
            ⟨hn₁, κ, hrehash, h.of_links hl husers⟩
          have hstep : ∀ i (t : Graph × ω) r t', (t.1.node n).parentRules[i]? = some r →
              Iterating P F N κ (g, w) n i t →
              checkedRuleHash P capacity ((n, i) :: F) (fun s m ↦ do
                let (_, s) ← checkedNodeHash P capacity fuel ((n, i) :: F) s m
                pure s) t r = .ok t' → Iterating P F N κ (g, w) n (i + 1) t' := by
            rintro i t r t' hr ⟨hnt, κ₁, hfollows, hmidway⟩ hbody
            have hrule := hmidway.wired.parents n r (List.mem_of_getElem? hr)
            obtain ⟨κ₂, hstep⟩ := checkedRuleHash_advance hsha hrule (houtput i r)
              (hmidway.push hnt hr) hbody
            rw [looped_cons] at hstep
            exact ⟨(hstep.midway.standing (n, i) List.mem_cons_self).1, κ₂,
              hfollows.trans hstep.follows, hstep.midway.pop⟩
          obtain ⟨j, ⟨hn', κ', hfollows, hmidway⟩, hend⟩ :=
            Lib.liveLoopAt_rule (Iterating P F N κ (g, w) n) hstep hstart hloop
          refine ⟨hn', κ', hfollows, hmidway.mono (Set.Subset.refl N) fun q _ hq ↦ ?_⟩
          rw [List.drop_of_length_le hend] at hq
          exact hq.resolve_right List.not_mem_nil

end Digest

/-! ## The whole call -/

/-- No user of `n` has been passed over, and the rest of the graph follows. -/
structure AllRehashed (P : Platform ω) (κ : String → String) (w : ω) (g : Graph) (n : NodeId)
    (g' : Graph) : Prop where
  hash : (g'.node n).hash = P.digest [(g.node n).path, contentOf P w (g.node n).path]
  users : ∀ r ∈ g'.rules, n ∈ (g'.rule r).inputs → RuleHashed P g' r
  coherent : ∃ κ', Reads P w κ κ' ∧ κ' (g.node n).path = contentOf P w (g.node n).path ∧
    Coherent P κ' g'

/-- The loops over the parents may lose rules that they have not come to, and get
new ones. -/
theorem allRehashed_of_checked {fuel : ℕ} {changed : Bool}
    (hlength : ∀ s, (P.sha256 s).length = 32) (hg : g.Wired) (hm : g.Mapped)
    (hn : n ∈ g.allocated) (hsource : (g.node n).childRule = none)
    (hco : CoherentBut P κ g {n} ∅) (hκ : κ (g.node n).path = contentOf P w (g.node n).path)
    (hrun : recomputeNodeHash P true true fuel (g, w) n = .ok (changed, g', w'))
    (hvalid : checkedNodeHash P capacity fuel [] (g, w) n ≠ .error invalidIterator) :
    AllRehashed P κ w g n g' := by
  have hchecked : checkedNodeHash P capacity fuel [] (g, w) n = .ok (changed, g', w') :=
    ((checked_recomputeNodeHash [] (g, w) n).resolve_right hvalid).trans hrun
  have hstart : Midway P κ [] (insert n ∅) (Pending [] g) g :=
    ⟨hg, hm, fun f hf ↦ absurd hf List.not_mem_nil, hco.mono (by simp) (Set.empty_subset _)⟩
  obtain ⟨hn', κ', hfollows, hmidway⟩ :=
    checkedNodeHash_advance (Platform.digest_ne_empty hlength) hn (fun _ ↦ hκ) hstart hchecked
  have hself : n ∈ insert n (looped []) := Set.mem_insert n _
  have hpath : (g'.node n).path = (g.node n).path := hfollows.path n hself
  have hchild : (g'.node n).childRule = none := (hfollows.child n hself).trans hsource
  have hcontent : κ' (g.node n).path = contentOf P w (g.node n).path :=
    (hfollows.content n hself).trans hκ
  have hdone : Coherent P κ' g' := by
    refine hmidway.coherent.mono (Set.Subset.refl ∅) fun q hq ↦ ?_
    obtain ⟨f, hf, -⟩ := hq
    exact absurd hf List.not_mem_nil
  refine ⟨?_, fun r hr _ ↦ hdone.rule r hr (Set.notMem_empty r), κ', hfollows.reads, hcontent,
    hdone⟩
  have hhashed := hdone.node n hn' (Set.notMem_empty n)
  unfold NodeHashed at hhashed
  rw [hchild, hpath, hcontent] at hhashed
  exact hhashed.1

/-! ## A header that two generators share -/

/-- The bytes of a string as the digits of a number, modulo 65521. -/
def checksum (s : String) : ℕ :=
  s.toUTF8.data.toList.foldl (fun sum b ↦ sum * 256 + b.toNat) 0 % 65521

/-- The SHA-256 digests of what is hashed below, by the checksums. -/
def genDigests : List (ℕ × ℕ) :=
  [(9362, 0x10eb6fd0b259422d31e37fede5219c59705059b0643d5f052713d877049a574c), -- n.def
   (56419, 0xe6eaf6b4b727aff5368a1de7eff849f4f728cbdcfd9397d97e833afbc53e136b), -- mkhdr
   (7354, 0x6b94a1c5f6928aafe9521f1d86bf0dfb97de9083e7ab2dc246f9945bc617b828), -- k.h
   (14518, 0xb81a828e7462a7427d8fbf0b912f192f0137e099b87ba7b096d44a3c8230633a), -- mksrc
   (20829, 0x31525042f755118d4e4e6f1081d3ea3ee955dfeeeccf7ea9ca0befff3f1052f4), -- mksrc n.def
   (2331, 0x669e2e5bbbf07d5da75c2287742a0fc54ae24e640fb542f6a71cc4d282de474c), -- y.c
   (4941, 0x80fef9efb279dc7b18d5ddefde7fe5fbcf88f43128f6362013f3cef285f6ff21), -- y.c, explicit
   (57098, 0xb7c445459b6dd500cb349c6be09e31f4a8311e7430ccb23f0ebefc851742d50c), -- cc y.c k.h n.def
   (63316, 0x4a367333c15356961be89605dca27639231ac6be185736603588c0e5879f27a2), -- cc y.c, explicit
   (22462, 0x319a62ae64dd7b7e34d0b1334f50e8c0451b51b219473b321a5df4939955a46d), -- r.o
   (14994, 0x18783a1939cc70f869ae73018f03cd4c8e8aba9c41053b2737994b0c7089a430), -- r.o, explicit
   (31369, 0x6d090e5b6dd48c3fd02207d4c5ee90ed1059629dab60b6b3b687e095cc41a000), -- s.c
   (34217, 0x7fb6f96c63482c61856951075db9bbd81ba0827240b8ed2333e0637dc1e1e681), -- cc s.c
   (63033, 0x5c0c12fe1af8c10e28eccae7a654d12faf2209d3cf115c751ce2a9052c362222), -- cc s.c, explicit
   (319, 0x8f4ae4cb691343603868f61c6735b76a18a2c636846cb29ff5dcb7747fdbdc29), -- s.o
   (61630, 0x74c045c12570e389f76b8b40f1ceb519568280d965aebb8365338f147c74e02d), -- s.o, explicit
   -- after the edit
   (9363, 0xf0231dd07a3664be281467149c54c9882317cb4c0a796165bc235bb2a8433e74), -- n.def
   (11869, 0xbbc69426408de87bcb1ae40a8ebd620751e0e9b67405fb7d6736498a5e5b9f34), -- mkhdr
   (45335, 0xb1ca6c1ae13ef400a1e2ce0b8d4e58c803217afa4b815000ad0dd7616c8c8e82), -- k.h
   (20704, 0x8dfc570d0955484bae1d30bc88fe8b843f026cb3928c65f6d5f914ee62db232e), -- cc y.c, too early
   (40253, 0xfe2851cce00f61db97bf7a03e9eac54e5a87751f78f2995839e1b7c05c59be4b), -- r.o
   (2505, 0xfd8b0a5781efe57dc60badbfef049d85fdc892575a7c7ad83db47f5e7371c00e), -- mksrc
   (41800, 0xeda9b20f7fd6963828239603c6746d0e327707baef7f0cf92eaaf5032e276594), -- mksrc n.def
   (28108, 0xf592c7cbf70fb5a4f424c1c796e4ddadb1feb74672b955f8ae8047160e5da3d1), -- y.c
   (39555, 0x9d9c5482f6614323d423676739d9cce90d9b8d04c72905c959eb4941b0fe31bd), -- y.c, explicit
   (26366, 0xc0dc78eaad81fb603d82afba40b12f3f3ce7cfca3a1a65c54271b5754cc4b951), -- cc y.c k.h n.def
   (10555, 0x2da5483d89d30ba3d229d0161f57252746d0294cb5afbfac7287aefd0dad4e51), -- cc y.c, explicit
   (63037, 0x57759f69e6e85ba9a5f51901aec5bfc55dba99e4790582476496a4735cd35912), -- r.o
   (44152, 0xdfdf29b315270aa10bd8d1b52d5bc8ceadb350201a4b320fab788f74eed84cc4), -- r.o, explicit
   (26894, 0xcc06964f1e7781e945f02fdc90574f899a1566686ee73e2a49436e426016f2fb), -- cc y.c k.h
   (46354, 0x8ae30d5bdfcff41dd6830e3f5f0f57f66fff12032d6703e511e8cecd05b84009), -- r.o
   (2582, 0x03ff27bbd212288ca1165ae224b8233d8024368a555ebd5679fd833e1266d548), -- cc y.c
   (51770, 0x2de7a1cb50c6e00d7da173b70daa69e8de17eb2916b2553a61b13bd22acef184), -- r.o
   (50394, 0x8b18c783c43baec9aef5f7d08fa62298e76490e285ded4fc1a2b512005d25b91), -- cc s.c
   (28656, 0x57c12cedd731b7ffa3436607610c29d73bcac5f4d583b13d90b3b809d96131d6)] -- s.o

/-- `n.def` is what `k.h` and `y.c` are generated from; the depfiles say that `y.c`,
`r.o` and `s.o` need `k.h`, and that `r.o` needs `n.def`. -/
def genGraph : Graph where
  node
    | 0 => { Node.create "n.def" true false with
        parentRules := [0, 1, 2]
        hash := "10eb6fd0b259422d31e37fede5219c59705059b0643d5f052713d877049a574c"
        hashDepfile := "10eb6fd0b259422d31e37fede5219c59705059b0643d5f052713d877049a574c" }
    | 1 => { Node.create "k.h" true false with
        childRule := some 0, parentRules := [2, 1, 3]
        hash := "6b94a1c5f6928aafe9521f1d86bf0dfb97de9083e7ab2dc246f9945bc617b828"
        hashDepfile := "6b94a1c5f6928aafe9521f1d86bf0dfb97de9083e7ab2dc246f9945bc617b828" }
    | 2 => { Node.create "y.c" true false with
        childRule := some 1, parentRules := [2]
        hash := "669e2e5bbbf07d5da75c2287742a0fc54ae24e640fb542f6a71cc4d282de474c"
        hashDepfile := "80fef9efb279dc7b18d5ddefde7fe5fbcf88f43128f6362013f3cef285f6ff21" }
    | 3 => { Node.create "r.o" true false with
        childRule := some 2
        hash := "319a62ae64dd7b7e34d0b1334f50e8c0451b51b219473b321a5df4939955a46d"
        hashDepfile := "18783a1939cc70f869ae73018f03cd4c8e8aba9c41053b2737994b0c7089a430" }
    | 4 => { Node.create "s.o" true false with
        childRule := some 3
        hash := "8f4ae4cb691343603868f61c6735b76a18a2c636846cb29ff5dcb7747fdbdc29"
        hashDepfile := "74c045c12570e389f76b8b40f1ceb519568280d965aebb8365338f147c74e02d" }
    | 5 => { Node.create "s.c" true false with
        parentRules := [3]
        hash := "6d090e5b6dd48c3fd02207d4c5ee90ed1059629dab60b6b3b687e095cc41a000"
        hashDepfile := "6d090e5b6dd48c3fd02207d4c5ee90ed1059629dab60b6b3b687e095cc41a000" }
    | _ => Node.create "" true false
  rule
    | 0 => { Rule.create [0] [1] with
        command := "mkhdr n.def > k.h"
        numInputsReady := 1
        hash := "e6eaf6b4b727aff5368a1de7eff849f4f728cbdcfd9397d97e833afbc53e136b"
        hashDepfile := "e6eaf6b4b727aff5368a1de7eff849f4f728cbdcfd9397d97e833afbc53e136b" }
    | 1 => { Rule.create [0, 1] [2] with
        command := "mksrc n.def > y.c", depfile := "y.d", numImplicitDeps := 1
        numInputsReady := 2
        hash := "b81a828e7462a7427d8fbf0b912f192f0137e099b87ba7b096d44a3c8230633a"
        hashDepfile := "31525042f755118d4e4e6f1081d3ea3ee955dfeeeccf7ea9ca0befff3f1052f4" }
    | 2 => { Rule.create [2, 1, 0] [3] with
        command := "cc -c y.c -o r.o", depfile := "r.d", numImplicitDeps := 2
        numInputsReady := 3
        hash := "b7c445459b6dd500cb349c6be09e31f4a8311e7430ccb23f0ebefc851742d50c"
        hashDepfile := "4a367333c15356961be89605dca27639231ac6be185736603588c0e5879f27a2" }
    | 3 => { Rule.create [5, 1] [4] with
        command := "cc -c s.c -o s.o", depfile := "s.d", numImplicitDeps := 1
        numInputsReady := 2
        hash := "7fb6f96c63482c61856951075db9bbd81ba0827240b8ed2333e0637dc1e1e681"
        hashDepfile := "5c0c12fe1af8c10e28eccae7a654d12faf2209d3cf115c751ce2a9052c362222" }
    | _ => Rule.create [] []
  roots := {3, 4}
  sources := {0, 5}
  nodes := [("n.def", 0), ("k.h", 1), ("y.c", 2), ("r.o", 3), ("s.o", 4), ("s.c", 5)]
  rules := [0, 1, 2, 3]
  allocated := {0, 1, 2, 3, 4, 5}

/-- `text` is what the cache has for `r.d`. -/
def genPlatform (text : String) : Platform Unit :=
  { headerPlatform with
    readFile := fun _ path ↦ [("n.def", "1"), ("s.c", "int s;"), ("y.d", "y.c: n.def k.h"),
      ("r.d", text)].lookup path
    sha256 := fun s ↦ digestBytes ((genDigests.lookup (checksum s)).getD 0)
    restoreDepfile := fun _ r w ↦ .ok (r = 1 || r = 2, w) }

def genDigest (data : List String) : String :=
  hexString (digestBytes ((genDigests.lookup (checksum (String.join data))).getD 0))

theorem digest_genPlatform (text : String) : (genPlatform text).digest = genDigest := rfl

theorem genGraph_allocated {n : NodeId} (hn : n ∈ genGraph.allocated) :
    n = 0 ∨ n = 1 ∨ n = 2 ∨ n = 3 ∨ n = 4 ∨ n = 5 := by
  simpa [genGraph] using hn

theorem twoWay_genGraph : genGraph.links.TwoWay :=
  @Links.twoWay_of_bounded _ 6 (fun _ ↦ ⟨rfl, rfl⟩) (by decide) (by decide)

/-- The only input with a greater number than its output is a source file. -/
theorem acyclic_genGraph : genGraph.links.Acyclic :=
  twoWay_genGraph.acyclic_of_rank (fun n ↦ if n = 5 then 0 else n) (by decide)

theorem linked_genGraph : genGraph.Linked where
  twoWay := twoWay_genGraph
  acyclic := acyclic_genGraph
  allocated := by
    have hall : ∀ r ∈ genGraph.rules, ∀ n ∈ (genGraph.rule r).inputs ++ (genGraph.rule r).outputs,
        n ∈ genGraph.allocated := by decide
    exact fun r hr n hn ↦ hall r hr n (List.mem_append.mpr hn)
  lookup := by decide
  nodes := by decide
  roots := by rintro (_ | _ | _ | _ | _ | _ | n) <;> simp [genGraph, Node.create]
  sources := by rintro (_ | _ | _ | _ | _ | _ | n) <;> simp [genGraph, Node.create]
  output := by decide
  phony_output := by decide

/-- Only the hash of `n.def` is not that of its file. -/
theorem coherentBut_genGraph (text : String) :
    CoherentBut (genPlatform text) (contentOf (genPlatform text) ()) genGraph {0} ∅ where
  node n hn hnot := by
    have hsource : (genGraph.node 5).hash = genDigest ["s.c", "int s;"] ∧
        (genGraph.node 5).hashDepfile = genDigest ["s.c", "int s;"] := by decide +kernel
    have htarget : ∀ r ∈ genGraph.rules, (genGraph.node (r + 1)).hash =
          genDigest [(genGraph.node (r + 1)).path, (genGraph.rule r).hash] ∧
        (genGraph.node (r + 1)).hashDepfile =
          genDigest [(genGraph.node (r + 1)).path, (genGraph.rule r).hashDepfile] := by
      decide +kernel
    unfold NodeHashed
    rw [digest_genPlatform]
    rcases genGraph_allocated hn with rfl | rfl | rfl | rfl | rfl | rfl
    · exact absurd rfl hnot
    · exact htarget 0 (by decide)
    · exact htarget 1 (by decide)
    · exact htarget 2 (by decide)
    · exact htarget 3 (by decide)
    · exact hsource
  rule r hr _ := by
    have hall : ∀ r ∈ genGraph.rules, (genGraph.rule r).hash = genDigest
          ((genGraph.rule r).inputs.map (fun n ↦ (genGraph.node n).hash) ++
            [(genGraph.rule r).command]) ∧
        (genGraph.rule r).hashDepfile = genDigest
          ((explicitInputs (genGraph.rule r)).map (fun n ↦ (genGraph.node n).hashDepfile) ++
            [(genGraph.rule r).command]) := by decide +kernel
    exact hall r hr
  source := by decide
  node_hash := by decide
  rule_hash := by decide

/-- The cache has a depfile of `r.o` without `n.def`, and the rule leaves the
parents of `n.def`, where it stands behind the loop. -/
theorem allRehashed_genGraph : ∃ changed g',
    recomputeNodeHash (genPlatform "r.o: y.c k.h") true true 5 (genGraph, ()) 0 =
      .ok (changed, g', ()) ∧ 0 ∈ (genGraph.rule 2).inputs ∧ 0 ∉ (g'.rule 2).inputs ∧
    AllRehashed (genPlatform "r.o: y.c k.h") (contentOf (genPlatform "r.o: y.c k.h") ()) ()
      genGraph 0 g' := by
  have hchecked : (do
      let (_, g', _) ← checkedNodeHash (genPlatform "r.o: y.c k.h") (fun _ ↦ 4) 5 []
        (genGraph, ()) 0
      pure (decide (0 ∉ (g'.rule 2).inputs)) : Outcome Bool) = .ok true := by decide +kernel
  obtain ⟨⟨changed, g', w'⟩, hvalid, hgone⟩ := Lib.bind_eq_ok.mp hchecked
  have hne : checkedNodeHash (genPlatform "r.o: y.c k.h") (fun _ ↦ 4) 5 [] (genGraph, ()) 0 ≠
      .error invalidIterator := by
    rw [hvalid]
    exact fun h ↦ by cases h
  have hrun := ((checked_recomputeNodeHash [] (genGraph, ()) 0).resolve_right hne).symm.trans hvalid
  exact ⟨changed, g', hrun, by decide, of_decide_eq_true (Except.ok.inj hgone),
    allRehashed_of_checked (fun _ ↦ length_digestBytes _) linked_genGraph.wired
      linked_genGraph.mapped (by decide) rfl (coherentBut_genGraph _) rfl hrun hne⟩

/-- The loop over the parents of `k.h` is at its second position when the rule at
the first is taken out, and does not come to the third. -/
theorem not_allRehashed_genGraph : ¬ ∀ (P : Platform Unit) (κ : String → String) (g : Graph)
    (n : NodeId) (fuel : ℕ) (changed : Bool) (g' : Graph),
    (∀ s, (P.sha256 s).length = 32) → g.Linked → n ∈ g.allocated →
    (g.node n).childRule = none → CoherentBut P κ g {n} ∅ →
    κ (g.node n).path = contentOf P () (g.node n).path →
    recomputeNodeHash P true true fuel (g, ()) n = .ok (changed, g', ()) →
    (∃ r ∈ g.rules, ¬ (n ∈ (g'.rule r).inputs ↔ n ∈ (g.rule r).inputs)) →
    AllRehashed P κ () g n g' := by
  intro h
  have hrun : (do
      let (_, g', _) ← recomputeNodeHash (genPlatform "r.o: y.c") true true 5 (genGraph, ()) 0
      pure (decide (0 ∉ (g'.rule 2).inputs ∧ 3 ∈ g'.rules ∧ (g'.rule 3).hash ≠
        (genPlatform "r.o: y.c").digest ((g'.rule 3).inputs.map (fun n ↦ (g'.node n).hash) ++
          [(g'.rule 3).command]))) : Outcome Bool) = .ok true := by decide +kernel
  obtain ⟨⟨changed, g', w'⟩, hrun, hfacts⟩ := Lib.bind_eq_ok.mp hrun
  obtain ⟨hgone, hmem, hstale⟩ := of_decide_eq_true (Except.ok.inj hfacts)
  have hall := h (genPlatform "r.o: y.c") _ genGraph 0 5 changed g'
    (fun _ ↦ length_digestBytes _) linked_genGraph (by decide) rfl (coherentBut_genGraph _) rfl
    hrun ⟨2, by decide, fun hiff ↦ hgone (hiff.mpr (by decide))⟩
  obtain ⟨κ', -, -, hco⟩ := hall.coherent
  exact hstale (hco.rule 3 hmem (Set.notMem_empty 3)).1

end Falcon.Hash
