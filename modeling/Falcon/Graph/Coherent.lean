import Falcon.Graph.Rehash

/-!
# Coherent hashes

The hashes of a graph are coherent with the files on disk if computing any of
them again would not change it.  After a source file has changed, all hashes
but its own are coherent with the files; `recomputeNodeHash` brings the rest
of the graph up to date.
-/

namespace Falcon.Hash

variable {ω : Type} (P : Platform ω)

/-- What the hash of a source file is computed from. -/
def contentOf (w : ω) (path : String) : String := (P.readFile w path).getD ""

/-- The hashes of a node are what they should be if `κ` gives the contents of
the source files. -/
def NodeHashed (κ : String → String) (g : Graph) (n : NodeId) : Prop :=
  match (g.node n).childRule with
  | none =>
    (g.node n).hash = P.digest [(g.node n).path, κ (g.node n).path] ∧
      (g.node n).hashDepfile = P.digest [(g.node n).path, κ (g.node n).path]
  | some r =>
    (g.node n).hash = P.digest [(g.node n).path, (g.rule r).hash] ∧
      (g.node n).hashDepfile = P.digest [(g.node n).path, (g.rule r).hashDepfile]

def RuleHashed (g : Graph) (r : RuleId) : Prop :=
  (g.rule r).hash =
      P.digest ((g.rule r).inputs.map (fun n ↦ (g.node n).hash) ++ [(g.rule r).command]) ∧
    (g.rule r).hashDepfile = P.digest
      ((explicitInputs (g.rule r)).map (fun n ↦ (g.node n).hashDepfile) ++ [(g.rule r).command])

/-- All hashes have been computed, and those outside of `N` and `R` are coherent
with the sources and with each other. -/
structure CoherentBut (κ : String → String) (g : Graph) (N : Set NodeId)
    (R : Set RuleId) : Prop where
  node : ∀ n ∈ g.allocated, n ∉ N → NodeHashed P κ g n
  rule : ∀ r ∈ g.rules, r ∉ R → RuleHashed P g r
  source : ∀ n ∈ g.allocated, (g.node n).childRule = none → (g.node n).hashDepfile = (g.node n).hash
  node_hash : ∀ n ∈ g.allocated, (g.node n).hash ≠ "" ∧ (g.node n).hashDepfile ≠ ""
  rule_hash : ∀ r ∈ g.rules, (g.rule r).hash ≠ "" ∧ (g.rule r).hashDepfile ≠ ""

def Coherent (κ : String → String) (g : Graph) : Prop := CoherentBut P κ g ∅ ∅

variable {P} {w w' : ω} {κ : String → String} {g g' : Graph} {N N' : Set NodeId} {R R' : Set RuleId}

theorem CoherentBut.mono (h : CoherentBut P κ g N R) (hN : N ⊆ N') (hR : R ⊆ R') :
    CoherentBut P κ g N' R' where
  node n hn hnot := h.node n hn fun hin ↦ hnot (hN hin)
  rule r hr hnot := h.rule r hr fun hin ↦ hnot (hR hin)
  source := h.source
  node_hash := h.node_hash
  rule_hash := h.rule_hash

theorem NodeHashed.congr {n : NodeId} (h : NodeHashed P κ g n) (hnode : g'.node n = g.node n)
    (hrule : ∀ r, (g.node n).childRule = some r →
      (g'.rule r).hash = (g.rule r).hash ∧ (g'.rule r).hashDepfile = (g.rule r).hashDepfile) :
    NodeHashed P κ g' n := by
  unfold NodeHashed at h ⊢
  rw [hnode]
  cases hc : (g.node n).childRule with
  | none =>
      rw [hc] at h
      exact h
  | some r =>
      rw [hc] at h
      obtain ⟨hh, hd⟩ := hrule r hc
      simp only [hh, hd]
      exact h

theorem RuleHashed.congr {r : RuleId} (h : RuleHashed P g r) (hrule : g'.rule r = g.rule r)
    (hnode : ∀ n ∈ (g.rule r).inputs, g'.node n = g.node n) : RuleHashed P g' r := by
  have hall : (g.rule r).inputs.map (fun n ↦ (g'.node n).hash) =
      (g.rule r).inputs.map (fun n ↦ (g.node n).hash) :=
    List.map_congr_left fun n hn ↦ by rw [hnode n hn]
  have hexplicit : (explicitInputs (g.rule r)).map (fun n ↦ (g'.node n).hashDepfile) =
      (explicitInputs (g.rule r)).map (fun n ↦ (g.node n).hashDepfile) :=
    List.map_congr_left fun n hn ↦ by rw [hnode n (List.mem_of_mem_take hn)]
  unfold RuleHashed
  rw [hrule, hall, hexplicit]
  exact h

/-- No depfile of a graph with the links `L` is found in the cache; the lookups
stay in the worlds `W`. -/
def Unrestored (P : Platform ω) (L : Links) (W : Set ω) : Prop :=
  ∀ g r w, g.links = L → r ∈ L.rules → L.depfile r ≠ "" → w ∈ W →
    ∃ w' ∈ W, P.restoreDepfile g r w = .ok (false, w')

/-- The state of a rehash that has reached `g'` from `g`, in one of the worlds `W`. -/
def RehashedIn (P : Platform ω) (κ : String → String) (W : Set ω) (g : Graph) (N : Set NodeId)
    (R : Set RuleId) (s : Graph × ω) : Prop :=
  s.1.links = g.links ∧ s.1.marks = g.marks ∧ s.2 ∈ W ∧ CoherentBut P κ s.1 N R

theorem RehashedIn.mono {W : Set ω} {s : Graph × ω} (h : RehashedIn P κ W g N R s) (hN : N ⊆ N')
    (hR : R ⊆ R') : RehashedIn P κ W g N' R' s :=
  ⟨h.1, h.2.1, h.2.2.1, h.2.2.2.mono hN hR⟩

/-- The state of a rehash that does not ask the cache. -/
def Rehashed (P : Platform ω) (κ : String → String) (w : ω) (g : Graph)
    (N : Set NodeId) (R : Set RuleId)
    (s : Graph × ω) : Prop :=
  s.1.links = g.links ∧ s.1.marks = g.marks ∧ s.2 = w ∧ CoherentBut P κ s.1 N R

/-- Without depfiles the cache is not asked at all. -/
theorem unrestored_of_noDepfile (hdep : ∀ r ∈ g.rules, (g.rule r).hasDepfile = false) (w : ω) :
    Unrestored P g.links {w} := by
  intro g₀ r w₀ _ hr hne
  have hnone : (g.rule r).depfile = "" := by simpa [Rule.hasDepfile] using hdep r hr
  exact absurd hnone hne

theorem restoreDepfile_of_unrestored {L : Links} {W : Set ω} (hno : Unrestored P L W)
    (tmp : String) {r : RuleId} (hL : g.links = L) (hr : r ∈ L.rules) (hw : w ∈ W) :
    ∃ w' ∈ W, restoreDepfile P tmp g w r = .ok (g, w') := by
  rw [restoreDepfile]
  split
  · rename_i hasked
    simp only [Bool.and_eq_true] at hasked
    have hne : L.depfile r ≠ "" := by
      have hdepfile := hasked.1
      rw [Rule.hasDepfile, decide_eq_true_eq] at hdepfile
      exact hL ▸ hdepfile
    obtain ⟨w', hw', hrestore⟩ := hno g r w hL hr hne hw
    exact ⟨w', hw', by simp [hrestore]⟩
  · exact ⟨w, hw, rfl⟩

/-- The elements of `l` that a loop has not reached after those of `pre`. -/
theorem pending_snoc {α : Type} {X : Set α} {l pre : List α} (a : α) :
    X ∪ {b | b ∈ l ∧ b ∉ pre} ⊆ insert a (X ∪ {b | b ∈ l ∧ b ∉ pre ++ [a]}) := by
  rintro b (hb | ⟨hb, hpre⟩)
  · exact Or.inr (Or.inl hb)
  · by_cases heq : b = a
    · exact Or.inl heq
    · exact Or.inr (Or.inr ⟨hb, by simp [hpre, heq]⟩)

theorem pending_self {α : Type} {X : Set α} {l : List α} : X ∪ {b | b ∈ l ∧ b ∉ l} ⊆ X := by
  rintro b (hb | ⟨hb, hnot⟩)
  · exact hb
  · exact absurd hb hnot

section Update

variable (hsha : ∀ data, P.digest data ≠ "")
include hsha

/-- `updateNodeHash` returns, and gives the node the hashes that it should have. -/
theorem updateNodeHash_total {n : NodeId} (hn : n ∈ g.allocated)
    (hchild : ∀ r, (g.node n).childRule = some r → r ∈ g.rules)
    (hκ : (g.node n).childRule = none → κ (g.node n).path = contentOf P w (g.node n).path)
    (h : CoherentBut P κ g N R) :
    ∃ changed hash deps, updateNodeHash P w g n true true = .ok (changed,
        g.setNode n { g.node n with hash := hash, hashDepfile := deps }) ∧
      hash ≠ "" ∧ deps ≠ "" ∧ ((g.node n).childRule = none → deps = hash) ∧
      NodeHashed P κ (g.setNode n { g.node n with hash := hash, hashDepfile := deps }) n ∧
      (changed = false → hash = (g.node n).hash ∧ deps = (g.node n).hashDepfile) := by
  cases hc : (g.node n).childRule with
  | none =>
      have hdigest := hsha [(g.node n).path, contentOf P w (g.node n).path]
      refine ⟨_, _, _, (updateNodeHash_source hc).mpr ⟨rfl, rfl, rfl⟩, hdigest, hdigest,
        fun _ ↦ rfl, ?_, ?_⟩
      · simp [NodeHashed, Graph.setNode_node, hc, hκ hc, contentOf, Node.setHash]
      · intro hsame
        have heq : (g.node n).hash = P.digest [(g.node n).path, contentOf P w (g.node n).path] := by
          simpa [updateSourceHash, contentOf, Node.setHash] using hsame
        exact ⟨heq.symm, ((h.source n hn hc).trans heq).symm⟩
  | some r =>
      obtain ⟨hhash, hdeps⟩ := h.rule_hash r (hchild r hc)
      refine ⟨_, _, _, (updateNodeHash_target hc).mpr ⟨rfl, _, updateTargetHash_eq_ok.mpr
        ⟨fun _ ↦ hhash, fun _ ↦ hdeps, rfl, rfl⟩, rfl⟩, hsha _, hsha _, ?_, ?_, ?_⟩
      · intro hnone
        cases hnone
      · simp [NodeHashed, Graph.setNode_node, hc]
      · intro hsame
        have heq : (g.node n).hash = P.digest [(g.node n).path, (g.rule r).hash] ∧
            (g.node n).hashDepfile = P.digest [(g.node n).path, (g.rule r).hashDepfile] := by
          simpa using hsame
        exact ⟨heq.1.symm, heq.2.symm⟩

omit hsha in
theorem CoherentBut.setNode {n : NodeId} {hash deps : String} (h : CoherentBut P κ g (insert n N) R)
    (hhash : hash ≠ "") (hdeps : deps ≠ "") (hsource : (g.node n).childRule = none → deps = hash)
    (hself : NodeHashed P κ
      (g.setNode n { g.node n with hash := hash, hashDepfile := deps }) n) :
    CoherentBut P κ (g.setNode n { g.node n with hash := hash, hashDepfile := deps }) N
      (R ∪ {r | n ∈ (g.rule r).inputs}) where
  node m hm hnot := by
    by_cases heq : m = n
    · rw [heq]
      exact hself
    · refine (h.node m hm ?_).congr ?_ fun r _ ↦ ⟨rfl, rfl⟩
      · exact fun hin ↦ hin.elim heq hnot
      · rw [Graph.setNode_node, if_neg heq]
  rule r hr hnot := by
    refine (h.rule r hr fun hin ↦ hnot (Or.inl hin)).congr rfl fun m hm ↦ ?_
    rw [Graph.setNode_node, if_neg]
    rintro rfl
    exact hnot (Or.inr hm)
  source m hm hc := by
    rw [Graph.setNode_node] at hc ⊢
    split at hc
    · rename_i heq
      rw [if_pos heq]
      exact hsource hc
    · rename_i heq
      rw [if_neg heq]
      exact h.source m hm hc
  node_hash m hm := by
    rw [Graph.setNode_node]
    split
    · exact ⟨hhash, hdeps⟩
    · exact h.node_hash m hm
  rule_hash := h.rule_hash

/-- The node that is hashed becomes coherent; if its hash does not change,
neither does anything else. -/
theorem updateNodeHash_coherent {n : NodeId} (hn : n ∈ g.allocated)
    (hchild : ∀ r, (g.node n).childRule = some r → r ∈ g.rules)
    (hκ : (g.node n).childRule = none → κ (g.node n).path = contentOf P w (g.node n).path)
    (h : CoherentBut P κ g (insert n N) R) :
    ∃ changed g', updateNodeHash P w g n true true = .ok (changed, g') ∧
      (changed = false → g' = g ∧ CoherentBut P κ g' N R) ∧
      CoherentBut P κ g' N (R ∪ {r | n ∈ (g.rule r).inputs}) := by
  obtain ⟨changed, hash, deps, hrun, hhash, hdeps, hsource, hself, hsame⟩ :=
    updateNodeHash_total hsha hn hchild hκ h
  refine ⟨changed, _, hrun, fun hno ↦ ?_, h.setNode hhash hdeps hsource hself⟩
  obtain ⟨rfl, rfl⟩ := hsame hno
  have heq : g.setNode n { g.node n with
      hash := (g.node n).hash, hashDepfile := (g.node n).hashDepfile } = g := by
    simp [Graph.setNode]
  rw [heq] at hself ⊢
  refine ⟨rfl, ?_, h.rule, h.source, h.node_hash, h.rule_hash⟩
  intro m hm hnot
  by_cases hmn : m = n
  · rw [hmn]
    exact hself
  · exact h.node m hm fun hin ↦ hin.elim hmn hnot

/-- The rule that is hashed becomes coherent, and its outputs have to be hashed
again. -/
theorem updateRuleHash_coherent {r : RuleId} (hr : r ∈ g.rules)
    (hin : ∀ n ∈ (g.rule r).inputs, n ∈ g.allocated) (h : CoherentBut P κ g N (insert r R)) :
    ∃ g', updateRuleHash P g r true true = .ok g' ∧
      CoherentBut P κ g' (N ∪ {n | (g.node n).childRule = some r}) R := by
  refine ⟨_, updateRuleHash_eq_ok.mpr ⟨fun _ n hn ↦ (h.node_hash n (hin n hn)).1, fun _ n hn ↦
    (h.node_hash n (hin n (List.mem_of_mem_take hn))).2, rfl⟩, ?_⟩
  constructor
  · intro n hn hnot
    refine (h.node n hn fun hin ↦ hnot (Or.inl hin)).congr rfl fun q hq ↦ ?_
    rw [Graph.setRule_rule, if_neg]
    · exact ⟨rfl, rfl⟩
    · rintro rfl
      exact hnot (Or.inr hq)
  · intro q hq hnot
    by_cases heq : q = r
    · subst heq
      simp [RuleHashed, Graph.setRule_rule, explicitInputs]
    · refine (h.rule q hq fun hin ↦ hin.elim heq hnot).congr ?_ fun n _ ↦ rfl
      rw [Graph.setRule_rule, if_neg heq]
  · exact h.source
  · exact h.node_hash
  · intro q hq
    rw [Graph.setRule_rule]
    split
    · exact ⟨hsha _, hsha _⟩
    · exact h.rule_hash q hq

section Recompute

variable (hL : g.links.TwoWay) (hac : g.links.Acyclic)
  (hin : ∀ r ∈ g.rules, ∀ n, n ∈ (g.rule r).inputs ∨ n ∈ (g.rule r).outputs → n ∈ g.allocated)

include hL hin

section Unrestored

variable {W : Set ω} (hno : Unrestored P g.links W)
include hno

theorem recomputeRuleHash_rehashed {nodeHash : Graph × ω → NodeId → Outcome (Graph × ω)}
    {s : Graph × ω} {r : RuleId} (hr : r ∈ g.rules)
    (hnode : ∀ o ∈ (g.rule r).outputs, ∀ N s, RehashedIn P κ W g (insert o N) R s →
      ∃ s', nodeHash s o = .ok s' ∧ RehashedIn P κ W g N R s')
    (h : RehashedIn P κ W g N (insert r R) s) :
    ∃ s', recomputeRuleHash P nodeHash s r = .ok s' ∧ RehashedIn P κ W g N R s' := by
  obtain ⟨g₀, w₀⟩ := s
  obtain ⟨hlinks, hmarks, hw, hco⟩ := h
  simp only at hlinks hmarks hw hco ⊢
  have hr₀ : r ∈ g₀.rules := by
    rw [Graph.rules_of_links hlinks]
    exact hr
  have hin₀ : ∀ n ∈ (g₀.rule r).inputs, n ∈ g₀.allocated := by
    intro n hn
    rw [Graph.inputs_of_links hlinks] at hn
    rw [Graph.allocated_of_links hlinks]
    exact hin r hr n (Or.inl hn)
  obtain ⟨g₁, hupdate, hco₁⟩ := updateRuleHash_coherent hsha hr₀ hin₀ hco
  obtain ⟨hl₁, hm₁⟩ := updateRuleHash_links hupdate
  obtain ⟨w₁, hw₁, hskip⟩ := restoreDepfile_of_unrestored hno (g₀.rule r).hashDepfile
    (hl₁.trans hlinks) hr hw
  have hout : (g₁.rule r).outputs = (g.rule r).outputs :=
    Graph.outputs_of_links (hl₁.trans hlinks) r
  have hchild : {n | (g₀.node n).childRule = some r} ⊆
      {n | n ∈ (g.rule r).outputs ∧ n ∉ ([] : List NodeId)} := by
    intro n hn
    rw [Set.mem_ofPred_eq, Graph.childRule_of_links hlinks] at hn
    exact ⟨((hL.child_eq_some n r).mp hn).2, List.not_mem_nil⟩
  have hstart : RehashedIn P κ W g (N ∪ {n | n ∈ (g.rule r).outputs ∧ n ∉ ([] : List NodeId)}) R
      (g₁, w₁) :=
    ⟨hl₁.trans hlinks, hm₁.trans hmarks, hw₁, hco₁.mono (Set.union_subset_union_right N hchild)
      (Set.Subset.refl R)⟩
  have houtput : ∀ pre o post s, (g.rule r).outputs = pre ++ o :: post →
      RehashedIn P κ W g (N ∪ {n | n ∈ (g.rule r).outputs ∧ n ∉ pre}) R s →
      ∃ s', nodeHash s o = .ok s' ∧
        RehashedIn P κ W g (N ∪ {n | n ∈ (g.rule r).outputs ∧ n ∉ pre ++ [o]}) R s' := by
    intro pre o post s hl hs
    apply hnode o (by simp [hl])
    exact hs.mono (pending_snoc o) (Set.Subset.refl R)
  obtain ⟨s', hloop, hdone⟩ := Lib.foldlM_rule
    (fun pre ↦ RehashedIn P κ W g (N ∪ {n | n ∈ (g.rule r).outputs ∧ n ∉ pre}) R) hstart houtput
  refine ⟨s', ?_, hdone.mono pending_self (Set.Subset.refl R)⟩
  simp only [recomputeRuleHash, hupdate, hskip, hout, Lib.except_ok_bind]
  exact hloop

include hac

/-- Rehashing a node makes it coherent together with all that depends on it. -/
theorem recomputeNodeHash_rehashed {fuel : ℕ} {s : Graph × ω} {n : NodeId}
    (hfuel : g.links.rankAbove n < fuel) (hn : n ∈ g.allocated)
    (hκ : (g.node n).childRule = none → κ (g.node n).path = contentOf P s.2 (g.node n).path)
    (h : RehashedIn P κ W g (insert n N) R s) :
    ∃ changed s', recomputeNodeHash P true true fuel s n = .ok (changed, s') ∧
      RehashedIn P κ W g N R s' ∧ (changed = false → s' = s) := by
  induction fuel generalizing s n N R with
  | zero => omega
  | succ fuel ih =>
      obtain ⟨g₀, w₀⟩ := s
      obtain ⟨hlinks, hmarks, hw, hco⟩ := h
      simp only at hlinks hmarks hw hκ hco ⊢
      have hn₀ : n ∈ g₀.allocated := by
        rw [Graph.allocated_of_links hlinks]
        exact hn
      have hchild : ∀ r, (g₀.node n).childRule = some r → r ∈ g₀.rules := by
        intro r hr
        rw [Graph.childRule_of_links hlinks] at hr
        rw [Graph.rules_of_links hlinks]
        exact ((hL.child_eq_some n r).mp hr).1
      have hκ₀ : (g₀.node n).childRule = none →
          κ (g₀.node n).path = contentOf P w₀ (g₀.node n).path := by
        rw [Graph.childRule_of_links hlinks, Graph.path_of_links hlinks]
        exact hκ
      obtain ⟨changed, g₁, hupdate, hsame, hco₁⟩ :=
        updateNodeHash_coherent hsha hn₀ hchild hκ₀ hco
      obtain ⟨hl₁, hm₁⟩ := updateNodeHash_links hupdate
      cases changed with
      | false =>
          obtain ⟨rfl, hdone⟩ := hsame rfl
          refine ⟨false, (g₁, w₀), ?_, ⟨hlinks, hmarks, hw, hdone⟩, fun _ ↦ rfl⟩
          simp [recomputeNodeHash, hupdate]
      | true =>
          have hparents : (g₁.node n).parentRules = (g.node n).parentRules :=
            Graph.parentRules_of_links (hl₁.trans hlinks) n
          have husers : CoherentBut P κ g₁ N
              (R ∪ {r | r ∈ (g.node n).parentRules ∧ r ∉ ([] : List RuleId)}) := by
            refine ⟨hco₁.node, fun r hr hnot ↦ ?_, hco₁.source, hco₁.node_hash, hco₁.rule_hash⟩
            refine hco₁.rule r hr fun hin ↦ hnot (hin.imp id fun hmem ↦ ⟨?_, List.not_mem_nil⟩)
            rw [Graph.rules_of_links (hl₁.trans hlinks)] at hr
            rw [Set.mem_ofPred_eq, Graph.inputs_of_links hlinks] at hmem
            exact (hL.mem_parents n r).mpr ⟨hr, hmem⟩
          have hrules : ∀ pre r post s, (g.node n).parentRules = pre ++ r :: post →
              RehashedIn P κ W g N (R ∪ {r | r ∈ (g.node n).parentRules ∧ r ∉ pre}) s →
              ∃ s', recomputeRuleHash P (fun s m ↦
                  recomputeNodeHash P true true fuel s m >>= fun x ↦ pure x.2) s r = .ok s' ∧
                RehashedIn P κ W g N
                  (R ∪ {r' | r' ∈ (g.node n).parentRules ∧ r' ∉ pre ++ [r]}) s' := by
            intro pre r post s hl hs
            have hr : r ∈ (g.node n).parentRules := by simp [hl]
            have hmem := ((hL.mem_parents n r).mp hr).1
            refine recomputeRuleHash_rehashed hsha hL hin hno hmem ?_
              (hs.mono (Set.Subset.refl N) (pending_snoc r))
            intro o ho N s hs
            have hrank := Links.rankAbove_lt hL hac hr ho
            have htarget := (hL.child_eq_some o r).mpr ⟨hmem, ho⟩
            obtain ⟨changed, s', hrun, hdone, -⟩ := ih (by omega) (hin r hmem o (Or.inr ho))
              (fun hnone ↦ absurd (htarget.symm.trans hnone) (by simp)) hs
            exact ⟨s', by simp [hrun], hdone⟩
          obtain ⟨s', hloop, hdone⟩ := Lib.liveLoop_rule
            (fun pre ↦ RehashedIn P κ W g N (R ∪ {r | r ∈ (g.node n).parentRules ∧ r ∉ pre}))
            (fun pre s hs ↦ Graph.parentRules_of_links hs.1 n) hrules
            (show RehashedIn P κ W g N _ (g₁, w₀) from
              ⟨hl₁.trans hlinks, hm₁.trans hmarks, hw, husers⟩)
            (show _ < (g₁.node n).parentRules.length + fuel + 1 by rw [hparents]; omega)
          refine ⟨true, s', ?_, hdone.mono (Set.Subset.refl N) pending_self, by simp⟩
          rw [recomputeNodeHash, hupdate, Lib.except_ok_bind]
          exact Lib.bind_eq_ok.mpr ⟨s', hloop, rfl⟩

end Unrestored

include hac in
/-- A rehash that does not ask the cache leaves the world alone. -/
theorem recomputeNodeHash_coherent
    (hdep : ∀ r ∈ g.rules, (g.rule r).hasDepfile = false) {fuel : ℕ} {s : Graph × ω} {n : NodeId}
    (hfuel : g.links.rankAbove n < fuel) (hn : n ∈ g.allocated)
    (hκ : (g.node n).childRule = none → κ (g.node n).path = contentOf P w (g.node n).path)
    (h : Rehashed P κ w g (insert n N) R s) :
    ∃ changed s', recomputeNodeHash P true true fuel s n = .ok (changed, s') ∧
      Rehashed P κ w g N R s' ∧ (changed = false → s' = s) := by
  have hw : s.2 = w := h.2.2.1
  have hstart : RehashedIn P κ {w} g (insert n N) R s := h
  exact recomputeNodeHash_rehashed hsha hL hac hin (unrestored_of_noDepfile hdep w) hfuel hn
    (fun hc ↦ hw ▸ hκ hc) hstart

end Recompute

end Update

end Falcon.Hash
