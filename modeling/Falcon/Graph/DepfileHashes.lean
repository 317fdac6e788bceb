import Falcon.Graph.Coherent
import Falcon.Graph.Explicit
import Falcon.Graph.Settled

/-!
# Depfile hashes

The depfile hash of a rule depends on its explicit inputs alone.  The
recomputations keep these hashes right while they load depfiles on the way: a
load does not touch the hash of a declared node, and the loop over the parents
of a node reaches the explicit ones whatever happens behind them.
-/

namespace Falcon

open Relation Lib

namespace Graph

variable {ω : Type}

/-- Hashes are computed from below: what a hash covers has been hashed. -/
structure HashedBelow (g : Graph) : Prop where
  child : ∀ n q, g.Declared n → (g.node n).childRule = some q → (g.node n).hashDepfile ≠ "" →
    (g.rule q).hashDepfile ≠ ""
  inputs : ∀ r ∈ g.rules, (g.rule r).hashDepfile ≠ "" → ∀ n ∈ Hash.explicitInputs (g.rule r),
    (g.node n).hashDepfile ≠ ""
  founded : ∀ n, g.Declared n → (g.node n).hashDepfile ≠ "" → Acc g.skeleton.Feeds n

/-- The depfile hashes that have been computed are right, but for the nodes of
`N` and the rules of `R`, if `κ` gives what the sources contained then. -/
structure DepsRightBut (P : Platform ω) (κ : NodeId → String) (g : Graph) (N : Set NodeId)
    (R : Set RuleId) : Prop where
  below : g.HashedBelow
  node : ∀ n, g.Declared n → n ∉ N → (g.node n).hashDepfile ≠ "" → g.Settled P (.inr n)
  rule : ∀ r ∈ g.rules, r ∉ R → (g.rule r).hashDepfile ≠ "" → g.Settled P (.inl r)
  source : ∀ n, g.Declared n → n ∉ N → (g.node n).childRule = none →
    (g.node n).hashDepfile ≠ "" → (g.node n).hashDepfile = P.digest [(g.node n).path, κ n]
  sync : ∀ n, g.Declared n → (g.node n).childRule = none →
    (g.node n).hashDepfile = (g.node n).hash

def DepsRight (P : Platform ω) (κ : NodeId → String) (g : Graph) : Prop := DepsRightBut P κ g ∅ ∅

variable {P : Platform ω} {κ : NodeId → String} {g₀ g g' : Graph} {w w' : ω}
  {N N' : Set NodeId} {R R' : Set RuleId}

theorem Explicit.skeleton (h : Explicit g g') (hg : g.Wired) (hg' : g'.Wired) :
    g'.skeleton = g.skeleton := by
  have hchild : ∀ n, (g'.node n).childRule = (g.node n).childRule := by
    intro n
    ext r
    constructor
    · intro hr
      obtain ⟨hmem, hout, -⟩ := hg'.child n r hr
      rw [h.rules] at hmem
      rw [h.outputs] at hout
      exact hg.outputs r hmem n hout
    · intro hr
      obtain ⟨hmem, hout, -⟩ := hg.child n r hr
      rw [← h.rules] at hmem
      rw [← h.outputs] at hout
      exact hg'.outputs r hmem n hout
  simp only [Graph.skeleton, h.rules, h.outputs, h.inputs, h.command, hchild]

namespace HashedBelow

theorem congr (h : g.HashedBelow) (he : Explicit g g') (hskel : g'.skeleton = g.skeleton)
    (hdeps : ∀ n, g.Declared n → (g'.node n).hashDepfile = (g.node n).hashDepfile)
    (hrule : ∀ r, (g'.rule r).hashDepfile = (g.rule r).hashDepfile) : g'.HashedBelow where
  child n q hn hq := by
    rw [he.declared_iff] at hn
    rw [(he.node n hn).2.1] at hq
    rw [hdeps n hn, hrule]
    exact h.child n q hn hq
  inputs r hr := by
    rw [he.rules] at hr
    rw [hrule, he.inputs]
    intro hne n hn
    rw [hdeps n ⟨r, hr, Or.inl hn⟩]
    exact h.inputs r hr hne n hn
  founded n hn := by
    rw [he.declared_iff] at hn
    rw [hdeps n hn, hskel]
    exact h.founded n hn

theorem setHashes {n : NodeId} {hash deps : String} (h : g.HashedBelow) (hg : g.Wired)
    (hdeps : deps ≠ "")
    (hchild : ∀ q, (g.node n).childRule = some q → (g.rule q).hashDepfile ≠ "") :
    (g.setNode n { g.node n with hash := hash, hashDepfile := deps }).HashedBelow := by
  have hskel : (g.setNode n { g.node n with hash := hash, hashDepfile := deps }).skeleton =
      g.skeleton := skeleton_of_links (links_setNode rfl rfl rfl rfl)
  constructor
  · intro m q hm hq hne
    by_cases heq : m = n
    · subst heq
      rw [setNode_node, if_pos rfl] at hq
      exact hchild q hq
    · rw [setNode_node, if_neg heq] at hq hne
      exact h.child m q hm hq hne
  · intro r hr hne m hm
    rw [setNode_node]
    split
    · exact hdeps
    · exact h.inputs r hr hne m hm
  · intro m hm hne
    rw [hskel]
    by_cases heq : m = n
    · subst heq
      constructor
      rintro k ⟨q, hq, hk⟩
      have hq' : (g.node m).childRule = some q := hq
      obtain ⟨hmem, -, -⟩ := hg.child m q hq'
      exact h.founded k ⟨q, hmem, Or.inl hk⟩ (h.inputs q hmem (hchild q hq') k hk)
    · rw [setNode_node, if_neg heq] at hne
      exact h.founded m hm hne

theorem setRule {r : RuleId} {hash deps : String} (h : g.HashedBelow) (hdeps : deps ≠ "")
    (hinputs : ∀ n ∈ Hash.explicitInputs (g.rule r), (g.node n).hashDepfile ≠ "") :
    (g.setRule r { g.rule r with hash := hash, hashDepfile := deps }).HashedBelow := by
  have hl : (g.setRule r { g.rule r with hash := hash, hashDepfile := deps }).links = g.links :=
    links_setRule rfl rfl rfl rfl rfl
  have he := (Explicit.refl g).of_links hl
  constructor
  · intro n q hn hq hne
    rw [he.declared_iff] at hn
    rw [setRule_rule]
    split
    · exact hdeps
    · exact h.child n q hn hq hne
  · intro q hq hne n hn
    rw [he.inputs] at hn
    by_cases heq : q = r
    · exact hinputs n (heq ▸ hn)
    · rw [setRule_rule, if_neg heq] at hne
      exact h.inputs q hq hne n hn
  · intro n hn
    rw [he.declared_iff] at hn
    rw [skeleton_of_links hl]
    exact h.founded n hn

end HashedBelow

namespace DepsRightBut

theorem mono (h : DepsRightBut P κ g N R) (hN : N ⊆ N') (hR : ∀ r ∈ g.rules, r ∈ R → r ∈ R') :
    DepsRightBut P κ g N' R' where
  below := h.below
  node n hn hnot := h.node n hn fun hin ↦ hnot (hN hin)
  rule r hr hnot := h.rule r hr fun hin ↦ hnot (hR r hr hin)
  source n hn hnot := h.source n hn fun hin ↦ hnot (hN hin)
  sync := h.sync

/-- What matters of the hashes has not changed. -/
theorem congr (h : DepsRightBut P κ g N R) (he : Explicit g g') (hskel : g'.skeleton = g.skeleton)
    (hdeps : ∀ n, g.Declared n → (g'.node n).hashDepfile = (g.node n).hashDepfile)
    (hhash : ∀ n, g.Declared n → (g.node n).childRule = none →
      (g'.node n).hash = (g.node n).hash)
    (hrule : ∀ r, (g'.rule r).hashDepfile = (g.rule r).hashDepfile) : DepsRightBut P κ g' N R where
  below := h.below.congr he hskel hdeps hrule
  node n hn hnot hne q hq := by
    rw [he.declared_iff] at hn
    obtain ⟨hpath, hchild, -⟩ := he.node n hn
    rw [hchild] at hq
    rw [hdeps n hn] at hne ⊢
    rw [hpath, hrule]
    exact h.node n hn hnot hne q hq
  rule r hr hnot hne := by
    rw [he.rules] at hr
    rw [hrule] at hne
    have hmap : (Hash.explicitInputs (g.rule r)).map (fun n ↦ (g'.node n).hashDepfile) =
        (Hash.explicitInputs (g.rule r)).map (fun n ↦ (g.node n).hashDepfile) :=
      List.map_congr_left fun n hn ↦ hdeps n ⟨r, hr, Or.inl hn⟩
    rw [Settled, hrule, he.inputs, he.command, hmap]
    exact h.rule r hr hnot hne
  source n hn hnot hc hne := by
    rw [he.declared_iff] at hn
    obtain ⟨hpath, hchild, -⟩ := he.node n hn
    rw [hchild] at hc
    rw [hdeps n hn] at hne ⊢
    rw [hpath]
    exact h.source n hn hnot hc hne
  sync n hn hc := by
    rw [he.declared_iff] at hn
    obtain ⟨-, hchild, -⟩ := he.node n hn
    rw [hchild] at hc
    rw [hdeps n hn, hhash n hn hc]
    exact h.sync n hn hc

theorem relink (h : DepsRightBut P κ g N R) (hg : g.Wired) (hstep : Relink P g g') :
    DepsRightBut P κ g' N R := by
  have hnode : ∀ n, g.Declared n → ∃ parents, g'.node n = { g.node n with
      parentRules := parents } := by
    intro n hn
    rcases node_of_relink hstep n with hold | ⟨hfree, -⟩
    · exact hold
    · exact absurd (hg.allocated hn) hfree
  have he := (Explicit.refl g).edit hg (.relink hstep)
  apply h.congr he (he.skeleton hg (hg.relink hstep))
  · intro n hn
    obtain ⟨parents, heq⟩ := hnode n hn
    rw [heq]
  · intro n hn _
    obtain ⟨parents, heq⟩ := hnode n hn
    rw [heq]
  · intro r
    obtain ⟨_, _, _, hrule⟩ := rule_of_relink hstep r
    rw [hrule]

theorem relinks (h : DepsRightBut P κ g N R) (hg : g.Wired) (hrun : Relinks P g g') :
    DepsRightBut P κ g' N R := by
  induction hrun with
  | refl => exact h
  | tail hrun hstep ih => exact ih.relink (hg.relinks hrun) hstep

/-- The ordinary hash of a rule does not matter. -/
theorem hashRule_true_false {r : RuleId} (h : DepsRightBut P κ g N R)
    (hrun : Hash.updateRuleHash P g r true false = .ok g') : DepsRightBut P κ g' N R := by
  have hl := (Hash.updateRuleHash_links hrun).1
  obtain ⟨-, -, rfl⟩ := Hash.updateRuleHash_eq_ok.mp hrun
  apply h.congr ((Explicit.refl g).of_links hl) (skeleton_of_links hl)
  · exact fun _ _ ↦ rfl
  · exact fun _ _ _ ↦ rfl
  · exact proj_setRule Rule.hashDepfile rfl

/-- The ordinary hash of a target does not matter. -/
theorem hashNode_false {n : NodeId} {a changed : Bool} (h : DepsRightBut P κ g N R)
    (htarget : (g.node n).childRule ≠ none)
    (hrun : Hash.updateNodeHash P w g n a false = .ok (changed, g')) : DepsRightBut P κ g' N R := by
  have hl := (Hash.updateNodeHash_links hrun).1
  obtain ⟨q, hq⟩ := Option.ne_none_iff_exists'.mp htarget
  obtain ⟨-, x, hx, rfl⟩ := (Hash.updateNodeHash_target hq).mp hrun
  obtain ⟨-, -, -, rfl⟩ := Hash.updateTargetHash_eq_ok.mp hx
  apply h.congr ((Explicit.refl g).of_links hl) (skeleton_of_links hl)
  · exact fun m _ ↦ proj_setNode Node.hashDepfile (by simp) m
  · intro m _ hc
    have hne : m ≠ n := by
      rintro rfl
      exact htarget hc
    rw [setNode_node, if_neg hne]
  · exact fun _ ↦ rfl

/-- The file of the node may have changed. -/
theorem forget (h : DepsRight P κ g) (n : NodeId) (content : String) :
    DepsRightBut P (Function.update κ n content) g (insert n ∅) ∅ where
  below := h.below
  node m hm _ := h.node m hm (Set.notMem_empty m)
  rule := h.rule
  source m hm hnot := by
    rw [Function.update_of_ne fun heq ↦ hnot (Or.inl heq)]
    exact h.source m hm (Set.notMem_empty m)
  sync := h.sync

/-- Nothing has changed for the nodes whose hash is empty still. -/
theorem drop_unhashed (h : DepsRightBut P κ g (N ∪ N') (R ∪ R'))
    (hN : ∀ n ∈ N', (g.node n).hashDepfile = "")
    (hR : ∀ r ∈ R', (g.rule r).hashDepfile = "") : DepsRightBut P κ g N R where
  below := h.below
  node n hn hnot hne := h.node n hn (fun hin ↦ hin.elim hnot fun hin ↦ hne (hN n hin)) hne
  rule r hr hnot hne := h.rule r hr (fun hin ↦ hin.elim hnot fun hin ↦ hne (hR r hin)) hne
  source n hn hnot hc hne :=
    h.source n hn (fun hin ↦ hin.elim hnot fun hin ↦ hne (hN n hin)) hc hne
  sync := h.sync

section Digest

variable (hdigest : ∀ data, P.digest data ≠ "")
include hdigest

/-- The rule becomes right, and its outputs have to be hashed again. -/
theorem hashRule {r : RuleId} (h : DepsRightBut P κ g N (insert r R))
    (hrun : Hash.updateRuleHash P g r true true = .ok g') :
    DepsRightBut P κ g' (N ∪ {n | (g.node n).childRule = some r}) R := by
  have he := (Explicit.refl g).of_links (Hash.updateRuleHash_links hrun).1
  obtain ⟨-, hinputs, rfl⟩ := Hash.updateRuleHash_eq_ok.mp hrun
  constructor
  · exact h.below.setRule (hdigest _) (hinputs rfl)
  · intro n hn hnot hne q hq
    have hqr : q ≠ r := fun heq ↦ hnot (Or.inr (heq ▸ hq))
    rw [he.declared_iff] at hn
    rw [setRule_rule, if_neg hqr]
    exact h.node n hn (fun hin ↦ hnot (Or.inl hin)) hne q hq
  · intro q hq hnot hne
    by_cases heq : q = r
    · subst heq
      simp [Settled, setRule_rule, Hash.explicitInputs]
    · rw [setRule_rule, if_neg heq] at hne
      have hold := h.rule q hq (fun hin ↦ hin.elim heq hnot) hne
      rw [Settled, setRule_rule, if_neg heq]
      exact hold
  · intro n hn hnot hc
    rw [he.declared_iff] at hn
    exact h.source n hn (fun hin ↦ hnot (Or.inl hin)) hc
  · intro n hn hc
    rw [he.declared_iff] at hn
    exact h.sync n hn hc

/-- Hashing a rule that is right already changes nothing that matters, and the
outputs of a rule that has not been hashed have not been hashed either. -/
theorem hashRule_right {r : RuleId} (h : DepsRightBut P κ g N R) (hg : g.Wired) (hr : r ∈ g.rules)
    (hnot : r ∉ R) (hrun : Hash.updateRuleHash P g r true true = .ok g') :
    DepsRightBut P κ g' N R := by
  by_cases hne : (g.rule r).hashDepfile = ""
  · have hstart : DepsRightBut P κ g N (insert r R) :=
      h.mono Set.Subset.rfl fun _ _ hin ↦ Or.inr hin
    have hend := hstart.hashRule hdigest hrun
    have hnode : g'.node = g.node := by
      obtain ⟨-, -, rfl⟩ := Hash.updateRuleHash_eq_ok.mp hrun
      rfl
    have hwide : DepsRightBut P κ g' (N ∪ {n | (g.node n).childRule = some r}) (R ∪ ∅) :=
      hend.mono Set.Subset.rfl fun _ _ hin ↦ Or.inl hin
    refine hwide.drop_unhashed ?_ fun _ hin ↦ hin.elim
    intro n hn
    rw [hnode]
    by_contra hhashed
    obtain ⟨hmem, hout, -⟩ := hg.child n r hn
    exact h.below.child n r ⟨r, hmem, Or.inr hout⟩ hn hhashed hne
  · have hl := (Hash.updateRuleHash_links hrun).1
    have hsettled := h.rule r hr hnot hne
    obtain ⟨-, -, rfl⟩ := Hash.updateRuleHash_eq_ok.mp hrun
    apply h.congr ((Explicit.refl g).of_links hl) (skeleton_of_links hl)
    · exact fun _ _ ↦ rfl
    · exact fun _ _ _ ↦ rfl
    · exact proj_setRule Rule.hashDepfile (by simpa using hsettled.symm)

omit hdigest in
/-- The node becomes right; the rules that use its depfile hash have to be
hashed again, unless it stays the same. -/
theorem setHashes {n : NodeId} {hash deps : String} (h : DepsRightBut P κ g (insert n N) R)
    (hg : g.Wired) (hdeps : deps ≠ "")
    (hsource : (g.node n).childRule = none →
      deps = hash ∧ deps = P.digest [(g.node n).path, κ n])
    (htarget : ∀ q, (g.node n).childRule = some q → (g.rule q).hashDepfile ≠ "" ∧
      deps = P.digest [(g.node n).path, (g.rule q).hashDepfile])
    (hsub : R ⊆ R') (huse : ∀ r ∈ g.rules, n ∈ Hash.explicitInputs (g.rule r) →
      r ∈ R' ∨ deps = (g.node n).hashDepfile) :
    DepsRightBut P κ (g.setNode n { g.node n with hash := hash, hashDepfile := deps }) N R' := by
  have hother : ∀ m, m ≠ n →
      (g.setNode n { g.node n with hash := hash, hashDepfile := deps }).node m = g.node m := by
    intro m hm
    rw [setNode_node, if_neg hm]
  have hself : (g.setNode n { g.node n with hash := hash, hashDepfile := deps }).node n =
      { g.node n with hash := hash, hashDepfile := deps } := by
    rw [setNode_node, if_pos rfl]
  constructor
  · exact h.below.setHashes hg hdeps fun q hq ↦ (htarget q hq).1
  · intro m hm hnot hne q hq
    by_cases heq : m = n
    · subst heq
      rw [hself] at hq ⊢
      exact (htarget q hq).2
    · rw [hother m heq] at hne hq ⊢
      exact h.node m hm (fun hin ↦ hin.elim heq hnot) hne q hq
  · intro r hr hnot hne
    have hold := h.rule r hr (fun hin ↦ hnot (hsub hin)) hne
    have hmap : (Hash.explicitInputs (g.rule r)).map (fun m ↦
          ((g.setNode n { g.node n with hash := hash, hashDepfile := deps }).node m).hashDepfile) =
        (Hash.explicitInputs (g.rule r)).map (fun m ↦ (g.node m).hashDepfile) := by
      apply List.map_congr_left
      intro m hm
      by_cases heq : m = n
      · subst heq
        rw [hself]
        exact (huse r hr hm).resolve_left hnot
      · rw [hother m heq]
    rw [Settled, setNode_rule, hmap]
    exact hold
  · intro m hm hnot hc hne
    by_cases heq : m = n
    · subst heq
      rw [hself] at hc ⊢
      exact (hsource hc).2
    · rw [hother m heq] at hc hne ⊢
      exact h.source m hm (fun hin ↦ hin.elim heq hnot) hc hne
  · intro m hm hc
    by_cases heq : m = n
    · subst heq
      rw [hself] at hc ⊢
      exact (hsource hc).1
    · rw [hother m heq] at hc ⊢
      exact h.sync m hm hc

/-- `updateNodeHash` with the depfile hash.  Only a source file needs both hashes,
as it is the ordinary one that tells whether the file has changed. -/
theorem hashNode {n : NodeId} {a changed : Bool} (h : DepsRightBut P κ g (insert n N) R)
    (hg : g.Wired)
    (hsource : (g.node n).childRule = none →
      a = true ∧ κ n = Hash.contentOf P w (g.node n).path)
    (hrun : Hash.updateNodeHash P w g n a true = .ok (changed, g')) :
    DepsRightBut P κ g' N (R ∪ {r | n ∈ Hash.explicitInputs (g.rule r)}) ∧
      (changed = false → DepsRightBut P κ g' N R) := by
  obtain ⟨hash, deps, rfl, hne, hs, ht, hsame⟩ : ∃ hash deps,
      g' = g.setNode n { g.node n with hash := hash, hashDepfile := deps } ∧ deps ≠ "" ∧
      ((g.node n).childRule = none → deps = hash ∧ deps = P.digest [(g.node n).path, κ n]) ∧
      (∀ q, (g.node n).childRule = some q → (g.rule q).hashDepfile ≠ "" ∧
        deps = P.digest [(g.node n).path, (g.rule q).hashDepfile]) ∧
      (g.Declared n → changed = false → deps = (g.node n).hashDepfile) := by
    cases hc : (g.node n).childRule with
    | none =>
        obtain ⟨rfl, hκ⟩ := hsource hc
        obtain ⟨-, hchanged, rfl⟩ := (Hash.updateNodeHash_source hc).mp hrun
        refine ⟨P.digest [(g.node n).path, κ n], P.digest [(g.node n).path, κ n], ?_, hdigest _,
          fun _ ↦ ⟨rfl, rfl⟩, fun q hq ↦ (Option.some_ne_none q hq.symm).elim, fun hn hno ↦ ?_⟩
        · rw [hκ]
          rfl
        · rw [hno] at hchanged
          have hsame : ((g.node n).hash !=
              P.digest [(g.node n).path, Hash.contentOf P w (g.node n).path]) = false :=
            (Bool.or_eq_false_iff.mp hchanged).1
          rw [h.sync n hn hc, hκ]
          exact (bne_eq_false_iff_eq.mp hsame).symm
    | some q =>
        obtain ⟨-, x, hx, rfl⟩ := (Hash.updateNodeHash_target hc).mp hrun
        obtain ⟨-, hchild, hchanged, rfl⟩ := Hash.updateTargetHash_eq_ok.mp hx
        refine ⟨_, P.digest [(g.node n).path, (g.rule q).hashDepfile], rfl, hdigest _,
          fun hnone ↦ (Option.some_ne_none q hnone).elim, ?_, fun _ hno ↦ ?_⟩
        · rintro q' ⟨⟩
          exact ⟨hchild rfl, rfl⟩
        · rw [hno] at hchanged
          exact (bne_eq_false_iff_eq.mp (Bool.or_eq_false_iff.mp hchanged).2).symm
  constructor
  · exact h.setHashes hg hne hs ht Set.subset_union_left fun r _ hin ↦ Or.inl (Or.inr hin)
  · intro hno
    exact h.setHashes hg hne hs ht Set.Subset.rfl fun r hr hin ↦
      Or.inr (hsame ⟨r, hr, Or.inl hin⟩ hno)

end Digest

end DepsRightBut

end Graph

/-! ## The recomputations -/

namespace Hash

open Graph

variable {ω : Type} {P : Platform ω} {κ : NodeId → String} {g₀ g g' : Graph} {w w' : ω}
  {N : Set NodeId} {R : Set RuleId} {a : Bool}

theorem restoreDepfile_depsRight {tmp : String} {r : RuleId} (h : DepsRightBut P κ g N R)
    (hg : g.Wired) (hr : r ∈ g.rules) (hrun : restoreDepfile P tmp g w r = .ok (g', w')) :
    DepsRightBut P κ g' N R := by
  obtain ⟨rfl, -⟩ | ⟨loaded, k, -, -, -, hload, hupdate⟩ := restoreDepfile_ok hrun
  · exact h
  · exact (h.relinks hg (Depfile.loadFromfile_relinks hg hr hload)).hashRule_true_false hupdate

section Digest

variable (hdigest : ∀ data, P.digest data ≠ "")
include hdigest

/-- The rule and what depends on it become right. -/
theorem recomputeRuleHash_depsRight {nodeHash : Graph × ω → NodeId → Outcome (Graph × ω)}
    {s s' : Graph × ω} {r : RuleId} (hg : Grounded g₀ s.1) (hr : r ∈ s.1.rules)
    (hnode : ∀ N o t t', Grounded g₀ t.1 → (t.1.node o).childRule = some r →
      DepsRightBut P κ t.1 (insert o N) R → nodeHash t o = .ok t' →
        Grounded g₀ t'.1 ∧ DepsRightBut P κ t'.1 N R)
    (h : DepsRightBut P κ s.1 N (insert r R)) (hrun : recomputeRuleHash P nodeHash s r = .ok s') :
    Grounded g₀ s'.1 ∧ DepsRightBut P κ s'.1 N R := by
  obtain ⟨g₁, hupdate, hrun⟩ := bind_eq_ok.mp hrun
  obtain ⟨s₂, hrestore, hloop⟩ := bind_eq_ok.mp hrun
  have hg₁ : Grounded g₀ g₁ := hg.edit (.hashRule hupdate)
  have hrules₁ : g₁.rules = s.1.rules := rules_of_links (updateRuleHash_links hupdate).1
  have hr₁ : r ∈ g₁.rules := hrules₁ ▸ hr
  have hg₂ : Grounded g₀ s₂.1 := hg₁.edits (restoreDepfile_edits hg₁.wired hr₁ hrestore)
  have hr₀ : r ∈ g₀.rules := hg.explicit.rules ▸ hr
  have houtputs : ∀ {k}, Grounded g₀ k → (k.rule r).outputs = (g₀.rule r).outputs :=
    fun hk ↦ hk.explicit.outputs r
  rw [houtputs hg₂] at hloop
  have h₂ := restoreDepfile_depsRight (h.hashRule hdigest hupdate) hg₁.wired hr₁ hrestore
  have hstart : DepsRightBut P κ s₂.1 (N ∪ {n | n ∈ (g₀.rule r).outputs ∧ n ∉ ([] : List NodeId)})
      R := by
    refine h₂.mono (Set.union_subset_union_right N fun n hn ↦ ?_) fun _ _ hin ↦ hin
    refine ⟨?_, List.not_mem_nil⟩
    rw [← houtputs hg]
    exact (hg.wired.child n r hn).2.1
  have hend : Grounded g₀ s'.1 ∧
      DepsRightBut P κ s'.1 (N ∪ {n | n ∈ (g₀.rule r).outputs ∧ n ∉ (g₀.rule r).outputs}) R := by
    refine foldlM_prefix (fun pre t ↦ Grounded g₀ t.1 ∧
      DepsRightBut P κ t.1 (N ∪ {n | n ∈ (g₀.rule r).outputs ∧ n ∉ pre}) R) ⟨hg₂, hstart⟩ ?_ hloop
    rintro pre o post t t' hl ⟨ht, hright⟩ hstep
    have hout : o ∈ (t.1.rule r).outputs := by
      rw [houtputs ht, hl]
      simp
    have hchild := ht.wired.outputs r (ht.explicit.rules ▸ hr₀) o hout
    exact hnode _ o t t' ht hchild (hright.mono (pending_snoc o) fun _ _ hin ↦ hin) hstep
  exact ⟨hend.1, hend.2.mono pending_self fun _ _ hin ↦ hin⟩

/-- A node whose file is what `κ` says becomes right, together with all that
depends on it. -/
theorem recomputeNodeHash_depsRight {fuel : ℕ} {n : NodeId} {changed : Bool} (hg : Grounded g₀ g)
    (hsource : (g.node n).childRule = none → a = true ∧ κ n = contentOf P w (g.node n).path)
    (h : DepsRightBut P κ g (insert n N) R)
    (hrun : recomputeNodeHash P a true fuel (g, w) n = .ok (changed, g', w')) :
    Grounded g₀ g' ∧ DepsRightBut P κ g' N R := by
  induction fuel generalizing g w n N R changed g' w' with
  | zero => cases hrun
  | succ fuel ih =>
      obtain ⟨g₁, hupdate, hcases⟩ := recomputeNodeHash_ok hrun
      have hg₁ : Grounded g₀ g₁ := hg.edit (.hashNode hupdate)
      obtain ⟨husers, hsame⟩ := h.hashNode hdigest hg.wired hsource hupdate
      obtain ⟨hchanged, heq⟩ | ⟨-, hloop⟩ := hcases
      · rw [(Prod.mk.inj heq).1]
        exact ⟨hg₁, hsame hchanged⟩
      · -- The loop goes over the explicit parents first; what comes behind
        -- them does not use the depfile hash of the node.
        have hstart : DepsRightBut P κ g₁ N
            (R ∪ {r | r ∈ g₀.explicitParents n ∧ r ∉ ([] : List RuleId)}) := by
          refine husers.mono (Set.Subset.refl N) fun r hr hin ↦ hin.imp id fun hmem ↦ ?_
          refine ⟨?_, List.not_mem_nil⟩
          rw [Set.mem_ofPred_eq, hg.explicit.inputs] at hmem
          exact mem_explicitParents hg.base (hg₁.explicit.rules ▸ hr) hmem
        have hstep : ∀ {R : Set RuleId} {r : RuleId} {t t' : Graph × ω}, Grounded g₀ t.1 →
            r ∈ (t.1.node n).parentRules → DepsRightBut P κ t.1 N (insert r R) →
            recomputeRuleHash P (fun s m ↦
              recomputeNodeHash P a true fuel s m >>= fun x ↦ pure x.2) t r = .ok t' →
              Grounded g₀ t'.1 ∧ DepsRightBut P κ t'.1 N R := by
          intro R r t t' ht hr hright hbody
          refine recomputeRuleHash_depsRight hdigest ht (ht.wired.parents n r hr) ?_ hright hbody
          intro N o u u' hu hchild hright hm
          obtain ⟨⟨ch', u₁⟩, hrec, hpure⟩ := bind_eq_ok.mp hm
          rw [← Except.ok.inj hpure]
          refine ih hu (fun hnone ↦ ?_) hright hrec
          rw [hchild] at hnone
          cases hnone
        have hend := liveLoop_prefix (fun pre (t : Graph × ω) ↦ Grounded g₀ t.1 ∧
            DepsRightBut P κ t.1 N (R ∪ {r | r ∈ g₀.explicitParents n ∧ r ∉ pre}))
          (fun _ _ ht ↦ ht.1.explicitParents_first n)
          (fun pre r _ t t' _ hr ht hbody ↦ hstep ht.1 hr
            (ht.2.mono (Set.Subset.refl N) fun _ _ hin ↦ pending_snoc r hin) hbody)
          (fun r t t' hr ht hbody ↦ hstep ht.1 hr
            (ht.2.mono (Set.Subset.refl N) fun _ _ hin ↦ Or.inr hin) hbody)
          (show Grounded g₀ (g₁, w).1 ∧ _ from ⟨hg₁, hstart⟩) hloop
        exact ⟨hend.1, hend.2.mono (Set.Subset.refl N) fun _ _ hin ↦ pending_self hin⟩

theorem recomputeRuleHash_false_depsRight {nodeHash : Graph × ω → NodeId → Outcome (Graph × ω)}
    {s s' : Graph × ω} {r : RuleId} (hg : Grounded g₀ s.1) (hr : r ∈ s.1.rules)
    (hnode : ∀ o t t', Grounded g₀ t.1 → (t.1.node o).childRule = some r → DepsRight P κ t.1 →
      nodeHash t o = .ok t' → Grounded g₀ t'.1 ∧ DepsRight P κ t'.1)
    (h : DepsRight P κ s.1) (hrun : recomputeRuleHash P nodeHash s r = .ok s') :
    Grounded g₀ s'.1 ∧ DepsRight P κ s'.1 := by
  obtain ⟨g₁, hupdate, hrun⟩ := bind_eq_ok.mp hrun
  obtain ⟨s₂, hrestore, hloop⟩ := bind_eq_ok.mp hrun
  have hg₁ : Grounded g₀ g₁ := hg.edit (.hashRule hupdate)
  have h₁ : DepsRight P κ g₁ := h.hashRule_right hdigest hg.wired hr (Set.notMem_empty r) hupdate
  have hr₁ : r ∈ g₁.rules := rules_of_links (updateRuleHash_links hupdate).1 ▸ hr
  have h₂ : Grounded g₀ s₂.1 ∧ DepsRight P κ s₂.1 :=
    ⟨hg₁.edits (restoreDepfile_edits hg₁.wired hr₁ hrestore),
      restoreDepfile_depsRight h₁ hg₁.wired hr₁ hrestore⟩
  refine foldlM_invariant (fun t : Graph × ω ↦ Grounded g₀ t.1 ∧ DepsRight P κ t.1) ?_ hloop h₂
  rintro o ho t t' hstep ⟨ht, hright⟩
  refine hnode o t t' ht (ht.wired.outputs r ?_ o ?_) hright hstep
  · rw [ht.explicit.rules, ← hg.explicit.rules]
    exact hr
  · rw [ht.explicit.outputs, ← h₂.1.explicit.outputs]
    exact ho

/-- The ordinary hash of a target does not matter, and the depfile hashes of the
rules are right already. -/
theorem recomputeNodeHash_false_depsRight {fuel : ℕ} {n : NodeId} {changed : Bool}
    (hg : Grounded g₀ g) (htarget : (g.node n).childRule ≠ none) (h : DepsRight P κ g)
    (hrun : recomputeNodeHash P a false fuel (g, w) n = .ok (changed, g', w')) :
    Grounded g₀ g' ∧ DepsRight P κ g' := by
  induction fuel generalizing g w n changed g' w' with
  | zero => cases hrun
  | succ fuel ih =>
      obtain ⟨g₁, hupdate, hcases⟩ := recomputeNodeHash_ok hrun
      have hg₁ : Grounded g₀ g₁ := hg.edit (.hashNode hupdate)
      have h₁ : DepsRight P κ g₁ := h.hashNode_false htarget hupdate
      obtain ⟨-, heq⟩ | ⟨-, hloop⟩ := hcases
      · rw [(Prod.mk.inj heq).1]
        exact ⟨hg₁, h₁⟩
      · refine liveLoop_invariant (fun t : Graph × ω ↦ Grounded g₀ t.1 ∧ DepsRight P κ t.1) ?_
          hloop ⟨hg₁, h₁⟩
        rintro t r hr t' ⟨ht, hright⟩ hbody
        have hmem := ht.wired.parents n r hr
        refine recomputeRuleHash_false_depsRight hdigest ht hmem ?_ hright hbody
        intro o u u' hu hchild hright hm
        obtain ⟨⟨ch', u₁⟩, hrec, hpure⟩ := bind_eq_ok.mp hm
        rw [← Except.ok.inj hpure]
        refine ih hu ?_ hright hrec
        rw [hchild]
        exact Option.some_ne_none r

end Digest

end Hash

end Falcon
