import Falcon.Graph.Loads
import Falcon.Lib.Weight

/-!
# How often depfile hashes can change

The depfile hashes depend on the explicit inputs alone, which stay the same
while the daemon runs.  A hash that is computed again either stays the same, or
was not what its inputs make of it and is now; then only hashes further up may
have become wrong.  The debt of a graph weighs the hashes that are wrong.
-/

namespace Falcon

open Relation

/-- The part of the links that loading a depfile leaves alone. -/
structure Skeleton where
  rules : List RuleId
  child : NodeId → Option RuleId
  outputs : RuleId → List NodeId
  explicitInputs : RuleId → List NodeId
  command : RuleId → String

def Graph.skeleton (g : Graph) : Skeleton where
  rules := g.rules
  child n := (g.node n).childRule
  outputs r := (g.rule r).outputs
  explicitInputs r := Hash.explicitInputs (g.rule r)
  command r := (g.rule r).command

namespace Skeleton

variable (K : Skeleton)

def Feeds (m n : NodeId) : Prop := ∃ r, K.child n = some r ∧ m ∈ K.explicitInputs r

def targets : Finset NodeId := (K.rules.flatMap K.outputs).toFinset

/-- The hashes that are computed from other hashes and may be used by others. -/
def items : Finset (RuleId ⊕ NodeId) :=
  (K.rules.toFinset.filter fun r ↦ K.outputs r ≠ []).disjSum K.targets

/-- The number of targets that explicitly depend on `n`. -/
noncomputable def rank (n : NodeId) : ℕ := Lib.reachCount K.Feeds K.targets n

/-- The hash of a rule is used by its outputs, and that of a node by rules. -/
noncomputable def height : RuleId ⊕ NodeId → ℕ
  | .inl r => 2 * (K.outputs r).toFinset.sup K.rank + 1
  | .inr n => 2 * K.rank n

end Skeleton

namespace Graph

variable {ω : Type} (P : Platform ω)

/-- The depfile hash is what the hashes below make of it. -/
def Settled (g : Graph) : RuleId ⊕ NodeId → Prop
  | .inl r => (g.rule r).hashDepfile = P.digest
      ((Hash.explicitInputs (g.rule r)).map (fun n ↦ (g.node n).hashDepfile) ++
        [(g.rule r).command])
  | .inr n => ∀ r, (g.node n).childRule = some r →
      (g.node n).hashDepfile = P.digest [(g.node n).path, (g.rule r).hashDepfile]

noncomputable def unsettled (g : Graph) : Finset (RuleId ⊕ NodeId) := by
  classical exact g.skeleton.items.filter fun x ↦ ¬ g.Settled P x

noncomputable def debt (g : Graph) : ℕ :=
  Lib.weight g.skeleton.height (g.skeleton.items.card + 1) (g.unsettled P)

variable {P} {g g' : Graph}

theorem mem_unsettled {x : RuleId ⊕ NodeId} :
    x ∈ g.unsettled P ↔ x ∈ g.skeleton.items ∧ ¬ g.Settled P x := by
  classical
  simp [unsettled]

@[simp] theorem inl_mem_items {r : RuleId} :
    .inl r ∈ g.skeleton.items ↔ r ∈ g.rules ∧ (g.rule r).outputs ≠ [] := by
  rw [Skeleton.items, Finset.inl_mem_disjSum, Finset.mem_filter, List.mem_toFinset]
  rfl

@[simp] theorem inr_mem_items {n : NodeId} :
    .inr n ∈ g.skeleton.items ↔ ∃ r ∈ g.rules, n ∈ (g.rule r).outputs := by
  simp [Skeleton.items, Skeleton.targets, skeleton]

theorem skeleton_of_links (h : g'.links = g.links) : g'.skeleton = g.skeleton := by
  have hnum : ∀ r, (g'.rule r).numImplicitDeps = (g.rule r).numImplicitDeps :=
    congrFun (congrArg Links.numImplicit h)
  simp only [skeleton, Hash.explicitInputs, rules_of_links h, childRule_of_links h,
    outputs_of_links h, inputs_of_links h, hnum, command_of_links h]

theorem debt_eq (hskel : g'.skeleton = g.skeleton)
    (h : ∀ x ∈ g.skeleton.items, g'.Settled P x ↔ g.Settled P x) : g'.debt P = g.debt P := by
  have hsame : g'.unsettled P = g.unsettled P := by
    ext x
    rw [mem_unsettled, mem_unsettled, hskel]
    exact and_congr_right fun hx ↦ not_congr (h x hx)
  rw [debt, debt, hskel, hsame]

/-- The item `x` has been settled, and only lower ones may have been unsettled. -/
theorem debt_lt (hskel : g'.skeleton = g.skeleton) {x : RuleId ⊕ NodeId}
    (hx : x ∈ g.skeleton.items) (hnot : ¬ g.Settled P x) (hself : g'.Settled P x)
    (h : ∀ y ∈ g.skeleton.items, y ≠ x → (g'.Settled P y ↔ g.Settled P y) ∨
      g.skeleton.height y < g.skeleton.height x) : g'.debt P < g.debt P := by
  rw [debt, debt, hskel]
  have hcard : g.skeleton.items.card < g.skeleton.items.card + 1 := Nat.lt_succ_self _
  refine Lib.weight_lt hcard (mem_unsettled.mpr ⟨hx, hnot⟩) fun y hy ↦ ?_
  obtain ⟨hmem, hy⟩ := mem_unsettled.mp hy
  rw [hskel] at hmem
  by_cases hyx : y = x
  · exact absurd (hyx ▸ hself) hy
  · rcases h y hmem hyx with hiff | hlow
    · exact Or.inl ⟨mem_unsettled.mpr ⟨hmem, fun hs ↦ hy (hiff.mpr hs)⟩, hyx⟩
    · exact Or.inr ⟨hmem, hlow⟩

theorem skeleton_feeds {m n : NodeId} (h : g.skeleton.Feeds m n) : g.links.Feeds m n := by
  obtain ⟨r, hchild, hm⟩ := h
  exact ⟨r, hchild, List.mem_of_mem_take hm⟩

theorem height_output {r : RuleId} {o : NodeId} (ho : o ∈ (g.rule r).outputs) :
    g.skeleton.height (.inr o) < g.skeleton.height (.inl r) := by
  have hle : g.skeleton.rank o ≤ ((g.rule r).outputs).toFinset.sup g.skeleton.rank :=
    Finset.le_sup (f := g.skeleton.rank) (List.mem_toFinset.mpr ho)
  change 2 * _ < 2 * _ + 1
  exact Nat.lt_succ_of_le (Nat.mul_le_mul_left 2 hle)

theorem height_input (hg : g.Tied) (hac : g.links.Acyclic) {r : RuleId}
    (hr : .inl r ∈ g.skeleton.items) {n : NodeId} (hn : n ∈ Hash.explicitInputs (g.rule r)) :
    g.skeleton.height (.inl r) < g.skeleton.height (.inr n) := by
  obtain ⟨hr, hne⟩ := inl_mem_items.mp hr
  have hacyclic : Lib.Acyclic g.skeleton.Feeds := hac.mono fun _ _ ↦ skeleton_feeds
  have hlt : ∀ o ∈ ((g.rule r).outputs).toFinset, g.skeleton.rank o < g.skeleton.rank n := by
    intro o ho
    rw [List.mem_toFinset] at ho
    refine hacyclic.reachCount_lt_of_mem ?_ ⟨r, (hg.twoWay.child_eq_some o r).mpr ⟨hr, ho⟩, hn⟩
    exact List.mem_toFinset.mpr (List.mem_flatMap.mpr ⟨r, hr, ho⟩)
  have hpos : 0 < g.skeleton.rank n := by
    obtain ⟨o, ho⟩ := List.exists_mem_of_ne_nil _ hne
    exact Nat.zero_lt_of_lt (hlt o (List.mem_toFinset.mpr ho))
  have hsup : (g.skeleton.outputs r).toFinset.sup g.skeleton.rank < g.skeleton.rank n :=
    (Finset.sup_lt_iff hpos).mpr hlt
  change 2 * _ + 1 < 2 * _
  omega

/-! ## What the hash functions owe -/

section Debt

variable {w : ω} {a b : Bool}

/-- The hash of a rule: if the depfile hash has changed there is less debt. -/
theorem updateRuleHash_debt (hg : g.Tied) {r : RuleId} (hr : r ∈ g.rules)
    (hrun : Hash.updateRuleHash P g r a b = .ok g') :
    g'.debt P = g.debt P ∧ ((g'.rule r).hashDepfile = (g.rule r).hashDepfile ∨
      (g.rule r).outputs = []) ∨ g'.debt P < g.debt P := by
  have hskel : g'.skeleton = g.skeleton := skeleton_of_links (Hash.updateRuleHash_links hrun).1
  obtain ⟨-, -, heq⟩ := Hash.updateRuleHash_eq_ok.mp hrun
  have hnode : g'.node = g.node := by rw [← heq]; rfl
  have hother : ∀ q, q ≠ r → g'.rule q = g.rule q := by
    intro q hq
    rw [← heq, setRule_rule, if_neg hq]
  have hself : g'.rule r = { g.rule r with
      hash := (g'.rule r).hash, hashDepfile := (g'.rule r).hashDepfile } := by
    rw [← heq, setRule_rule, if_pos rfl]
  -- Away from the rule and its outputs nothing has changed.
  have hrule : ∀ q, q ≠ r → (g'.Settled P (.inl q) ↔ g.Settled P (.inl q)) := by
    intro q hq
    simp only [Settled, hother q hq, hnode]
  have hfar : ∀ n, (g.node n).childRule ≠ some r →
      (g'.Settled P (.inr n) ↔ g.Settled P (.inr n)) := by
    intro n hn
    simp only [Settled, hnode]
    refine forall_congr' fun q ↦ imp_congr_right fun hq ↦ ?_
    rw [hother q fun hqr ↦ hn (hqr ▸ hq)]
  by_cases hsame : (g'.rule r).hashDepfile = (g.rule r).hashDepfile
  · left
    refine ⟨debt_eq hskel fun x _ ↦ ?_, Or.inl hsame⟩
    cases x with
    | inl q =>
        by_cases hq : q = r
        · subst hq
          rw [Settled, Settled, hsame, hnode, hself]
          exact Iff.rfl
        · exact hrule q hq
    | inr n =>
        simp only [Settled, hnode]
        refine forall_congr' fun q ↦ imp_congr_right fun _ ↦ ?_
        by_cases hq : q = r
        · rw [hq, hsame]
        · rw [hother q hq]
  by_cases hne : (g.rule r).outputs = []
  · left
    refine ⟨debt_eq hskel fun x hx ↦ ?_, Or.inr hne⟩
    cases x with
    | inl q => exact hrule q fun hq ↦ (inl_mem_items.mp hx).2 (hq ▸ hne)
    | inr n =>
        refine hfar n fun hn ↦ ?_
        have hout := ((hg.twoWay.child_eq_some n r).mp hn).2
        change n ∈ (g.rule r).outputs at hout
        rw [hne] at hout
        cases hout
  · right
    have hnew : (g'.rule r).hashDepfile = P.digest
        ((Hash.explicitInputs (g.rule r)).map (fun n ↦ (g.node n).hashDepfile) ++
          [(g.rule r).command]) := by
      rw [← heq, setRule_rule, if_pos rfl] at hsame ⊢
      cases b with
      | true => rfl
      | false => exact absurd rfl hsame
    refine debt_lt hskel (x := .inl r) (inl_mem_items.mpr ⟨hr, hne⟩) ?_ ?_ fun y hy hyr ↦ ?_
    · exact fun hold ↦ hsame (hnew.trans hold.symm)
    · rw [Settled, hnew, hnode, hself]
      rfl
    · cases y with
      | inl q => exact Or.inl (hrule q fun hq ↦ hyr (hq ▸ rfl))
      | inr n =>
          by_cases hn : (g.node n).childRule = some r
          · exact Or.inr (height_output ((hg.twoWay.child_eq_some n r).mp hn).2)
          · exact Or.inl (hfar n hn)

/-- The hash of a target: the debt does not grow. -/
theorem updateNodeHash_debt (hg : g.Tied) (hac : g.links.Acyclic) {n : NodeId} {r : RuleId}
    (hn : (g.node n).childRule = some r) {changed : Bool}
    (hrun : Hash.updateNodeHash P w g n a b = .ok (changed, g')) : g'.debt P ≤ g.debt P := by
  have hskel : g'.skeleton = g.skeleton := skeleton_of_links (Hash.updateNodeHash_links hrun).1
  obtain ⟨-, x, hx, heq⟩ := (Hash.updateNodeHash_target hn).mp hrun
  obtain ⟨-, -, -, hx⟩ := Hash.updateTargetHash_eq_ok.mp hx
  have hrule : g'.rule = g.rule := by rw [← heq]; rfl
  have hother : ∀ m, m ≠ n → g'.node m = g.node m := by
    intro m hm
    rw [← heq, setNode_node, if_neg hm]
  have hself : g'.node n = { g.node n with
      hash := (g'.node n).hash, hashDepfile := (g'.node n).hashDepfile } := by
    rw [← heq, setNode_node, if_pos rfl, ← hx]
  have hnode : ∀ m, m ≠ n → (g'.Settled P (.inr m) ↔ g.Settled P (.inr m)) := by
    intro m hm
    simp only [Settled, hrule, hother m hm]
  by_cases hsame : (g'.node n).hashDepfile = (g.node n).hashDepfile
  · have hdeps : ∀ m, (g'.node m).hashDepfile = (g.node m).hashDepfile := by
      intro m
      by_cases hm : m = n
      · rw [hm, hsame]
      · rw [hother m hm]
    refine le_of_eq (debt_eq hskel fun y _ ↦ ?_)
    cases y with
    | inl q => simp only [Settled, hrule, hdeps]
    | inr m =>
        by_cases hm : m = n
        · subst hm
          rw [Settled, Settled, hrule, hsame, hself]
        · exact hnode m hm
  · have hnew : (g'.node n).hashDepfile =
        P.digest [(g.node n).path, (g.rule r).hashDepfile] := by
      rw [← heq, setNode_node, if_pos rfl, ← hx] at hsame ⊢
      cases b with
      | true => rfl
      | false => exact absurd rfl hsame
    obtain ⟨hr, hout⟩ := (hg.twoWay.child_eq_some n r).mp hn
    refine le_of_lt (debt_lt hskel (x := .inr n) (inr_mem_items.mpr ⟨r, hr, hout⟩) ?_ ?_
      fun y hy hyn ↦ ?_)
    · exact fun hold ↦ hsame (hnew.trans (hold r hn).symm)
    · intro q hq
      rw [hself] at hq
      obtain rfl : r = q := Option.some.inj (hn.symm.trans hq)
      rw [hnew, hrule, hself]
    · cases y with
      | inl q =>
          by_cases hin : n ∈ Hash.explicitInputs (g.rule q)
          · exact Or.inr (height_input hg hac hy hin)
          · left
            have hmap : (Hash.explicitInputs (g.rule q)).map (fun m ↦ (g'.node m).hashDepfile) =
                (Hash.explicitInputs (g.rule q)).map fun m ↦ (g.node m).hashDepfile := by
              refine List.map_congr_left fun m hm ↦ ?_
              rw [hother m fun heq ↦ hin (heq ▸ hm)]
            rw [Settled, Settled, hrule, hmap]
      | inr m => exact Or.inl (hnode m fun hm ↦ hyn (hm ▸ rfl))

/-- Loading a depfile exchanges implicit inputs, which no depfile hash covers. -/
theorem skeleton_debt_of_loading (hg : g.Tied) {r : RuleId} (h : Depfile.Loading g r [] g') :
    g'.skeleton = g.skeleton ∧ g'.debt P = g.debt P := by
  obtain ⟨implicit, numReady, hself⟩ := h.self
  have hexplicit : ∀ q, Hash.explicitInputs (g'.rule q) = Hash.explicitInputs (g.rule q) := by
    intro q
    by_cases hq : q = r
    · rw [hq, hself]
      simp [Hash.explicitInputs]
    · rw [h.other q hq]
  have hcommand : ∀ q, (g'.rule q).command = (g.rule q).command ∧
      (g'.rule q).hashDepfile = (g.rule q).hashDepfile := by
    intro q
    by_cases hq : q = r
    · rw [hq, hself]
      exact ⟨rfl, rfl⟩
    · rw [h.other q hq]
      exact ⟨rfl, rfl⟩
  have hskel : g'.skeleton = g.skeleton := by
    simp only [skeleton, h.rules, h.child, h.outputs, hexplicit, fun q ↦ (hcommand q).1]
  refine ⟨hskel, debt_eq hskel fun x hx ↦ ?_⟩
  cases x with
  | inl q =>
      obtain ⟨hq, -⟩ := inl_mem_items.mp hx
      have hmap : (Hash.explicitInputs (g.rule q)).map (fun m ↦ (g'.node m).hashDepfile) =
          (Hash.explicitInputs (g.rule q)).map fun m ↦ (g.node m).hashDepfile := by
        refine List.map_congr_left fun m hm ↦ ?_
        exact (h.node m (hg.allocated q hq m (Or.inl (List.mem_of_mem_take hm)))).2.2
      rw [Settled, Settled, hexplicit, (hcommand q).1, (hcommand q).2, hmap]
  | inr n =>
      obtain ⟨q, hq, hout⟩ := inr_mem_items.mp hx
      obtain ⟨hpath, -, hdeps⟩ := h.node n (hg.allocated q hq n (Or.inr hout))
      simp only [Settled, h.child, hpath, hdeps, fun q ↦ (hcommand q).2]

end Debt

end Graph

end Falcon
