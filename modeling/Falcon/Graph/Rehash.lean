import Falcon.Graph.Depfile

/-!
# What rehashing does and leaves alone

The hash functions change hashes only, unless a depfile is restored on the
way and loaded.
-/

namespace Falcon.Hash

variable {ω : Type} {P : Platform ω} {w w' : ω} {g g' : Graph} {a b : Bool}

theorem updateRuleHash_eq_ok {r : RuleId} :
    updateRuleHash P g r a b = .ok g' ↔
      (a = true → ∀ n ∈ (g.rule r).inputs, (g.node n).hash ≠ "") ∧
      (b = true → ∀ n ∈ explicitInputs (g.rule r), (g.node n).hashDepfile ≠ "") ∧
      g.setRule r { g.rule r with
        hash := if a then
            P.digest ((g.rule r).inputs.map (fun n ↦ (g.node n).hash) ++ [(g.rule r).command])
          else (g.rule r).hash
        hashDepfile := if b then
            P.digest ((explicitInputs (g.rule r)).map (fun n ↦ (g.node n).hashDepfile) ++
              [(g.rule r).command])
          else (g.rule r).hashDepfile } = g' := by
  cases a <;> cases b <;>
    simp [updateRuleHash, Lib.bind_eq_ok, Rule.setHash, Rule.setHashDepfile]

theorem updateTargetHash_eq_ok {child : Rule} {x x' : Node} {changed : Bool} :
    updateTargetHash P child x a b = .ok (changed, x') ↔
      (a = true → child.hash ≠ "") ∧ (b = true → child.hashDepfile ≠ "") ∧
      (a && x.hash != P.digest [x.path, child.hash] ||
        b && x.hashDepfile != P.digest [x.path, child.hashDepfile]) = changed ∧
      { x with
        hash := if a then P.digest [x.path, child.hash] else x.hash
        hashDepfile := if b then P.digest [x.path, child.hashDepfile]
          else x.hashDepfile } = x' := by
  cases a <;> cases b <;>
    simp [updateTargetHash, Lib.bind_eq_ok, Node.setHash, Node.setHashDepfile]

theorem updateNodeHash_source {n : NodeId} {changed : Bool} (hc : (g.node n).childRule = none) :
    updateNodeHash P w g n a b = .ok (changed, g') ↔
      (a || b) = true ∧ (updateSourceHash P w (g.node n) a b).1 = changed ∧
        g.setNode n (updateSourceHash P w (g.node n) a b).2 = g' := by
  simp only [updateNodeHash, hc, Lib.bind_eq_ok, Lib.except_pure, Lib.except_ok_bind,
    Except.ok.injEq, Prod.mk.injEq, assert_eq_ok, exists_and_left, exists_const]

theorem updateNodeHash_target {n : NodeId} {r : RuleId} {changed : Bool}
    (hc : (g.node n).childRule = some r) :
    updateNodeHash P w g n a b = .ok (changed, g') ↔
      (a || b) = true ∧ ∃ x, updateTargetHash P (g.rule r) (g.node n) a b = .ok (changed, x) ∧
        g.setNode n x = g' := by
  simp only [updateNodeHash, hc, Lib.bind_eq_ok, Lib.except_pure, Except.ok.injEq,
    Prod.mk.injEq, assert_eq_ok, exists_and_left, exists_const, Prod.exists]
  refine and_congr_right fun _ ↦ ?_
  constructor
  · rintro ⟨ch, x, hx, rfl, rfl⟩
    exact ⟨x, hx, rfl⟩
  · rintro ⟨x, hx, rfl⟩
    exact ⟨changed, x, hx, rfl, rfl⟩

theorem updateSourceHash_frame (w : ω) (x : Node) (a b : Bool) :
    ∃ hash hashDepfile, (updateSourceHash P w x a b).2 =
      { x with hash := hash, hashDepfile := hashDepfile } := by
  cases a <;> cases b <;> exact ⟨_, _, rfl⟩

/-- Only the hashes of the node change. -/
theorem updateNodeHash_frame {n : NodeId} {changed : Bool}
    (h : updateNodeHash P w g n a b = .ok (changed, g')) :
    ∃ hash hashDepfile,
      g' = g.setNode n { g.node n with hash := hash, hashDepfile := hashDepfile } := by
  cases hc : (g.node n).childRule with
  | none =>
      obtain ⟨-, -, rfl⟩ := (updateNodeHash_source hc).mp h
      obtain ⟨hash, hashDepfile, heq⟩ := updateSourceHash_frame (P := P) w (g.node n) a b
      exact ⟨hash, hashDepfile, by rw [heq]⟩
  | some r =>
      obtain ⟨-, x, hx, rfl⟩ := (updateNodeHash_target hc).mp h
      obtain ⟨-, -, -, rfl⟩ := updateTargetHash_eq_ok.mp hx
      exact ⟨_, _, rfl⟩

theorem updateRuleHash_frame {r : RuleId} (h : updateRuleHash P g r a b = .ok g') :
    ∃ hash hashDepfile,
      g' = g.setRule r { g.rule r with hash := hash, hashDepfile := hashDepfile } := by
  obtain ⟨-, -, rfl⟩ := updateRuleHash_eq_ok.mp h
  exact ⟨_, _, rfl⟩

theorem updateNodeHash_links {n : NodeId} {changed : Bool}
    (h : updateNodeHash P w g n a b = .ok (changed, g')) :
    g'.links = g.links ∧ g'.marks = g.marks := by
  obtain ⟨hash, hashDepfile, rfl⟩ := updateNodeHash_frame h
  exact ⟨Graph.links_setNode rfl rfl rfl rfl, Graph.marks_setNode rfl rfl rfl⟩

theorem updateRuleHash_links {r : RuleId} (h : updateRuleHash P g r a b = .ok g') :
    g'.links = g.links ∧ g'.marks = g.marks := by
  obtain ⟨hash, hashDepfile, rfl⟩ := updateRuleHash_frame h
  exact ⟨Graph.links_setRule rfl rfl rfl rfl rfl, Graph.marks_setRule rfl rfl rfl⟩

/-- No depfile of a graph with the links `L` is found in the cache. -/
def NoRestore (P : Platform ω) (L : Links) : Prop :=
  ∀ g r w restored w', g.links = L → (g.rule r).hasDepfile = true →
    P.restoreDepfile g r w = .ok (restored, w') → restored = false

section NoRestore

variable {L : Links} (hno : NoRestore P L)
include hno

theorem restoreDepfile_frame {tmp : String} {r : RuleId} (hL : g.links = L)
    (h : restoreDepfile P tmp g w r = .ok (g', w')) : g' = g := by
  rw [restoreDepfile] at h
  split at h
  · rename_i hdep
    simp only [Bool.and_eq_true] at hdep
    obtain ⟨⟨restored, w₁⟩, hrestore, h⟩ := Lib.bind_eq_ok.mp h
    obtain rfl : restored = false := hno g r w restored w₁ hL hdep.1 hrestore
    simp only [Bool.false_eq_true, if_false, Lib.except_pure, Except.ok.injEq, Prod.mk.injEq] at h
    exact h.1.symm
  · simp only [Lib.except_pure, Except.ok.injEq, Prod.mk.injEq] at h
    exact h.1.symm

theorem recomputeRuleHash_frame {nodeHash : Graph × ω → NodeId → Outcome (Graph × ω)}
    (hnode : ∀ g w n g' w', g.links = L → nodeHash (g, w) n = .ok (g', w') →
      g'.links = L ∧ g'.marks = g.marks)
    {r : RuleId} (hL : g.links = L) (h : recomputeRuleHash P nodeHash (g, w) r = .ok (g', w')) :
    g'.links = L ∧ g'.marks = g.marks := by
  simp only [recomputeRuleHash, Lib.bind_eq_ok] at h
  obtain ⟨g₁, hupdate, ⟨g₂, w₂⟩, hmid, hloop⟩ := h
  obtain ⟨hl₁, hm₁⟩ := updateRuleHash_links hupdate
  obtain rfl : g₂ = g₁ := restoreDepfile_frame hno (hl₁.trans hL) hmid
  have hinv := Lib.foldlM_invariant (fun s : Graph × ω ↦ s.1.links = L ∧ s.1.marks = g.marks)
    (fun n _ s s' hstep hs ↦ ?_) hloop ⟨hl₁.trans hL, hm₁⟩
  · exact hinv
  · obtain ⟨hl, hm⟩ := hnode s.1 s.2 n s'.1 s'.2 hs.1 hstep
    exact ⟨hl, hm.trans hs.2⟩

theorem recomputeNodeHash_frame {fuel : ℕ} {n : NodeId} {changed : Bool} (hL : g.links = L)
    (h : recomputeNodeHash P a b fuel (g, w) n = .ok (changed, g', w')) :
    g'.links = L ∧ g'.marks = g.marks := by
  induction fuel generalizing g w n changed g' w' with
  | zero => cases h
  | succ fuel ih =>
      obtain ⟨g₁, hupdate, hcases⟩ := recomputeNodeHash_ok h
      obtain ⟨hl₁, hm₁⟩ := updateNodeHash_links hupdate
      obtain ⟨-, heq⟩ | ⟨-, hloop⟩ := hcases
      · rw [(Prod.mk.inj heq).1]
        exact ⟨hl₁.trans hL, hm₁⟩
      · refine Lib.liveLoop_invariant (fun s : Graph × ω ↦ s.1.links = L ∧ s.1.marks = g.marks) ?_
          hloop ⟨hl₁.trans hL, hm₁⟩
        intro s r _ s' hs hstep
        obtain ⟨hl, hm⟩ := recomputeRuleHash_frame hno (fun g w m g' w' hg hm ↦ by
          obtain ⟨⟨ch', s₂⟩, hrec, hpure⟩ := Lib.bind_eq_ok.mp hm
          obtain rfl := Except.ok.inj hpure
          exact ih hg hrec) hs.1 hstep
        exact ⟨hl, hm.trans hs.2⟩

end NoRestore

end Falcon.Hash
