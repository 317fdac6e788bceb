import Falcon.Build.Finish
import Falcon.Build.Plan
import Falcon.Platform

/-!
# The lazy cache

`LazyCache::fetch` walks down from the targets and stops at the first node
that the cache can restore.  A restored node is up to date although what lies
below it may be dirty.
-/

namespace Falcon

open Relation

namespace LazyCache

variable {ω : Type} (P : Platform ω)

/-- The node has been restored from the cache. -/
def markFetched (g : Graph) (n : NodeId) (t : Timestamp) : Outcome Graph :=
  (g.updateNode n fun x ↦
    ((x.setState .upToDate).setLazyFetched true).setTimestamp t).notifyParents n

def traverseNode : ℕ → Graph × ω → NodeId → Outcome (Graph × ω)
  | 0, _, _ => .error .outOfFuel
  | fuel + 1, (g, w), n =>
    if !(g.node n).isDirty then pure (g, w)
    else
      match (g.node n).childRule with
      | none => pure (g, w)
      | some rule =>
        if (g.rule rule).isPhony then (g.rule rule).inputs.foldlM (traverseNode fuel) (g, w)
        else do
          let (restored, w) ← P.restoreNode g n w
          if restored then do
            let g ← markFetched g n (P.now w)
            pure (g, w)
          else (g.rule rule).inputs.foldlM (traverseNode fuel) (g, w)

def fetch (g : Graph) (w : ω) (targets : Finset NodeId) : Outcome (Graph × ω) :=
  (targets.sort (· ≤ ·)).foldlM (traverseNode P g.depth) (g, w)

end LazyCache

namespace Graph

theorem notifyParents_node {g g' : Graph} {n : NodeId} (h : g.notifyParents n = .ok g') :
    g'.node = g.node := by
  refine Lib.foldlM_preserves (fun h h' : Graph ↦ h'.node = h.node) (fun _ ↦ rfl)
    (fun _ _ _ h₁ h₂ ↦ h₂.trans h₁) ?_ h
  intro q _ h h' hstep
  cases hq : Rule.markInputReady (h.rule q) with
  | error f => simp [onRule, hq, Except.map] at hstep
  | ok x =>
      simp only [onRule, hq, Except.map, Except.ok.injEq] at hstep
      rw [← hstep, setRule_node]

/-- The graph after some dirty targets of `g` have been restored. -/
structure Fetched (g g' : Graph) : Prop where
  links : g'.links = g.links
  hashes : g'.hashes = g.hashes
  rule : ∀ r, (g'.rule r).isDirty = (g.rule r).isDirty
  node : ∀ n, g'.node n = g.node n ∨ (g.node n).isDirty = true ∧ (g'.node n).isDirty = false ∧
    (g'.node n).isLazyFetched = true ∧
      ∃ r, (g.node n).childRule = some r ∧ (g.rule r).isPhony = false
  exact : g'.Exact

theorem Fetched.refl {g : Graph} (h : g.Exact) : g.Fetched g :=
  ⟨rfl, rfl, fun _ ↦ rfl, fun _ ↦ Or.inl rfl, h⟩

theorem Fetched.isDirty_of {g g' : Graph} (h : g.Fetched g') {n : NodeId}
    (hd : (g'.node n).isDirty = true) : (g.node n).isDirty = true := by
  rcases h.node n with heq | ⟨hd', -⟩
  · rw [← heq]
    exact hd
  · exact hd'

theorem Fetched.dirtyHasDirtyRule {g g' : Graph} (h : g.Fetched g') (hd : g.DirtyHasDirtyRule) :
    g'.DirtyHasDirtyRule := by
  intro n r hn hdirty
  rw [childRule_of_links h.links] at hn
  rw [h.rule]
  exact hd n r hn (h.isDirty_of hdirty)

end Graph

namespace LazyCache

variable {ω : Type} {P : Platform ω}

/-- A dirty target can be marked restored, and the counters stay exact. -/
theorem markFetched_spec {g : Graph} (hL : g.links.TwoWay) (hexact : g.Exact) {n : NodeId}
    {r : RuleId} (hn : (g.node n).childRule = some r) (hd : (g.node n).isDirty = true)
    (t : Timestamp) :
    ∃ g', markFetched g n t = .ok g' ∧ g'.links = g.links ∧ g'.hashes = g.hashes ∧
      (∀ q, (g'.rule q).isDirty = (g.rule q).isDirty) ∧
      g'.node = Function.update g.node n
        (((g.node n).setState .upToDate |>.setLazyFetched true).setTimestamp t) ∧ g'.Exact := by
  generalize hx : ((g.node n).setState .upToDate |>.setLazyFetched true).setTimestamp t = x
  have hclean₁ : g.Cleaned {n} ∅ 0 (g.setNode n x) := by
    subst x
    refine ⟨Graph.links_setNode rfl rfl rfl rfl, Graph.hashes_setNode rfl rfl, fun m ↦ ?_,
      by simp, by simp⟩
    rw [Graph.setNode_node]
    by_cases hm : m = n <;>
      simp [hm, Node.setState, Node.setLazyFetched, Node.setTimestamp, Node.isDirty]
  have hparents : ((g.setNode n x).node n).parentRules = (g.node n).parentRules :=
    Graph.parentRules_of_links hclean₁.links n
  have hunready : g.inputReady n = false := by
    simp [Graph.inputReady, Node.isSource, hn, hd]
  have hready : ∀ m, (g.setNode n x).inputReady m = true ↔ g.inputReady m = true ∨ m = n := by
    intro m
    rw [hclean₁.inputReady_iff]
    rfl
  have hcount : ∀ q ∈ g.rules, (g.setNode n x).nbReady q =
      g.nbReady q + (g.node n).parentRules.count q := by
    intro q hq
    have hmem := hL.mem_parents n q
    have hin : n ∈ (g.rule q).inputs ↔ q ∈ (g.node n).parentRules :=
      ⟨fun h ↦ hmem.mpr ⟨hq, h⟩, fun h ↦ (hmem.mp h).2⟩
    rw [Graph.nbReady, Graph.nbReady, Graph.setNode_rule]
    by_cases hp : q ∈ (g.node n).parentRules
    · have hnd : (g.node n).parentRules.Nodup := hL.parents_nodup n
      rw [List.count_eq_one_of_mem hnd hp]
      refine Lib.countP_eq_add_one (hL.inputs_nodup q hq) (hin.mpr hp) ?_ hunready ?_
      · rw [hready]
        exact Or.inr rfl
      · intro m _ hmn
        rw [Bool.eq_iff_iff, hready]
        simp [hmn]
    · rw [List.count_eq_zero_of_not_mem hp, add_zero]
      apply List.countP_congr
      intro m hm
      rw [hready]
      have hmn : m ≠ n := fun heq ↦ hp (hin.mp (heq ▸ hm))
      simp [hmn]
  rcases (g.setNode n x).reports_notifyParents n with ⟨-, g', hrun, hclean₂⟩ | ⟨hroom, -⟩
  · refine ⟨g', by rw [markFetched, Graph.updateNode, hx]; exact hrun,
      hclean₂.links.trans hclean₁.links, hclean₂.hashes.trans hclean₁.hashes, ?_, ?_, ?_⟩
    · intro q
      rw [Bool.eq_iff_iff, hclean₂.rule, hclean₁.rule]
      simp
    · rw [Graph.notifyParents_node hrun]
      rfl
    · intro q hq
      have hq' : q ∈ g.rules := by
        rw [← Graph.rules_of_links (hclean₂.links.trans hclean₁.links)]
        exact hq
      rw [hclean₂.numReady, hclean₁.numReady, hexact q hq', hparents]
      have hsame : g'.nbReady q = (g.setNode n x).nbReady q := by
        rw [Graph.nbReady, Graph.nbReady, Graph.inputs_of_links hclean₂.links]
        apply List.countP_congr
        intro m _
        simp [hclean₂.inputReady_iff]
      rw [hsame, hcount q hq']
      rfl
  · refine absurd ?_ hroom
    intro q hq
    rw [hparents] at hq ⊢
    have hq' : q ∈ g.rules := ((hL.mem_parents n q).mp hq).1
    have hle : (g.setNode n x).nbReady q ≤ ((g.setNode n x).rule q).inputs.length :=
      List.countP_le_length
    rw [hcount q hq'] at hle
    rw [hclean₁.numReady, hexact q hq']
    exact hle

/-- An invariant kept by every answer of the cache is kept by the traversal. -/
theorem traverseNode_invariant (I : Graph × ω → Prop)
    (hmiss : ∀ g w n r w', I (g, w) → (g.node n).isDirty = true → (g.node n).childRule = some r →
      (g.rule r).isPhony = false → P.restoreNode g n w = .ok (false, w') → I (g, w'))
    (hhit : ∀ g w n r w' g', I (g, w) → (g.node n).isDirty = true →
      (g.node n).childRule = some r → (g.rule r).isPhony = false →
      P.restoreNode g n w = .ok (true, w') → markFetched g n (P.now w') = .ok g' → I (g', w'))
    {fuel : ℕ} {s s' : Graph × ω} {n : NodeId} (hrun : traverseNode P fuel s n = .ok s')
    (hs : I s) : I s' := by
  induction fuel generalizing s s' n with
  | zero => cases hrun
  | succ fuel ih =>
      obtain ⟨g, w⟩ := s
      have hloop : ∀ (l : List NodeId) (s s' : Graph × ω),
          l.foldlM (traverseNode P fuel) s = .ok s' → I s → I s' :=
        fun l s s' hl ↦ Lib.foldlM_invariant I (fun _ _ _ _ h hI ↦ ih h hI) hl
      rw [traverseNode] at hrun
      cases hd : (g.node n).isDirty with
      | false =>
          simp only [hd, Bool.not_false, if_true, Lib.except_pure, Except.ok.injEq] at hrun
          exact hrun ▸ hs
      | true =>
          simp only [hd, Bool.not_true, Bool.false_eq_true, if_false] at hrun
          cases hc : (g.node n).childRule with
          | none =>
              simp only [hc, Lib.except_pure, Except.ok.injEq] at hrun
              exact hrun ▸ hs
          | some r =>
              simp only [hc] at hrun
              cases hphony : (g.rule r).isPhony with
              | true =>
                  simp only [hphony, if_true] at hrun
                  exact hloop _ _ _ hrun hs
              | false =>
                  simp only [hphony, Bool.false_eq_true, if_false, Lib.bind_eq_ok] at hrun
                  obtain ⟨⟨restored, w'⟩, hrestore, hrun⟩ := hrun
                  cases restored with
                  | true =>
                      simp only [if_true, Lib.bind_eq_ok, Lib.except_pure,
                        Except.ok.injEq] at hrun
                      obtain ⟨g', hmark, rfl⟩ := hrun
                      exact hhit g w n r w' g' hs hd hc hphony hrestore hmark
                  | false =>
                      simp only [Bool.false_eq_true, if_false] at hrun
                      exact hloop _ _ _ hrun (hmiss g w n r w' hs hd hc hphony hrestore)

theorem Fetched.mark {g₀ g g' : Graph} (hL : g₀.links.TwoWay) (h : g₀.Fetched g) {n : NodeId}
    {r : RuleId} {t : Timestamp} (hd : (g.node n).isDirty = true)
    (hn : (g.node n).childRule = some r) (hphony : (g.rule r).isPhony = false)
    (hrun : markFetched g n t = .ok g') : g₀.Fetched g' := by
  have hlinks := h.links
  obtain ⟨g₁, hrun₁, hlinks₁, hhashes₁, hrule₁, hnode₁, hexact₁⟩ :=
    markFetched_spec (hlinks ▸ hL) h.exact hn hd t
  obtain rfl : g₁ = g' := by
    rw [hrun] at hrun₁
    exact (Except.ok.inj hrun₁).symm
  refine ⟨hlinks₁.trans hlinks, hhashes₁.trans h.hashes, fun q ↦ (hrule₁ q).trans (h.rule q), ?_,
    hexact₁⟩
  intro m
  rw [hnode₁]
  by_cases hm : m = n
  · subst m
    right
    rw [Function.update_self]
    refine ⟨h.isDirty_of hd, rfl, rfl, r, ?_, ?_⟩
    · rw [← Graph.childRule_of_links hlinks]
      exact hn
    · rw [← Graph.isPhony_of_links hlinks]
      exact hphony
  · rw [Function.update_of_ne hm]
    exact h.node m

/-- The cache did not answer with a value. -/
def NodeFault (P : Platform ω) (f : Fault) : Prop := ∃ g n w, P.restoreNode g n w = .error f

theorem traverseNode_total {g₀ : Graph} (hL : g₀.links.TwoWay) (hac : g₀.links.Acyclic)
    {fuel : ℕ} {g : Graph} {w : ω} {n : NodeId} (hfuel : g₀.links.rankBelow n < fuel)
    (h : g₀.Fetched g) :
    (∃ g' w', traverseNode P fuel (g, w) n = .ok (g', w') ∧ g₀.Fetched g') ∨
      ∃ f, traverseNode P fuel (g, w) n = .error f ∧ NodeFault P f := by
  induction fuel generalizing g w n with
  | zero => omega
  | succ fuel ih =>
      have hloop : ∀ (r : RuleId), (g.node n).childRule = some r → ∀ (l : List NodeId),
          (∀ m ∈ l, m ∈ (g.rule r).inputs) → ∀ (h : Graph) (w : ω), g₀.Fetched h →
          (∃ g' w', l.foldlM (traverseNode P fuel) (h, w) = .ok (g', w') ∧ g₀.Fetched g') ∨
            ∃ f, l.foldlM (traverseNode P fuel) (h, w) = .error f ∧ NodeFault P f := by
        intro r hr l hl
        induction l with
        | nil => exact fun k w hk ↦ Or.inl ⟨k, w, rfl, hk⟩
        | cons m l ihl =>
            intro k w hk
            have hlt : g₀.links.rankBelow m < g₀.links.rankBelow n := by
              refine Links.rankBelow_lt hL hac (r := r) ?_ ?_
              · rw [← h.links]
                exact hr
              · rw [← h.links]
                exact hl m List.mem_cons_self
            rw [List.foldlM_cons]
            rcases ih (n := m) (w := w) (by omega) hk with ⟨k', w', hm, hk'⟩ | ⟨f, hm, hf⟩
            · rw [hm, Lib.except_ok_bind]
              exact ihl (fun x hx ↦ hl x (List.mem_cons_of_mem m hx)) k' w' hk'
            · exact Or.inr ⟨f, by rw [hm]; rfl, hf⟩
      rw [traverseNode]
      cases hd : (g.node n).isDirty with
      | false => exact Or.inl ⟨g, w, by simp, h⟩
      | true =>
          simp only [Bool.not_true, Bool.false_eq_true, if_false]
          cases hc : (g.node n).childRule with
          | none => exact Or.inl ⟨g, w, rfl, h⟩
          | some r =>
              cases hphony : (g.rule r).isPhony with
              | true =>
                  simp only [hphony, if_true]
                  exact hloop r hc _ (fun _ hm ↦ hm) g w h
              | false =>
                  simp only [hphony, Bool.false_eq_true, if_false]
                  cases hrestore : P.restoreNode g n w with
                  | error f => exact Or.inr ⟨f, rfl, g, n, w, hrestore⟩
                  | ok v =>
                      obtain ⟨restored, w'⟩ := v
                      cases restored with
                      | true =>
                          have hlinks := h.links
                          obtain ⟨g', hmark, -⟩ :=
                            markFetched_spec (hlinks ▸ hL) h.exact hc hd (P.now w')
                          left
                          exact ⟨g', w', by simp [hmark], Fetched.mark hL h hd hc hphony hmark⟩
                      | false => exact hloop r hc _ (fun _ hm ↦ hm) g w' h

theorem fetch_fetched {g g' : Graph} {w w' : ω} {T : Finset NodeId} (hL : g.links.TwoWay)
    (hexact : g.Exact) (hrun : fetch P g w T = .ok (g', w')) : g.Fetched g' := by
  refine Lib.foldlM_invariant (fun s : Graph × ω ↦ g.Fetched s.1) ?_ hrun (.refl hexact)
  intro n _ s s' hstep
  refine traverseNode_invariant (fun s ↦ g.Fetched s.1) ?_ ?_ hstep
  · exact fun _ _ _ _ _ h _ _ _ _ ↦ h
  · exact fun _ _ _ _ _ _ h hd hn hphony _ hmark ↦ Fetched.mark hL h hd hn hphony hmark

/-- The fetch ends, and only the cache itself can make it fail. -/
theorem fetch_total {g : Graph} {w : ω} {T : Finset NodeId} (hL : g.links.TwoWay)
    (hac : g.links.Acyclic) (hexact : g.Exact) {f : Fault} (hrun : fetch P g w T = .error f) :
    NodeFault P f := by
  have hloop : ∀ (l : List NodeId) (k : Graph) (w : ω), g.Fetched k →
      l.foldlM (traverseNode P g.depth) (k, w) = .error f → NodeFault P f := by
    intro l
    induction l with
    | nil =>
        intro k w _ hl
        cases hl
    | cons m l ih =>
        intro k w hk hl
        rw [List.foldlM_cons] at hl
        rcases traverseNode_total (P := P) (w := w) hL hac (g.rankBelow_lt_depth m) hk with
          ⟨k', w', hm, hk'⟩ | ⟨f', hm, hf⟩
        · rw [hm] at hl
          exact ih k' w' hk' hl
        · rw [hm, Lib.except_error_bind, Except.error.injEq] at hl
          exact hl ▸ hf
  exact hloop _ g w (.refl hexact) hrun

end LazyCache

end Falcon
