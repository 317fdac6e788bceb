import Falcon.Build.LazyCache
import Falcon.Cache.Manager
import Falcon.Graph.Closure
import Falcon.Graph.DepfileParser

/-!
# What a lazy fetch restores

The traversal has no set of visited nodes.  A node that it meets again is up
to date if it has been restored, and leads to the same nodes as before if not,
so that the fetch restores the topmost nodes of the cache in any order.
-/

namespace Falcon

open Relation

namespace LazyCache

section Reports

variable {ω : Type} (P : Platform ω)

/-- `traverseNode` and what it reports to the consumer: the nodes for whose
paths `cacheRetrieveAction` has been called. -/
def traverseReporting :
    ℕ → List NodeId × Graph × ω → NodeId → Outcome (List NodeId × Graph × ω)
  | 0, _, _ => .error .outOfFuel
  | fuel + 1, (reported, g, w), n =>
    if !(g.node n).isDirty then pure (reported, g, w)
    else
      match (g.node n).childRule with
      | none => pure (reported, g, w)
      | some rule =>
        if (g.rule rule).isPhony then
          (g.rule rule).inputs.foldlM (traverseReporting fuel) (reported, g, w)
        else do
          let (restored, w) ← P.restoreNode g n w
          if restored then do
            let g ← markFetched g n (P.now w)
            pure (reported ++ [n], g, w)
          else (g.rule rule).inputs.foldlM (traverseReporting fuel) (reported, g, w)

/-- `fetch` for a set of targets in any order. -/
def fetchReporting (g : Graph) (w : ω) (targets : List NodeId) :
    Outcome (List NodeId × Graph × ω) :=
  targets.foldlM (traverseReporting P g.depth) ([], g, w)

theorem traverseReporting_map (fuel : ℕ) (s : List NodeId × Graph × ω) (n : NodeId) :
    (traverseReporting P fuel s n).map Prod.snd = traverseNode P fuel s.2 n := by
  induction fuel generalizing s n with
  | zero => rfl
  | succ fuel ih =>
      obtain ⟨reported, g, w⟩ := s
      have hloop : ∀ (l : List NodeId) (w : ω),
          (l.foldlM (traverseReporting P fuel) (reported, g, w)).map Prod.snd =
            l.foldlM (traverseNode P fuel) (g, w) :=
        fun l w ↦ Lib.foldlM_map Prod.snd ih l (reported, g, w)
      rw [traverseReporting, traverseNode]
      split
      · rfl
      · cases (g.node n).childRule with
        | none => rfl
        | some r =>
            dsimp only
            split
            · exact hloop _ w
            · cases P.restoreNode g n w with
              | error f => rfl
              | ok v =>
                  obtain ⟨restored, w'⟩ := v
                  cases restored with
                  | false => exact hloop _ w'
                  | true => cases hmark : markFetched g n (P.now w') <;> simp [hmark, Except.map]

theorem fetchReporting_map (g : Graph) (w : ω) (targets : Finset NodeId) :
    (fetchReporting P g w (targets.sort (· ≤ ·))).map Prod.snd = fetch P g w targets :=
  Lib.foldlM_map Prod.snd (traverseReporting_map P g.depth) _ ([], g, w)

end Reports

/-! ## The topmost nodes -/

/-- The cache has an entry for the node. -/
def Cached (w : Disk) (x : Node) : Prop := (w.entries x.hash).isSome

/-- A dirty output of a rule that is not phony, and that the cache has. -/
def Hit (g : Graph) (w : Disk) (n : NodeId) : Prop :=
  (g.node n).isDirty = true ∧
    (∃ r, (g.node n).childRule = some r ∧ (g.rule r).isPhony = false) ∧ Cached w (g.node n)

/-- The fetch goes on from `n` to its input `m`: `n` is dirty, and phony or not
in the cache. -/
def Deeper (g : Graph) (w : Disk) (n m : NodeId) : Prop :=
  (g.node n).isDirty = true ∧ ∃ r, (g.node n).childRule = some r ∧
    ((g.rule r).isPhony = true ∨ ¬ Cached w (g.node n)) ∧ m ∈ (g.rule r).inputs

/-- The fetch from `n` restores `m`. -/
def Topmost (g : Graph) (w : Disk) (n m : NodeId) : Prop :=
  ReflTransGen (Deeper g w) n m ∧ Hit g w m

section Topmost

variable {g : Graph} {w : Disk} {n m : NodeId} {r : RuleId}

theorem Hit.not_deeper (h : Hit g w n) : ¬ Deeper g w n m := by
  rintro ⟨-, r, hr, hmiss, -⟩
  obtain ⟨-, ⟨q, hq, hphony⟩, hcached⟩ := h
  obtain rfl : q = r := Option.some.inj (hq.symm.trans hr)
  rcases hmiss with hmiss | hmiss
  · rw [hphony] at hmiss
    cases hmiss
  · exact hmiss hcached

theorem topmost_of_hit (h : Hit g w n) : Topmost g w n m ↔ m = n := by
  constructor
  · rintro ⟨hpath, -⟩
    rcases ReflTransGen.cases_head hpath with heq | ⟨x, hx, -⟩
    · exact heq.symm
    · exact absurd hx h.not_deeper
  · rintro rfl
    exact ⟨.refl, h⟩

theorem not_topmost_of_clean (h : (g.node n).isDirty = false) : ¬ Topmost g w n m := by
  rintro ⟨hpath, hhit⟩
  have hdirty : (g.node n).isDirty = true := by
    rcases ReflTransGen.cases_head hpath with rfl | ⟨x, hx, -⟩
    · exact hhit.1
    · exact hx.1
  rw [h] at hdirty
  cases hdirty

theorem not_topmost_of_source (h : (g.node n).childRule = none) : ¬ Topmost g w n m := by
  rintro ⟨hpath, hhit⟩
  obtain ⟨r, hr⟩ : ∃ r, (g.node n).childRule = some r := by
    rcases ReflTransGen.cases_head hpath with rfl | ⟨x, ⟨-, r, hr, -⟩, -⟩
    · exact hhit.2.1.imp fun _ hr ↦ hr.1
    · exact ⟨r, hr⟩
  rw [h] at hr
  cases hr

theorem topmost_of_miss (hdirty : (g.node n).isDirty = true)
    (hr : (g.node n).childRule = some r)
    (hmiss : (g.rule r).isPhony = true ∨ ¬ Cached w (g.node n)) :
    Topmost g w n m ↔ ∃ a ∈ (g.rule r).inputs, Topmost g w a m := by
  constructor
  · rintro ⟨hpath, hhit⟩
    rcases ReflTransGen.cases_head hpath with rfl | ⟨a, ⟨-, q, hq, -, ha⟩, hpath⟩
    · obtain ⟨-, ⟨q, hq, hphony⟩, hcached⟩ := hhit
      obtain rfl : q = r := Option.some.inj (hq.symm.trans hr)
      rcases hmiss with hmiss | hmiss
      · rw [hphony] at hmiss
        cases hmiss
      · exact absurd hcached hmiss
    · obtain rfl : q = r := Option.some.inj (hq.symm.trans hr)
      exact ⟨a, ha, hpath, hhit⟩
  · rintro ⟨a, ha, hpath, hhit⟩
    exact ⟨.head ⟨hdirty, r, hr, hmiss, ha⟩ hpath, hhit⟩

end Topmost

/-! ## The traversal -/

/-- A node that has been restored. -/
def fetchedNode (x : Node) (t : Timestamp) : Node :=
  ((x.setState .upToDate).setLazyFetched true).setTimestamp t

/-- The files of the nodes `l` of `g` are written from their entries. -/
def restoreAll (g : Graph) (w : Disk) (l : List NodeId) : Disk :=
  l.foldl (fun v n ↦ v.write (g.node n).path ((w.entries (g.node n).hash).getD "")) w

theorem restoreAll_snoc (g : Graph) (w : Disk) (l : List NodeId) (n : NodeId) :
    restoreAll g w (l ++ [n]) =
      (restoreAll g w l).write (g.node n).path ((w.entries (g.node n).hash).getD "") := by
  rw [restoreAll, List.foldl_append]
  rfl

theorem restoreAll_frame (g : Graph) (w : Disk) (l : List NodeId) :
    (restoreAll g w l).entries = w.entries ∧ (restoreAll g w l).clock = w.clock := by
  induction l using List.reverseRecOn with
  | nil => exact ⟨rfl, rfl⟩
  | append_singleton l n ih =>
      rw [restoreAll_snoc]
      exact ih

/-- The graph `k` and the disk `v` once the nodes `l` of `g` have been restored. -/
structure Fetching (g : Graph) (w : Disk) (l : List NodeId) (k : Graph) (v : Disk) : Prop where
  links : k.links = g.links
  hashes : k.hashes = g.hashes
  node : ∀ n, k.node n = if n ∈ l then fetchedNode (g.node n) w.clock else g.node n
  rule : ∀ r, (k.rule r).isDirty = (g.rule r).isDirty
  exact : k.Exact
  nodup : l.Nodup
  hit : ∀ n ∈ l, Hit g w n
  disk : v = restoreAll g w l

theorem Fetching.start {g : Graph} (h : g.Exact) (w : Disk) : Fetching g w [] g w :=
  ⟨rfl, rfl, by simp, fun _ ↦ rfl, h, List.nodup_nil, by simp, rfl⟩

variable {H : Host} {g k : Graph} {w v : Disk} {l : List NodeId} {n : NodeId}

theorem Fetching.restore (hL : g.links.TwoWay) (h : Fetching g w l k v) (hn : n ∉ l)
    (hhit : Hit g w n) :
    ∃ k', markFetched k n w.clock = .ok k' ∧ Fetching g w (l ++ [n]) k'
      (v.write (g.node n).path ((w.entries (g.node n).hash).getD "")) := by
  have hsame := h.node n
  rw [if_neg hn] at hsame
  obtain ⟨r, hr, -⟩ := hhit.2.1
  obtain ⟨k', hrun, hlinks, hhashes, hrule, hnode, hexact⟩ :=
    markFetched_spec (h.links ▸ hL) h.exact (hsame ▸ hr) (hsame ▸ hhit.1) w.clock
  refine ⟨k', hrun, hlinks.trans h.links, hhashes.trans h.hashes, fun m ↦ ?_,
    fun q ↦ (hrule q).trans (h.rule q), hexact, ?_, fun m hm ↦ ?_, ?_⟩
  · rw [hnode]
    by_cases hm : m = n
    · rw [hm, Function.update_self, if_pos (by simp), hsame]
      rfl
    · rw [Function.update_of_ne hm, h.node m]
      simp [hm]
  · rw [← List.concat_eq_append]
    exact h.nodup.concat hn
  · rcases List.mem_append.mp hm with hm | hm
    · exact h.hit m hm
    · exact List.mem_singleton.mp hm ▸ hhit
  · rw [restoreAll_snoc, h.disk]

/-- Restoring files does not change what the cache answers. -/
theorem Fetching.restoreNode (h : Fetching g w l k v) (hn : n ∉ l) (hhash : (g.node n).hash ≠ "") :
    H.platform.restoreNode k n v = .ok
      (match w.entries (g.node n).hash with
        | none => (false, v)
        | some c => (true, v.write (g.node n).path c)) := by
  have hsame := h.node n
  rw [if_neg hn] at hsame
  have hentries : v.entries = w.entries := by
    rw [h.disk]
    exact (restoreAll_frame g w l).1
  rw [← hsame, ← hentries]
  exact CacheManager.restoreNode_eq (hsame ▸ hhash)

/-- The traversal from `n` has restored just what is topmost below `n`. -/
def Traversed (g : Graph) (w : Disk) (l : List NodeId) (top : NodeId → Prop)
    (s : List NodeId × Graph × Disk) : Prop :=
  Fetching g w s.1 s.2.1 s.2.2 ∧ ∀ m, m ∈ s.1 ↔ m ∈ l ∨ top m

/-- One node after the other. -/
theorem traversed_all {fuel : ℕ} {nodes : List NodeId} (h : Fetching g w l k v)
    (hstep : ∀ a ∈ nodes, ∀ (l : List NodeId) (k : Graph) (v : Disk), Fetching g w l k v →
      ∃ s, traverseReporting H.platform fuel (l, k, v) a = .ok s ∧
        Traversed g w l (Topmost g w a) s) :
    ∃ s, nodes.foldlM (traverseReporting H.platform fuel) (l, k, v) = .ok s ∧
      Traversed g w l (fun m ↦ ∃ a ∈ nodes, Topmost g w a m) s := by
  refine Lib.foldlM_rule (fun pre ↦ Traversed g w l fun m ↦ ∃ a ∈ pre, Topmost g w a m)
    ⟨h, by simp⟩ ?_
  rintro pre a post ⟨l₁, k₁, v₁⟩ hsplit ⟨h₁, hmem₁⟩
  obtain ⟨s, hrun, hs, hmem⟩ := hstep a (by simp [hsplit]) l₁ k₁ v₁ h₁
  refine ⟨s, hrun, hs, fun m ↦ ?_⟩
  rw [hmem, hmem₁, or_assoc]
  simp only [List.mem_append, List.mem_singleton, or_and_right, exists_or, exists_eq_left]

section

variable (hL : g.links.TwoWay) (hac : g.links.Acyclic)
  (hhash : ∀ n r, (g.node n).childRule = some r → (g.node n).hash ≠ "")
include hL hac hhash

theorem traverse_spec {fuel : ℕ} (hfuel : g.links.rankBelow n < fuel)
    (h : Fetching g w l k v) : ∃ s, traverseReporting H.platform fuel (l, k, v) n = .ok s ∧
      Traversed g w l (Topmost g w n) s := by
  induction fuel generalizing n l k v with
  | zero => omega
  | succ fuel ih =>
      -- the inputs of the rule of a node that is phony or not in the cache
      have hloop : ∀ r, (g.node n).childRule = some r → (g.node n).isDirty = true →
          ((g.rule r).isPhony = true ∨ ¬ Cached w (g.node n)) →
          ∃ s, (g.rule r).inputs.foldlM (traverseReporting H.platform fuel) (l, k, v) = .ok s ∧
            Traversed g w l (Topmost g w n) s := by
        intro r hr hdirty hmiss
        have hinput : ∀ a ∈ (g.rule r).inputs, ∀ (l : List NodeId) (k : Graph) (v : Disk),
            Fetching g w l k v → ∃ s, traverseReporting H.platform fuel (l, k, v) a = .ok s ∧
              Traversed g w l (Topmost g w a) s := by
          intro a ha l₁ k₁ v₁ h₁
          have hlt : g.links.rankBelow a < g.links.rankBelow n :=
            Links.rankBelow_lt hL hac (r := r) hr ha
          exact ih (by omega) h₁
        obtain ⟨s, hrun, hs⟩ := traversed_all h hinput
        refine ⟨s, hrun, hs.1, fun m ↦ ?_⟩
        rw [hs.2, topmost_of_miss hdirty hr hmiss]
      have hstay : (∀ m, Topmost g w n m → m ∈ l) → Traversed g w l (Topmost g w n) (l, k, v) :=
        fun htop ↦ ⟨h, fun m ↦ ⟨Or.inl, fun hm ↦ hm.elim id (htop m)⟩⟩
      rw [traverseReporting]
      by_cases hn : n ∈ l
      · -- the node has been restored before
        have hclean : (k.node n).isDirty = false := by
          rw [h.node n, if_pos hn]
          rfl
        rw [hclean]
        exact ⟨_, rfl, hstay fun m hm ↦ (topmost_of_hit (h.hit n hn)).mp hm ▸ hn⟩
      · have hsame := h.node n
        rw [if_neg hn] at hsame
        rw [hsame]
        cases hdirty : (g.node n).isDirty with
        | false => exact ⟨_, rfl, hstay fun m hm ↦ absurd hm (not_topmost_of_clean hdirty)⟩
        | true =>
            simp only [Bool.not_true, Bool.false_eq_true, if_false]
            cases hr : (g.node n).childRule with
            | none => exact ⟨_, rfl, hstay fun m hm ↦ absurd hm (not_topmost_of_source hr)⟩
            | some r =>
                have hphony : (k.rule r).isPhony = (g.rule r).isPhony :=
                  Graph.isPhony_of_links h.links r
                have hinputs : (k.rule r).inputs = (g.rule r).inputs :=
                  Graph.inputs_of_links h.links r
                simp only [hphony, hinputs]
                cases hp : (g.rule r).isPhony with
                | true =>
                    simp only [if_true]
                    exact hloop r hr hdirty (Or.inl hp)
                | false =>
                    have hclock : v.clock = w.clock := by
                      rw [h.disk]
                      exact (restoreAll_frame g w l).2
                    have hrestore := h.restoreNode (H := H) hn (hhash n r hr)
                    simp only [Bool.false_eq_true, if_false, hrestore]
                    cases hentry : w.entries (g.node n).hash with
                    | none =>
                        refine hloop r hr hdirty (Or.inr ?_)
                        simp [Cached, hentry]
                    | some c =>
                        have hhit : Hit g w n :=
                          ⟨hdirty, ⟨r, hr, hp⟩, by simp [Cached, hentry]⟩
                        obtain ⟨k', hmark, h'⟩ := h.restore hL hn hhit
                        rw [hentry, Option.getD_some] at h'
                        refine ⟨(l ++ [n], k', v.write (g.node n).path c), ?_, h', fun m ↦ ?_⟩
                        · have hnow : H.platform.now (v.write (g.node n).path c) = w.clock :=
                            hclock
                          simp [hnow, hmark]
                        · simp [topmost_of_hit hhit]

end

/-! ## The order of the targets and of the inputs -/

/-- `g₂` lists the inputs of the rules of `g` in another order. -/
structure Reordered (g g₂ : Graph) : Prop where
  node : g₂.node = g.node
  rules : g₂.rules = g.rules
  rule : ∀ r, ∃ inputs, (g.rule r).inputs.Perm inputs ∧
    g₂.rule r = { g.rule r with inputs := inputs }

namespace Reordered

variable {g g₂ : Graph} (h : Reordered g g₂)
include h

theorem perm (r : RuleId) : (g.rule r).inputs.Perm (g₂.rule r).inputs := by
  obtain ⟨inputs, hperm, heq⟩ := h.rule r
  rw [heq]
  exact hperm

theorem frame (r : RuleId) : (g₂.rule r).outputs = (g.rule r).outputs ∧
    (g₂.rule r).isPhony = (g.rule r).isPhony ∧ (g₂.rule r).isDirty = (g.rule r).isDirty ∧
    (g₂.rule r).numInputsReady = (g.rule r).numInputsReady := by
  obtain ⟨inputs, -, heq⟩ := h.rule r
  rw [heq]
  exact ⟨rfl, rfl, rfl, rfl⟩

theorem twoWay (hL : g.links.TwoWay) : g₂.links.TwoWay := by
  have hparents : g₂.links.parents = g.links.parents := by
    funext n
    change (g₂.node n).parentRules = _
    rw [h.node]
    rfl
  have hchild : g₂.links.child = g.links.child := by
    funext n
    change (g₂.node n).childRule = _
    rw [h.node]
    rfl
  have houtputs : ∀ r, g₂.links.outputs r = g.links.outputs r := fun r ↦ (h.frame r).1
  have hrules : g₂.links.rules = g.links.rules := h.rules
  refine ⟨fun n r ↦ ?_, fun n r ↦ ?_, fun n ↦ ?_, fun r hr ↦ ?_, fun r hr ↦ ?_⟩
  · rw [hparents, hrules, hL.mem_parents]
    exact and_congr_right fun _ ↦ (h.perm r).mem_iff
  · rw [hchild, hrules, houtputs]
    exact hL.child_eq_some n r
  · rw [hparents]
    exact hL.parents_nodup n
  · exact (h.perm r).nodup_iff.mp (hL.inputs_nodup r (hrules ▸ hr))
  · rw [houtputs]
    exact hL.outputs_nodup r (hrules ▸ hr)

theorem feeds : g₂.links.Feeds = g.links.Feeds := by
  funext m n
  rw [eq_iff_iff]
  change (∃ r, (g₂.node n).childRule = some r ∧ m ∈ (g₂.rule r).inputs) ↔ _
  rw [h.node]
  exact exists_congr fun r ↦ and_congr_right fun _ ↦ (h.perm r).mem_iff.symm

theorem acyclic (hac : g.links.Acyclic) : g₂.links.Acyclic := by
  rw [Links.Acyclic, h.feeds]
  exact hac

theorem nbReady (r : RuleId) : g₂.nbReady r = g.nbReady r := by
  have hready : g₂.inputReady = g.inputReady := by
    funext n
    rw [Graph.inputReady, h.node]
    rfl
  rw [Graph.nbReady, hready]
  exact ((h.perm r).countP_eq _).symm

theorem exact (hexact : g.Exact) : g₂.Exact := by
  intro r hr
  rw [(h.frame r).2.2.2, h.nbReady]
  exact hexact r (h.rules ▸ hr)

theorem hit (w : Disk) (n : NodeId) : Hit g₂ w n ↔ Hit g w n := by
  simp only [Hit, h.node, (h.frame _).2.1]

theorem deeper (w : Disk) : Deeper g₂ w = Deeper g w := by
  funext n m
  simp only [Deeper, h.node, (h.frame _).2.1, (h.perm _).mem_iff]

theorem topmost (w : Disk) (n m : NodeId) : Topmost g₂ w n m ↔ Topmost g w n m := by
  rw [Topmost, h.deeper, h.hit]
  rfl

end Reordered

theorem state_eq_of_isDirty {s s' : State}
    (h : decide (s = .outOfDate) = decide (s' = .outOfDate)) : s = s' := by
  cases s <;> cases s' <;> simp at h ⊢

/-- Files with different paths can be written in any order. -/
theorem restoreAll_perm {g : Graph} {w : Disk} {l l' : List NodeId} (hperm : l.Perm l')
    (hpaths : ∀ m ∈ l, ∀ n ∈ l, (g.node m).path = (g.node n).path → m = n) :
    restoreAll g w l = restoreAll g w l' := by
  apply hperm.foldl_eq'
  intro m hm n hn v
  by_cases heq : (g.node m).path = (g.node n).path
  · rw [hpaths m hm n hn heq]
  · simp only [Disk.write]
    rw [Function.update_comm heq, Function.update_comm heq]

section

variable (hL : g.links.TwoWay) (hac : g.links.Acyclic) (hexact : g.Exact)
  (hhash : ∀ n r, (g.node n).childRule = some r → (g.node n).hash ≠ "")
include hL hac hexact hhash

theorem fetch_spec (w : Disk) (targets : List NodeId) :
    ∃ restored g' w', fetchReporting H.platform g w targets = .ok (restored, g', w') ∧
      Fetching g w restored g' w' ∧
      ∀ n, n ∈ restored ↔ ∃ t ∈ targets, Topmost g w t n := by
  obtain ⟨⟨restored, g', w'⟩, hrun, hs⟩ := traversed_all (.start hexact w)
    fun t _ _ _ _ h ↦ traverse_spec (H := H) hL hac hhash (g.rankBelow_lt_depth t) h
  exact ⟨restored, g', w', hrun, hs.1, fun n ↦ by simpa using hs.2 n⟩

/-- The fetch restores the topmost dirty targets that are in the cache, each
once, whatever the order of the targets and of the inputs. -/
theorem fetch_topmost (w : Disk) (targets : List NodeId) :
    ∃ restored g' w', fetchReporting H.platform g w targets = .ok (restored, g', w') ∧
      restored.Nodup ∧
      (∀ n, n ∈ restored ↔ ∃ t ∈ targets, ReflTransGen (Deeper g w) t n ∧ Hit g w n) ∧
      (∀ n, g'.node n = if n ∈ restored then fetchedNode (g.node n) w.clock else g.node n) ∧
      (∀ r, (g'.rule r).state = (g.rule r).state) ∧
      g'.links = g.links ∧ g'.hashes = g.hashes ∧ g'.Exact ∧ w' = restoreAll g w restored ∧
      ∀ g₂ targets₂, Reordered g g₂ → targets.Perm targets₂ →
        ∃ restored₂ g₂' w₂',
          fetchReporting H.platform g₂ w targets₂ = .ok (restored₂, g₂', w₂') ∧
          restored₂.Perm restored ∧ g₂'.node = g'.node ∧
          (∀ r ∈ g.rules, (g₂'.rule r).state = (g'.rule r).state ∧
            (g₂'.rule r).numInputsReady = (g'.rule r).numInputsReady) ∧
          ((∀ m ∈ restored, ∀ n ∈ restored, (g.node m).path = (g.node n).path → m = n) →
            w₂' = w') := by
  obtain ⟨restored, g', w', hrun, h, hmem⟩ := fetch_spec (H := H) hL hac hexact hhash w targets
  have hstate : ∀ r, (g'.rule r).state = (g.rule r).state :=
    fun r ↦ state_eq_of_isDirty (h.rule r)
  refine ⟨restored, g', w', hrun, h.nodup, hmem, h.node, hstate, h.links, h.hashes, h.exact,
    h.disk, fun g₂ targets₂ hsame hperm ↦ ?_⟩
  obtain ⟨restored₂, g₂', w₂', hrun₂, h₂, hmem₂⟩ := fetch_spec (H := H) (hsame.twoWay hL)
    (hsame.acyclic hac) (hsame.exact hexact) (by simpa only [hsame.node] using hhash) w targets₂
  have hrestored : restored₂.Perm restored := by
    apply (List.perm_ext_iff_of_nodup h₂.nodup h.nodup).mpr
    intro n
    rw [hmem, hmem₂]
    simp only [hperm.mem_iff, hsame.topmost]
  have hnode : g₂'.node = g'.node := by
    funext n
    rw [h.node, h₂.node, hsame.node]
    simp only [hrestored.mem_iff]
  have hafter : ∀ r, g₂'.nbReady r = g'.nbReady r := by
    intro r
    have hready : g₂'.inputReady = g'.inputReady := by
      funext n
      rw [Graph.inputReady, hnode]
      rfl
    rw [Graph.nbReady, Graph.nbReady, hready, Graph.inputs_of_links h.links,
      Graph.inputs_of_links h₂.links]
    exact ((hsame.perm r).countP_eq _).symm
  refine ⟨restored₂, g₂', w₂', hrun₂, hrestored, hnode, fun r hr ↦ ⟨?_, ?_⟩, fun hpaths ↦ ?_⟩
  · rw [hstate, state_eq_of_isDirty (h₂.rule r)]
    exact state_eq_of_isDirty (hsame.frame r).2.2.1
  · rw [h.exact r (Graph.rules_of_links h.links ▸ hr), ← hafter]
    exact h₂.exact r (Graph.rules_of_links h₂.links ▸ hsame.rules ▸ hr)
  · rw [h.disk, h₂.disk, restoreAll_perm hrestored.symm hpaths]
    simp only [restoreAll, hsame.node]

end

/-! ## A generated parser -/

/-- The diamond with everything to be built; each node has its path for a hash. -/
def keyedGraph : Graph :=
  { Graph.diamondGraph false with
    node := fun n ↦ { (Graph.diamondGraph false).node n with
      hash := ((Graph.diamondGraph false).node n).path } }

/-- The cache has `parse.c`, but neither `parse.h` nor `parse.o`. -/
def keyedDisk : Disk where
  files _ := none
  mtimes _ := 0
  entries key := if key = "parse.c" then some "int yyparse(void);" else none
  clock := 7

def keyedHost : Host where
  sha256 _ := List.replicate 32 0
  parseDepfile := DepfileParser.parseDepfile
  newNode used := used.sup id + 1
  newNode_fresh := fresh_above
  uninitialised _ := false

theorem fetch_topmost_keyedGraph : ∃ g' w',
    fetchReporting keyedHost.platform keyedGraph keyedDisk [3] = .ok ([1], g', w') ∧
    g'.node 1 = fetchedNode (keyedGraph.node 1) 7 ∧ g'.node 2 = keyedGraph.node 2 ∧
    g'.Exact := by
  have hhash : ∀ n r, (keyedGraph.node n).childRule = some r → (keyedGraph.node n).hash ≠ "" := by
    rintro (_ | _ | _ | _ | n) r hr <;>
      simp [keyedGraph, Graph.diamondGraph, Node.create] at hr ⊢
  have hrun : (fetchReporting keyedHost.platform keyedGraph keyedDisk [3] >>= fun x ↦
      pure (x.1 = [1]) : Outcome Bool) = .ok true := by decide +kernel
  obtain ⟨restored, g', w', hfetch, -, -, hnode, -, -, -, hexact, -⟩ :=
    fetch_topmost (H := keyedHost) (g := keyedGraph) (Graph.twoWay_diamondGraph false)
      (Graph.acyclic_diamondGraph false) (Graph.exact_diamondGraph false) hhash keyedDisk [3]
  rw [hfetch] at hrun
  obtain rfl : restored = [1] := of_decide_eq_true (Except.ok.inj hrun)
  exact ⟨g', w', hfetch, (hnode 1).trans (if_pos (by simp)), (hnode 2).trans (if_neg (by simp)),
    hexact⟩

end LazyCache

end Falcon
