import Falcon.Graph.MarkDirty
import Falcon.Graph.Settled

/-!
# The recursions on an acyclic graph

`Node::markDirty` and `recomputeNodeHash` follow the parent rules upwards
without a check of their own.  The first changes no links and ends where the
graph ends.  The second may load depfiles on its way, which changes what lies
above a node; but a depfile is restored only for a rule whose depfile hash has
changed, and these hashes settle.
-/

namespace Falcon

open Lib

/-- The call does not exceed its budget, and returns what satisfies `Q`. -/
abbrev Returns {α : Type} (x : Outcome α) (Q : α → Prop) : Prop := Avoids .outOfFuel x Q

theorem returns_assert (cond : Bool) (a : Assertion) :
    Returns (assert cond a) fun _ ↦ cond = true := by
  cases cond with
  | true => exact Avoids.ok rfl
  | false => exact Avoids.error (by simp)

namespace Rule

theorem returns_markInputReady (x : Rule) :
    Returns x.markInputReady fun y ↦ ∃ numReady, y = { x with numInputsReady := numReady } :=
  (returns_assert _ _).bind fun _ _ _ ↦ Avoids.ok ⟨_, rfl⟩

theorem returns_markInputDirty (x : Rule) :
    Returns x.markInputDirty fun y ↦ ∃ numReady, y = { x with numInputsReady := numReady } :=
  (returns_assert _ _).bind fun _ _ _ ↦ Avoids.ok ⟨_, rfl⟩

end Rule

namespace Graph

theorem returns_onRule {g : Graph} {r : RuleId} {f : Rule → Outcome Rule} {Q : Rule → Prop}
    (h : Returns (f (g.rule r)) Q) :
    Returns (g.onRule r f) fun g' ↦ ∃ x, Q x ∧ g' = g.setRule r x := by
  rw [onRule]
  cases hf : f (g.rule r) with
  | error e => exact Avoids.error fun he ↦ h.1 (he ▸ hf)
  | ok x => exact Avoids.ok ⟨x, h.2 x hf, rfl⟩

/-- The counter of a rule is no link. -/
theorem returns_onRule_ready {g : Graph} {r : RuleId} {f : Rule → Outcome Rule}
    (h : ∀ x, Returns (f x) fun y ↦ ∃ numReady, y = { x with numInputsReady := numReady }) :
    Returns (g.onRule r f) fun g' ↦ g'.links = g.links := by
  refine (returns_onRule (h (g.rule r))).mono ?_
  rintro g' - ⟨x, ⟨numReady, rfl⟩, rfl⟩
  exact links_setRule rfl rfl rfl rfl rfl

/-! ## Marking -/

theorem returns_markDirty {fuel : ℕ} {g : Graph} {n : NodeId} (hL : g.links.TwoWay)
    (hac : g.links.Acyclic) (hrank : g.links.rankAbove n < fuel) :
    Returns (Node.markDirty fuel g n) fun g' ↦ g'.links = g.links := by
  induction fuel generalizing g n with
  | zero => omega
  | succ fuel ih =>
      rw [Node.markDirty]
      refine Avoids.bind (Avoids.foldlM (fun h : Graph ↦ h.links = g.links) ?_ rfl) ?_
      · intro r hr h hh
        rw [Node.markParentDirty]
        refine Avoids.bind (Q := fun h' : Graph ↦ h'.links = g.links) ?_ fun h' _ hh' ↦ ?_
        · rw [Rule.markDirty]
          refine Avoids.bind (Avoids.foldlM (fun k : Graph ↦ k.links = g.links) ?_ hh) ?_
          · intro o ho k hk
            rw [outputs_of_links hh] at ho
            have hlt : g.links.rankAbove o < g.links.rankAbove n :=
              Links.rankAbove_lt hL hac hr ho
            have hrec : Returns (Node.markDirty fuel k o) fun k' ↦ k'.links = k.links := by
              apply ih
              · exact hk ▸ hL
              · exact hk ▸ hac
              · rw [hk]
                omega
            exact hrec.mono fun k' _ hk' ↦ hk'.trans hk
          · intro k _ hk
            exact Avoids.ok ((k.marked_setRuleState r).links.trans hk)
        · split
          · exact (returns_onRule_ready Rule.returns_markInputDirty).mono
              fun k _ hk ↦ hk.trans hh'
          · exact Avoids.ok hh'
      · intro h _ hh
        exact Avoids.ok ((h.marked_setNodeState n).links.trans hh)

end Graph

namespace Hash

variable {ω : Type} {P : Platform ω} {w : ω} {g : Graph} {a b : Bool}

/-- Hashing a rule can only fail because an input has no hash. -/
theorem avoids_updateRuleHash {e : Fault} (he : e ≠ .assertion .inputHashed) {r : RuleId} :
    Avoids e (updateRuleHash P g r a b) fun g' ↦ g'.links = g.links := by
  refine ⟨?_, fun g' hg' ↦ (updateRuleHash_links hg').1⟩
  intro h
  cases a <;> cases b <;> simp [updateRuleHash, bind_eq_error, he] at h

/-- Hashing a node can only fail because its child rule has no hash, or because
no hash is asked for. -/
theorem avoids_updateNodeHash {e : Fault} (he : e ≠ .assertion .childHashed)
    (he' : e ≠ .assertion .someHashRequested) {n : NodeId} :
    Avoids e (updateNodeHash P w g n a b) fun x ↦ x.2.links = g.links := by
  refine ⟨?_, fun x hx ↦ (updateNodeHash_links hx).1⟩
  intro h
  cases hc : (g.node n).childRule with
  | none => simp [updateNodeHash, hc, bind_eq_error, he'] at h
  | some r =>
      cases a <;> cases b <;>
        simp [updateNodeHash, updateTargetHash, hc, bind_eq_error, he, he'] at h

theorem returns_updateRuleHash {r : RuleId} :
    Returns (updateRuleHash P g r a b) fun g' ↦ g'.links = g.links :=
  avoids_updateRuleHash (by simp)

theorem returns_updateNodeHash {n : NodeId} :
    Returns (updateNodeHash P w g n a b) fun x ↦ x.2.links = g.links :=
  avoids_updateNodeHash (by simp) (by simp)

end Hash

namespace Depfile

/-! ## Loading a depfile

There is no recursion in it, and it may fail in other ways only. -/

variable {ω : Type} {P : Platform ω} {w : ω} {g : Graph} {r : RuleId}

theorem returns_countInput (n : NodeId) : Returns (countInput g r n) fun _ ↦ True := by
  rw [countInput]
  split
  · exact (Graph.returns_onRule_ready Rule.returns_markInputDirty).mono fun _ _ _ ↦ trivial
  · exact (Graph.returns_onRule_ready Rule.returns_markInputReady).mono fun _ _ _ ↦ trivial

theorem returns_addNode (n : NodeId) : Returns (g.addNode n) fun _ ↦ True := by
  rw [Graph.addNode]
  split
  · exact Avoids.error (by simp)
  · exact Avoids.ok trivial

theorem returns_attach (n : NodeId) (isNewNode : Bool) :
    Returns (attach g r n isNewNode) fun _ ↦ True := by
  rw [attach]
  refine Avoids.bind (Q := fun _ ↦ True) ?_ fun g' _ _ ↦ returns_countInput n
  cases isNewNode with
  | true => exact returns_addNode n
  | false => exact Avoids.ok trivial

theorem returns_setRuleDependency (dep : String) :
    Returns (setRuleDependency P w g r dep) fun _ ↦ True := by
  rw [setRuleDependency]
  split
  · refine Avoids.bind Hash.returns_updateNodeHash fun x _ _ ↦ ?_
    refine Avoids.bind (returns_attach _ true) fun g' _ _ ↦ ?_
    exact Avoids.ok trivial
  · split
    · exact Avoids.ok trivial
    · refine Avoids.bind (returns_attach _ false) fun g' _ _ ↦ ?_
      exact Avoids.ok trivial

theorem returns_addDependencies {ins : List String} {s : Graph × List NodeId} :
    Returns (addDependencies P w r ins s) fun _ ↦ True := by
  induction ins generalizing s with
  | nil => exact Avoids.ok trivial
  | cons dep ins ih =>
      rw [addDependencies]
      exact Avoids.bind (returns_setRuleDependency dep) fun _ _ _ ↦ ih

theorem returns_dropDependency (n : NodeId) : Returns (dropDependency r g n) fun _ ↦ True := by
  rw [dropDependency]
  refine Avoids.bind (Q := fun _ ↦ True) ?_ fun g' _ _ ↦ ?_
  · refine ⟨fun h ↦ ?_, fun _ _ ↦ trivial⟩
    have hp : (g.node n).hasParent r = true ∨ (g.node n).hasParent r = false :=
      (Bool.eq_false_or_eq_true _)
    rcases hp with hp | hp <;>
      simp [Graph.onNode, Node.removeParentRule, hp, assert, Except.map] at h
  · split
    · exact Avoids.ok trivial
    · exact Avoids.ok trivial

theorem returns_load (content : String) : Returns (load P w g r content) fun _ ↦ True := by
  rw [load]
  refine Avoids.bind (Q := fun _ ↦ True) ?_ fun g₁ _ _ ↦ ?_
  · rw [detachImplicit]
    refine Avoids.bind (Avoids.foldlM (fun _ ↦ True) (fun n _ k _ ↦ ?_) trivial)
      fun _ _ _ ↦ Avoids.ok trivial
    split
    · exact (Graph.returns_onRule_ready Rule.returns_markInputDirty).mono fun _ _ _ ↦ trivial
    · exact Avoids.ok trivial
  · split
    · exact Avoids.ok trivial
    · split
      · exact Avoids.error (by simp)
      · split
        · exact Avoids.ok trivial
        · refine Avoids.bind returns_addDependencies fun s _ _ ↦ ?_
          refine Avoids.bind (Avoids.foldlM (fun _ ↦ True) ?_ trivial) fun _ _ _ ↦ ?_
          · exact fun n _ k _ ↦ returns_dropDependency n
          · exact Avoids.ok trivial

theorem returns_loadFromfile : Returns (loadFromfile P w g r) fun _ ↦ True := by
  rw [loadFromfile]
  split
  · exact Avoids.ok trivial
  · split
    · exact Avoids.ok trivial
    · exact returns_load _

/-- A node gets the rule as a new parent at most. -/
theorem Loading.length_parents (hg : g.Tied) {g' : Graph} (h : Loading g r [] g') (n : NodeId) :
    (g'.node n).parentRules.length ≤ (g.node n).parentRules.length + 1 := by
  have hsub : (g'.node n).parentRules ⊆ r :: (g.node n).parentRules := by
    intro q hq
    obtain ⟨hrules, hin | ⟨-, hin⟩⟩ := (h.parents n q).mp hq
    · by_cases hqr : q = r
      · exact hqr ▸ List.mem_cons_self
      · rw [h.other q hqr] at hin
        exact List.mem_cons_of_mem r ((hg.twoWay.mem_parents n q).mpr ⟨hrules, hin⟩)
    · cases hin
  exact (List.subperm_of_subset (h.parents_nodup n) hsub).length_le

end Depfile

namespace Hash

open Relation Graph

variable {ω : Type} (P : Platform ω)

/-- `recomputeRuleHash` finds the depfile for a changed hash in the cache, and
reads its content. -/
structure Restores (g : Graph) (w : ω) (r : RuleId) (g₁ : Graph) (w' : ω) (content : String) :
    Prop where
  hash : updateRuleHash P g r true true = .ok g₁
  hasDepfile : (g₁.rule r).hasDepfile = true
  changed : (g.rule r).hashDepfile ≠ (g₁.rule r).hashDepfile
  restored : P.restoreDepfile g₁ r w = .ok (true, w')
  nonempty : content ≠ ""
  read : P.readFile w' (g₁.rule r).depfile = some content

/-- What `recomputeNodeHash` does between two calls of itself. -/
inductive HashStep : Graph × ω → Graph × ω → Prop
  | node {g w n a b changed g'} (h : updateNodeHash P w g n a b = .ok (changed, g')) :
    HashStep (g, w) (g', w)
  | rule {g w r g₁ s'} (hr : r ∈ g.rules) (h : updateRuleHash P g r true true = .ok g₁)
    (hrestore : restoreDepfile P (g.rule r).hashDepfile g₁ w r = .ok s') : HashStep (g, w) s'

/-- Whatever is hashed from here on: a depfile that is restored names the output
of its rule, and closes no cycle when it is loaded. -/
def Harmless (s : Graph × ω) : Prop :=
  ∀ g w, ReflTransGen (HashStep P) s (g, w) → ∀ r ∈ g.rules, ∀ g₁ w' content,
    Restores P g w r g₁ w' content →
      ∃ ins, Depfile.Names P g₁ r content ins ∧ ¬ Depfile.ClosesCycle g₁ r ins

/-- The cache answers. -/
def Prompt : Prop := (∀ g r w, P.restoreDepfile g r w ≠ .error .outOfFuel) ∧
  ∀ g n w, P.restoreNode g n w ≠ .error .outOfFuel

structure Hashing (s : Graph × ω) : Prop where
  tied : s.1.Tied
  acyclic : s.1.links.Acyclic
  harmless : Harmless P s

/-- Either the graph is linked as before, or fewer hashes have to settle and
there are at most as many new links. -/
def Drops (g g' : Graph) : Prop :=
  g'.skeleton = g.skeleton ∧ (g'.links = g.links ∧ g'.debt P ≤ g.debt P ∨
    g'.debt P < g.debt P ∧ ∀ n, (g'.node n).parentRules.length + g'.debt P ≤
      (g.node n).parentRules.length + g.debt P)

variable {P} {g g' : Graph} {w : ω} {a b : Bool}

theorem Drops.of_links (hl : g'.links = g.links) (hd : g'.debt P ≤ g.debt P) : Drops P g g' :=
  ⟨skeleton_of_links hl, Or.inl ⟨hl, hd⟩⟩

theorem Drops.parents_le (h : Drops P g g') (n : NodeId) :
    (g'.node n).parentRules.length + g'.debt P ≤ (g.node n).parentRules.length + g.debt P := by
  rcases h.2 with ⟨hl, hd⟩ | ⟨-, hle⟩
  · rw [parentRules_of_links hl]
    exact Nat.add_le_add_left hd _
  · exact hle n

theorem Drops.trans {g'' : Graph} (h : Drops P g g') (h' : Drops P g' g'') : Drops P g g'' := by
  refine ⟨h'.1.trans h.1, ?_⟩
  have hparents : ∀ n, (g''.node n).parentRules.length + g''.debt P ≤
      (g.node n).parentRules.length + g.debt P :=
    fun n ↦ (h'.parents_le n).trans (h.parents_le n)
  rcases h.2 with ⟨hl, hd⟩ | ⟨hlt, -⟩
  · rcases h'.2 with ⟨hl', hd'⟩ | ⟨hlt', -⟩
    · exact Or.inl ⟨hl'.trans hl, hd'.trans hd⟩
    · exact Or.inr ⟨hlt'.trans_le hd, hparents⟩
  · refine Or.inr ⟨?_, hparents⟩
    rcases h'.2 with ⟨-, hd'⟩ | ⟨hlt', -⟩
    · exact hd'.trans_lt hlt
    · exact hlt'.trans hlt

theorem depth_of_skeleton (h : g'.skeleton = g.skeleton) : g'.depth = g.depth := by
  have hrules : g'.rules = g.rules := congrArg Skeleton.rules h
  have houtputs : ∀ r, (g'.rule r).outputs = (g.rule r).outputs :=
    congrFun (congrArg Skeleton.outputs h)
  simp only [depth, hrules, houtputs]

/-- How deep the recursion at a node may become. -/
noncomputable def measure (P : Platform ω) (g : Graph) (n : NodeId) : ℕ :=
  g.debt P * g.depth + g.links.rankAbove n

theorem measure_lt_of_debt (hskel : g'.skeleton = g.skeleton) (hlt : g'.debt P < g.debt P)
    (m n : NodeId) : measure P g' m < measure P g n := by
  have hrank : g'.links.rankAbove m < g.depth := by
    rw [← depth_of_skeleton hskel]
    exact g'.rankAbove_lt_depth m
  rw [measure, measure, depth_of_skeleton hskel]
  calc g'.debt P * g.depth + g'.links.rankAbove m
      < g'.debt P * g.depth + g.depth := Nat.add_lt_add_left hrank _
    _ = (g'.debt P + 1) * g.depth := (Nat.succ_mul _ _).symm
    _ ≤ g.debt P * g.depth := Nat.mul_le_mul_right _ hlt
    _ ≤ g.debt P * g.depth + g.links.rankAbove n := Nat.le_add_right _ _

theorem Drops.measure_le (h : Drops P g g') (n : NodeId) : measure P g' n ≤ measure P g n := by
  rcases h.2 with ⟨hl, hd⟩ | ⟨hlt, -⟩
  · rw [measure, measure, depth_of_skeleton h.1, hl]
    exact Nat.add_le_add_right (Nat.mul_le_mul_right _ hd) _
  · exact (measure_lt_of_debt h.1 hlt n n).le

theorem Drops.measure_lt (h : Drops P g g') (hL : g.links.TwoWay) (hac : g.links.Acyclic)
    {n o : NodeId} {r : RuleId} (hr : r ∈ (g.node n).parentRules)
    (ho : o ∈ (g.rule r).outputs) : measure P g' o < measure P g n := by
  rcases h.2 with ⟨hl, hd⟩ | ⟨hlt, -⟩
  · have hrank : g.links.rankAbove o < g.links.rankAbove n := Links.rankAbove_lt hL hac hr ho
    rw [measure, measure, depth_of_skeleton h.1, hl]
    exact Nat.add_lt_add_of_le_of_lt (Nat.mul_le_mul_right _ hd) hrank
  · exact measure_lt_of_debt h.1 hlt o n

theorem Harmless.step {s s' : Graph × ω} (h : Harmless P s) (hstep : HashStep P s s') :
    Harmless P s' :=
  fun g w hreach ↦ h g w (ReflTransGen.head hstep hreach)

/-! ## One rule -/

theorem Hashing.of_links {s s' : Graph × ω} (h : Hashing P s) (hl : s'.1.links = s.1.links)
    (hstep : HashStep P s s') : Hashing P s' where
  tied := h.tied.of_links hl
  acyclic := hl ▸ h.acyclic
  harmless := h.harmless.step hstep

theorem updateRuleHash_debt_le (hg : g.Tied) {r : RuleId} (hr : r ∈ g.rules)
    (hrun : updateRuleHash P g r a b = .ok g') : g'.debt P ≤ g.debt P := by
  rcases updateRuleHash_debt hg hr hrun with ⟨heq, -⟩ | hlt
  · exact heq.le
  · exact hlt.le

/-- The depfile of a changed hash, loaded without closing a cycle. -/
theorem load_drops (hg : g.Tied) (hac : g.links.Acyclic) {r : RuleId} (hr : r ∈ g.rules)
    {g₁ g₂ g₃ : Graph} {w' : ω} {content : String} {ins : List String} {loaded : Bool}
    (h : Restores P g w r g₁ w' content) (hnames : Depfile.Names P g₁ r content ins)
    (hsafe : ¬ Depfile.ClosesCycle g₁ r ins)
    (hload : Depfile.load P w' g₁ r content = .ok (loaded, g₂))
    (hrehash : updateRuleHash P g₂ r true false = .ok g₃) :
    g₃.Tied ∧ g₃.links.Acyclic ∧ Drops P g g₃ := by
  have hl₁ : g₁.links = g.links := (updateRuleHash_links h.hash).1
  have hg₁ : g₁.Tied := hg.of_links hl₁
  have hr₁ : r ∈ g₁.rules := rules_of_links hl₁ ▸ hr
  have hloaded := Depfile.load_spec hg₁.toJoined hr₁ hnames hload
  have hg₂ : g₂.Tied := hloaded.loading.tied hg₁
  have hac₂ : g₂.links.Acyclic := (hloaded.acyclic_iff hg₁ hr₁ (hl₁ ▸ hac)).mpr hsafe
  have hr₂ : r ∈ g₂.rules := hloaded.loading.rules ▸ hr₁
  have hl₃ : g₃.links = g₂.links := (updateRuleHash_links hrehash).1
  obtain ⟨hskel₂, hdebt₂⟩ := skeleton_debt_of_loading (P := P) hg₁ hloaded.loading
  have hdebt₃ : g₃.debt P ≤ g₁.debt P := (updateRuleHash_debt_le hg₂ hr₂ hrehash).trans hdebt₂.le
  have hdebt₁ : g₁.debt P < g.debt P := by
    rcases updateRuleHash_debt hg hr h.hash with ⟨-, hsame | hnone⟩ | hlt
    · exact absurd hsame.symm h.changed
    · obtain ⟨first, hfirst, -⟩ := hnames
      rw [outputs_of_links hl₁, hnone] at hfirst
      cases hfirst
    · exact hlt
  refine ⟨hg₂.of_links hl₃, hl₃ ▸ hac₂, ?_, Or.inr ⟨hdebt₃.trans_lt hdebt₁, fun n ↦ ?_⟩⟩
  · exact (skeleton_of_links hl₃).trans (hskel₂.trans (skeleton_of_links hl₁))
  · have hlen := hloaded.loading.length_parents hg₁ n
    rw [parentRules_of_links hl₁] at hlen
    rw [parentRules_of_links hl₃]
    omega

theorem returns_restoreDepfile (hP : Prompt P) {tmp : String} {r : RuleId} :
    Returns (restoreDepfile P tmp g w r) fun _ ↦ True := by
  rw [restoreDepfile]
  split
  · refine Avoids.bind (Q := fun _ ↦ True) ⟨hP.1 g r w, fun _ _ ↦ trivial⟩ fun x _ _ ↦ ?_
    obtain ⟨restored, w'⟩ := x
    cases restored with
    | false => exact Avoids.ok trivial
    | true =>
        refine Avoids.bind Depfile.returns_loadFromfile fun y _ _ ↦ ?_
        refine Avoids.bind returns_updateRuleHash fun g' _ _ ↦ ?_
        exact Avoids.ok trivial
  · exact Avoids.ok trivial

/-- `recomputeRuleHash` before its loop. -/
theorem rule_drops {s : Graph × ω} {r : RuleId} (hs : Hashing P (g, w)) (hr : r ∈ g.rules)
    {g₁ : Graph} (hhash : updateRuleHash P g r true true = .ok g₁)
    (hrestore : restoreDepfile P (g.rule r).hashDepfile g₁ w r = .ok s) :
    Hashing P s ∧ Drops P g s.1 := by
  have hstep : HashStep P (g, w) s := .rule hr hhash hrestore
  have hl₁ : g₁.links = g.links := (updateRuleHash_links hhash).1
  have hd₁ : g₁.debt P ≤ g.debt P := updateRuleHash_debt_le hs.tied hr hhash
  obtain ⟨g₃, w'⟩ := s
  obtain ⟨rfl, -⟩ | ⟨loaded, g₂, hasked, hother, hcache, hload, hrehash⟩ :=
    restoreDepfile_ok hrestore
  · exact ⟨hs.of_links hl₁ hstep, Drops.of_links hl₁ hd₁⟩
  -- Nothing is loaded if the file is not there or empty.
  have hnone : g₂ = g₁ → Hashing P (g₃, w') ∧ Drops P g g₃ := by
    rintro rfl
    have hl₃ : g₃.links = g.links := (updateRuleHash_links hrehash).1.trans hl₁
    have hd₃ := updateRuleHash_debt_le (hs.tied.of_links hl₁)
      (rules_of_links hl₁ ▸ hr) hrehash
    exact ⟨hs.of_links hl₃ hstep, Drops.of_links hl₃ (hd₃.trans hd₁)⟩
  obtain ⟨-, hsame, -⟩ | ⟨content, hread, hcontent, hload⟩ := Depfile.loadFromfile_ok hload
  · exact hnone hsame
  · have hrestores : Restores P g w r g₁ w' content :=
      ⟨hhash, hasked, hother, hcache, hcontent, hread⟩
    obtain ⟨ins, hnames, hsafe⟩ := hs.harmless g w .refl r hr g₁ w' content hrestores
    obtain ⟨htied, hacyclic, hdrops⟩ :=
      load_drops hs.tied hs.acyclic hr hrestores hnames hsafe hload hrehash
    exact ⟨⟨htied, hacyclic, hs.harmless.step hstep⟩, hdrops⟩

/-! ## The recursion -/

theorem returns_recomputeRuleHash (hP : Prompt P) {s : Graph × ω} {r : RuleId}
    {nodeHash : Graph × ω → NodeId → Outcome (Graph × ω)} (hs : Hashing P s) (hr : r ∈ s.1.rules)
    (hnode : ∀ s' : Graph × ω, Hashing P s' → Drops P s.1 s'.1 → ∀ o ∈ (s.1.rule r).outputs,
      Returns (nodeHash s' o) fun s'' ↦ Hashing P s'' ∧ Drops P s'.1 s''.1) :
    Returns (recomputeRuleHash P nodeHash s r) fun s' ↦ Hashing P s' ∧ Drops P s.1 s'.1 := by
  rw [recomputeRuleHash]
  refine Avoids.bind returns_updateRuleHash fun g₁ hhash _ ↦ ?_
  refine Avoids.bind (returns_restoreDepfile hP) fun s₁ hrestore _ ↦ ?_
  obtain ⟨hs₁, hdrops⟩ := rule_drops hs hr hhash hrestore
  have houtputs : (s₁.1.rule r).outputs = (s.1.rule r).outputs :=
    congrFun (congrArg Skeleton.outputs hdrops.1) r
  refine Avoids.foldlM (fun s' ↦ Hashing P s' ∧ Drops P s.1 s'.1) ?_ ⟨hs₁, hdrops⟩
  rintro o ho s' ⟨hs', hdrops'⟩
  refine (hnode s' hs' hdrops' o (houtputs ▸ ho)).mono fun s'' _ h ↦ ?_
  exact ⟨h.1, hdrops'.trans h.2⟩

/-- The parent rules of a node, given the recursion at lower measure. -/
theorem returns_parents (hP : Prompt P) {fuel : ℕ} {s : Graph × ω} {n : NodeId}
    (hs : Hashing P s) (hfuel : measure P s.1 n ≤ fuel)
    (hrec : ∀ (s' : Graph × ω) (o : NodeId), Hashing P s' → (s'.1.node o).childRule.isSome →
      measure P s'.1 o < fuel → Returns (recomputeNodeHash P a b fuel s' o) fun x ↦
        Hashing P x.2 ∧ Drops P s'.1 x.2.1) :
    Returns (liveLoop .outOfFuel (fun s : Graph × ω ↦ (s.1.node n).parentRules)
      (recomputeRuleHash P fun s m ↦ do
        let (_, s) ← recomputeNodeHash P a b fuel s m
        pure s)
      ((s.1.node n).parentRules.length + fuel + 1) 0 s) fun s' ↦
        Hashing P s' ∧ Drops P s.1 s'.1 := by
  have hdebt : s.1.debt P ≤ fuel := by
    have hpos : s.1.debt P * 1 ≤ s.1.debt P * s.1.depth := Nat.mul_le_mul_left _ (by simp [depth])
    rw [measure] at hfuel
    omega
  have hlength : ∀ s' : Graph × ω, Hashing P s' ∧ Drops P s.1 s'.1 →
      (s'.1.node n).parentRules.length ≤ (s.1.node n).parentRules.length + s.1.debt P := by
    rintro s' ⟨-, hdrops⟩
    have hle := hdrops.parents_le n
    omega
  refine Avoids.liveLoop (fun s' ↦ Hashing P s' ∧ Drops P s.1 s'.1) hlength ?_
    ⟨hs, Drops.of_links rfl le_rfl⟩ (Nat.zero_le _) (by omega)
  · rintro s' r hr ⟨hs', hdrops⟩
    have hrules : r ∈ s'.1.rules := ((hs'.tied.twoWay.mem_parents n r).mp hr).1
    have hmeasure : measure P s'.1 n ≤ fuel := (hdrops.measure_le n).trans hfuel
    refine (returns_recomputeRuleHash hP hs' hrules ?_).mono fun s'' _ h ↦
      ⟨h.1, hdrops.trans h.2⟩
    intro s'' hs'' hdrops'' o ho
    have hchild : (s''.1.node o).childRule = some r := by
      have hsame : (s''.1.node o).childRule = (s'.1.node o).childRule :=
        congrFun (congrArg Skeleton.child hdrops''.1) o
      rw [hsame]
      exact (hs'.tied.twoWay.child_eq_some o r).mpr ⟨hrules, ho⟩
    have hlt := hdrops''.measure_lt hs'.tied.twoWay hs'.acyclic hr ho
    refine Avoids.bind (hrec s'' o hs'' (by rw [hchild]; rfl) (hlt.trans_le hmeasure)) ?_
    exact fun x _ hx ↦ Avoids.ok hx

theorem returns_of_target (hP : Prompt P) {fuel : ℕ} {s : Graph × ω} {n : NodeId}
    (hs : Hashing P s) (hn : (s.1.node n).childRule.isSome) (hfuel : measure P s.1 n < fuel) :
    Returns (recomputeNodeHash P a b fuel s n) fun x ↦ Hashing P x.2 ∧ Drops P s.1 x.2.1 := by
  induction fuel generalizing s n with
  | zero => omega
  | succ fuel ih =>
      obtain ⟨g, w⟩ := s
      obtain ⟨r, hchild⟩ := Option.isSome_iff_exists.mp hn
      rw [recomputeNodeHash]
      refine Avoids.bind returns_updateNodeHash fun x hx hl ↦ ?_
      obtain ⟨changed, g₁⟩ := x
      have hs₁ : Hashing P (g₁, w) := hs.of_links hl (.node hx)
      have hdrops : Drops P g g₁ :=
        Drops.of_links hl (updateNodeHash_debt hs.tied hs.acyclic hchild hx)
      cases changed with
      | false => exact Avoids.ok ⟨hs₁, hdrops⟩
      | true =>
          have hfuel₁ : measure P g₁ n ≤ fuel :=
            (hdrops.measure_le n).trans (Nat.le_of_lt_succ hfuel)
          refine Avoids.bind (returns_parents hP hs₁ hfuel₁ fun s' o ↦ ih) fun s' _ hs' ↦ ?_
          exact Avoids.ok ⟨hs'.1, hdrops.trans hs'.2⟩

/-- `recomputeNodeHash` on a target or a source file: some budget suffices. -/
theorem exists_fuel_recomputeNodeHash (hP : Prompt P) {s : Graph × ω} (hs : Hashing P s)
    (n : NodeId) : ∃ bound, ∀ fuel ≥ bound,
      recomputeNodeHash P a b fuel s n ≠ .error .outOfFuel := by
  obtain ⟨g, w⟩ := s
  cases hx : updateNodeHash P w g n a b with
  | error e =>
      refine ⟨1, fun fuel hfuel ↦ ?_⟩
      obtain ⟨fuel, rfl⟩ := Nat.exists_eq_add_of_le' hfuel
      rw [recomputeNodeHash, hx]
      intro h
      have hne := (returns_updateNodeHash (P := P) (w := w) (g := g) (n := n) (a := a) (b := b)).1
      exact hne (hx.trans (congrArg Except.error (Except.error.inj h)))
  | ok x =>
      obtain ⟨changed, g₁⟩ := x
      have hs₁ : Hashing P (g₁, w) := hs.of_links (updateNodeHash_links hx).1 (.node hx)
      refine ⟨measure P g₁ n + 1, fun fuel hfuel ↦ ?_⟩
      obtain ⟨fuel, rfl⟩ : ∃ k, fuel = k + 1 := Nat.exists_eq_add_one.mpr (by omega)
      rw [recomputeNodeHash, hx, except_ok_bind]
      cases changed with
      | false => exact fun h ↦ by cases h
      | true =>
          refine (Avoids.bind (returns_parents hP hs₁ (Nat.le_of_succ_le_succ hfuel)
            fun s' o ↦ returns_of_target hP) (R := fun _ ↦ True) ?_).1
          exact fun s' _ _ ↦ Avoids.ok trivial

end Hash

end Falcon
