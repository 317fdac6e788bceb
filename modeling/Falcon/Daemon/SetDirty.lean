import Falcon.Graph.Anchored
import Falcon.Build.LazyCache
import Falcon.Graph.Consistent
import Falcon.Build.Scheduling

/-!
# Change notifications

`DaemonInstance::setDirty` tells the daemon that a file has changed.  The
daemon looks at the file, recomputes the hashes of a source file, and marks
the node and what lies above it.  A build starts from what the notifications
have left: `startBuild` fetches lazily and makes the plan.
-/

namespace Falcon

/-- The fields of `DaemonInstance` that `setDirty` works on. -/
structure Daemon (ω : Type) where
  graph : Graph
  world : ω
  sourcesMissing : Finset NodeId

/-- The makefile, and what a change of the makefile leads to. -/
structure DaemonConfig (ω : Type) where
  jsonGraphFile : String
  reloadGraph : Daemon ω → Outcome (Daemon ω)

namespace Daemon

variable {ω : Type} (P : Platform ω)

/-- The timestamp of the rule or, for a lazily fetched output, of the output
tells that the daemon has written the file itself. -/
def isOwnChange (g : Graph) (n : NodeId) (rule : RuleId) (mtime : Timestamp) : Bool :=
  (g.rule rule).timestamp ≥ mtime || ((g.node n).isLazyFetched && (g.node n).timestamp ≥ mtime)

/-- The end of `setDirty`. -/
def markTarget (fuel : ℕ) (g : Graph) (n : NodeId) : Outcome Graph := do
  let g ← Node.markDirty fuel g n
  match (g.node n).childRule with
  | none => pure g
  | some rule => pure (g.updateRule rule (·.setState .outOfDate))

/-- A source file that cannot be found stops the next build, unless it is only
an implicit dependency. -/
def noteMissing (d : Daemon ω) (n : NodeId) : Daemon ω :=
  match P.mtime d.world (d.graph.node n).path with
  | none =>
    if (d.graph.node n).isExplicitDependency then
      { d with sourcesMissing := insert n d.sourcesMissing }
    else d
  | some _ => { d with sourcesMissing := d.sourcesMissing.erase n }

/-- `setDirty` on a source file. -/
def setSourceDirty (fuel : ℕ) (d : Daemon ω) (n : NodeId) : Outcome (Daemon ω) := do
  let d := noteMissing P d n
  let (changed, g, w) ← Hash.recomputeNodeHash P true true fuel (d.graph, d.world) n
  if changed then do
    let g ← markTarget fuel g n
    pure { d with graph := g, world := w }
  else pure { d with graph := g, world := w }

/-- `setDirty` on the output of a rule that is not phony. -/
def setOutputDirty (fuel : ℕ) (d : Daemon ω) (n : NodeId) (rule : RuleId) :
    Outcome (Daemon ω) :=
  if (P.mtime d.world (d.graph.node n).path).any (isOwnChange d.graph n rule) then pure d
  else do
    let g ← markTarget fuel d.graph n
    pure { d with graph := g }

def setDirty (C : DaemonConfig ω) (fuel : ℕ) (d : Daemon ω) (target : String) :
    Outcome (Daemon ω) :=
  if target = C.jsonGraphFile then C.reloadGraph d
  else
    match d.graph.nodes.lookup target with
    | none => .error (.exception "TargetNotFound")
    | some n =>
      match (d.graph.node n).childRule with
      | none => setSourceDirty P fuel d n
      | some rule =>
        if (d.graph.rule rule).isPhony then do
          let g ← Node.markDirty fuel d.graph n
          pure { d with graph := g }
        else setOutputDirty P fuel d n rule

def checkSourcesMissing (d : Daemon ω) : Outcome Unit :=
  if d.sourcesMissing = ∅ then pure ()
  else .error (.exception ("Error, cannot build without: " ++ ", ".intercalate
    ((d.sourcesMissing.sort (· ≤ ·)).map fun n ↦ (d.graph.node n).path)))

/-- The targets of a build: the roots if none is named. -/
def targetsToBuild (g : Graph) (targets : List String) : Outcome (Finset NodeId) :=
  if targets = [] then pure g.roots
  else targets.foldlM (fun T target ↦
    match g.nodes.lookup target with
    | none => .error (.exception ("Unknown target " ++ target))
    | some n => pure (insert n T)) ∅

/-- `startBuild` of an idle daemon, before the plan is made. -/
def fetchTargets (fuel : ℕ) (d : Daemon ω) (targets : List String) (lazyFetch : Bool) :
    Outcome (Finset NodeId × Graph × ω) := do
  d.checkSourcesMissing
  let T ← targetsToBuild d.graph targets
  let s ← (if lazyFetch then
      (T.sort (· ≤ ·)).foldlM (LazyCache.traverseNode P fuel) (d.graph, d.world)
    else pure (d.graph, d.world))
  pure (T, s)

/-- `startBuild` of an idle daemon, up to the start of the builder. -/
def startBuild (fuel : ℕ) (d : Daemon ω) (targets : List String) (lazyFetch : Bool) :
    Outcome (BuildPlan × Daemon ω) := do
  let (T, g, w) ← d.fetchTargets P fuel targets lazyFetch
  let p ← BuildPlan.create g T
  pure (p, { d with graph := g, world := w })

end Daemon

/-! ## The assertion of the plan -/

theorem BuildPlan.addTarget_ne_planRuleDirty {g : Graph} (h : g.DirtyHasDirtyRule) (fuel : ℕ)
    (p : BuildPlan) (t : NodeId) : addTarget g fuel p t ≠ .error (.assertion .planRuleDirty) := by
  induction fuel generalizing p t with
  | zero => simp [addTarget]
  | succ fuel ih =>
      rw [addTarget]
      cases hd : (g.node t).isDirty with
      | false => simp
      | true =>
          cases hc : (g.node t).childRule with
          | none => simp
          | some r =>
              simp only [Bool.not_true, Bool.false_eq_true, if_false, h t r hc hd, assert_true,
                Lib.except_ok_bind]
              split
              · simp
              · split
                · by_cases hr : r ∈ p.readyRules <;> simp [hr, assert]
                · exact Lib.foldlM_ne_error (fun x _ p ↦ ih p x) _

theorem BuildPlan.create_ne_planRuleDirty {g : Graph} (h : g.DirtyHasDirtyRule)
    (T : Finset NodeId) : create g T ≠ .error (.assertion .planRuleDirty) := by
  intro hrun
  rcases Lib.bind_eq_error.mp hrun with hloop | ⟨p, -, hrest⟩
  · exact Lib.foldlM_ne_error (fun t _ p ↦ addTarget_ne_planRuleDirty h _ p t) _ hloop
  · rcases Lib.bind_eq_error.mp hrest with hassert | ⟨-, -, hpure⟩
    · simp at hassert
    · cases hpure

/-- A restored node is clean, and the fetch leaves the rules as they are. -/
theorem LazyCache.markFetched_dirtyHasDirtyRule {g g' : Graph} {n : NodeId} {t : Timestamp}
    (h : g.DirtyHasDirtyRule) (hrun : markFetched g n t = .ok g') : g'.DirtyHasDirtyRule := by
  rcases Graph.reports_notifyParents _ n with ⟨-, g₁, hok, hclean⟩ | ⟨-, herror⟩
  · have heq : g₁ = g' := by
      rw [markFetched, hok] at hrun
      exact Except.ok.inj hrun
    subst heq
    intro m r hm hd
    rw [Graph.childRule_of_links hclean.links] at hm
    rw [hclean.rule]
    have hd' := ((hclean.node m).mp hd).1
    rw [Graph.updateNode, Graph.setNode_node] at hm hd'
    split at hm
    · rename_i heq
      rw [if_pos heq] at hd'
      cases hd'
    · rename_i hne
      rw [if_neg hne] at hd'
      exact ⟨h m r hm hd', Set.notMem_empty r⟩
  · rw [markFetched, herror] at hrun
    cases hrun

theorem LazyCache.traverse_dirtyHasDirtyRule {ω : Type} {P : Platform ω} {fuel : ℕ}
    {l : List NodeId} {s s' : Graph × ω} (h : s.1.DirtyHasDirtyRule)
    (hrun : l.foldlM (traverseNode P fuel) s = .ok s') : s'.1.DirtyHasDirtyRule := by
  refine Lib.foldlM_invariant (fun s : Graph × ω ↦ s.1.DirtyHasDirtyRule) ?_ hrun h
  intro n _ s s' hstep
  refine traverseNode_invariant (fun s ↦ s.1.DirtyHasDirtyRule) ?_ ?_ hstep
  · exact fun _ _ _ _ _ h _ _ _ _ ↦ h
  · exact fun _ _ _ _ _ _ h _ _ _ _ hmark ↦ markFetched_dirtyHasDirtyRule h hmark

namespace Daemon

variable {ω : Type} {P : Platform ω} {C : DaemonConfig ω} {d d' : Daemon ω} {fuel : ℕ}

theorem fetchTargets_dirtyHasDirtyRule {targets : List String} {lazyFetch : Bool}
    {T : Finset NodeId} {g : Graph} {w : ω} (h : d.graph.DirtyHasDirtyRule)
    (hrun : d.fetchTargets P fuel targets lazyFetch = .ok (T, g, w)) : g.DirtyHasDirtyRule := by
  obtain ⟨_, -, hrun⟩ := Lib.bind_eq_ok.mp hrun
  obtain ⟨T', -, hrun⟩ := Lib.bind_eq_ok.mp hrun
  obtain ⟨s, hfetch, hpure⟩ := Lib.bind_eq_ok.mp hrun
  simp only [Lib.except_pure, Except.ok.injEq, Prod.mk.injEq] at hpure
  have hs : s.1.DirtyHasDirtyRule := by
    cases lazyFetch with
    | true => exact LazyCache.traverse_dirtyHasDirtyRule h hfetch
    | false =>
        rw [← Except.ok.inj hfetch]
        exact h
  rw [hpure.2] at hs
  exact hs

/-! ## What a notification does -/

@[simp] theorem noteMissing_graph (P : Platform ω) (d : Daemon ω) (n : NodeId) :
    (noteMissing P d n).graph = d.graph := by
  rw [noteMissing]
  split
  · split <;> rfl
  · rfl

@[simp] theorem noteMissing_world (P : Platform ω) (d : Daemon ω) (n : NodeId) :
    (noteMissing P d n).world = d.world := by
  rw [noteMissing]
  split
  · split <;> rfl
  · rfl

/-- A source file is hashed, and if its hash has changed its node is marked. -/
theorem setSourceDirty_ok {n : NodeId} (hrun : setSourceDirty P fuel d n = .ok d') :
    ∃ changed g w g', Hash.recomputeNodeHash P true true fuel (d.graph, d.world) n =
        .ok (changed, g, w) ∧ (g' = g ∨ markTarget fuel g n = .ok g') ∧
      d' = { noteMissing P d n with graph := g', world := w } := by
  obtain ⟨⟨changed, g, w⟩, hhash, hrest⟩ := Lib.bind_eq_ok.mp hrun
  rw [noteMissing_graph, noteMissing_world] at hhash
  cases changed with
  | false => exact ⟨false, g, w, g, hhash, Or.inl rfl, (Except.ok.inj hrest).symm⟩
  | true =>
      obtain ⟨g', hmark, hpure⟩ := Lib.bind_eq_ok.mp hrest
      exact ⟨true, g, w, g', hhash, Or.inr hmark, (Except.ok.inj hpure).symm⟩

/-- An output is marked, unless the daemon takes the change for its own. -/
theorem setOutputDirty_ok {n : NodeId} {r : RuleId} (hrun : setOutputDirty P fuel d n r = .ok d') :
    ((P.mtime d.world (d.graph.node n).path).any (isOwnChange d.graph n r) = true ∧ d' = d) ∨
      ∃ g, markTarget fuel d.graph n = .ok g ∧ d' = { d with graph := g } := by
  rw [setOutputDirty] at hrun
  split at hrun
  · rename_i hown
    exact Or.inl ⟨hown, (Except.ok.inj hrun).symm⟩
  · obtain ⟨g, hmark, hpure⟩ := Lib.bind_eq_ok.mp hrun
    exact Or.inr ⟨g, hmark, (Except.ok.inj hpure).symm⟩

/-- A call that does not name the makefile is about a source file, a phony target
or an output. -/
theorem setDirty_ok {target : String} (hne : target ≠ C.jsonGraphFile)
    (hrun : setDirty P C fuel d target = .ok d') :
    ∃ n, d.graph.nodes.lookup target = some n ∧
      (((d.graph.node n).childRule = none ∧ setSourceDirty P fuel d n = .ok d') ∨
        ∃ r, (d.graph.node n).childRule = some r ∧
          (((d.graph.rule r).isPhony = true ∧
              ∃ g, Node.markDirty fuel d.graph n = .ok g ∧ d' = { d with graph := g }) ∨
            ((d.graph.rule r).isPhony = false ∧ setOutputDirty P fuel d n r = .ok d'))) := by
  rw [setDirty, if_neg hne] at hrun
  cases hlookup : d.graph.nodes.lookup target with
  | none => simp [hlookup] at hrun
  | some n =>
      simp only [hlookup] at hrun
      refine ⟨n, rfl, ?_⟩
      cases hc : (d.graph.node n).childRule with
      | none =>
          simp only [hc] at hrun
          exact Or.inl ⟨rfl, hrun⟩
      | some r =>
          simp only [hc] at hrun
          refine Or.inr ⟨r, rfl, ?_⟩
          cases hphony : (d.graph.rule r).isPhony with
          | true =>
              simp only [hphony, if_true] at hrun
              obtain ⟨g, hmark, hpure⟩ := Lib.bind_eq_ok.mp hrun
              exact Or.inl ⟨rfl, g, hmark, (Except.ok.inj hpure).symm⟩
          | false =>
              simp only [hphony, Bool.false_eq_true, if_false] at hrun
              exact Or.inr ⟨rfl, hrun⟩

/-! ## Runs of notifications -/

theorem markTarget_anchored {g g' : Graph} {n : NodeId} (h : g.Anchored)
    (hrun : markTarget fuel g n = .ok g') : g'.Anchored := by
  obtain ⟨g₁, hmark, hrest⟩ := Lib.bind_eq_ok.mp hrun
  obtain ⟨hl, hbut⟩ := h.markDirty hmark
  cases hc : (g₁.node n).childRule with
  | none =>
      simp only [hc, Lib.except_pure, Except.ok.injEq] at hrest
      subst hrest
      refine h.of_links hl fun m r hm hd ↦ (hbut m r hm hd).resolve_right fun hr ↦ ?_
      rw [Set.mem_ofPred_eq, ← Graph.childRule_of_links hl, hc] at hr
      cases hr
  | some q =>
      simp only [hc, Lib.except_pure, Except.ok.injEq] at hrest
      subst hrest
      have hset := g₁.marked_setRuleState q
      have hq : {r | (g.node n).childRule = some r} ⊆ insert q (∅ : Set RuleId) := by
        intro r hr
        rw [Set.mem_ofPred_eq, ← Graph.childRule_of_links hl, hc] at hr
        exact Or.inl (Option.some.inj hr).symm
      refine h.of_links (hset.links.trans hl) fun m r hm hd ↦ ?_
      exact ((hbut.mono hq).setRuleState m r hm hd).resolve_right (Set.notMem_empty r)

/-- The call does not name the makefile, nor a phony target whose rule is up
to date. -/
def MayNotify (C : DaemonConfig ω) (d : Daemon ω) (target : String) : Prop :=
  target ≠ C.jsonGraphFile ∧ ∀ n, d.graph.nodes.lookup target = some n → ∀ r,
    (d.graph.node n).childRule = some r → (d.graph.rule r).isPhony = true →
      (d.graph.rule r).isDirty = true

theorem setDirty_anchored {target : String} (h : d.graph.Anchored) (hmay : MayNotify C d target)
    (hrun : setDirty P C fuel d target = .ok d') : d'.graph.Anchored := by
  obtain ⟨n, hlookup, ⟨hc, hsource⟩ | ⟨r, hc, ⟨hphony, g, hmark, rfl⟩ | ⟨-, houtput⟩⟩⟩ :=
    setDirty_ok hmay.1 hrun
  · obtain ⟨changed, g, w, g', hhash, hmark, rfl⟩ := setSourceDirty_ok hsource
    have hk : Depfile.Keeps d.graph.rules g := Hash.recomputeNodeHash_keeps ⟨h, rfl⟩ hhash
    rcases hmark with rfl | hmark
    · exact hk.1
    · exact markTarget_anchored hk.1 hmark
  · obtain ⟨hl, hbut⟩ := h.markDirty hmark
    refine h.of_links hl fun m q hm hd ↦ (hbut m q hm hd).elim id fun hq ↦ ?_
    obtain rfl : r = q := Option.some.inj (hc.symm.trans hq)
    exact Graph.markDirty_ruleDirty (hmay.2 n hlookup r hc hphony) hmark
  · rcases setOutputDirty_ok houtput with ⟨-, rfl⟩ | ⟨g, hmark, rfl⟩
    · exact h
    · exact markTarget_anchored h hmark

/-- A change of the outside world, or a call of `setDirty` that returns. -/
inductive Notified (P : Platform ω) (C : DaemonConfig ω) : Daemon ω → Daemon ω → Prop
  | change (d w) : Notified P C d { d with world := w }
  | call {d d' fuel target} (hmay : MayNotify C d target)
      (hrun : setDirty P C fuel d target = .ok d') : Notified P C d d'

theorem Notified.anchored (hstep : Notified P C d d') (h : d.graph.Anchored) :
    d'.graph.Anchored := by
  cases hstep with
  | change w => exact h
  | call hmay hrun => exact setDirty_anchored h hmay hrun

theorem anchored_of_notified (h : d.graph.Anchored)
    (hrun : Relation.ReflTransGen (Notified P C) d d') : d'.graph.Anchored := by
  induction hrun with
  | refl => exact h
  | tail _ hstep ih => exact hstep.anchored ih

/-- In every run of notifications, dirty outputs have dirty rules, and the
assertion of `BuildPlan::addTarget` holds in the next build. -/
theorem dirty_rule_of_notified (h : d.graph.Anchored)
    (hrun : Relation.ReflTransGen (Notified P C) d d') :
    d'.graph.DirtyHasDirtyRule ∧
      ∀ fuel targets lazyFetch T g w,
        d'.fetchTargets P fuel targets lazyFetch = .ok (T, g, w) →
          BuildPlan.create g T ≠ .error (.assertion .planRuleDirty) := by
  have hd := (anchored_of_notified h hrun).dirty
  exact ⟨hd, fun fuel targets lazyFetch T g w hfetch ↦
    BuildPlan.create_ne_planRuleDirty (fetchTargets_dirtyHasDirtyRule hd hfetch) T⟩

end Daemon

theorem Graph.Consistent.anchored {g : Graph} (h : g.Consistent) : g.Anchored where
  parents n r hr := ((h.twoWay.mem_parents n r).mp hr).1
  outputs r hr o ho :=
    ⟨(h.twoWay.child_eq_some o r).mpr ⟨hr, ho⟩, h.allocated r hr o (Or.inr ho)⟩
  dirty := h.dirty_node

/-! ## A phony target -/

/-- The makefile of a parser with a phony target: `parse.y -> parse.c, parse.h`,
`parse.c -> parse.o` and `parse.o, parse.h -> all`, with everything built. -/
def builtGraph : Graph where
  node
    | 0 => { Node.create "parse.y" true false with
        parentRules := [0], hash := "h0", hashDepfile := "d0" }
    | 1 => { Node.create "parse.c" true false with
        childRule := some 0, parentRules := [1], hash := "h1", hashDepfile := "d1" }
    | 2 => { Node.create "parse.h" true false with
        childRule := some 0, parentRules := [2], hash := "h2", hashDepfile := "d2" }
    | 3 => { Node.create "parse.o" true false with
        childRule := some 1, parentRules := [2], hash := "h3", hashDepfile := "d3" }
    | 4 => { Node.create "all" true false with
        childRule := some 2, hash := "h4", hashDepfile := "d4" }
    | _ => Node.create "" true false
  rule
    | 0 => { Rule.create [0] [1, 2] with
        command := "yacc -d parse.y", numInputsReady := 1, hash := "r0", hashDepfile := "e0" }
    | 1 => { Rule.create [1] [3] with
        command := "cc -c parse.c", numInputsReady := 1, hash := "r1", hashDepfile := "e1" }
    | 2 => { Rule.create [3, 2] [4] with numInputsReady := 2, hash := "r2", hashDepfile := "e2" }
    | _ => Rule.create [] []
  roots := {4}
  sources := {0}
  nodes := [("parse.y", 0), ("parse.c", 1), ("parse.h", 2), ("parse.o", 3), ("all", 4)]
  rules := [0, 1, 2]
  allocated := {0, 1, 2, 3, 4}

theorem builtGraph_rules {r : RuleId} (hr : r ∈ builtGraph.rules) : r = 0 ∨ r = 1 ∨ r = 2 := by
  simpa [builtGraph] using hr

theorem builtGraph_allocated {n : NodeId} (hn : n ∈ builtGraph.allocated) :
    n = 0 ∨ n = 1 ∨ n = 2 ∨ n = 3 ∨ n = 4 := by
  simpa [builtGraph] using hn

theorem twoWay_builtGraph : builtGraph.links.TwoWay :=
  @Links.twoWay_of_bounded _ 5 (fun _ ↦ ⟨rfl, rfl⟩) (by decide) (by decide)

theorem acyclic_builtGraph : builtGraph.links.Acyclic :=
  twoWay_builtGraph.acyclic_of_rank id (by decide)

theorem consistent_builtGraph : builtGraph.Consistent where
  twoWay := twoWay_builtGraph
  acyclic := acyclic_builtGraph
  allocated := by
    intro r hr n hn
    rcases builtGraph_rules hr with rfl | rfl | rfl <;>
      simp [builtGraph, Rule.create] at hn ⊢ <;> tauto
  lookup := by
    intro n hn
    rcases builtGraph_allocated hn with rfl | rfl | rfl | rfl | rfl <;> decide
  nodes := by decide
  roots := by
    rintro (_ | _ | _ | _ | _ | n) <;> simp [builtGraph, Node.create]
  sources := by
    rintro (_ | _ | _ | _ | _ | n) <;> simp [builtGraph, Node.create]
  output := by
    intro r hr
    rcases builtGraph_rules hr with rfl | rfl | rfl <;> decide
  phony_output := by
    intro r hr
    rcases builtGraph_rules hr with rfl | rfl | rfl <;> decide
  node_hash := by
    intro n hn
    rcases builtGraph_allocated hn with rfl | rfl | rfl | rfl | rfl <;> decide
  rule_hash := by
    intro r hr
    rcases builtGraph_rules hr with rfl | rfl | rfl <;> decide
  dirty_node := by
    rintro (_ | _ | _ | _ | _ | n) r hr <;>
      simp [builtGraph, Node.create] at hr <;> subst hr <;> decide
  dirty_rule := by
    intro r hr
    rcases builtGraph_rules hr with rfl | rfl | rfl <;> decide
  dirty_input := by
    intro r hr
    rcases builtGraph_rules hr with rfl | rfl | rfl <;> decide
  exact := by
    intro r hr
    rcases builtGraph_rules hr with rfl | rfl | rfl <;> decide

def builtDaemon : Daemon Unit := ⟨builtGraph, (), ∅⟩

/-- A makefile that never changes. -/
def makefileConfig : DaemonConfig Unit := ⟨"falcon.json", fun d ↦ .ok d⟩

/-- `parse.o` has been deleted. -/
theorem dirty_rule_of_parse_object_deleted :
    ∃ d', Daemon.setDirty emptyPlatform makefileConfig 8 builtDaemon "parse.o" = .ok d' ∧
      d'.graph.DirtyHasDirtyRule := by
  have hok : (Daemon.setDirty emptyPlatform makefileConfig 8 builtDaemon "parse.o").isOk = true :=
    rfl
  cases hrun : Daemon.setDirty emptyPlatform makefileConfig 8 builtDaemon "parse.o" with
  | error f =>
      rw [hrun] at hok
      cases hok
  | ok d' =>
      refine ⟨d', rfl, (Daemon.dirty_rule_of_notified consistent_builtGraph.anchored
        (.single (.call ⟨by decide, fun n hn r hr hphony ↦ ?_⟩ hrun))).1⟩
      obtain rfl : 3 = n := Option.some.inj hn
      obtain rfl : 1 = r := Option.some.inj hr
      cases hphony

/-- After `setDirty` on the phony target its rule is still up to date, and the
plan of the next build violates the assertion. -/
theorem not_dirty_rule_of_phony :
    builtDaemon.graph.Consistent ∧
      ∃ d', Daemon.setDirty emptyPlatform makefileConfig 8 builtDaemon "all" = .ok d' ∧
        ¬ d'.graph.DirtyHasDirtyRule ∧
        Daemon.startBuild emptyPlatform 8 d' ["all"] false =
          .error (.assertion .planRuleDirty) := by
  refine ⟨consistent_builtGraph, ⟨builtGraph.updateNode 4 (·.setState .outOfDate), (), ∅⟩, rfl,
    ?_, ?_⟩
  · intro h
    exact absurd (h 4 2 rfl rfl) (by decide)
  · rw [Daemon.startBuild, Daemon.fetchTargets]
    have hsort : (insert 4 ∅ : Finset NodeId).sort (· ≤ ·) = [4] := Finset.sort_singleton _ _
    simp only [Daemon.checkSourcesMissing, if_true, Daemon.targetsToBuild]
    change (BuildPlan.create _ (insert 4 ∅) >>= _) = _
    rw [BuildPlan.create, hsort]
    rfl

end Falcon
