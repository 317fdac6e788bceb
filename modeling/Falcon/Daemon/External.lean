import Falcon.Build.Consistent
import Falcon.Daemon.SetDirty
import Falcon.Daemon.Startup
import Falcon.Graph.Edits
import Falcon.Lib.Trace

/-!
# External changes of outputs

The daemon is notified of its own writes too, and tells them apart by comparing
the modification time of the file with the time at which it noted that the rule
had been run or the output fetched.  A change from outside is seen if it leaves
a later modification time, and lost otherwise.
-/

namespace Falcon

open Relation Lib

/-- The daemon, and what the last successful run of its rule, restore or fetch
has written to each output. -/
structure History (ω : Type) where
  daemon : Daemon ω
  written : NodeId → Option String

namespace History

inductive Event (ω : Type) where
  -- Files are changed, or the cache is asked in vain.
  | change (w : ω)
  | notify (target : String)
  -- The command of the rule has ended, or its outputs have been restored; this
  -- has written `content` to them.
  | stamp (rule : RuleId) (w : ω) (succeeded : Bool) (content : NodeId → Option String)
  -- The depfile is loaded, and the hashes are brought up to date.
  | load (rule : RuleId)
  | finish (rule : RuleId)
  -- The lazy cache has restored the output.
  | fetch (n : NodeId) (w : ω) (content : Option String)

variable {ω : Type} (P : Platform ω) (C : DaemonConfig ω)

/-- The graph when the rule gets its timestamp. -/
def stampRule (g : Graph) (rule : RuleId) (w : ω) : Graph :=
  g.updateRule rule (·.setTimestamp (P.now w))

/-- What is written to the outputs after a run of the rule. -/
def wrote (h : History ω) (rule : RuleId) (content : NodeId → Option String) :
    NodeId → Option String :=
  fun n ↦ if (h.daemon.graph.node n).childRule = some rule then content n else h.written n

inductive Step : History ω → Event ω → History ω → Prop
  | change (h w) : Step h (.change w) { h with daemon := { h.daemon with world := w } }
  | notify {h fuel target d} (hne : target ≠ C.jsonGraphFile)
    (hrun : Daemon.setDirty P C fuel h.daemon target = .ok d) :
    Step h (.notify target) { h with daemon := d }
  | stamp (h rule w succeeded content) : Step h (.stamp rule w succeeded content)
      { daemon := { h.daemon with graph := stampRule P h.daemon.graph rule w, world := w }
        written := if succeeded then h.wrote rule content else h.written }
  | load {h rule loaded g w} (hr : rule ∈ h.daemon.graph.rules)
    (hrun : Builder.loadDepfile P h.daemon.graph h.daemon.world rule = .ok (loaded, g, w)) :
    Step h (.load rule) { h with daemon := { h.daemon with graph := g, world := w } }
  | finish {h rule g} (hr : rule ∈ h.daemon.graph.rules)
    (hrun : h.daemon.graph.finishRule rule = .ok g) :
    Step h (.finish rule) { h with daemon := { h.daemon with graph := g } }
  | fetch {h n w content g}
    (hrun : LazyCache.markFetched h.daemon.graph n (P.now w) = .ok g) :
    Step h (.fetch n w content)
      { daemon := { h.daemon with graph := g, world := w }
        written := Function.update h.written n content }

/-- `n` is made by running the rule. -/
def Makes (g : Graph) (r : RuleId) (n : NodeId) : Prop :=
  (g.node n).childRule = some r ∧ (g.rule r).isPhony = false

/-- The file is missing, or newer than the timestamps. -/
def Foreign (g : Graph) (w : ω) (r : RuleId) (n : NodeId) : Prop :=
  (P.mtime w (g.node n).path).any (Daemon.isOwnChange g n r) = false

/-- The file holds what has been written, or can be told from it. -/
def Accounted (g : Graph) (w : ω) (written : NodeId → Option String) (r : RuleId) (n : NodeId) :
    Prop :=
  P.readFile w (g.node n).path = written n ∨ Foreign P g w r n

def Untouched (g : Graph) (w w' : ω) (n : NodeId) : Prop :=
  P.readFile w' (g.node n).path = P.readFile w (g.node n).path ∧
    P.mtime w' (g.node n).path = P.mtime w (g.node n).path

/-- Whoever changes the file of an output that is up to date puts back what was
there, deletes it or leaves a later modification time. -/
def Noticeable (h : History ω) (w : ω) : Prop :=
  ∀ r n, Makes h.daemon.graph r n → (h.daemon.graph.node n).isDirty = false →
    Untouched P h.daemon.graph h.daemon.world w n ∨
      Accounted P h.daemon.graph w h.written r n

/-- The condition on a step: changes can be noticed, and where the daemon notes
the time of its own writes, the files are still as it has written them or have
been changed later. -/
def Meets (h : History ω) : Event ω → History ω → Prop
  | .change _, h' | .notify _, h' | .load _, h' => Noticeable P h h'.daemon.world
  | .stamp rule w _ _, h' => ∀ r n, Makes h.daemon.graph r n →
      (h.daemon.graph.node n).isDirty = false →
        r ≠ rule ∧ Untouched P h.daemon.graph h.daemon.world w n ∨
          Accounted P (stampRule P h.daemon.graph rule w) w h'.written r n
  | .finish rule, _ => ∀ n, Makes h.daemon.graph rule n →
      Accounted P h.daemon.graph h.daemon.world h.written rule n
  | .fetch m w _, h' => (∀ r n, n ≠ m → Makes h.daemon.graph r n →
        (h.daemon.graph.node n).isDirty = false →
          Untouched P h.daemon.graph h.daemon.world w n ∨
            Accounted P h.daemon.graph w h.written r n) ∧
      ∀ r, Makes h.daemon.graph r m → Accounted P h'.daemon.graph w h'.written r m

/-- The outputs that are up to date hold what has been written. -/
def Starts (h : History ω) : Prop :=
  h.daemon.graph.Wired ∧ ∀ r n, Makes h.daemon.graph r n →
    (h.daemon.graph.node n).isDirty = false →
      P.readFile h.daemon.world (h.daemon.graph.node n).path = h.written n

/-- A notification about an output that leaves it up to date finds in the file
what has been written there. -/
def ChangesSeen (h : History ω) : Prop :=
  ∀ fuel target r n d, target ≠ C.jsonGraphFile →
    h.daemon.graph.nodes.lookup target = some n → Makes h.daemon.graph r n →
      Daemon.setDirty P C fuel h.daemon target = .ok d → (d.graph.node n).isDirty = false →
        P.readFile d.world (d.graph.node n).path = h.written n

/-- The invariant of a run. -/
def AllAccounted (h : History ω) : Prop :=
  h.daemon.graph.Wired ∧ ∀ r n, Makes h.daemon.graph r n →
    (h.daemon.graph.node n).isDirty = false →
      Accounted P h.daemon.graph h.daemon.world h.written r n

variable {P C} {g g' : Graph} {w w' : ω}

/-! ## What leaves the comparison alone -/

/-- `g'` is as ready as `g` to notice a change of an output that is up to date. -/
structure Steady (g g' : Graph) : Prop where
  wired : g.Wired → g'.Wired
  clean : ∀ r n, Makes g' r n → (g'.node n).isDirty = false →
    Makes g r n ∧ (g.node n).isDirty = false ∧ (g'.node n).path = (g.node n).path ∧
      ∀ t, Daemon.isOwnChange g' n r t = Daemon.isOwnChange g n r t

theorem Steady.refl (g : Graph) : Steady g g :=
  ⟨id, fun _ _ hmakes hclean ↦ ⟨hmakes, hclean, rfl, fun _ ↦ rfl⟩⟩

theorem Steady.trans {g'' : Graph} (h : Steady g g') (h' : Steady g' g'') : Steady g g'' where
  wired hg := h'.wired (h.wired hg)
  clean r n hmakes hclean := by
    obtain ⟨hmakes', hclean', hpath', hown'⟩ := h'.clean r n hmakes hclean
    obtain ⟨hmakes₀, hclean₀, hpath, hown⟩ := h.clean r n hmakes' hclean'
    exact ⟨hmakes₀, hclean₀, hpath'.trans hpath, fun t ↦ (hown' t).trans (hown t)⟩

theorem steady_of_edit (hstep : Graph.Edit P g g') : Steady g g' where
  wired hg := hg.edit hstep
  clean r n hmakes hclean := by
    obtain ⟨inputs, numImplicit, hash, deps, numReady, hrule⟩ := Graph.rule_of_edit hstep r
    rcases Graph.node_of_edit hstep n with
      ⟨hash, deps, parents, hnode⟩ | ⟨-, dep, hash, deps, hnode⟩
    · rw [Makes, hnode, hrule] at hmakes
      rw [hnode] at hclean
      refine ⟨hmakes, hclean, by rw [hnode], fun t ↦ ?_⟩
      rw [Daemon.isOwnChange, Daemon.isOwnChange, hnode, hrule]
    · rw [Makes, hnode] at hmakes
      cases hmakes.1

theorem steady_of_edits (hrun : Graph.Edits P g g') : Steady g g' := by
  induction hrun with
  | refl => exact .refl g
  | tail _ hstep ih => exact ih.trans (steady_of_edit hstep)

theorem steady_of_darker (h : g.Darker g') : Steady g g' where
  wired hg := hg.of_links h.links
  clean r n hmakes hclean := by
    rcases h.node n with hnode | hdirty
    · rw [Makes, hnode, Graph.isPhony_of_links h.links] at hmakes
      rw [hnode] at hclean
      refine ⟨hmakes, hclean, by rw [hnode], fun t ↦ ?_⟩
      have htime : (g'.rule r).timestamp = (g.rule r).timestamp :=
        congrFun (congrArg Stamps.ruleTime h.stamps) r
      rw [Daemon.isOwnChange, Daemon.isOwnChange, hnode, htime]
    · rw [hdirty] at hclean
      cases hclean

/-- Fewer changes are taken for own ones, and the file is the same. -/
theorem Accounted.congr {written written' : NodeId → Option String} {r : RuleId} {n : NodeId}
    (h : Accounted P g w written r n) (hpath : (g'.node n).path = (g.node n).path)
    (hfile : Untouched P g w w' n) (hwritten : written' n = written n)
    (hown : ∀ t, Daemon.isOwnChange g' n r t = true → Daemon.isOwnChange g n r t = true) :
    Accounted P g' w' written' r n := by
  rw [Accounted, Foreign, hpath, hfile.1, hfile.2, hwritten]
  refine h.imp id fun hforeign ↦ ?_
  rw [Foreign] at hforeign
  cases hm : P.mtime w (g.node n).path with
  | none => rfl
  | some t =>
      rw [hm, Option.any_some] at hforeign
      rw [Option.any_some, ← Bool.not_eq_true]
      intro h'
      rw [hown t h'] at hforeign
      cases hforeign

theorem untouched_refl (g : Graph) (w : ω) (n : NodeId) : Untouched P g w w n := ⟨rfl, rfl⟩

/-! ## The calls -/

theorem markTarget_darker {fuel : ℕ} {n : NodeId} (hrun : Daemon.markTarget fuel g n = .ok g') :
    g.Darker g' ∧ (g'.node n).isDirty = true := by
  obtain ⟨g₁, hmark, hrest⟩ := bind_eq_ok.mp hrun
  obtain ⟨h₁, hdirty⟩ := Graph.markDirty_darker hmark
  cases hc : (g₁.node n).childRule with
  | none =>
      simp only [hc, except_pure, Except.ok.injEq] at hrest
      exact hrest ▸ ⟨h₁, hdirty⟩
  | some q =>
      simp only [hc, except_pure, Except.ok.injEq] at hrest
      exact hrest ▸ ⟨h₁.trans (Graph.darker_setRule g₁ q), hdirty⟩

theorem setSourceDirty_steady {fuel : ℕ} {d d' : Daemon ω} {n : NodeId} (hg : d.graph.Wired)
    (hrun : Daemon.setSourceDirty P fuel d n = .ok d') : Steady d.graph d'.graph := by
  obtain ⟨changed, g, w, g', hhash, hmark, rfl⟩ := Daemon.setSourceDirty_ok hrun
  have h₁ : Steady d.graph g := steady_of_edits (Hash.recomputeNodeHash_edits hg hhash)
  rcases hmark with rfl | hmark
  · exact h₁
  · exact h₁.trans (steady_of_darker (markTarget_darker hmark).1)

/-- A notification about an output that leaves it up to date does nothing, as
the daemon takes the change for its own. -/
theorem setOutputDirty_cases {fuel : ℕ} {d d' : Daemon ω} {n : NodeId} {r : RuleId}
    (hrun : Daemon.setOutputDirty P fuel d n r = .ok d') :
    (d' = d ∧ ¬ Foreign P d.graph d.world r n) ∨
      d.graph.Darker d'.graph ∧ (d'.graph.node n).isDirty = true := by
  rcases Daemon.setOutputDirty_ok hrun with ⟨hown, rfl⟩ | ⟨g, hmark, rfl⟩
  · refine Or.inl ⟨rfl, ?_⟩
    rw [Foreign, hown]
    decide
  · exact Or.inr (markTarget_darker hmark)

theorem setDirty_steady {fuel : ℕ} {d d' : Daemon ω} {target : String} (hg : d.graph.Wired)
    (hne : target ≠ C.jsonGraphFile) (hrun : Daemon.setDirty P C fuel d target = .ok d') :
    Steady d.graph d'.graph := by
  obtain ⟨n, -, ⟨-, hsource⟩ | ⟨r, -, ⟨-, g, hmark, rfl⟩ | ⟨-, houtput⟩⟩⟩ :=
    Daemon.setDirty_ok hne hrun
  · exact setSourceDirty_steady hg hsource
  · exact steady_of_darker (Graph.markDirty_darker hmark).1
  · rcases setOutputDirty_cases houtput with ⟨rfl, -⟩ | ⟨hdarker, -⟩
    · exact .refl _
    · exact steady_of_darker hdarker

/-! ## Finished rules and fetched outputs -/

theorem notifyParents_frame {n : NodeId} (hrun : g.notifyParents n = .ok g') :
    g'.links = g.links ∧ g'.node = g.node ∧
      ∀ q, (g'.rule q).timestamp = (g.rule q).timestamp := by
  refine foldlM_preserves (fun k k' : Graph ↦ k'.links = k.links ∧ k'.node = k.node ∧
    ∀ q, (k'.rule q).timestamp = (k.rule q).timestamp) (fun _ ↦ ⟨rfl, rfl, fun _ ↦ rfl⟩)
    (fun _ _ _ h h' ↦ ⟨h'.1.trans h.1, h'.2.1.trans h.2.1, fun q ↦ (h'.2.2 q).trans (h.2.2 q)⟩)
    ?_ hrun
  intro q _ k k' hstep
  obtain ⟨numReady, rfl⟩ := Depfile.onRule_ready (fun _ _ ↦ Depfile.markInputReady_eq) hstep
  exact ⟨Graph.links_setRule rfl rfl rfl rfl rfl, rfl, Graph.proj_setRule Rule.timestamp rfl⟩

/-- The nodes of `U` have been marked up to date. -/
structure Refreshed (g : Graph) (U : Set NodeId) (g' : Graph) : Prop where
  links : g'.links = g.links
  time : ∀ q, (g'.rule q).timestamp = (g.rule q).timestamp
  node : ∀ n, g'.node n = g.node n ∨ n ∈ U ∧ g'.node n = (g.node n).setState .upToDate

theorem Refreshed.trans {g'' : Graph} {U : Set NodeId} (h : Refreshed g U g')
    (h' : Refreshed g' U g'') : Refreshed g U g'' where
  links := h'.links.trans h.links
  time q := (h'.time q).trans (h.time q)
  node n := by
    rcases h'.node n with heq' | ⟨hn, heq'⟩
    · rw [heq']
      exact h.node n
    · refine Or.inr ⟨hn, ?_⟩
      rcases h.node n with heq | ⟨-, heq⟩
      · rw [heq', heq]
      · rw [heq', heq]
        rfl

theorem refreshed_setNode {U : Set NodeId} {n : NodeId} (hn : n ∈ U) :
    Refreshed g U (g.updateNode n (·.setState .upToDate)) where
  links := Graph.links_setNode rfl rfl rfl rfl
  time _ := rfl
  node m := by
    rw [Graph.updateNode, Graph.setNode_node]
    split
    · rename_i heq
      subst heq
      exact Or.inr ⟨hn, rfl⟩
    · exact Or.inl rfl

theorem finishRule_refreshed {r : RuleId} (hrun : g.finishRule r = .ok g') :
    Refreshed g {n | n ∈ (g.rule r).outputs ∨ (g.node n).childRule = none} g' := by
  generalize hU : {n | n ∈ (g.rule r).outputs ∨ (g.node n).childRule = none} = U
  have hrefl : Refreshed g U g := ⟨rfl, fun _ ↦ rfl, fun _ ↦ Or.inl rfl⟩
  obtain ⟨g₁, houtputs, hpure⟩ := bind_eq_ok.mp hrun
  have h₁ : Refreshed g U g₁ := by
    refine foldlM_invariant (Refreshed g U) ?_ houtputs hrefl
    intro o ho k k' hstep hk
    have hmem : o ∈ U := hU ▸ Or.inl ho
    obtain ⟨hl, hnode, htime⟩ := notifyParents_frame hstep
    have hset := hk.trans (refreshed_setNode (g := k) hmem)
    exact ⟨hl.trans hset.links, fun q ↦ (htime q).trans (hset.time q), hnode ▸ hset.node⟩
  have hsources : ∀ (l : List NodeId) (k : Graph), Refreshed g U k →
      Refreshed g U (l.foldl Graph.markSourceUpToDate k) := by
    intro l
    induction l with
    | nil => exact fun _ hk ↦ hk
    | cons n l ih =>
        intro k hk
        apply ih
        rw [Graph.markSourceUpToDate]
        split
        · rename_i hsource
          have hnone : (g.node n).childRule = none := by
            rw [← Graph.childRule_of_links hk.links]
            exact Option.isNone_iff_eq_none.mp hsource
          exact hk.trans (refreshed_setNode (hU ▸ Or.inr hnone))
        · exact hk
  rw [← Except.ok.inj hpure]
  exact (hsources _ g₁ h₁).trans ⟨Graph.links_setRule rfl rfl rfl rfl rfl,
    Graph.proj_setRule Rule.timestamp rfl, fun _ ↦ Or.inl rfl⟩

theorem markFetched_frame {n : NodeId} {t : Timestamp}
    (hrun : LazyCache.markFetched g n t = .ok g') :
    g'.links = g.links ∧ (∀ m, m ≠ n → g'.node m = g.node m) ∧
      ∀ q, (g'.rule q).timestamp = (g.rule q).timestamp := by
  obtain ⟨hl, hnode, htime⟩ := notifyParents_frame hrun
  refine ⟨hl.trans (Graph.links_setNode rfl rfl rfl rfl), fun m hm ↦ ?_, htime⟩
  rw [hnode, Graph.updateNode, Graph.setNode_node, if_neg hm]

/-! ## Runs -/

theorem makes_of_links (hl : g'.links = g.links) (r : RuleId) (n : NodeId) :
    Makes g' r n ↔ Makes g r n := by
  rw [Makes, Makes, Graph.childRule_of_links hl, Graph.isPhony_of_links hl]

namespace AllAccounted

variable {h : History ω} {d : Daemon ω}

/-- Nothing is finished or stamped, and the files change noticeably. -/
theorem steady (hall : AllAccounted P h) (hsteady : Steady h.daemon.graph d.graph)
    (hworld : Noticeable P h d.world) : AllAccounted P { h with daemon := d } := by
  refine ⟨hsteady.wired hall.1, fun r n hmakes hclean ↦ ?_⟩
  obtain ⟨hmakes₀, hclean₀, hpath, hown⟩ := hsteady.clean r n hmakes hclean
  have hown' : ∀ t, Daemon.isOwnChange d.graph n r t = true →
      Daemon.isOwnChange h.daemon.graph n r t = true := fun t ht ↦ hown t ▸ ht
  rcases hworld r n hmakes₀ hclean₀ with hsame | hacc
  · exact (hall.2 r n hmakes₀ hclean₀).congr hpath hsame rfl hown'
  · exact hacc.congr hpath (untouched_refl _ _ _) rfl hown'

theorem stamp {rule : RuleId} {succeeded : Bool} {content : NodeId → Option String}
    (hall : AllAccounted P h)
    (hmeets : ∀ r n, Makes h.daemon.graph r n → (h.daemon.graph.node n).isDirty = false →
      r ≠ rule ∧ Untouched P h.daemon.graph h.daemon.world w n ∨
        Accounted P (stampRule P h.daemon.graph rule w) w
          (if succeeded then h.wrote rule content else h.written) r n) :
    AllAccounted P
      { daemon := { h.daemon with graph := stampRule P h.daemon.graph rule w, world := w }
        written := if succeeded then h.wrote rule content else h.written } := by
  have hl : (stampRule P h.daemon.graph rule w).links = h.daemon.graph.links :=
    Graph.links_setTimestamp _ _ _
  refine ⟨hall.1.of_links hl, fun r n hmakes hclean ↦ ?_⟩
  have hmakes₀ := (makes_of_links hl r n).mp hmakes
  have hpath : ((stampRule P h.daemon.graph rule w).node n).path =
      (h.daemon.graph.node n).path := rfl
  rcases hmeets r n hmakes₀ hclean with ⟨hne, hsame⟩ | hacc
  · apply (hall.2 r n hmakes₀ hclean).congr hpath hsame
    · have hnot : (h.daemon.graph.node n).childRule ≠ some rule :=
        fun heq ↦ hne (Option.some.inj (hmakes₀.1.symm.trans heq))
      cases succeeded with
      | true => exact if_neg hnot
      | false => rfl
    · have hrule : (stampRule P h.daemon.graph rule w).rule r = h.daemon.graph.rule r := by
        rw [stampRule, Graph.updateRule, Graph.setRule_rule, if_neg hne]
      intro t
      rw [Daemon.isOwnChange, Daemon.isOwnChange, hrule]
      exact id
  · exact hacc

theorem finish {rule : RuleId} (hall : AllAccounted P h) (hr : rule ∈ h.daemon.graph.rules)
    (hrun : h.daemon.graph.finishRule rule = .ok g)
    (hmeets : ∀ n, Makes h.daemon.graph rule n →
      Accounted P h.daemon.graph h.daemon.world h.written rule n) :
    AllAccounted P { h with daemon := { h.daemon with graph := g } } := by
  have hfresh := finishRule_refreshed hrun
  refine ⟨hall.1.of_links hfresh.links, fun r n hmakes hclean ↦ ?_⟩
  have hmakes₀ := (makes_of_links hfresh.links r n).mp hmakes
  have hpath : (g.node n).path = (h.daemon.graph.node n).path := Graph.path_of_links hfresh.links n
  rcases hfresh.node n with heq | ⟨hn, heq⟩
  · have hclean₀ : (h.daemon.graph.node n).isDirty = false := by
      rw [← heq]
      exact hclean
    apply (hall.2 r n hmakes₀ hclean₀).congr hpath (untouched_refl _ _ _) rfl
    intro t
    rw [Daemon.isOwnChange, Daemon.isOwnChange, heq, hfresh.time]
    exact id
  · -- The node is an output of the rule, no source file.
    have hout := hn.resolve_right (fun hnone ↦ Option.some_ne_none r (hmakes₀.1.symm.trans hnone))
    obtain rfl : r = rule :=
      Option.some.inj (hmakes₀.1.symm.trans (hall.1.outputs rule hr n hout))
    apply (hmeets n hmakes₀).congr hpath (untouched_refl _ _ _) rfl
    intro t ht
    rw [Daemon.isOwnChange, heq, hfresh.time] at ht
    rw [Daemon.isOwnChange]
    simp only [Node.setState, Bool.false_and, Bool.or_false] at ht
    rw [ht, Bool.true_or]

theorem fetch {m : NodeId} {content : Option String} (hall : AllAccounted P h)
    (hrun : LazyCache.markFetched h.daemon.graph m (P.now w) = .ok g)
    (hother : ∀ r n, n ≠ m → Makes h.daemon.graph r n →
      (h.daemon.graph.node n).isDirty = false →
        Untouched P h.daemon.graph h.daemon.world w n ∨ Accounted P h.daemon.graph w h.written r n)
    (hself : ∀ r, Makes h.daemon.graph r m →
      Accounted P g w (Function.update h.written m content) r m) :
    AllAccounted P { daemon := { h.daemon with graph := g, world := w }
                     written := Function.update h.written m content } := by
  obtain ⟨hl, hnode, htime⟩ := markFetched_frame hrun
  refine ⟨hall.1.of_links hl, fun r n hmakes hclean ↦ ?_⟩
  have hmakes₀ := (makes_of_links hl r n).mp hmakes
  by_cases hn : n = m
  · subst hn
    exact hself r hmakes₀
  · have heq := hnode n hn
    have hclean₀ : (h.daemon.graph.node n).isDirty = false := by
      rw [← heq]
      exact hclean
    have hpath : (g.node n).path = (h.daemon.graph.node n).path := Graph.path_of_links hl n
    have hwritten : Function.update h.written m content n = h.written n :=
      Function.update_of_ne hn _ _
    have hown : ∀ t, Daemon.isOwnChange g n r t = true →
        Daemon.isOwnChange h.daemon.graph n r t = true := by
      intro t
      rw [Daemon.isOwnChange, Daemon.isOwnChange, heq, htime]
      exact id
    rcases hother r n hn hmakes₀ hclean₀ with hsame | hacc
    · exact (hall.2 r n hmakes₀ hclean₀).congr hpath hsame hwritten hown
    · exact hacc.congr hpath (untouched_refl _ _ _) hwritten hown

theorem step {h' : History ω} {e : Event ω} (hall : AllAccounted P h) (hstep : Step P C h e h')
    (hmeets : Meets P h e h') : AllAccounted P h' := by
  cases hstep with
  | change w => exact hall.steady (.refl _) hmeets
  | notify hne hrun => exact hall.steady (setDirty_steady hall.1 hne hrun) hmeets
  | stamp rule w succeeded content => exact hall.stamp hmeets
  | load hr hrun =>
    exact hall.steady (steady_of_edits (Builder.loadDepfile_edits hall.1 hr hrun)) hmeets
  | finish hr hrun => exact hall.finish hr hrun hmeets
  | fetch hrun => exact hall.fetch hrun hmeets.1 hmeets.2

end AllAccounted

/-- The next notification about an output can be trusted just if its file is
accounted for. -/
theorem changesSeen_iff {h : History ω} :
    ChangesSeen P C h ↔ ∀ target r n, target ≠ C.jsonGraphFile →
      h.daemon.graph.nodes.lookup target = some n → Makes h.daemon.graph r n →
        (h.daemon.graph.node n).isDirty = false →
          Accounted P h.daemon.graph h.daemon.world h.written r n := by
  have hcall : ∀ fuel target r n, target ≠ C.jsonGraphFile →
      h.daemon.graph.nodes.lookup target = some n → Makes h.daemon.graph r n →
        Daemon.setDirty P C fuel h.daemon target = Daemon.setOutputDirty P fuel h.daemon n r := by
    intro fuel target r n hne hlookup hmakes
    rw [Daemon.setDirty, if_neg hne]
    simp only [hlookup, hmakes.1, hmakes.2, Bool.false_eq_true, if_false]
  constructor
  · intro hseen target r n hne hlookup hmakes hclean
    by_cases hown : Foreign P h.daemon.graph h.daemon.world r n
    · exact Or.inr hown
    · have hrun : Daemon.setDirty P C 0 h.daemon target = .ok h.daemon := by
        rw [hcall 0 target r n hne hlookup hmakes, Daemon.setOutputDirty, if_pos]
        · rfl
        · rwa [Foreign, Bool.not_eq_false] at hown
      exact Or.inl (hseen 0 target r n h.daemon hne hlookup hmakes hrun hclean)
  · intro hacc fuel target r n d hne hlookup hmakes hrun hclean
    rw [hcall fuel target r n hne hlookup hmakes] at hrun
    rcases setOutputDirty_cases hrun with ⟨rfl, hown⟩ | ⟨-, hdirty⟩
    · exact (hacc target r n hne hlookup hmakes hclean).resolve_right hown
    · rw [hdirty] at hclean
      cases hclean

theorem Starts.allAccounted {h : History ω} (hstart : Starts P h) : AllAccounted P h :=
  ⟨hstart.1, fun r n hmakes hclean ↦ Or.inl (hstart.2 r n hmakes hclean)⟩

/-- In every run whose steps all meet the condition no external change of an
output is dropped. -/
theorem external_changes_seen {h₀ h : History ω} {events : List (Event ω)} (hstart : Starts P h₀)
    (hrun : Trace (fun h e h' ↦ Step P C h e h' ∧ Meets P h e h') h₀ events h) :
    ChangesSeen P C h := by
  have hall : AllAccounted P h :=
    hrun.invariant (fun _ h ↦ AllAccounted P h) hstart.allAccounted
      fun _ _ _ _ hall hstep ↦ hall.step hstep.1 hstep.2
  rw [changesSeen_iff]
  exact fun _ r n _ _ hmakes hclean ↦ hall.2 r n hmakes hclean

/-! ## The code takes such steps -/

/-- Some run leads from one graph, world and record to the other. -/
def Reaches (P : Platform ω) (C : DaemonConfig ω) (missing : Finset NodeId)
    (g : Graph) (w : ω) (written : NodeId → Option String)
    (g' : Graph) (w' : ω) (written' : NodeId → Option String) : Prop :=
  ∃ events, Trace (Step P C) ⟨⟨g, w, missing⟩, written⟩ events ⟨⟨g', w', missing⟩, written'⟩

section Reaches

variable {missing : Finset NodeId} {written written' : NodeId → Option String}

theorem Reaches.refl (g : Graph) (w : ω) (written : NodeId → Option String) :
    Reaches P C missing g w written g w written :=
  ⟨[], .nil⟩

theorem Reaches.snoc {g'' : Graph} {w'' : ω} {written'' : NodeId → Option String} {e : Event ω}
    (h : Reaches P C missing g w written g' w' written')
    (hstep : Step P C ⟨⟨g', w', missing⟩, written'⟩ e ⟨⟨g'', w'', missing⟩, written''⟩) :
    Reaches P C missing g w written g'' w'' written'' := by
  obtain ⟨events, hrun⟩ := h
  exact ⟨events ++ [e], hrun.snoc hstep⟩

/-- `waitForNext` after a command has been reaped. -/
theorem reaches_reap {s s' : Builder ω} {rule : RuleId} {status : SubProcessExitStatus}
    {res : BuildResult} {evs : List BuildEvent} (hg : s.graph.Wired) (hr : rule ∈ s.graph.rules)
    (hrun : Builder.reap P s rule status = .ok (res, evs, s')) (content : NodeId → Option String) :
    Reaches P C missing s.graph s.world written s'.graph s'.world
      (if status = .succeeded then wrote ⟨⟨s.graph, s.world, missing⟩, written⟩ rule content
        else written) := by
  have hstart : Reaches P C missing s.graph s.world written s.graph s.world written := .refl _ _ _
  have hstamp := hstart.snoc (.stamp _ rule s.world (decide (status = .succeeded)) content)
  rw [Builder.reap] at hrun
  split at hrun
  · rename_i hfailed
    simp only [except_pure, Except.ok.injEq, Prod.mk.injEq] at hrun
    rw [← hrun.2.2, if_neg hfailed]
    rw [decide_eq_false hfailed] at hstamp
    exact hstamp
  · rename_i hsucceeded
    rw [not_not] at hsucceeded
    simp only [hsucceeded, decide_true, if_true] at hstamp ⊢
    obtain ⟨⟨loaded, g₁, w₁⟩, hload, hrest⟩ := bind_eq_ok.mp hrun
    have hl : (stampRule P s.graph rule s.world).links = s.graph.links :=
      Graph.links_setTimestamp _ _ _
    have hr₁ : rule ∈ (stampRule P s.graph rule s.world).rules := Graph.rules_of_links hl ▸ hr
    have hloaded := hstamp.snoc (.load hr₁ hload)
    cases loaded with
    | false =>
        simp only [Bool.not_false, if_true, except_pure, Except.ok.injEq, Prod.mk.injEq] at hrest
        rw [← hrest.2.2]
        exact hloaded
    | true =>
        simp only [Bool.not_true, Bool.false_eq_true, if_false] at hrest
        obtain ⟨w₂, -, hrest⟩ := bind_eq_ok.mp hrest
        obtain ⟨s₁, hfinish, hpure⟩ := bind_eq_ok.mp hrest
        obtain ⟨g₂, hgraph, hplan⟩ := bind_eq_ok.mp hfinish
        obtain ⟨p, -, hplan⟩ := bind_eq_ok.mp hplan
        simp only [except_pure, Except.ok.injEq, Prod.mk.injEq] at hpure
        rw [← hpure.2.2, ← Except.ok.inj hplan]
        have hedits := Builder.loadDepfile_edits (hg.of_links hl) hr₁ hload
        have hr₂ : rule ∈ g₁.rules := Graph.rules_of_edits hedits ▸ hr₁
        exact (hloaded.snoc (.change _ w₂)).snoc (.finish hr₂ hgraph)

/-- `buildRule`, for a phony rule, after a hit in the cache, and after a miss. -/
theorem reaches_buildRule {s s' : Builder ω} {rule : RuleId} {evs : List BuildEvent}
    (hr : rule ∈ s.graph.rules) (hrun : Builder.buildRule P s rule = .ok (evs, s'))
    (content : NodeId → Option String) :
    ∃ written', Reaches P C missing s.graph s.world written s'.graph s'.world written' ∧
      (written' = written ∨
        written' = wrote ⟨⟨s.graph, s.world, missing⟩, written⟩ rule content) := by
  have hstart : Reaches P C missing s.graph s.world written s.graph s.world written := .refl _ _ _
  rw [Builder.buildRule] at hrun
  split at hrun
  · obtain ⟨s₁, hfinish, hpure⟩ := bind_eq_ok.mp hrun
    obtain ⟨g₁, hgraph, hplan⟩ := bind_eq_ok.mp hfinish
    obtain ⟨p, -, hplan⟩ := bind_eq_ok.mp hplan
    simp only [except_pure, Except.ok.injEq, Prod.mk.injEq] at hpure
    rw [← hpure.2, ← Except.ok.inj hplan]
    exact ⟨_, hstart.snoc (.finish hr hgraph), Or.inl rfl⟩
  · obtain ⟨⟨hit, w₁⟩, -, hrest⟩ := bind_eq_ok.mp hrun
    cases hit with
    | true =>
        obtain ⟨s₁, hfinish, hpure⟩ := bind_eq_ok.mp hrest
        obtain ⟨g₁, hgraph, hplan⟩ := bind_eq_ok.mp hfinish
        obtain ⟨p, -, hplan⟩ := bind_eq_ok.mp hplan
        simp only [except_pure, Except.ok.injEq, Prod.mk.injEq] at hpure
        rw [← hpure.2, ← Except.ok.inj hplan]
        exact ⟨_, (hstart.snoc (.stamp _ rule w₁ true content)).snoc (.finish hr hgraph),
          Or.inr rfl⟩
    | false =>
        obtain ⟨-, -, hpure⟩ := bind_eq_ok.mp hrest
        simp only [except_pure, Except.ok.injEq, Prod.mk.injEq] at hpure
        rw [← hpure.2]
        exact ⟨_, hstart.snoc (.change _ w₁), Or.inl rfl⟩

/-- The traversal of the lazy cache. -/
theorem reaches_traverseNode {fuel : ℕ} {n : NodeId}
    (hrun : LazyCache.traverseNode P fuel (g, w) n = .ok (g', w')) :
    ∃ written', Reaches P C missing g w written g' w' written' := by
  refine LazyCache.traverseNode_invariant (fun s ↦ ∃ written',
    Reaches P C missing g w written s.1 s.2 written') ?_ ?_ hrun ⟨_, .refl g w written⟩
  · rintro k v m r v' ⟨written', h⟩ - - - -
    exact ⟨written', h.snoc (.change _ v')⟩
  · rintro k v m r v' k' ⟨written', h⟩ - - - - hmark
    have hfetch : Step P C ⟨⟨k, v, missing⟩, written'⟩
        (.fetch m v' (P.readFile v' (k.node m).path)) _ := .fetch hmark
    exact ⟨_, h.snoc hfetch⟩

end Reaches

/-! ## An object file -/

/-- `parse.o` with the given content and modification time; the other files of
`builtGraph` are empty and old. -/
def objectDisk (content : Option String) (time clock : Timestamp) : Disk where
  files path := if path = "parse.o" then content else some ""
  mtimes path := if path = "parse.o" then time else 0
  entries _ := none
  clock := clock

def diskConfig : DaemonConfig Disk := ⟨"falcon.json", fun d ↦ .ok d⟩

/-- Everything is built, and `parse.o` is old. -/
def objectHistory : History Disk where
  daemon := ⟨builtGraph, objectDisk (some "obj") 0 99, ∅⟩
  written n := (objectDisk (some "obj") 0 99).files (builtGraph.node n).path

theorem starts_objectHistory : Starts touchHost.platform objectHistory := by
  have hjoined : builtGraph.Joined :=
    ⟨consistent_builtGraph.twoWay, consistent_builtGraph.allocated, consistent_builtGraph.nodes⟩
  exact ⟨hjoined.wired, fun _ _ _ _ ↦ rfl⟩

/-- An editor overwrites `parse.o` at a later time. -/
theorem external_changes_seen_later :
    ∃ h, Trace (fun h e h' ↦ Step touchHost.platform diskConfig h e h' ∧
        Meets touchHost.platform h e h') objectHistory
          [.change (objectDisk (some "bad") 100 100)] h ∧
      ChangesSeen touchHost.platform diskConfig h := by
  have hmeets : Noticeable touchHost.platform objectHistory (objectDisk (some "bad") 100 100) := by
    rintro r (_ | _ | _ | _ | _ | n) ⟨hn, hphony⟩ -
    · cases hn
    · exact Or.inl ⟨rfl, rfl⟩
    · exact Or.inl ⟨rfl, rfl⟩
    · obtain rfl : 1 = r := Option.some.inj hn
      exact Or.inr (Or.inr rfl)
    · obtain rfl : 2 = r := Option.some.inj hn
      cases hphony
    · cases hn
  have hrun : Trace (fun h e h' ↦ Step touchHost.platform diskConfig h e h' ∧
      Meets touchHost.platform h e h') objectHistory
        [.change (objectDisk (some "bad") 100 100)] _ :=
    .single ⟨.change objectHistory _, hmeets⟩
  exact ⟨_, hrun, external_changes_seen starts_objectHistory hrun⟩

/-- `parse.o` is deleted and built again; within the second an editor
overwrites it.  The daemon takes the change for its own. -/
theorem not_external_changes_seen :
    ¬ ∀ events h, Trace (Step touchHost.platform diskConfig) objectHistory events h →
      ChangesSeen touchHost.platform diskConfig h := by
  have hall : (do
      let d₁ ← Daemon.setDirty touchHost.platform diskConfig 8
        ⟨builtGraph, objectDisk none 0 99, ∅⟩ "parse.o"
      let g₂ ← Graph.finishRule
        (stampRule touchHost.platform d₁.graph 1 (objectDisk (some "obj") 100 100)) 1
      let d₃ ← Daemon.setDirty touchHost.platform diskConfig 8
        ⟨g₂, objectDisk (some "bad") 100 100, d₁.sourcesMissing⟩ "parse.o"
      pure (decide ((1 ∈ d₁.graph.rules ∧ (d₁.graph.node 3).childRule = some 1) ∧
        g₂.nodes.lookup "parse.o" = some 3 ∧ ((g₂.node 3).childRule = some 1 ∧
          (g₂.rule 1).isPhony = false) ∧ (d₃.graph.node 3).isDirty = false ∧
          d₃.world.files (d₃.graph.node 3).path = some "bad")) : Outcome Bool) = .ok true := by
    rfl
  obtain ⟨d₁, hrun₁, hall⟩ := bind_eq_ok.mp hall
  obtain ⟨g₂, hrun₂, hall⟩ := bind_eq_ok.mp hall
  obtain ⟨d₃, hrun₃, hall⟩ := bind_eq_ok.mp hall
  obtain ⟨⟨hr, hchild⟩, hlookup, hmakes, hclean, hcontent⟩ :=
    of_decide_eq_true (Except.ok.inj hall)
  intro hseen
  have hne : "parse.o" ≠ diskConfig.jsonGraphFile := by decide
  have hstart : Trace (Step touchHost.platform diskConfig) objectHistory [] objectHistory := .nil
  have hdeleted := hstart.snoc (.change _ (objectDisk none 0 99))
  have hnotified := hdeleted.snoc (.notify hne hrun₁)
  have hstamped := hnotified.snoc
    (.stamp _ 1 (objectDisk (some "obj") 100 100) true fun _ ↦ some "obj")
  have hfinished := hstamped.snoc (.finish hr hrun₂)
  have hchanged := hfinished.snoc (.change _ (objectDisk (some "bad") 100 100))
  have hsame := hseen _ _ hchanged 8 "parse.o" 1 3 d₃ hne hlookup hmakes hrun₃ hclean
  have hwrote : (if (d₁.graph.node 3).childRule = some 1 then some "obj" else _) = some "bad" :=
    hsame.symm.trans hcontent
  rw [if_pos hchild] at hwrote
  exact absurd hwrote (by decide)

end History

end Falcon
