import Falcon.Parser.WellFormed

/-!
# The check for cycles

`checkGraphLoop` goes down from every root and keeps the paths of the nodes on
the way in a stack.  It finds the cycles that lie below a root.
-/

namespace Falcon

open Relation

/-- The exception is thrown again with the path of one more node. -/
def forwardLoop (path : String) : Outcome Unit → Outcome Unit
  | .error (.exception message) => .error (.exception (message ++ "\n |   " ++ path))
  | x => x

def isCycle (g : Graph) : ℕ → Finset String → NodeId → Outcome Unit
  | 0, _, _ => .error .outOfFuel
  | fuel + 1, stack, n =>
    if (g.node n).path ∈ stack then
      .error (.exception ("LOOP DETECTED IN GRAPH\n +-> " ++ (g.node n).path))
    else
      match (g.node n).childRule with
      | none => pure ()
      | some child => (g.rule child).inputs.forM fun m ↦
        forwardLoop (g.node n).path (isCycle g fuel (insert (g.node n).path stack) m)

def checkGraphLoop (g : Graph) : Outcome Unit :=
  (g.roots.sort (· ≤ ·)).forM (isCycle g g.depth ∅)

theorem forwardLoop_eq_ok {path : String} {x : Outcome Unit} :
    forwardLoop path x = .ok () ↔ x = .ok () := by
  rcases x with (_ | _ | _ | _ | _) | _ <;> simp [forwardLoop]

theorem forwardLoop_eq_exception {path message : String} {x : Outcome Unit}
    (h : forwardLoop path x = .error (.exception message)) :
    ∃ message', x = .error (.exception message') := by
  cases x with
  | ok u => cases h
  | error e =>
      cases e with
      | exception m => exact ⟨m, rfl⟩
      | outOfFuel | assertion | nullDereference | heapOverflow => cases h

/-- The call returns, or reports a loop. -/
def Decided (x : Outcome Unit) : Prop := x = .ok () ∨ ∃ message, x = .error (.exception message)

theorem Decided.forward {x : Outcome Unit} (h : Decided x) (path : String) :
    Decided (forwardLoop path x) := by
  rcases h with rfl | ⟨message, rfl⟩
  · exact Or.inl rfl
  · exact Or.inr ⟨_, rfl⟩

theorem Decided.forM {f : NodeId → Outcome Unit} {l : List NodeId} (h : ∀ n ∈ l, Decided (f n)) :
    Decided (l.forM f) := by
  cases hrun : l.forM f with
  | ok u => exact Or.inl rfl
  | error e =>
      obtain ⟨n, hn, hf⟩ := Lib.forM_eq_error hrun
      rcases h n hn with hok | ⟨message, hex⟩
      · rw [hok] at hf
        cases hf
      · rw [hex] at hf
        exact Or.inr ⟨message, by rw [← Except.error.inj hf]⟩

namespace Graph

variable {g : Graph}

/-- Some node depends on itself. -/
def Cyclic (g : Graph) : Prop := ∃ n, TransGen g.links.Feeds n n

/-- The targets `T` below `n` that are not on the way down yet bound the depth. -/
theorem isCycle_decided {T : Finset NodeId} {fuel : ℕ} {stack : Finset String} {n : NodeId}
    (hT : ∀ m, ReflTransGen g.links.Feeds m n → (g.node m).childRule ≠ none → m ∈ T)
    (hfuel : (T.filter fun m ↦ (g.node m).path ∉ stack).card < fuel) :
    Decided (isCycle g fuel stack n) := by
  induction fuel generalizing stack n with
  | zero => omega
  | succ fuel ih =>
      rw [isCycle]
      split
      · exact Or.inr ⟨_, rfl⟩
      · rename_i hstack
        cases hc : (g.node n).childRule with
        | none => exact Or.inl rfl
        | some r =>
            refine Decided.forM fun k hk ↦ (ih (fun m hm ↦ hT m ?_) ?_).forward _
            · exact hm.tail ⟨r, hc, hk⟩
            have hn : n ∈ T := hT n .refl (by simp [hc])
            have hlt : (T.filter fun m ↦ (g.node m).path ∉ insert (g.node n).path stack).card <
                (T.filter fun m ↦ (g.node m).path ∉ stack).card := by
              apply Finset.card_lt_card
              refine Finset.ssubset_iff_subset_ne.mpr ⟨fun m hm ↦ ?_, fun heq ↦ ?_⟩
              · simp only [Finset.mem_filter, Finset.mem_insert, not_or] at hm ⊢
                exact ⟨hm.1, hm.2.2⟩
              · have hmem : n ∈ T.filter fun m ↦ (g.node m).path ∉ stack :=
                  Finset.mem_filter.mpr ⟨hn, hstack⟩
                rw [← heq] at hmem
                simp at hmem
            omega

/-- If the call returns, no node below `n` is on the stack, and none lies on a
cycle. -/
theorem isCycle_ok {fuel : ℕ} {stack : Finset String} {n : NodeId}
    (hrun : isCycle g fuel stack n = .ok ()) {m : NodeId}
    (hm : ReflTransGen g.links.Feeds m n) :
    (g.node m).path ∉ stack ∧ ¬ TransGen g.links.Feeds m m := by
  induction fuel generalizing stack n m with
  | zero => cases hrun
  | succ fuel ih =>
      rw [isCycle] at hrun
      split at hrun
      · cases hrun
      · rename_i hstack
        have hbelow : ∀ k, g.links.Feeds k n →
            isCycle g fuel (insert (g.node n).path stack) k = .ok () := by
          rintro k ⟨r, hr, hk⟩
          have hr' : (g.node n).childRule = some r := hr
          simp only [hr'] at hrun
          exact forwardLoop_eq_ok.mp (Lib.forM_eq_ok.mp hrun k hk)
        rcases ReflTransGen.cases_tail hm with heq | ⟨k, hmk, hk⟩
        · rw [← heq]
          refine ⟨hstack, fun hcycle ↦ ?_⟩
          obtain ⟨k, hnk, hk⟩ := TransGen.tail'_iff.mp hcycle
          exact (ih (hbelow k hk) hnk).1 (Finset.mem_insert_self _ _)
        · obtain ⟨hnot, hno⟩ := ih (hbelow k hk) hmk
          exact ⟨fun hmem ↦ hnot (Finset.mem_insert_of_mem hmem), hno⟩

/-- A reported loop is a node of the stack below `n`, or a cycle below `n`. -/
theorem isCycle_exception {fuel : ℕ} {stack : Finset String} {n : NodeId} {message : String}
    (hpaths : ∀ k, ReflTransGen g.links.Feeds k n → ∀ m, TransGen g.links.Feeds m k →
      (g.node m).path = (g.node k).path → m = k)
    (hrun : isCycle g fuel stack n = .error (.exception message)) :
    ∃ m, ReflTransGen g.links.Feeds m n ∧
      ((g.node m).path ∈ stack ∨ TransGen g.links.Feeds m m) := by
  induction fuel generalizing stack n message with
  | zero => cases hrun
  | succ fuel ih =>
      rw [isCycle] at hrun
      split at hrun
      · rename_i hstack
        exact ⟨n, .refl, Or.inl hstack⟩
      · cases hc : (g.node n).childRule with
        | none =>
            rw [hc] at hrun
            cases hrun
        | some r =>
            simp only [hc] at hrun
            obtain ⟨k, hk, hforward⟩ := Lib.forM_eq_error hrun
            obtain ⟨message', hrec⟩ := forwardLoop_eq_exception hforward
            have hfeeds : g.links.Feeds k n := ⟨r, hc, hk⟩
            obtain ⟨m, hmk, hcase⟩ := ih (fun k' hk' ↦ hpaths k' (hk'.tail hfeeds)) hrec
            have hmn : TransGen g.links.Feeds m n := TransGen.tail' hmk hfeeds
            refine ⟨m, hmn.to_reflTransGen, ?_⟩
            rcases hcase with hmem | hcycle
            · rcases Finset.mem_insert.mp hmem with hpath | hmem
              · -- The path on the stack is that of `n` itself.
                obtain rfl : m = n := hpaths n .refl m hmn hpath
                exact Or.inr hmn
              · exact Or.inl hmem
            · exact Or.inr hcycle

end Graph

/-- Two nodes on a way through an accepted graph have different paths. -/
theorem GraphParser.Accepted.feeds_path_injective {g : Graph} (hg : GraphParser.Accepted g)
    {k m : NodeId} (hmk : TransGen g.links.Feeds m k) (heq : (g.node m).path = (g.node k).path) :
    m = k := by
  obtain ⟨x, ⟨q, hq, hmq⟩, -⟩ := TransGen.head'_iff.mp hmk
  have hrules : q ∈ g.links.rules := ((hg.twoWay.child_eq_some x q).mp hq).1
  have hparent : (g.node m).parentRules ≠ [] :=
    List.ne_nil_of_mem ((hg.twoWay.mem_parents m q).mpr ⟨hrules, hmq⟩)
  obtain ⟨y, -, r, hr, -⟩ := TransGen.tail'_iff.mp hmk
  have hchild : (g.node k).childRule ≠ none := by
    change (g.node k).childRule = some r at hr
    simp [hr]
  exact hg.path_injective m k (Or.inl hparent) (Or.inr hchild) heq

theorem checkGraphLoop_decided {g : Graph} (hg : GraphParser.Accepted g) :
    Decided (checkGraphLoop g) := by
  refine Decided.forM fun n _ ↦ Graph.isCycle_decided (T := g.links.targets) (fun m _ hm ↦ ?_) ?_
  · obtain ⟨r, hr⟩ := Option.ne_none_iff_exists'.mp hm
    obtain ⟨hrules, hout⟩ := (hg.twoWay.child_eq_some m r).mp hr
    exact List.mem_toFinset.mpr (List.mem_flatMap.mpr ⟨r, hrules, hout⟩)
  have hle : (g.links.targets.filter fun m ↦ (g.node m).path ∉ (∅ : Finset String)).card ≤
      (g.links.rules.flatMap g.links.outputs).length :=
    (Finset.card_filter_le _ _).trans (List.toFinset_card_le _)
  exact hle.trans_lt (Nat.lt_add_of_pos_right (by decide))

/-- The check throws for a cycle below a root. -/
theorem checkGraphLoop_throws {g : Graph} (hg : GraphParser.Accepted g) :
    (∃ message, checkGraphLoop g = .error (.exception message)) ↔
      ∃ n ∈ g.allocated, (g.node n).parentRules = [] ∧
        ∃ m, ReflTransGen g.links.Feeds m n ∧ TransGen g.links.Feeds m m := by
  constructor
  · rintro ⟨message, hthrow⟩
    obtain ⟨n, hn, hcycle⟩ := Lib.forM_eq_error hthrow
    obtain ⟨hallocated, hroot⟩ := (hg.roots n).mp ((Finset.mem_sort _).mp hn)
    obtain ⟨m, hmn, hmem | hm⟩ :=
      Graph.isCycle_exception (fun _ _ _ ↦ hg.feeds_path_injective) hcycle
    · exact absurd hmem (Finset.notMem_empty _)
    · exact ⟨n, hallocated, hroot, m, hmn, hm⟩
  · rintro ⟨n, hallocated, hroot, m, hmn, hm⟩
    refine (checkGraphLoop_decided hg).resolve_left fun hok ↦ ?_
    have hn := (Finset.mem_sort (· ≤ ·)).mpr ((hg.roots n).mpr ⟨hallocated, hroot⟩)
    exact (Graph.isCycle_ok (Lib.forM_eq_ok.mp hok n hn) hmn).2 hm

theorem checkGraphLoop_of_acyclic {g : Graph} (hg : GraphParser.Accepted g)
    (hac : g.links.Acyclic) : checkGraphLoop g = .ok () := by
  apply (checkGraphLoop_decided hg).resolve_right
  intro hthrow
  obtain ⟨n, -, -, m, -, hm⟩ := (checkGraphLoop_throws hg).mp hthrow
  exact hac m hm

/-- Targets that are made after the inputs of their rules cannot be on a cycle. -/
theorem checkGraphLoop_of_lt {A : Allocator} {graphFilePath : String} {rules : List JsonVal}
    {g : Graph} (hrun : GraphParser.processJson A graphFilePath rules = .ok g)
    (hlt : ∀ r ∈ g.rules, ∀ a ∈ (g.rule r).inputs, ∀ o ∈ (g.rule r).outputs, a < o) :
    checkGraphLoop g = .ok () := by
  have haccepted := GraphParser.processJson_accepted hrun
  apply checkGraphLoop_of_acyclic haccepted
  apply Lib.acyclic_of_rank id
  rintro a n ⟨r, hn, ha⟩
  obtain ⟨hr, hout⟩ := (haccepted.twoWay.child_eq_some n r).mp hn
  exact hlt r hr a ha n hout

/-- The check returns or throws, and it throws just for the cyclic graphs if
every cyclic graph has a cycle below a node without parents. -/
theorem checkGraphLoop_throws_iff {A : Allocator} {graphFilePath : String} {rules : List JsonVal}
    {g : Graph} (hrun : GraphParser.processJson A graphFilePath rules = .ok g) :
    Decided (checkGraphLoop g) ∧
      (((∃ message, checkGraphLoop g = .error (.exception message)) ↔ g.Cyclic) ↔
        (g.Cyclic → ∃ n ∈ g.allocated, (g.node n).parentRules = [] ∧
          ∃ m, ReflTransGen g.links.Feeds m n ∧ TransGen g.links.Feeds m m)) := by
  have hg := GraphParser.processJson_accepted hrun
  have hthrows := checkGraphLoop_throws hg
  refine ⟨checkGraphLoop_decided hg, ⟨fun hiff hcyclic ↦ hthrows.mp (hiff.mpr hcyclic),
    fun hroot ↦ ?_⟩⟩
  constructor
  · intro hthrow
    obtain ⟨n, -, -, m, -, hm⟩ := hthrows.mp hthrow
    exact ⟨m, hm⟩
  · exact fun hcyclic ↦ hthrows.mpr (hroot hcyclic)

/-! ## The stack -/

/-- A failure on the way back through `isCycle`. -/
def forwardFault (path : String) : Fault → Fault
  | .exception message => .exception (message ++ "\n |   " ++ path)
  | f => f

/-- `isCycle` with the set that all its calls share, as a call leaves it. -/
def isCycleOn (g : Graph) : ℕ → Finset String → NodeId → Outcome (Finset String)
  | 0, _, _ => .error .outOfFuel
  | fuel + 1, stack, n =>
    if (g.node n).path ∈ stack then
      .error (.exception ("LOOP DETECTED IN GRAPH\n +-> " ++ (g.node n).path))
    else
      match (g.node n).childRule with
      | none => pure stack
      | some child => do
        let stack ← (g.rule child).inputs.foldlM (fun stack m ↦
          (isCycleOn g fuel stack m).mapError (forwardFault (g.node n).path))
          (insert (g.node n).path stack)
        pure (stack.erase (g.node n).path)

theorem forwardLoop_eq (path : String) (x : Outcome Unit) :
    forwardLoop path x = x.mapError (forwardFault path) := by
  rcases x with (_ | _ | _ | _) | _ <;> rfl

/-- A call that returns has restored the stack. -/
theorem isCycleOn_eq (g : Graph) (fuel : ℕ) (stack : Finset String) (n : NodeId) :
    isCycleOn g fuel stack n = (isCycle g fuel stack n).map fun _ ↦ stack := by
  induction fuel generalizing stack n with
  | zero => rfl
  | succ fuel ih =>
      rw [isCycleOn, isCycle]
      split
      · rfl
      rename_i hstack
      cases (g.node n).childRule with
      | none => rfl
      | some r =>
          -- the loop over the inputs leaves the stack as it was at its start
          have hloop : ∀ (l : List NodeId) (visited : Finset String),
              l.foldlM (fun stack m ↦
                (isCycleOn g fuel stack m).mapError (forwardFault (g.node n).path)) visited =
              (l.forM fun m ↦ forwardLoop (g.node n).path (isCycle g fuel visited m)).map
                fun _ ↦ visited := by
            intro l visited
            induction l with
            | nil => rfl
            | cons m l ihl =>
                change _ = Except.map _ (forwardLoop (g.node n).path (isCycle g fuel visited m) >>=
                  fun _ ↦ l.forM fun m ↦ forwardLoop (g.node n).path (isCycle g fuel visited m))
                rw [List.foldlM_cons, ih, forwardLoop_eq]
                cases isCycle g fuel visited m with
                | error f => rfl
                | ok u => exact ihl
          simp only [hloop]
          cases (g.rule r).inputs.forM fun m ↦ forwardLoop (g.node n).path
              (isCycle g fuel (insert (g.node n).path stack) m) with
          | error f => rfl
          | ok u =>
              change Except.ok _ = Except.ok _
              rw [Finset.erase_insert hstack]

/-- The search from a node of a finite graph ends.  It throws just if a cycle can
be reached from the node, and leaves the stack empty if it does not. -/
theorem isCycleOn_exact {g : Graph}
    (hpaths : ∀ m ∈ g.allocated, ∀ n ∈ g.allocated, (g.node m).path = (g.node n).path → m = n)
    (hinputs : ∀ n ∈ g.allocated, ∀ r, (g.node n).childRule = some r →
      ∀ m ∈ (g.rule r).inputs, m ∈ g.allocated)
    {n : NodeId} (hn : n ∈ g.allocated) {fuel : ℕ} (hfuel : g.allocated.card < fuel) :
    (isCycleOn g fuel ∅ n = .ok ∅ ∨
        ∃ message, isCycleOn g fuel ∅ n = .error (.exception message)) ∧
      ((∃ message, isCycleOn g fuel ∅ n = .error (.exception message)) ↔
        ∃ m, ReflTransGen g.links.Feeds m n ∧ TransGen g.links.Feeds m m) := by
  have hbelow : ∀ m k, ReflTransGen g.links.Feeds m k → k ∈ g.allocated → m ∈ g.allocated := by
    intro m k hmk hk
    induction hmk using ReflTransGen.head_induction_on with
    | refl => exact hk
    | head hstep _ ih =>
        obtain ⟨r, hr, hin⟩ := hstep
        exact hinputs _ ih r hr _ hin
  have hdecided : Decided (isCycle g fuel ∅ n) :=
    Graph.isCycle_decided (fun m hm _ ↦ hbelow m n hm hn)
      ((Finset.card_filter_le _ _).trans_lt hfuel)
  have hthrows : (∃ message, isCycleOn g fuel ∅ n = .error (.exception message)) ↔
      ∃ message, isCycle g fuel ∅ n = .error (.exception message) := by
    rw [isCycleOn_eq]
    rcases hdecided with hok | ⟨message, hthrow⟩
    · simp [hok, Except.map]
    · simp [hthrow, Except.map]
  refine ⟨?_, hthrows.trans ⟨?_, ?_⟩⟩
  · refine hdecided.imp (fun hok ↦ ?_) fun hthrow ↦ hthrows.mpr hthrow
    rw [isCycleOn_eq, hok]
    rfl
  · rintro ⟨message, hthrow⟩
    obtain ⟨m, hmn, hmem | hm⟩ := Graph.isCycle_exception (fun k hk m hmk ↦
      have hk' := hbelow k n hk hn
      hpaths m (hbelow m k hmk.to_reflTransGen hk') k hk') hthrow
    · exact absurd hmem (Finset.notMem_empty _)
    · exact ⟨m, hmn, hm⟩
  · rintro ⟨m, hmn, hm⟩
    exact hdecided.resolve_left fun hok ↦ (Graph.isCycle_ok hok hmn).2 hm

/-- Two files that are made from each other. -/
def pairGraph : Graph :=
  { Graph.empty with
    node := fun n ↦ if n = 1 then { Node.create "a" true false with childRule := some 1 }
      else { Node.create "b" true false with childRule := some 2 }
    rule := fun r ↦ if r = 1 then Rule.create [2] [1] else Rule.create [1] [2]
    nodes := [("a", 1), ("b", 2)]
    rules := [1, 2]
    allocated := {1, 2} }

theorem isCycleOn_pairGraph :
    ∃ message, isCycleOn pairGraph 3 ∅ 1 = .error (.exception message) := by
  refine (isCycleOn_exact (g := pairGraph) (by decide) ?_ (by decide) (by decide)).2.mpr
    ⟨1, .refl, ?_⟩
  · intro n hn r hr
    obtain rfl | rfl : n = 1 ∨ n = 2 := by simpa [pairGraph] using hn
    · cases hr
      decide
    · cases hr
      decide
  · exact .head (b := 2) ⟨2, rfl, by decide⟩ (.single ⟨1, rfl, by decide⟩)

/-! ## Rules with one input and one output -/

/-- Addresses in ascending order. -/
def bumpAllocator : Allocator where
  newNode used := used.sup id + 1
  newNode_fresh := fresh_above
  uninitialised _ := false
  newRule used := used.foldr max 0 + 1
  newRule_fresh used h := by
    have hle : ∀ l : List RuleId, ∀ r ∈ l, r ≤ l.foldr max 0 := by
      intro l
      induction l with
      | nil => simp
      | cons a l ih =>
          intro r hr
          rcases List.mem_cons.mp hr with rfl | hr
          · exact le_max_left _ _
          · exact (ih r hr).trans (le_max_right _ _)
    exact Nat.not_succ_le_self _ (hle used _ h)

def touchRule (input output : String) : JsonVal :=
  .object [("inputs", .array [.string input]), ("outputs", .array [.string output]),
    ("cmd", .string ("touch " ++ output))]

theorem checkNode_singleton (A : Allocator) (g : Graph) (path : String) :
    GraphParser.checkNode A g (some (.array [.string path])) =
      match g.nodes.lookup path with
      | some n => .ok ([n], g)
      | none => .ok ([A.newNode g.allocated], GraphParser.addPath A g path) := by
  simp only [GraphParser.checkNode, JsonVal.elements, List.foldlM_cons, List.foldlM_nil,
    GraphParser.checkPath]
  cases g.nodes.lookup path with
  | some n => simp
  | none => simp

theorem processRule_touch (A : Allocator) (g : Graph) (input output : String) :
    GraphParser.processRule A g (touchRule input output) = (do
      let (inputs, g) ← GraphParser.checkNode A g (some (.array [.string input]))
      let (outputs, g) ← GraphParser.checkNode A g (some (.array [.string output]))
      GraphParser.addRule A g inputs outputs ("touch " ++ output) "") := rfl

/-- The node that the new path gets first. -/
theorem processRule_touch_empty (input output : String) :
    GraphParser.processRule bumpAllocator Graph.empty (touchRule input output) = (do
      let (outputs, g) ← GraphParser.checkNode bumpAllocator
        (GraphParser.addPath bumpAllocator Graph.empty input) (some (.array [.string output]))
      GraphParser.addRule bumpAllocator g [1] outputs ("touch " ++ output) "") := by
  rw [processRule_touch, checkNode_singleton]
  rfl

/-- A file that is made from another one. -/
theorem no_loop_of_touch :
    ∃ g, GraphParser.processJson bumpAllocator "falcon.json" [touchRule "a" "b"] = .ok g ∧
      Decided (checkGraphLoop g) := by
  have hok : (GraphParser.processRule bumpAllocator Graph.empty (touchRule "a" "b")).isOk =
      true := by
    rw [processRule_touch_empty, checkNode_singleton]
    rfl
  cases hrule : GraphParser.processRule bumpAllocator Graph.empty (touchRule "a" "b") with
  | error f =>
      rw [hrule] at hok
      cases hok
  | ok g =>
      have hrun : GraphParser.processJson bumpAllocator "falcon.json" [touchRule "a" "b"] =
          .ok (GraphParser.generateMandatoryNodes bumpAllocator "falcon.json" g) := by
        simp [GraphParser.processJson, hrule]
      exact ⟨_, hrun, (checkGraphLoop_throws_iff hrun).1⟩

/-- A file that is made from itself is no root, and the check does not see it. -/
theorem self_loop_accepted :
    ∃ g, GraphParser.processJson bumpAllocator "falcon.json" [touchRule "a" "a"] = .ok g ∧
      checkGraphLoop g = .ok () ∧ g.Cyclic := by
  have hrule : GraphParser.processRule bumpAllocator Graph.empty (touchRule "a" "a") =
      GraphParser.addRule bumpAllocator (GraphParser.addPath bumpAllocator Graph.empty "a") [1] [1]
        "touch a" "" := by
    rw [processRule_touch_empty, checkNode_singleton]
    rfl
  cases hadd : GraphParser.addRule bumpAllocator (GraphParser.addPath bumpAllocator Graph.empty "a")
      [1] [1] "touch a" "" with
  | error f =>
      have hok : (GraphParser.addRule bumpAllocator
        (GraphParser.addPath bumpAllocator Graph.empty "a") [1] [1] "touch a" "").isOk = true := rfl
      rw [hadd] at hok
      cases hok
  | ok g =>
      have hspec := GraphParser.addRule_spec (List.nodup_singleton 1) (List.nodup_singleton 1) hadd
      have hallocated : g.allocated = {1} := hspec.allocated
      have hnew : bumpAllocator.newNode g.allocated = 2 := by
        rw [hallocated]
        rfl
      have hchild : (g.node 1).childRule = some 1 := hspec.child 1
      have hinputs : (g.rule 1).inputs = [1] := hspec.inputs 1
      have hroots : insert 2 g.roots = {2} := by
        rw [hspec.roots]
        rfl
      refine ⟨GraphParser.generateMandatoryNodes bumpAllocator "falcon.json" g, ?_, ?_, ?_⟩
      · simp [GraphParser.processJson, hrule, hadd]
      · have hmake : ((GraphParser.generateMandatoryNodes bumpAllocator "falcon.json" g).node
            2).childRule = none := by
          change ((g.setNode (bumpAllocator.newNode g.allocated) _).node 2).childRule = none
          rw [hnew, Graph.setNode_node, if_pos rfl]
          rfl
        rw [checkGraphLoop]
        change ((insert (bumpAllocator.newNode g.allocated) g.roots).sort (· ≤ ·)).forM _ = _
        rw [hnew, hroots, Finset.sort_singleton]
        refine Lib.forM_eq_ok.mpr fun n hn ↦ ?_
        rw [List.mem_singleton.mp hn, Graph.depth, isCycle, if_neg (Finset.notMem_empty _), hmake]
        rfl
      · refine ⟨1, TransGen.single ⟨1, ?_, ?_⟩⟩
        · change ((g.setNode (bumpAllocator.newNode g.allocated) _).node 1).childRule = some 1
          rw [hnew, Graph.setNode_node, if_neg (by decide)]
          exact hchild
        · change (1 : NodeId) ∈ (g.rule 1).inputs
          rw [hinputs]
          exact List.mem_singleton_self 1

end Falcon
