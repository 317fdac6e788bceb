import Falcon.Daemon.Merging

/-!
# Putting a rule together again

A rule `r` is turned into the rule `q` of the new graph: it gets the inputs,
the outputs and the command of `q`, and keeps its implicit inputs unless the
name of the depfile has changed.
-/

namespace Falcon

open Relation Lib

namespace GraphReloader

variable {ω : Type} {P : Platform ω} {A : Allocator} {w : ω} {g new k k' : Graph}
  {s s' s₀ : Reload} {n m : NodeId} {r q : RuleId} {path : String} {O : Opened}
  {l l' I : List NodeId}

/-- A step that concerns the rule `r` and the nodes that hang loose on it. -/
theorem Merging.remake (h : Merging P w g new (openRule O r q l) s)
    (hwoven : k'.Woven (loose (openRule O r q l')))
    (hnode : ∀ n, (k'.node n).path = (s.graph.node n).path ∧
      (k'.node n).childRule = (s.graph.node n).childRule)
    (hself : (k'.rule r).outputs = (s.graph.rule r).outputs)
    (hrule : ∀ p, p ≠ r → k'.rule p = s.graph.rule p) (hrules : k'.rules = s.graph.rules)
    (hallocated : k'.allocated = s.graph.allocated) :
    Merging P w g new (openRule O r q l') { s with graph := k' } := by
  have hpaths : ∀ l, k'.paths l = s.graph.paths l :=
    fun l ↦ Graph.paths_congr fun n _ ↦ (hnode n).1
  apply h.frame hwoven
  · exact fun n hn ↦ ⟨hallocated ▸ hn, (hnode n).1⟩
  · exact fun n _ ↦ (hnode n).2
  · exact fun n hn hno ↦ absurd (hallocated ▸ hn) hno
  · intro p q' l₁ ho
    change p ∈ k'.rules ∧ q' ∈ new.rules ∧ ∀ path ∈ k'.paths (k'.rule p).outputs, _
    rw [hrules, hpaths]
    by_cases hp : p = r
    · subst hp
      obtain ⟨rfl, -⟩ := Prod.mk.inj (Option.some.inj (openRule_self.symm.trans ho))
      rw [hself]
      exact h.opened p q l openRule_self
    · rw [openRule_ne hp] at ho
      rw [hrule p hp]
      exact h.opened p q' l₁ ((openRule_ne hp).trans ho)
  · intro p hp ho
    by_cases heq : p = r
    · rw [heq, openRule_self] at ho
      cases ho
    · refine ⟨hrules ▸ hp, ?_, ?_⟩
      · rw [openRule_ne heq] at ho ⊢
        exact ho
      · change (k'.rule p).inputs = _ ∧ _ ∧ _
        rw [hrule p heq]
        exact ⟨rfl, rfl, Or.inl rfl⟩
  · rfl
  · exact fun e he ↦ he
  · exact fun e he ↦ Or.inl he

/-! ## The inputs -/

theorem getNode_cases (P : Platform ω) (new : Graph) (s : Reload) (source : List NodeId)
    (m : NodeId) :
    (∃ n ∈ source, (s.graph.node n).path = (new.node m).path ∧
      getNode P new s source m = ⟨n, true, source.erase n,
        { s with originalNodes := eraseKey s.originalNodes (s.graph.node n).path }⟩) ∨
    ((∀ n ∈ source, (s.graph.node n).path ≠ (new.node m).path) ∧
      getNode P new s source m =
        ⟨(getNodeFromAll P new s m).1, false, source, (getNodeFromAll P new s m).2⟩) := by
  rw [getNode]
  cases hfind : source.find? fun n ↦ (new.node m).path = (s.graph.node n).path with
  | some n =>
      have hpath : (new.node m).path = (s.graph.node n).path := by
        simpa using List.find?_some hfind
      exact Or.inl ⟨n, List.mem_of_find?_eq_some hfind, hpath.symm, rfl⟩
  | none =>
      refine Or.inr ⟨fun n hn heq ↦ ?_, rfl⟩
      have hno := List.find?_eq_none.mp hfind n hn
      simp [heq] at hno

theorem pushInput_eq (hrun : pushInput r k n = .ok k') : ∃ numReady,
    k' = k.setRule r { k.rule r with
      inputs := (k.rule r).inputs ++ [n], numInputsReady := numReady } := by
  rw [pushInput] at hrun
  split at hrun
  · obtain ⟨numReady, rfl⟩ := Depfile.onRule_ready (fun _ _ ↦ Depfile.markInputReady_eq) hrun
    refine ⟨numReady, ?_⟩
    simp [Graph.updateRule, Graph.setRule]
  · obtain rfl := Except.ok.inj hrun
    exact ⟨(k.rule r).numInputsReady, rfl⟩

/-- What the recursion does for a node that stands for `m`. -/
def NodeMerges (P : Platform ω) (w : ω) (g new : Graph) (O : Opened) (node : NodeUpdate)
    (m : NodeId) : Prop :=
  ∀ s n b s', Merging P w g new O s → n ∈ s.graph.allocated →
    (s.graph.node n).path = (new.node m).path →
    (∀ e ∈ s.originalNodes, e.1 ≠ (new.node m).path) → node s n m = .ok (b, s') →
    Merging P w g new O s' ∧ Onward O s s' ∧ n ∈ s'.nodesSeen

/-- The parts of a rule that its inputs do not touch. -/
def SameRest (x y : Rule) : Prop :=
  y.outputs = x.outputs ∧ y.depfile = x.depfile ∧ y.numImplicitDeps = x.numImplicitDeps

theorem SameRest.trans {x y z : Rule} (h : SameRest x y) (h' : SameRest y z) : SameRest x z :=
  ⟨h'.1.trans h.1, h'.2.1.trans h.2.1, h'.2.2.trans h.2.2⟩

/-- The loop over the inputs of `q` after the inputs `pre`.  The rule `r` had
the explicit inputs `E` and the implicit inputs `I`. -/
structure InputsMerged (P : Platform ω) (w : ω) (g new : Graph) (O : Opened) (s₀ : Reload)
    (r q : RuleId) (E I pre : List NodeId) (t : RuleLoop) : Prop where
  merging : Merging P w g new (openRule O r q (t.left ++ I)) t.state
  onward : Onward O s₀ t.state
  left : ∀ n ∈ t.left, n ∈ E ∧ (t.state.graph.node n).path ∉ new.paths pre
  done : t.state.graph.paths (t.state.graph.rule r).inputs = new.paths pre
  seen : ∀ n ∈ (t.state.graph.rule r).inputs, n ∈ t.state.nodesSeen
  rest : SameRest (s₀.graph.rule r) (t.state.graph.rule r)

theorem onward_openRule (hr : O r = none) (h : Onward (openRule O r q l) s s') : Onward O s s' := by
  apply h.mono
  intro p hp
  by_cases heq : p = r
  · exact absurd (heq ▸ hr) hp
  · rw [openRule_ne heq]
    exact hp

namespace InputsMerged

variable {E pre post : List NodeId} {t : RuleLoop} (h : InputsMerged P w g new O s₀ r q E I pre t)
include h

theorem mem_rules : r ∈ t.state.graph.rules := (h.merging.opened r q _ openRule_self).1

theorem allocated {x : NodeId} (hx : x ∈ (t.state.graph.rule r).inputs ∨ x ∈ t.left ++ I) :
    x ∈ t.state.graph.allocated := by
  apply h.merging.woven.allocated r h.mem_rules x
  rw [loose_openRule_self, List.mem_append]
  exact Or.inl hx

theorem nodup : ((t.state.graph.rule r).inputs ++ (t.left ++ I)).Nodup := by
  have hnodup := h.merging.woven.inputs_nodup r h.mem_rules
  rwa [loose_openRule_self] at hnodup

end InputsMerged

/-- A path comes once in a list of inputs or outputs. -/
theorem Clean.path_notMem_paths (hnew : Clean new) {pre post l : List NodeId} (hl : l.Nodup)
    (hmem : ∀ x ∈ l, x ∈ new.allocated) (heq : l = pre ++ m :: post) :
    (new.node m).path ∉ new.paths pre := by
  have hnodup := hnew.paths_nodup hl hmem
  rw [heq, Graph.paths, List.map_append, List.map_cons] at hnodup
  exact fun hin ↦ (List.nodup_append.mp hnodup).2.2 _ hin _ List.mem_cons_self rfl

/-- The node for the input `m` has been found or made, and hangs loose on `r`. -/
structure InputFound (P : Platform ω) (w : ω) (g new : Graph) (O : Opened) (r q : RuleId)
    (I : List NodeId) (t : RuleLoop) (m : NodeId) (found : Found) (l : List NodeId)
    (s : Reload) : Prop where
  merging : Merging P w g new (openRule O r q l) s
  perm : l.Perm (found.node :: (found.source ++ I))
  onward : Onward O t.state s
  rule : s.graph.rule r = t.state.graph.rule r
  mem : found.node ∈ s.graph.allocated
  path : (s.graph.node found.node).path = (new.node m).path
  met : ∀ e ∈ s.originalNodes, e.1 ≠ (new.node m).path
  source : ∀ x ∈ found.source, x ∈ t.left ∧ (s.graph.node x).path ≠ (new.node m).path

/-- An old input is one of the new ones. -/
theorem InputsMerged.found_left {E pre : List NodeId} {t : RuleLoop}
    (h : InputsMerged P w g new O s₀ r q E I pre t) (hm : m ∈ new.allocated) (hn : n ∈ t.left)
    (hpath : (t.state.graph.node n).path = (new.node m).path) :
    InputFound P w g new O r q I t m ⟨n, true, t.left.erase n, t.state⟩ (t.left ++ I)
      { t.state with
        originalNodes := eraseKey t.state.originalNodes (t.state.graph.node n).path } := by
  have hleft : t.left.Nodup := h.nodup.of_append_right.of_append_left
  have hmem : ∀ x ∈ t.left, x ∈ t.state.graph.allocated :=
    fun x hx ↦ h.allocated (Or.inr (List.mem_append_left I hx))
  refine ⟨?_, ?_, ?_, rfl, hmem n hn, hpath, fun e he ↦ ?_, fun x hx ↦ ?_⟩
  · apply h.merging.erase _ (Or.inl _)
    rw [hpath]
    exact ⟨m, hm, rfl⟩
  · exact (List.perm_cons_erase hn).append_right I
  · exact Merging.onward_erase O t.state _
  · rw [← hpath]
    exact not_mem_eraseKey _ _ e he
  · obtain ⟨hne, hin⟩ := hleft.mem_erase_iff.mp hx
    refine ⟨hin, fun heq ↦ hne ?_⟩
    exact h.merging.woven.path_injective (hmem x hin) (hmem n hn) (heq.trans hpath.symm)

/-- A node from elsewhere becomes an input, and gets the rule as a parent. -/
theorem InputsMerged.found_other (hnew : Clean new) {E pre post : List NodeId} {t : RuleLoop}
    {u : Reload} (hq : q ∈ new.rules)
    (hI : ∀ n ∈ I, n ∈ s₀.graph.allocated ∧
      (s₀.graph.node n).path ∉ new.paths (new.rule q).inputs)
    (hinputs : (new.rule q).inputs = pre ++ m :: post)
    (h : InputsMerged P w g new O s₀ r q E I pre t)
    (hno : ∀ x ∈ t.left, (t.state.graph.node x).path ≠ (new.node m).path)
    (hall : getNodeFromAll P new t.state m = (n, u)) :
    InputFound P w g new O r q I t m ⟨n, false, t.left, u⟩ (n :: (t.left ++ I))
      { u with graph := u.graph.updateNode n (·.addParentRule r) } := by
  have hmemq : ∀ x ∈ (new.rule q).inputs, x ∈ new.allocated :=
    fun x hx ↦ hnew.allocated q hq x (Or.inl hx)
  have hpre := hnew.path_notMem_paths (hnew.twoWay.inputs_nodup q hq) hmemq hinputs
  obtain ⟨hmerging, hgot⟩ := getNodeFromAll_spec h.merging (hmemq m (by simp [hinputs])) hall
  have hpathOf : ∀ x ∈ t.state.graph.allocated,
      (u.graph.node x).path = (t.state.graph.node x).path :=
    fun x hx ↦ congrArg Node.path (hgot.node x hx).2
  have hpath : ∀ x, ((u.graph.updateNode n (·.addParentRule r)).node x).path =
      (u.graph.node x).path := Graph.proj_setNode Node.path rfl
  have hchild : ∀ x, ((u.graph.updateNode n (·.addParentRule r)).node x).childRule =
      (u.graph.node x).childRule := Graph.proj_setNode Node.childRule rfl
  -- the node is no input yet, not even an implicit one
  have hnot : n ∉ (u.graph.rule r).inputs ++ loose (openRule O r q (t.left ++ I)) r := by
    rw [loose_openRule_self, hgot.rule, List.mem_append, List.mem_append]
    rintro (hin | hin | hin)
    · have hmem := Graph.path_mem_paths (g := t.state.graph) hin
      rw [h.done, ← hpathOf n (h.allocated (Or.inl hin)), hgot.path] at hmem
      exact hpre hmem
    · apply hno n hin
      rw [← hpathOf n (h.allocated (Or.inr (List.mem_append_left I hin))), hgot.path]
    · obtain ⟨hmem, hnotq⟩ := hI n hin
      obtain ⟨hmem', hpath'⟩ := h.onward.node n hmem
      rw [← hpath', ← hpathOf n hmem', hgot.path] at hnotq
      exact hnotq (Graph.path_mem_paths (by simp [hinputs]))
  have hhang := hmerging.woven.hang (hgot.rules ▸ h.mem_rules) hgot.mem hnot
  rw [loose_openRule_self, loose_openRule, Function.update_idem, ← loose_openRule (q := q)] at hhang
  refine ⟨?_, .refl _, ?_, congrFun hgot.rule r, hgot.mem, (hpath n).trans hgot.path, hgot.met,
    fun x hx ↦ ⟨hx, ?_⟩⟩
  · apply hmerging.remake hhang
    · exact fun x ↦ ⟨hpath x, hchild x⟩
    · rfl
    · exact fun _ _ ↦ rfl
    · rfl
    · rfl
  · exact (hgot.onward O).trans ⟨fun x hx ↦ ⟨hx, hpath x⟩, Finset.Subset.refl _, fun _ _ ↦ rfl⟩
  · rw [hpath, hpathOf x (h.allocated (Or.inr (List.mem_append_left I hx)))]
    exact hno x hx

/-- After the recursion the input is hashed and pushed. -/
theorem InputFound.push {E pre : List NodeId} {t : RuleLoop} {found : Found} {l : List NodeId}
    {s₁ t₁ : Reload} {k₂ k₃ : Graph} (hr : O r = none)
    (h : InputsMerged P w g new O s₀ r q E I pre t)
    (hfound : InputFound P w g new O r q I t m found l s₁)
    (hmerging : Merging P w g new (openRule O r q l) t₁)
    (honward : Onward (openRule O r q l) s₁ t₁) (hseen : found.node ∈ t₁.nodesSeen)
    (hlinks : k₂.links = t₁.graph.links) (hrule : k₂.rule = t₁.graph.rule)
    (hpush : pushInput r k₂ found.node = .ok k₃) (b : Bool) :
    InputsMerged P w g new O s₀ r q E I (pre ++ [m])
      ⟨b, found.source, { t₁ with graph := k₃ }⟩ := by
  obtain ⟨numReady, hk₃⟩ := pushInput_eq hpush
  have hmerging₂ := hmerging.touch (SameLists.of_links hlinks)
  have hrule₂ : k₂.rule r = t.state.graph.rule r := by
    rw [hrule, honward.rule r (by simp [openRule_self]), hfound.rule]
  have honward₃ : Onward O t.state { t₁ with graph := k₃ } := by
    apply (hfound.onward.trans (onward_openRule hr honward)).trans
    refine ⟨fun x hx ↦ ?_, Finset.Subset.refl _, fun p hp ↦ ?_⟩
    · rw [hk₃]
      exact ⟨(Graph.allocated_of_links hlinks).symm ▸ hx, Graph.path_of_links hlinks x⟩
    · have hne : p ≠ r := fun heq ↦ hp (heq ▸ hr)
      change k₃.rule p = t₁.graph.rule p
      rw [hk₃, Graph.setRule_rule, if_neg hne, hrule]
  have hrule₃ : k₃.rule r = { t.state.graph.rule r with
      inputs := (t.state.graph.rule r).inputs ++ [found.node], numInputsReady := numReady } := by
    rw [hk₃, Graph.setRule_rule, if_pos rfl, hrule₂]
  have hne₃ : ∀ p, p ≠ r → k₃.rule p = k₂.rule p := by
    intro p hp
    rw [hk₃, Graph.setRule_rule, if_neg hp]
  have hpaths₃ : ∀ x ∈ t.state.graph.allocated,
      (k₃.node x).path = (t.state.graph.node x).path := fun x hx ↦ (honward₃.node x hx).2
  have hwoven : k₃.Woven (loose (openRule O r q (found.source ++ I))) := by
    apply hmerging₂.woven.congr
    · intro x
      rw [hk₃]
      exact ⟨rfl, rfl, rfl⟩
    · rw [hk₃]
      rfl
    · rw [hk₃]
      rfl
    · rw [hk₃]
      rfl
    · intro p _
      rw [hk₃]
      exact Graph.proj_setRule Rule.outputs (by rfl) p
    · intro p _
      rw [loose_openRule, loose_openRule]
      by_cases hp : p = r
      · subst hp
        change ((k₃.rule p).inputs ++ _).Perm ((k₂.rule p).inputs ++ _)
        rw [hrule₃, hrule₂, Function.update_self, Function.update_self, List.append_assoc]
        exact hfound.perm.symm.append_left _
      · rw [Function.update_of_ne hp, Function.update_of_ne hp, hne₃ p hp]
  refine ⟨?_, h.onward.trans honward₃, fun x hx ↦ ?_, ?_, fun x hx ↦ ?_, ?_⟩
  · apply hmerging₂.remake hwoven
    · intro x
      rw [hk₃]
      exact ⟨rfl, rfl⟩
    · rw [hk₃]
      exact Graph.proj_setRule Rule.outputs (by rfl) r
    · exact hne₃
    · rw [hk₃]
      rfl
    · rw [hk₃]
      rfl
  · obtain ⟨hin, hne⟩ := hfound.source x hx
    obtain ⟨hE, hno⟩ := h.left x hin
    have hmem := h.allocated (Or.inr (List.mem_append_left I hin))
    refine ⟨hE, ?_⟩
    change (k₃.node x).path ∉ new.paths (pre ++ [m])
    rw [hpaths₃ x hmem, Graph.paths, List.map_append, List.mem_append]
    rintro (hin' | hin')
    · exact hno hin'
    · rw [(hfound.onward.node x hmem).2] at hne
      exact hne (List.mem_singleton.mp hin')
  · change k₃.paths (k₃.rule r).inputs = _
    have hold : k₃.paths (t.state.graph.rule r).inputs = new.paths pre := by
      rw [← h.done]
      exact Graph.paths_congr fun x hx ↦ hpaths₃ x (h.allocated (Or.inl hx))
    have hlast : (k₃.node found.node).path = (new.node m).path := by
      have hchain := (honward.node found.node hfound.mem).2.trans hfound.path
      rw [hk₃]
      exact (Graph.path_of_links hlinks found.node).trans hchain
    rw [hrule₃]
    simp only [Graph.paths, List.map_append, List.map_cons, List.map_nil, hlast] at hold ⊢
    rw [hold]
  · change x ∈ (k₃.rule r).inputs at hx
    rw [hrule₃] at hx
    rcases List.mem_append.mp hx with hx | hx
    · exact honward₃.seen (h.seen x hx)
    · rw [List.mem_singleton.mp hx]
      exact hseen
  · apply h.rest.trans
    change SameRest _ (k₃.rule r)
    rw [hrule₃]
    exact ⟨rfl, rfl, rfl⟩

theorem updateInput_merges (hnew : Clean new) {node : NodeUpdate} {E pre post : List NodeId}
    {t t' : RuleLoop} (hr : O r = none) (hq : q ∈ new.rules)
    (hI : ∀ n ∈ I, n ∈ s₀.graph.allocated ∧
      (s₀.graph.node n).path ∉ new.paths (new.rule q).inputs)
    (hspec : ∀ l, NodeMerges P w g new (openRule O r q l) node m)
    (hinputs : (new.rule q).inputs = pre ++ m :: post)
    (h : InputsMerged P w g new O s₀ r q E I pre t)
    (hrun : updateInput P w new node r t m = .ok t') :
    InputsMerged P w g new O s₀ r q E I (pre ++ [m]) t' := by
  have hm : m ∈ new.allocated := hnew.allocated q hq m (Or.inl (by simp [hinputs]))
  obtain ⟨found, hget⟩ : ∃ found, getNode P new t.state t.left m = found := ⟨_, rfl⟩
  obtain ⟨s₁, hs₁⟩ : ∃ s₁ : Reload, s₁ = { found.state with
      graph := if found.fromSource then found.state.graph
        else found.state.graph.updateNode found.node (·.addParentRule r) } := ⟨_, rfl⟩
  obtain ⟨l, hfound⟩ : ∃ l, InputFound P w g new O r q I t m found l s₁ := by
    rcases getNode_cases P new t.state t.left m with ⟨n, hn, hpath, heq⟩ | ⟨hno, heq⟩
    · obtain ⟨hmerging, hperm, hon, hrule, hmem, hself, hmet, hsource⟩ :=
        h.found_left hm hn hpath
      rw [← hget, heq] at hs₁ ⊢
      rw [hs₁]
      exact ⟨_, hmerging, hperm, hon, hrule, hmem, hself, hmet, hsource⟩
    · obtain ⟨hmerging, hperm, hon, hrule, hmem, hself, hmet, hsource⟩ :=
        h.found_other hnew hq hI hinputs hno rfl
      rw [← hget, heq] at hs₁ ⊢
      rw [hs₁]
      exact ⟨_, hmerging, hperm, hon, hrule, hmem, hself, hmet, hsource⟩
  rw [updateInput, hget] at hrun
  obtain ⟨⟨b, t₁⟩, hnode, hrun⟩ := bind_eq_ok.mp hrun
  rw [← hs₁] at hnode
  obtain ⟨hmerging, honward, hseen⟩ := hspec l s₁ found.node b t₁ hfound.merging hfound.mem
    hfound.path hfound.met hnode
  obtain ⟨k₂, hhash, hrun⟩ := bind_eq_ok.mp hrun
  have hlinks : k₂.links = t₁.graph.links ∧ k₂.rule = t₁.graph.rule := by
    split at hhash
    · obtain ⟨⟨c, k₃⟩, hupdate, hpure⟩ := bind_eq_ok.mp hhash
      obtain rfl : k₃ = k₂ := Except.ok.inj hpure
      obtain ⟨hash, deps, heq⟩ := Hash.updateNodeHash_frame hupdate
      exact ⟨(Hash.updateNodeHash_links hupdate).1, by rw [heq]; rfl⟩
    · obtain rfl : t₁.graph = k₂ := Except.ok.inj hhash
      exact ⟨rfl, rfl⟩
  obtain ⟨k₃, hpush, hpure⟩ := bind_eq_ok.mp hrun
  rw [← Except.ok.inj hpure]
  exact hfound.push hr h hmerging honward hseen hlinks.1 hlinks.2 hpush _

/-- What hangs loose comes off. -/
theorem Merging.unlink (h : Merging P w g new (openRule O r q (n :: l)) s) :
    Merging P w g new (openRule O r q l) { s with graph := s.graph.unlink r n } := by
  have hrules := (h.opened r q _ openRule_self).1
  have hself : loose (openRule O r q (n :: l)) r = n :: l := loose_openRule_self
  have hunlink := h.woven.unlink (n := n) hrules (by
    rw [hself]
    exact List.mem_cons_self)
  rw [hself, List.erase_cons_head, loose_openRule, Function.update_idem,
    ← loose_openRule (q := q)] at hunlink
  apply h.remake hunlink
  · exact fun x ↦ ⟨Graph.proj_setNode Node.path (by rfl) x,
      Graph.proj_setNode Node.childRule (by rfl) x⟩
  · rfl
  · exact fun _ _ ↦ rfl
  · rfl
  · rfl

theorem onward_unlink (O : Opened) (s : Reload) (r : RuleId) (n : NodeId) :
    Onward O s { s with graph := s.graph.unlink r n } :=
  ⟨fun x hx ↦ ⟨hx, Graph.proj_setNode Node.path (by rfl) x⟩, Finset.Subset.refl _,
    fun _ _ ↦ rfl⟩

/-- The inputs that the rule no longer has are given up. -/
theorem dropInputs_merges (hg : Mergeable P w g new) (hr : O r = none) {left : List NodeId}
    (h : Merging P w g new (openRule O r q (left ++ I)) s)
    (hleft : ∀ n ∈ left, n ∈ g.allocated ∧ Discarded g new n)
    (hrun : left.foldlM (dropInput r) s.graph = .ok k') :
    Merging P w g new (openRule O r q I) { s with graph := k' } ∧
      Onward O s { s with graph := k' } ∧ k'.rule r = s.graph.rule r := by
  induction left generalizing s with
  | nil =>
      obtain rfl : s.graph = k' := Except.ok.inj hrun
      exact ⟨h, .refl O s, rfl⟩
  | cons n left ih =>
      rw [List.foldlM_cons] at hrun
      obtain ⟨k₁, hstep, hrest⟩ := bind_eq_ok.mp hrun
      obtain ⟨k₂, hremove, hclear⟩ := bind_eq_ok.mp hstep
      obtain ⟨-, rfl⟩ := Graph.onNode_removeParentRule.mp hremove
      have h₁ : Merging P w g new (openRule O r q (left ++ I))
          { s with graph := s.graph.unlink r n } := Merging.unlink h
      obtain ⟨h₂, hon₂⟩ := clearSubGraph_spec hg h₁ (hleft n List.mem_cons_self).1
        (hleft n List.mem_cons_self).2 hclear
      obtain ⟨h₃, hon₃, hrule₃⟩ := ih (s := { s with graph := k₁ }) h₂
        (fun x hx ↦ hleft x (List.mem_cons_of_mem n hx)) hrest
      have hon₁ := onward_unlink O s r n
      refine ⟨h₃, (hon₁.trans (onward_openRule hr hon₂)).trans hon₃, hrule₃.trans ?_⟩
      exact hon₂.rule r (by simp [openRule_self])

/-- The inputs of `q` have taken the place of the explicit inputs. -/
structure InputsReplaced (P : Platform ω) (w : ω) (g new : Graph) (O : Opened) (s₀ : Reload)
    (r q : RuleId) (I : List NodeId) (s : Reload) : Prop where
  merging : Merging P w g new (openRule O r q I) s
  onward : Onward O s₀ s
  inputs : s.graph.paths (s.graph.rule r).inputs = new.paths (new.rule q).inputs
  seen : ∀ n ∈ (s.graph.rule r).inputs, n ∈ s.nodesSeen

theorem updateRuleInputs_merges (hg : Mergeable P w g new) (hnew : Clean new) {node : NodeUpdate}
    {E : List NodeId} {b : Bool} (hr : O r = none) (hq : q ∈ new.rules)
    (hE : ∀ n ∈ E, (s.graph.node n).path ∈ new.paths (new.rule q).inputs ∨
      n ∈ g.allocated ∧ Discarded g new n)
    (hI : ∀ n ∈ I, (s.graph.node n).path ∉ new.paths (new.rule q).inputs)
    (hspec : ∀ m ∈ (new.rule q).inputs, ∀ l, NodeMerges P w g new (openRule O r q l) node m)
    (h : Merging P w g new (openRule O r q (E ++ I)) s) (hempty : (s.graph.rule r).inputs = [])
    (hrun : updateRuleInputs P w new node s r E q = .ok (b, s')) :
    InputsReplaced P w g new O s r q I s' ∧ SameRest (s.graph.rule r) (s'.graph.rule r) := by
  have hrules := (h.opened r q _ openRule_self).1
  have hloose : loose (openRule O r q (E ++ I)) r = E ++ I := loose_openRule_self
  have hmem : ∀ n ∈ E ++ I, n ∈ s.graph.allocated := by
    intro n hn
    apply h.woven.allocated r hrules n
    rw [hloose, List.mem_append]
    exact Or.inl (Or.inr hn)
  obtain ⟨t, hloop, hrun⟩ := bind_eq_ok.mp hrun
  obtain ⟨k, hdrop, hpure⟩ := bind_eq_ok.mp hrun
  obtain ⟨rfl, rfl⟩ := Prod.mk.inj (Except.ok.inj hpure)
  have hstart : InputsMerged P w g new O s r q E I [] ⟨false, E, s⟩ := by
    refine ⟨h, .refl O s, fun n hn ↦ ⟨hn, by simp [Graph.paths]⟩, ?_, ?_, rfl, rfl, rfl⟩
    · change s.graph.paths (s.graph.rule r).inputs = _
      rw [hempty]
      rfl
    · change ∀ n ∈ (s.graph.rule r).inputs, _
      rw [hempty]
      exact fun n hn ↦ absurd hn List.not_mem_nil
  have hdone : InputsMerged P w g new O s r q E I (new.rule q).inputs t :=
    Lib.foldlM_prefix (InputsMerged P w g new O s r q E I) hstart
      (fun pre m post u u' hl hu hstep ↦ updateInput_merges hnew hr hq
        (fun n hn ↦ ⟨hmem n (List.mem_append_right E hn), hI n hn⟩)
        (hspec m (by simp [hl])) hl hu hstep) hloop
  obtain ⟨hmerging, honward, hrule⟩ := dropInputs_merges hg hr hdone.merging (fun n hn ↦ by
    obtain ⟨hin, hno⟩ := hdone.left n hn
    rw [(hdone.onward.node n (hmem n (List.mem_append_left I hin))).2] at hno
    exact (hE n hin).resolve_left hno) hdrop
  have hallocated : ∀ n ∈ (t.state.graph.rule r).inputs, n ∈ t.state.graph.allocated :=
    fun n hn ↦ hdone.merging.woven.allocated r (hdone.merging.opened r q _ openRule_self).1 n
      (Or.inl (List.mem_append_left _ hn))
  refine ⟨⟨hmerging, hdone.onward.trans honward, ?_, fun n hn ↦ ?_⟩, ?_⟩
  · change k.paths (k.rule r).inputs = _
    rw [hrule, ← hdone.done]
    exact Graph.paths_congr fun n hn ↦ (honward.node n (hallocated n hn)).2
  · change n ∈ (k.rule r).inputs at hn
    rw [hrule] at hn
    exact hdone.seen n hn
  · refine hdone.rest.trans ?_
    change SameRest _ (k.rule r)
    rw [hrule]
    exact ⟨rfl, rfl, rfl⟩

/-! ## The outputs -/

/-- The outputs of the rule, with those that have not been found again yet. -/
def restored (r : RuleId) (t : RuleLoop) : Reload :=
  { t.state with graph := t.state.graph.updateRule r fun x ↦ { x with outputs := x.outputs ++ t.left } }

theorem restored_rule_self (r : RuleId) (t : RuleLoop) : (restored r t).graph.rule r =
    { t.state.graph.rule r with outputs := (t.state.graph.rule r).outputs ++ t.left } := by
  rw [restored, Graph.updateRule, Graph.setRule_rule, if_pos rfl]

/-- An open rule gets further outputs, which have been source files. -/
theorem Merging.setOutputs (h : Merging P w g new (openRule O r q l) s) (outputs : List NodeId)
    (hnodup : outputs.Nodup) (hsub : ∀ o ∈ (s.graph.rule r).outputs, o ∈ outputs)
    (hfree : ∀ o ∈ outputs, o ∈ (s.graph.rule r).outputs ∨ o ∈ s.graph.allocated ∧
      (s.graph.node o).childRule = none ∧ new.Makes (s.graph.node o).path)
    (hpath : ∀ o ∈ outputs, (s.graph.node o).path ∈ new.paths (new.rule q).outputs)
    (hnode : ∀ m, (k'.node m).path = (s.graph.node m).path ∧
      (k'.node m).parentRules = (s.graph.node m).parentRules ∧
      (k'.node m).childRule = if m ∈ outputs then some r else (s.graph.node m).childRule)
    (hself : k'.rule r = { s.graph.rule r with outputs := outputs })
    (hrule : ∀ p, p ≠ r → k'.rule p = s.graph.rule p) (hrules : k'.rules = s.graph.rules)
    (hallocated : k'.allocated = s.graph.allocated) (hnodes : k'.nodes = s.graph.nodes) :
    Merging P w g new (openRule O r q l) { s with graph := k' } := by
  obtain ⟨hr, hq, -⟩ := h.opened r q l openRule_self
  have hpaths : ∀ l, k'.paths l = s.graph.paths l :=
    fun l ↦ Graph.paths_congr fun n _ ↦ (hnode n).1
  have hmem : ∀ o ∈ outputs, o ∈ s.graph.allocated := by
    intro o ho
    rcases hfree o ho with hold | ⟨hin, -⟩
    · exact h.woven.allocated r hr o (Or.inr hold)
    · exact hin
  apply h.frame
  · apply h.woven.setOutputs hr hnodup
    · intro hnil
      obtain ⟨o, ho⟩ := List.exists_mem_of_ne_nil _ (h.woven.output r hr)
      have hin := hsub o ho
      rw [hnil] at hin
      cases hin
    · intro o ho
      refine ⟨hmem o ho, fun p hp ↦ ?_⟩
      rcases hfree o ho with hold | ⟨-, hnone, -⟩
      · exact Option.some.inj (hp.symm.trans ((h.woven.child o r).mpr ⟨hr, hold⟩))
      · exact absurd (hp.symm.trans hnone) (Option.some_ne_none p)
    · intro m
      refine ⟨(hnode m).1, (hnode m).2.1, (hnode m).2.2.trans ?_⟩
      split
      · rfl
      · rename_i hno
        rw [if_neg fun hchild ↦ hno (hsub m ((h.woven.child m r).mp hchild).2)]
    · change (k'.rule r).outputs = _
      rw [hself]
    · intro p
      change (k'.rule p).inputs = _ ∧ (p ≠ r → (k'.rule p).outputs = _)
      by_cases hp : p = r
      · rw [hp, hself]
        exact ⟨rfl, fun hne ↦ absurd rfl hne⟩
      · rw [hrule p hp]
        exact ⟨rfl, fun _ ↦ rfl⟩
    · exact hrules
    · exact hallocated
    · exact hnodes
  · exact fun n hn ↦ ⟨hallocated ▸ hn, (hnode n).1⟩
  · intro n hn
    refine (hnode n).2.2.trans ?_
    split
    · rename_i hin
      rcases hfree n hin with hold | ⟨-, hnone, hmakes⟩
      · exact ((h.woven.child n r).mpr ⟨hr, hold⟩).symm
      · exact absurd hmakes ((h.seen n hn).2.2.mp hnone)
    · rfl
  · exact fun n hn hno ↦ absurd (hallocated ▸ hn) hno
  · intro p q' l₁ ho
    change p ∈ k'.rules ∧ q' ∈ new.rules ∧ ∀ path ∈ k'.paths (k'.rule p).outputs, _
    rw [hrules, hpaths]
    by_cases hp : p = r
    · subst hp
      obtain ⟨rfl, -⟩ := Prod.mk.inj (Option.some.inj (openRule_self.symm.trans ho))
      refine ⟨hr, hq, fun path hin ↦ ?_⟩
      rw [hself] at hin
      obtain ⟨o, ho, rfl⟩ := Graph.mem_paths.mp hin
      exact hpath o ho
    · rw [openRule_ne hp] at ho
      rw [hrule p hp]
      exact h.opened p q' l₁ ((openRule_ne hp).trans ho)
  · intro p hp ho
    by_cases heq : p = r
    · rw [heq, openRule_self] at ho
      cases ho
    · refine ⟨hrules ▸ hp, ?_, ?_⟩
      · rw [openRule_ne heq] at ho ⊢
        exact ho
      · change (k'.rule p).inputs = _ ∧ _ ∧ _
        rw [hrule p heq]
        exact ⟨rfl, rfl, Or.inl rfl⟩
  · rfl
  · exact fun e he ↦ he
  · exact fun e he ↦ Or.inl he

/-- The old rule that generates a file of `q` can only be the one that is turned
into `q`. -/
theorem Merging.child_eq (hnew : Clean new) (h : Merging P w g new (openRule O r q l) s)
    (hfresh : ∀ p q' l', O p = some (q', l') → q' ≠ q) {p : RuleId}
    (hpath : (s.graph.node n).path ∈ new.paths (new.rule q).outputs)
    (hchild : (s.graph.node n).childRule = some p) : p = r := by
  by_contra hne
  obtain ⟨hr, hq, hall⟩ := h.opened r q l openRule_self
  obtain ⟨hp, hout⟩ := (h.woven.child n p).mp hchild
  cases ho : openRule O r q l p with
  | some e =>
      obtain ⟨-, hq', hall'⟩ := h.opened p e.1 e.2 ho
      rw [openRule_ne hne] at ho
      exact hfresh p e.1 e.2 ho
        (hnew.rule_unique hq' hq (hall' _ (Graph.path_mem_paths hout)) hpath)
  | none =>
      have hturns := h.turns p hp ho q hq ⟨_, Graph.path_mem_paths hout, hpath⟩
      obtain ⟨o, ho'⟩ := List.exists_mem_of_ne_nil _ (h.woven.output r hr)
      obtain ⟨x, hx, heq⟩ := Graph.mem_paths.mp
        ((hturns.outputs _).mpr (hall _ (Graph.path_mem_paths ho')))
      obtain rfl := h.woven.path_injective (h.woven.allocated p hp x (Or.inr hx))
        (h.woven.allocated r hr o (Or.inr ho')) heq
      have hchild₁ := (h.woven.child x p).mpr ⟨hp, hx⟩
      have hchild₂ := (h.woven.child x r).mpr ⟨hr, ho'⟩
      exact hne (Option.some.inj (hchild₁.symm.trans hchild₂))

/-- Other outputs do not matter to the search for a node. -/
theorem getNodeFromAll_setRule (P : Platform ω) (new : Graph) (s : Reload) (r : RuleId)
    (x : Rule) (m : NodeId) :
    getNodeFromAll P new { s with graph := s.graph.setRule r x } m =
      ((getNodeFromAll P new s m).1, { (getNodeFromAll P new s m).2 with
        graph := (getNodeFromAll P new s m).2.graph.setRule r x }) := by
  rw [getNodeFromAll, getNodeFromAll]
  dsimp only [Graph.setRule]
  cases s.graph.nodes.lookup (new.node m).path with
  | none => rfl
  | some node => rfl

theorem getNodeFromAll_rule (P : Platform ω) (new : Graph) (s : Reload) (m : NodeId) :
    (getNodeFromAll P new s m).2.graph.rule = s.graph.rule := by
  rw [getNodeFromAll]
  dsimp only
  cases s.graph.nodes.lookup (new.node m).path with
  | none => rfl
  | some node => rfl

theorem restored_getNodeFromAll (P : Platform ω) (new : Graph) (r : RuleId) (t : RuleLoop)
    (b : Bool) (m : NodeId) :
    getNodeFromAll P new (restored r t) m = ((getNodeFromAll P new t.state m).1,
      restored r ⟨b, t.left, (getNodeFromAll P new t.state m).2⟩) := by
  have hcommute := getNodeFromAll_setRule P new t.state r
    { t.state.graph.rule r with outputs := (t.state.graph.rule r).outputs ++ t.left } m
  rw [restored, Graph.updateRule, hcommute, restored, Graph.updateRule, getNodeFromAll_rule]

/-- The loop over the outputs of `q` after the outputs `pre`. -/
structure OutputsMerged (P : Platform ω) (w : ω) (g new : Graph) (O : Opened) (s₀ : Reload)
    (r q : RuleId) (I pre : List NodeId) (t : RuleLoop) : Prop where
  merging : Merging P w g new (openRule O r q I) (restored r t)
  onward : Onward O s₀ (restored r t)
  rule : ∃ outputs, t.state.graph.rule r = { s₀.graph.rule r with outputs := outputs }
  done : t.state.graph.paths (t.state.graph.rule r).outputs = new.paths pre
  left : ∀ n ∈ t.left, (t.state.graph.node n).path ∉ new.paths pre
  seen : t.state.nodesSeen = s₀.nodesSeen

theorem pushOutput_rule_self (r : RuleId) (k : Graph) (n : NodeId) :
    (pushOutput r k n).rule r = { k.rule r with outputs := (k.rule r).outputs ++ [n] } := by
  rw [pushOutput, Graph.updateRule, Graph.setRule_rule, if_pos rfl]

namespace OutputsMerged

variable {pre post : List NodeId} {t : RuleLoop} (h : OutputsMerged P w g new O s₀ r q I pre t)
include h

theorem mem_rules : r ∈ t.state.graph.rules := (h.merging.opened r q I openRule_self).1

theorem mem_new : q ∈ new.rules := (h.merging.opened r q I openRule_self).2.1

theorem allocated {x : NodeId} (hx : x ∈ (t.state.graph.rule r).outputs ++ t.left) :
    x ∈ t.state.graph.allocated := by
  apply h.merging.woven.allocated r h.mem_rules x
  rw [restored_rule_self]
  exact Or.inr hx

theorem nodup : ((t.state.graph.rule r).outputs ++ t.left).Nodup := by
  have hnodup := h.merging.woven.outputs_nodup r h.mem_rules
  rwa [restored_rule_self] at hnodup

theorem path_mem {x : NodeId} (hx : x ∈ (t.state.graph.rule r).outputs ++ t.left) :
    (t.state.graph.node x).path ∈ new.paths (new.rule q).outputs := by
  apply (h.merging.opened r q I openRule_self).2.2
  refine Graph.path_mem_paths (g := (restored r t).graph) ?_
  rw [restored_rule_self]
  exact hx

end OutputsMerged

/-- The step only concerns the outputs of the rule. -/
theorem OutputsMerged.onward_step {pre : List NodeId} {t : RuleLoop} (hr : O r = none)
    (h : OutputsMerged P w g new O s₀ r q I pre t) {u : Reload}
    (hnode : ∀ x ∈ t.state.graph.allocated, x ∈ u.graph.allocated ∧
      (u.graph.node x).path = (t.state.graph.node x).path)
    (hrule : ∀ p, p ≠ r → u.graph.rule p = t.state.graph.rule p)
    (hseen : u.nodesSeen = t.state.nodesSeen) : Onward O s₀ u := by
  refine h.onward.trans ⟨hnode, by rw [hseen]; exact Finset.Subset.refl _, fun p hp ↦ ?_⟩
  have hne : p ≠ r := fun heq ↦ hp (heq ▸ hr)
  rw [hrule p hne, restored, Graph.updateRule, Graph.setRule_rule, if_neg hne]

/-- An old output is one of the new ones. -/
theorem OutputsMerged.push_left (hnew : Clean new) {pre : List NodeId} {t : RuleLoop}
    (hr : O r = none) (h : OutputsMerged P w g new O s₀ r q I pre t) (hn : n ∈ t.left)
    (hpath : (t.state.graph.node n).path = (new.node m).path) (c : Bool) :
    OutputsMerged P w g new O s₀ r q I (pre ++ [m]) ⟨c, t.left.erase n, { t.state with
      originalNodes := eraseKey t.state.originalNodes (t.state.graph.node n).path
      graph := pushOutput r t.state.graph n }⟩ := by
  have hleft : t.left.Nodup := h.nodup.of_append_right
  obtain ⟨y, hy⟩ : ∃ y, y = t.state.graph.rule r := ⟨_, rfl⟩
  have hself : (restored r t).graph.rule r = { y with outputs := y.outputs ++ t.left } :=
    hy ▸ restored_rule_self r t
  have hperm : ((y.outputs ++ [n]) ++ t.left.erase n).Perm (y.outputs ++ t.left) := by
    rw [List.append_assoc]
    exact (List.perm_cons_erase hn).symm.append_left _
  have hmem : ∀ x, x ∈ (y.outputs ++ [n]) ++ t.left.erase n ↔
      x ∈ ((restored r t).graph.rule r).outputs := by
    intro x
    rw [hself, hperm.mem_iff]
  obtain ⟨k, hk⟩ : ∃ k, k = t.state.graph.setRule r
    { y with outputs := (y.outputs ++ [n]) ++ t.left.erase n } := ⟨_, rfl⟩
  have hne : ∀ p, p ≠ r → k.rule p = t.state.graph.rule p := by
    intro p hp
    rw [hk, Graph.setRule_rule, if_neg hp]
  have hrest : restored r ⟨c, t.left.erase n, { t.state with
      originalNodes := eraseKey t.state.originalNodes (t.state.graph.node n).path
      graph := pushOutput r t.state.graph n }⟩ = { restored r t with
        originalNodes := eraseKey t.state.originalNodes (t.state.graph.node n).path
        graph := k } := by
    rw [restored, hk, hy]
    simp [restored, pushOutput, Graph.updateRule, Graph.setRule]
  obtain ⟨outputs₀, hrule₀⟩ := h.rule
  have hholds : new.Holds (t.state.graph.node n).path :=
    hnew.holds_of_makes ⟨q, h.mem_new, h.path_mem (List.mem_append_right _ hn)⟩
  refine ⟨?_, ?_, ⟨outputs₀ ++ [n], (pushOutput_rule_self r t.state.graph n).trans ?_⟩, ?_,
    fun x hx ↦ ?_, h.seen⟩
  · rw [hrest]
    refine (h.merging.erase _ (Or.inl hholds)).setOutputs ((y.outputs ++ [n]) ++ t.left.erase n)
      (hperm.nodup_iff.mpr (hy ▸ h.nodup)) (fun o ho ↦ (hmem o).mpr ho)
      (fun o ho ↦ Or.inl ((hmem o).mp ho))
      (fun o ho ↦ h.path_mem (hy ▸ hperm.mem_iff.mp ho)) (fun x ↦ ?_) ?_ (fun p hp ↦ ?_) ?_ ?_ ?_
    · rw [hk]
      refine ⟨rfl, rfl, ?_⟩
      split
      · rename_i hx
        exact (h.merging.woven.child x r).mpr ⟨h.mem_rules, (hmem x).mp hx⟩
      · rfl
    · rw [hk, Graph.setRule_rule, if_pos rfl]
      exact (congrArg (fun x : Rule ↦
        { x with outputs := (y.outputs ++ [n]) ++ t.left.erase n }) hself).symm
    · change k.rule p = (restored r t).graph.rule p
      rw [hne p hp, restored, Graph.updateRule, Graph.setRule_rule, if_neg hp]
    · rw [hk]
      rfl
    · rw [hk]
      rfl
    · rw [hk]
      rfl
  · rw [hrest]
    apply h.onward_step hr
    · rw [hk]
      exact fun x hx ↦ ⟨hx, rfl⟩
    · exact hne
    · rfl
  · rw [hrule₀]
  · change t.state.graph.paths ((pushOutput r t.state.graph n).rule r).outputs = _
    have hdone := h.done
    rw [pushOutput_rule_self]
    simp only [Graph.paths, List.map_append, List.map_cons, List.map_nil, hpath] at hdone ⊢
    rw [hdone]
  · change (t.state.graph.node x).path ∉ _
    obtain ⟨hxn, hin⟩ := hleft.mem_erase_iff.mp hx
    rw [Graph.paths, List.map_append, List.mem_append]
    rintro (hin' | hin')
    · exact h.left x hin hin'
    · apply hxn
      have heq : (t.state.graph.node x).path = (new.node m).path := List.mem_singleton.mp hin'
      exact h.merging.woven.path_injective (h.allocated (List.mem_append_right _ hin))
        (h.allocated (List.mem_append_right _ hn)) (heq.trans hpath.symm)

/-- A source file becomes an output, or a new node. -/
theorem OutputsMerged.push_other (hnew : Clean new) {pre post : List NodeId} {t : RuleLoop}
    {n₁ : NodeId} {u u' : Reload} (hr : O r = none)
    (hfresh : ∀ p q' l', O p = some (q', l') → q' ≠ q)
    (houtputs : (new.rule q).outputs = pre ++ m :: post)
    (h : OutputsMerged P w g new O s₀ r q I pre t)
    (hno : ∀ x ∈ t.left, (t.state.graph.node x).path ≠ (new.node m).path)
    (hget₁ : getNodeFromAll P new t.state m = (n₁, u))
    (hget₂ : getNodeFromAll P new u m = (n, u')) (c : Bool) :
    OutputsMerged P w g new O s₀ r q I (pre ++ [m]) ⟨c, t.left, { u' with
      graph := pushOutput r (u'.graph.updateNode n fun x ↦ { x with childRule := some r }) n }⟩ := by
  have hmemq : ∀ x ∈ (new.rule q).outputs, x ∈ new.allocated :=
    fun x hx ↦ hnew.allocated q h.mem_new x (Or.inr hx)
  have hm : m ∈ new.allocated := hmemq m (by simp [houtputs])
  have hpathq : (new.node m).path ∈ new.paths (new.rule q).outputs :=
    Graph.path_mem_paths (by simp [houtputs])
  have hpre := hnew.path_notMem_paths (hnew.twoWay.outputs_nodup q h.mem_new) hmemq houtputs
  obtain ⟨y, hy⟩ : ∃ y, y = t.state.graph.rule r := ⟨_, rfl⟩
  -- the two calls of `getNodeFromAll`, with the outputs restored
  have hrest₁ := restored_getNodeFromAll P new r t true m
  rw [hget₁] at hrest₁
  have hrest₂ := restored_getNodeFromAll P new r ⟨true, t.left, u⟩ true m
  dsimp only at hrest₂
  rw [hget₂] at hrest₂
  obtain ⟨hmerging₁, hgot₁⟩ := getNodeFromAll_spec h.merging hm hrest₁
  obtain ⟨hmerging₂, hgot₂⟩ := getNodeFromAll_spec hmerging₁ hm hrest₂
  have hrule₂ : u'.graph.rule = t.state.graph.rule := by
    have hfirst := getNodeFromAll_rule P new t.state m
    have hsecond := getNodeFromAll_rule P new u m
    rw [hget₁] at hfirst
    rw [hget₂] at hsecond
    exact hsecond.trans hfirst
  have hself₂ : (restored r ⟨true, t.left, u'⟩).graph.rule r =
      { y with outputs := y.outputs ++ t.left } := by
    rw [restored_rule_self, hrule₂, ← hy]
  have hnodeOf : ∀ x ∈ t.state.graph.allocated, x ∈ u'.graph.allocated ∧
      u'.graph.node x = t.state.graph.node x := by
    intro x hx
    obtain ⟨hin₁, heq₁⟩ := hgot₁.node x hx
    obtain ⟨hin₂, heq₂⟩ := hgot₂.node x hin₁
    exact ⟨hin₂, heq₂.trans heq₁⟩
  have hpathn : (u'.graph.node n).path = (new.node m).path := hgot₂.path
  have hmemt : ∀ x ∈ y.outputs ++ t.left, x ∈ t.state.graph.allocated :=
    fun x hx ↦ h.allocated (hy ▸ hx)
  have hdone : t.state.graph.paths y.outputs = new.paths pre := hy ▸ h.done
  -- the node is no output of the rule yet, and so of none
  have hnot : n ∉ y.outputs ++ t.left := by
    intro hin
    have hpath := congrArg Node.path (hnodeOf n (hmemt n hin)).2
    rcases List.mem_append.mp hin with hin | hin
    · have hmem := Graph.path_mem_paths (g := t.state.graph) hin
      rw [hdone, ← hpath, hpathn] at hmem
      exact hpre hmem
    · exact hno n hin (hpath.symm.trans hpathn)
  have hnone : (u'.graph.node n).childRule = none := by
    cases hc : (u'.graph.node n).childRule with
    | none => rfl
    | some p =>
        obtain rfl := hmerging₂.child_eq hnew hfresh (by
          change (u'.graph.node n).path ∈ _
          rw [hpathn]
          exact hpathq) hc
        have hout := ((hmerging₂.woven.child n p).mp hc).2
        rw [hself₂] at hout
        exact absurd hout hnot
  obtain ⟨k, hk⟩ : ∃ k : Graph, k = (u'.graph.updateNode n fun x ↦
    { x with childRule := some r }).setRule r
      { y with outputs := (y.outputs ++ [n]) ++ t.left } := ⟨_, rfl⟩
  have hrest : restored r ⟨c, t.left, { u' with
      graph := pushOutput r (u'.graph.updateNode n fun x ↦ { x with childRule := some r }) n }⟩ =
      { restored r ⟨true, t.left, u'⟩ with graph := k } := by
    have hrule : (u'.graph.rule r) = y := by rw [hrule₂, hy]
    rw [restored, hk]
    simp [restored, pushOutput, Graph.updateRule, Graph.updateNode, Graph.setRule,
      Graph.setNode, hrule]
  have hne : ∀ p, p ≠ r → k.rule p = t.state.graph.rule p := by
    intro p hp
    rw [hk, Graph.setRule_rule, if_neg hp, ← hrule₂]
    rfl
  have hnode : ∀ x, (k.node x).path = (u'.graph.node x).path ∧
      (k.node x).parentRules = (u'.graph.node x).parentRules ∧
      (k.node x).childRule = if x = n then some r else (u'.graph.node x).childRule := by
    intro x
    rw [hk]
    refine ⟨Graph.proj_setNode Node.path (by rfl) x,
      Graph.proj_setNode Node.parentRules (by rfl) x, ?_⟩
    change ((u'.graph.setNode n _).node x).childRule = _
    rw [Graph.setNode_node]
    split
    · rfl
    · rfl
  have hallocated : k.allocated = u'.graph.allocated := by
    rw [hk]
    rfl
  have hpathk : ∀ x ∈ t.state.graph.allocated, x ∈ k.allocated ∧
      (k.node x).path = (t.state.graph.node x).path := by
    intro x hx
    obtain ⟨hin, heq⟩ := hnodeOf x hx
    rw [hallocated]
    exact ⟨hin, (hnode x).1.trans (congrArg Node.path heq)⟩
  have hperm : ((y.outputs ++ [n]) ++ t.left).Perm (n :: (y.outputs ++ t.left)) := by
    rw [List.append_assoc]
    exact List.perm_middle
  have hmemo : ∀ o, o ∈ (y.outputs ++ [n]) ++ t.left ↔ o = n ∨ o ∈ y.outputs ++ t.left := by
    intro o
    rw [hperm.mem_iff, List.mem_cons]
  obtain ⟨outputs₀, hrule₀⟩ := h.rule
  refine ⟨?_, ?_, ⟨outputs₀ ++ [n], (pushOutput_rule_self r _ n).trans ?_⟩, ?_, fun x hx ↦ ?_,
    (hgot₂.seen.trans hgot₁.seen).trans h.seen⟩
  · rw [hrest]
    refine hmerging₂.setOutputs ((y.outputs ++ [n]) ++ t.left)
      (hperm.nodup_iff.mpr (List.nodup_cons.mpr ⟨hnot, hy ▸ h.nodup⟩)) (fun o ho ↦ ?_)
      (fun o ho ↦ ?_) (fun o ho ↦ ?_) (fun x ↦ ?_) ?_ (fun p hp ↦ ?_) ?_ ?_ ?_
    · rw [hself₂] at ho
      exact (hmemo o).mpr (Or.inr ho)
    · rcases (hmemo o).mp ho with rfl | ho
      · refine Or.inr ⟨hgot₂.mem, hnone, q, h.mem_new, ?_⟩
        rw [hgot₂.path]
        exact hpathq
      · rw [hself₂]
        exact Or.inl ho
    · rcases (hmemo o).mp ho with rfl | ho
      · rw [hgot₂.path]
        exact hpathq
      · change (u'.graph.node o).path ∈ _
        rw [congrArg Node.path (hnodeOf o (hmemt o ho)).2]
        exact h.path_mem (hy ▸ ho)
    · refine ⟨(hnode x).1, (hnode x).2.1, (hnode x).2.2.trans ?_⟩
      by_cases hx : x = n
      · rw [if_pos hx, if_pos ((hmemo x).mpr (Or.inl hx))]
      · rw [if_neg hx]
        split
        · rename_i hin
          have hold := ((hmemo x).mp hin).resolve_left hx
          apply (hmerging₂.woven.child x r).mpr
          refine ⟨(hmerging₂.opened r q I openRule_self).1, ?_⟩
          rw [hself₂]
          exact hold
        · rfl
    · rw [hk, Graph.setRule_rule, if_pos rfl]
      exact (congrArg (fun x : Rule ↦
        { x with outputs := (y.outputs ++ [n]) ++ t.left }) hself₂).symm
    · rw [hne p hp, restored, Graph.updateRule, Graph.setRule_rule, if_neg hp, hrule₂]
    · rw [hk]
      rfl
    · rw [hk]
      rfl
    · rw [hk]
      rfl
  · rw [hrest]
    apply h.onward_step hr
    · exact hpathk
    · exact hne
    · exact hgot₂.seen.trans hgot₁.seen
  · change { u'.graph.rule r with outputs := (u'.graph.rule r).outputs ++ [n] } = _
    rw [hrule₂, hrule₀]
  · change Graph.paths _ ((pushOutput r _ n).rule r).outputs = _
    rw [pushOutput_rule_self]
    change (List.map _ ((u'.graph.rule r).outputs ++ [n])) = _
    have hold : (y.outputs.map fun x ↦ (k.node x).path) = new.paths pre := by
      rw [← hdone]
      exact List.map_congr_left fun x hx ↦ (hpathk x (hmemt x (List.mem_append_left _ hx))).2
    have hlast : (k.node n).path = (new.node m).path := (hnode n).1.trans hpathn
    rw [hk] at hold hlast
    rw [hrule₂, ← hy, List.map_append, Graph.paths, List.map_append]
    exact congrArg₂ _ hold (congrArg (fun path ↦ [path]) hlast)
  · have hgoal : (k.node x).path ∉ new.paths (pre ++ [m]) := by
      rw [(hpathk x (h.allocated (List.mem_append_right _ hx))).2, Graph.paths, List.map_append,
        List.mem_append]
      rintro (hin | hin)
      · exact h.left x hx hin
      · exact hno x hx (List.mem_singleton.mp hin)
    rw [hk] at hgoal
    exact hgoal

theorem updateOutput_merges (hnew : Clean new) (hr : O r = none)
    (hfresh : ∀ p q' l', O p = some (q', l') → q' ≠ q) {pre post : List NodeId} {t : RuleLoop}
    (houtputs : (new.rule q).outputs = pre ++ m :: post)
    (h : OutputsMerged P w g new O s₀ r q I pre t) :
    OutputsMerged P w g new O s₀ r q I (pre ++ [m]) (updateOutput P new r t m) := by
  rcases getNode_cases P new t.state t.left m with ⟨n, hn, hpath, hget⟩ | ⟨hno, hget⟩
  · rw [updateOutput, hget]
    exact h.push_left hnew hr hn hpath t.changed
  · obtain ⟨⟨n₁, u⟩, hget₁⟩ : ∃ x, getNodeFromAll P new t.state m = x := ⟨_, rfl⟩
    obtain ⟨⟨n, u'⟩, hget₂⟩ : ∃ x, getNodeFromAll P new u m = x := ⟨_, rfl⟩
    rw [hget₁] at hget
    rw [updateOutput, hget]
    dsimp only
    rw [if_neg Bool.false_ne_true, hget₂]
    exact h.push_other hnew hr hfresh houtputs hno hget₁ hget₂ true

theorem restored_of_left_nil {t : RuleLoop} (hleft : t.left = []) : restored r t = t.state := by
  rw [restored, hleft]
  simp [Graph.updateRule, Graph.setRule]

/-- The outputs of `q` have taken the place of the outputs. -/
theorem updateRuleOutputs_merges (hnew : Clean new) {b : Bool} (hr : O r = none)
    (hfresh : ∀ p q' l', O p = some (q', l') → q' ≠ q)
    (h : Merging P w g new (openRule O r q I) s)
    (hrun : updateRuleOutputs P new s r q = .ok (b, s')) :
    Merging P w g new (openRule O r q I) s' ∧ Onward O s s' ∧
      (∃ outputs, s'.graph.rule r = { s.graph.rule r with outputs := outputs }) ∧
      s'.graph.paths (s'.graph.rule r).outputs = new.paths (new.rule q).outputs ∧
      s'.nodesSeen = s.nodesSeen := by
  obtain ⟨k, hdrop, hpure⟩ := bind_eq_ok.mp hrun
  obtain ⟨t₀, ht₀⟩ : ∃ t₀ : RuleLoop, t₀ = ⟨false, (s.graph.rule r).outputs, { s with
      graph := s.graph.updateRule r fun x ↦ { x with outputs := [] } }⟩ := ⟨_, rfl⟩
  obtain ⟨t, ht⟩ : ∃ t, t = (new.rule q).outputs.foldl (updateOutput P new r) t₀ := ⟨_, rfl⟩
  rw [← ht₀, ← ht] at hdrop hpure
  have hself : t₀.state.graph.rule r = { s.graph.rule r with outputs := [] } := by
    rw [ht₀, Graph.updateRule, Graph.setRule_rule, if_pos rfl]
  have hrestored : restored r t₀ = s := by
    rw [ht₀]
    simp [restored, Graph.updateRule, Graph.setRule]
  have hstart : OutputsMerged P w g new O s r q I [] t₀ := by
    refine ⟨?_, ?_, ⟨[], hself⟩, ?_, fun n _ ↦ List.not_mem_nil, ?_⟩
    · rw [hrestored]
      exact h
    · rw [hrestored]
      exact .refl O s
    · rw [hself]
      rfl
    · rw [ht₀]
  have hloop : (new.rule q).outputs.foldlM
      (fun t m ↦ (pure (updateOutput P new r t m) : Outcome RuleLoop)) t₀ = .ok t := by
    rw [List.foldlM_pure, ht]
    rfl
  have hdone : OutputsMerged P w g new O s r q I (new.rule q).outputs t :=
    Lib.foldlM_prefix (OutputsMerged P w g new O s r q I) hstart
      (fun pre m post u u' hl hu hstep ↦
        Except.ok.inj hstep ▸ updateOutput_merges hnew hr hfresh hl hu) hloop
  -- every old output is an output of `q`
  have hleft : t.left = [] := by
    rw [List.eq_nil_iff_forall_not_mem]
    intro n hn
    refine hdone.left n hn ((hdone.merging.opened r q I openRule_self).2.2 _ ?_)
    refine Graph.path_mem_paths (g := (restored r t).graph) ?_
    rw [restored_rule_self]
    exact List.mem_append_right _ hn
  rw [hleft] at hdrop
  obtain rfl : t.state.graph = k := Except.ok.inj hdrop
  obtain ⟨rfl, rfl⟩ := Prod.mk.inj (Except.ok.inj hpure)
  have heq := restored_of_left_nil (r := r) hleft
  refine ⟨?_, ?_, hdone.rule, hdone.done, hdone.seen⟩
  · exact heq ▸ hdone.merging
  · exact heq ▸ hdone.onward

end GraphReloader

end Falcon
