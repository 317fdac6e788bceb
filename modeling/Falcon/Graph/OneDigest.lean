import Mathlib.Data.Finset.Card
import Falcon.Graph.Edits
import Falcon.Graph.Rehash

/-!
# Rehashing with a single digest

A hasher that always gives the same digest changes every hash once at most, so
rehashing ends even where the graph has a cycle.
-/

namespace Falcon

namespace Graph

variable {g g' : Graph}

/-- Everything that goes into a hash has been hashed. -/
structure Hashed (g : Graph) : Prop where
  inputs : ∀ r ∈ g.rules, ∀ n ∈ (g.rule r).inputs,
    (g.node n).hash ≠ "" ∧ (g.node n).hashDepfile ≠ ""
  rules : ∀ r ∈ g.rules, (g.rule r).hash ≠ ""

theorem Hashed.congr (h : g.Hashed) (hl : g'.links = g.links)
    (hnode : ∀ n, (g.node n).hash ≠ "" ∧ (g.node n).hashDepfile ≠ "" →
      (g'.node n).hash ≠ "" ∧ (g'.node n).hashDepfile ≠ "")
    (hrule : ∀ r, (g.rule r).hash ≠ "" → (g'.rule r).hash ≠ "") : g'.Hashed where
  inputs r hr n hn := by
    rw [inputs_of_links hl] at hn
    exact hnode n (h.inputs r (rules_of_links hl ▸ hr) n hn)
  rules r hr := hrule r (h.rules r (rules_of_links hl ▸ hr))

theorem card_targets_lt_depth (g : Graph) : g.links.targets.card < g.depth := by
  have hle := List.toFinset_card_le (g.rules.flatMap fun r ↦ (g.rule r).outputs)
  exact (Nat.lt_succ_of_le hle).trans (Nat.lt_succ_self _)

/-- The targets whose hash is not `digest` yet. -/
def undigested (digest : String) (g : Graph) : Finset NodeId :=
  g.links.targets.filter fun n ↦ (g.node n).hash ≠ digest

end Graph

namespace Hash

open Graph

variable {ω : Type} {P : Platform ω} {w : ω} {g : Graph} {digest : String}

/-- Hashes have been recomputed in the graph `g`. -/
structure Redigested (digest : String) (g : Graph) (w : ω) (s : Graph × ω) : Prop where
  world : s.2 = w
  links : s.1.links = g.links
  hashed : s.1.Hashed
  undigested : s.1.undigested digest ⊆ g.undigested digest

theorem Redigested.refl (hhashed : g.Hashed) : Redigested digest g w (g, w) :=
  ⟨rfl, rfl, hhashed, Finset.Subset.refl _⟩

theorem Redigested.trans {s s' : Graph × ω} (h : Redigested digest g w s)
    (h' : Redigested digest s.1 s.2 s') : Redigested digest g w s' :=
  ⟨h'.world.trans h.world, h'.links.trans h.links, h'.hashed, h'.undigested.trans h.undigested⟩

variable (hdigest : ∀ l, P.digest l = digest) (hne : digest ≠ "")
  (hrestore : ∀ g r w, P.restoreDepfile g r w = .ok (false, w))
include hdigest hne

theorem updateRuleHash_redigested {r : RuleId} (hhashed : g.Hashed) (hr : r ∈ g.rules) :
    ∃ g', updateRuleHash P g r true true = .ok g' ∧ Redigested digest g w (g', w) := by
  have hin := hhashed.inputs r hr
  obtain ⟨g', hrun⟩ : ∃ g', updateRuleHash P g r true true = .ok g' :=
    ⟨_, updateRuleHash_eq_ok.mpr ⟨fun _ n hn ↦ (hin n hn).1,
      fun _ n hn ↦ (hin n (List.mem_of_mem_take hn)).2, rfl⟩⟩
  have hl := (updateRuleHash_links hrun).1
  obtain ⟨-, -, hg'⟩ := updateRuleHash_eq_ok.mp hrun
  have hnode : g'.node = g.node := by rw [← hg']; rfl
  refine ⟨g', hrun, rfl, hl, hhashed.congr hl (fun n hn ↦ hnode ▸ hn) fun q hq ↦ ?_, ?_⟩
  · rw [← hg', setRule_rule]
    split
    · simp only [if_true, hdigest]
      exact hne
    · exact hq
  · rw [undigested, undigested, hl, hnode]

include hrestore

/-- A rule is hashed, and then its outputs. -/
theorem recomputeRuleHash_redigested {nodeHash : Graph × ω → NodeId → Outcome (Graph × ω)}
    {s : Graph × ω} {r : RuleId} (hg : s.1.Wired) (hhashed : s.1.Hashed) (hr : r ∈ s.1.rules)
    (hnode : ∀ t n, Redigested digest s.1 s.2 t → (t.1.node n).childRule = some r →
      ∃ t', nodeHash t n = .ok t' ∧ Redigested digest t.1 t.2 t') :
    ∃ s', recomputeRuleHash P nodeHash s r = .ok s' ∧ Redigested digest s.1 s.2 s' := by
  obtain ⟨g₁, hupdate, h₁⟩ := updateRuleHash_redigested (w := s.2) hdigest hne hhashed hr
  have hmid : restoreDepfile P (s.1.rule r).hashDepfile g₁ s.2 r = .ok (g₁, s.2) := by
    rw [restoreDepfile]
    split
    · rw [hrestore]
      rfl
    · rfl
  have hloop := Lib.foldlM_rule (f := nodeHash) (l := (g₁.rule r).outputs) (s := (g₁, s.2))
    (fun _ t ↦ Redigested digest s.1 s.2 t) h₁ fun pre n post t hl ht ↦ by
      have hout : n ∈ (s.1.rule r).outputs := by
        rw [← outputs_of_links h₁.links, hl]
        exact List.mem_append_right pre List.mem_cons_self
      have hchild : (t.1.node n).childRule = some r := by
        rw [childRule_of_links ht.links]
        exact hg.outputs r hr n hout
      obtain ⟨t', hrun, ht'⟩ := hnode t n ht hchild
      exact ⟨t', hrun, ht.trans ht'⟩
  obtain ⟨s', hrun, hs'⟩ := hloop
  exact ⟨s', by rw [recomputeRuleHash, hupdate, Lib.except_ok_bind, hmid, Lib.except_ok_bind, hrun],
    hs'⟩

/-- The recursion ends: it goes on from a target only when its hash has become
`digest`. -/
theorem recomputeNodeHash_redigested {fuel : ℕ} {n : NodeId} {r : RuleId} (hg : g.Wired)
    (hhashed : g.Hashed) (hchild : (g.node n).childRule = some r)
    (hfuel : (g.undigested digest).card < fuel) :
    ∃ changed s, recomputeNodeHash P true false fuel (g, w) n = .ok (changed, s) ∧
      Redigested digest g w s := by
  induction fuel generalizing g w n r with
  | zero => omega
  | succ fuel ih =>
      obtain ⟨hr, hout, -⟩ := hg.child n r hchild
      let g₁ := g.setNode n { g.node n with hash := digest }
      have hupdate : updateNodeHash P w g n true false =
          .ok ((g.node n).hash != digest, g₁) := by
        refine (updateNodeHash_target hchild).mpr ⟨rfl, { g.node n with hash := digest },
          updateTargetHash_eq_ok.mpr ⟨fun _ ↦ hhashed.rules r hr, ?_, ?_, ?_⟩, rfl⟩
        · rintro ⟨⟩
        · simp [hdigest]
        · simp [hdigest]
      have hl : g₁.links = g.links := links_setNode rfl rfl rfl rfl
      have hsub : g₁.undigested digest ⊆ g.undigested digest := by
        intro m hm
        rw [undigested, hl, Finset.mem_filter] at hm
        refine Finset.mem_filter.mpr ⟨hm.1, fun heq ↦ hm.2 ?_⟩
        rw [setNode_node]
        split
        · rfl
        · exact heq
      have h₁ : Redigested digest g w (g₁, w) := by
        refine ⟨rfl, hl, hhashed.congr hl (fun m hm ↦ ?_) fun _ hq ↦ hq, hsub⟩
        rw [setNode_node]
        split
        · rename_i heq
          exact ⟨hne, heq ▸ hm.2⟩
        · exact hm
      rw [recomputeNodeHash, hupdate, Lib.except_ok_bind]
      cases hchanged : (g.node n).hash != digest with
      | false => exact ⟨false, (g₁, w), rfl, h₁⟩
      | true =>
          have hlt : (g₁.undigested digest).card < (g.undigested digest).card := by
            refine Finset.card_lt_card ⟨hsub, fun hsup ↦ ?_⟩
            have hmem : n ∈ g.undigested digest := by
              refine Finset.mem_filter.mpr ⟨?_, by simpa using hchanged⟩
              exact List.mem_toFinset.mpr (List.mem_flatMap.mpr ⟨r, hr, hout⟩)
            have hself := (Finset.mem_filter.mp (hsup hmem)).2
            rw [setNode_node, if_pos rfl] at hself
            exact hself rfl
          have hrules : ∀ pre q post s, (g₁.node n).parentRules = pre ++ q :: post →
              Redigested digest g₁ w s → ∃ s', recomputeRuleHash P (fun s m ↦
                recomputeNodeHash P true false fuel s m >>= fun x ↦ pure x.2) s q = .ok s' ∧
                  Redigested digest g₁ w s' := by
            intro pre q post s hq hs
            have hwired : s.1.Wired := hg.of_links (hs.links.trans hl)
            have hmem : q ∈ (s.1.node n).parentRules := by
              rw [parentRules_of_links hs.links, hq]
              exact List.mem_append_right pre List.mem_cons_self
            have hnode : ∀ t m, Redigested digest s.1 s.2 t → (t.1.node m).childRule = some q →
                ∃ t', (recomputeNodeHash P true false fuel t m >>= fun x ↦ pure x.2) = .ok t' ∧
                  Redigested digest t.1 t.2 t' := by
              intro t m ht hm
              have hcard := Finset.card_le_card (ht.undigested.trans hs.undigested)
              obtain ⟨changed, t', hrec, ht'⟩ := ih (g := t.1) (w := t.2)
                (hwired.of_links ht.links) ht.hashed hm (by omega)
              exact ⟨t', by rw [hrec]; rfl, ht'⟩
            obtain ⟨s', hrun, hs'⟩ := recomputeRuleHash_redigested hdigest hne hrestore hwired
              hs.hashed (hwired.parents n q hmem) hnode
            exact ⟨s', hrun, hs.trans hs'⟩
          obtain ⟨s', hloop, hs'⟩ := Lib.liveLoop_rule (fun _ s ↦ Redigested digest g₁ w s)
            (fun _ s hs ↦ parentRules_of_links hs.links n) hrules
            (show Redigested digest g₁ w (g₁, w) from .refl h₁.hashed)
            (show _ < (g₁.node n).parentRules.length + fuel + 1 by omega)
          refine ⟨true, s', Lib.bind_eq_ok.mpr ⟨s', hloop, rfl⟩, h₁.trans hs'⟩

end Hash

end Falcon
