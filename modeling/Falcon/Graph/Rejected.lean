import Falcon.Graph.FirstLoad
import Falcon.Graph.Installs

/-!
# A depfile that is refused

A load cuts off the implicit inputs of its rule before it looks at the content.
Where the content is refused, they are gone from the rule, while each of them
still has the rule as a parent.
-/

namespace Falcon

namespace Depfile

open Graph

variable {ω : Type} {P : Platform ω} {w : ω} {g : Graph} {r : RuleId}

/-- The content does not parse, or is about another file than the first output
of the rule. -/
def Refused (P : Platform ω) (g : Graph) (r : RuleId) (content : String) : Prop :=
  P.parseDepfile content = none ∨ ∃ first output ins, (g.rule r).outputs.head? = some first ∧
    P.parseDepfile content = some (output, ins) ∧ output ≠ (g.node first).path

/-- The rule and the links of the nodes are what they were. -/
structure LeftAlone (g : Graph) (r : RuleId) (g' : Graph) : Prop where
  inputs : (g'.rule r).inputs = (g.rule r).inputs
  numImplicitDeps : (g'.rule r).numImplicitDeps = (g.rule r).numImplicitDeps
  numInputsReady : (g'.rule r).numInputsReady = (g.rule r).numInputsReady
  hash : (g'.rule r).hash = (g.rule r).hash ∧ (g'.rule r).hashDepfile = (g.rule r).hashDepfile
  parents : ∀ n, (g'.node n).parentRules = (g.node n).parentRules
  nodes : g'.nodes = g.nodes
  roots : g'.roots = g.roots
  sources : g'.sources = g.sources

/-- A refused load leaves the rule without its implicit inputs. -/
theorem load_refused {content : String} (hexact : (g.rule r).numInputsReady = g.nbReady r)
    (hrefused : Refused P g r content) : load P w g r content = .ok (false, detached g r) := by
  rw [load, detachImplicit_counted hexact, Lib.except_ok_bind]
  rcases hrefused with hparse | ⟨first, output, ins, hfirst, hparse, hother⟩
  · rw [hparse]
    rfl
  · have hfirst' : ((detached g r).rule r).outputs.head? = some first := by
      rw [detached_rule]
      exact hfirst
    have hother' : output ≠ ((detached g r).node first).path := hother
    simp only [hparse, hfirst', if_pos hother']
    rfl

/-- Where a rule has no implicit inputs there is nothing to cut off. -/
theorem detached_eq (h : (g.rule r).numImplicitDeps = 0)
    (hexact : (g.rule r).numInputsReady = g.nbReady r) : detached g r = g := by
  have hrun := detachImplicit_counted hexact
  rw [detachImplicit_none h] at hrun
  exact (Except.ok.inj hrun).symm

/-- A refused depfile leaves the graph as it was just if the rule has no
implicit inputs. -/
theorem load_leftAlone_iff {content : String} (hexact : (g.rule r).numInputsReady = g.nbReady r)
    (hrefused : Refused P g r content) :
    ∃ g', load P w g r content = .ok (false, g') ∧
      (LeftAlone g r g' ↔ (g.rule r).numImplicitDeps = 0) := by
  refine ⟨detached g r, load_refused hexact hrefused, fun h ↦ ?_, fun h ↦ ?_⟩
  · rw [← h.numImplicitDeps, detached_rule]
  · rw [detached_eq h hexact]
    exact ⟨rfl, rfl, rfl, ⟨rfl, rfl⟩, fun _ ↦ rfl, rfl, rfl, rfl⟩

/-- The nodes that were cut off still have the rule as a parent. -/
theorem twoWay_detached_iff (hL : g.links.TwoWay) (hr : r ∈ g.rules) :
    (detached g r).links.TwoWay ↔ implicitDeps (g.rule r) = [] := by
  have hsplit : (g.rule r).inputs =
      Hash.explicitInputs (g.rule r) ++ implicitDeps (g.rule r) :=
    (List.take_append_drop _ _).symm
  have hnodup : (g.rule r).inputs.Nodup := hL.inputs_nodup r hr
  have hinputs : ((detached g r).rule r).inputs = Hash.explicitInputs (g.rule r) := by
    rw [detached_rule]
  constructor
  · intro h
    refine List.eq_nil_iff_forall_not_mem.mpr fun n hn ↦ ?_
    have hmem : n ∈ (g.rule r).inputs := hsplit ▸ List.mem_append_right _ hn
    have hparent : r ∈ (detached g r).links.parents n := (hL.mem_parents n r).mpr ⟨hr, hmem⟩
    have hkept : n ∈ ((detached g r).rule r).inputs := ((h.mem_parents n r).mp hparent).2
    rw [hinputs] at hkept
    rw [hsplit, List.nodup_append] at hnodup
    exact hnodup.2.2 n hkept n hn rfl
  · intro hnone
    have hsame : ∀ q, ((detached g r).rule q).inputs = (g.rule q).inputs ∧
        ((detached g r).rule q).outputs = (g.rule q).outputs := by
      intro q
      by_cases hq : q = r
      · subst hq
        rw [detached_rule, hsplit, hnone, List.append_nil]
        exact ⟨rfl, rfl⟩
      · rw [detached, setRule_rule, if_neg hq]
        exact ⟨rfl, rfl⟩
    refine ⟨fun n q ↦ ?_, fun n q ↦ ?_, hL.parents_nodup, fun q hq ↦ ?_, fun q hq ↦ ?_⟩
    · change q ∈ (g.node n).parentRules ↔ q ∈ g.rules ∧ n ∈ ((detached g r).rule q).inputs
      rw [(hsame q).1]
      exact hL.mem_parents n q
    · change (g.node n).childRule = some q ↔ q ∈ g.rules ∧ n ∈ ((detached g r).rule q).outputs
      rw [(hsame q).2]
      exact hL.child_eq_some n q
    · change ((detached g r).rule q).inputs.Nodup
      rw [(hsame q).1]
      exact hL.inputs_nodup q hq
    · change ((detached g r).rule q).outputs.Nodup
      rw [(hsame q).2]
      exact hL.outputs_nodup q hq

/-- A rule that never had a depfile is given one about another file. -/
theorem load_leftAlone_first : ∃ g',
    load headerPlatform () (headerGraph false) 1 "main.i: main.c" = .ok (false, g') ∧
      (LeftAlone (headerGraph false) 1 g' ↔ ((headerGraph false).rule 1).numImplicitDeps = 0) := by
  have hparse : headerPlatform.parseDepfile "main.i: main.c" = some ("main.i", ["main.c"]) := by
    decide +kernel
  have hother : "main.i" ≠ ((headerGraph false).node 3).path := by decide
  exact load_leftAlone_iff rfl (Or.inr ⟨3, _, _, rfl, hparse, hother⟩)

/-- The depfile has two outputs.  The header that `main.c` included is no input any more. -/
theorem not_leftAlone_include :
    ¬ ∀ (g : Graph) (r : RuleId) (content : String), g.links.TwoWay → g.Exact → r ∈ g.rules →
      Refused includePlatform g r content → ∀ g',
        load includePlatform () g r content = .ok (false, g') → LeftAlone g r g' := by
  intro hclaim
  have hexact : includeGraph.Exact := by
    intro r hr
    obtain rfl : r = 0 := by simpa [includeGraph] using hr
    rfl
  have hparse : includePlatform.parseDepfile "a b: c" = none := by decide +kernel
  have hrefused : Refused includePlatform includeGraph 0 "a b: c" := Or.inl hparse
  have hkept := hclaim includeGraph 0 "a b: c" tied_includeGraph.twoWay hexact
    (by simp [includeGraph]) hrefused _ (load_refused rfl hrefused)
  have hinputs := hkept.inputs
  rw [detached_rule] at hinputs
  cases hinputs

end Depfile

end Falcon
