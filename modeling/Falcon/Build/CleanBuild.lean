import Falcon.Build.LazyCache

/-!
# What a clean build produces

Commands are functions of the contents of the inputs of their rule.  Building
everything from the sources gives each target a content that depends on the
sources only; on an acyclic graph there is exactly one.
-/

namespace Falcon

/-- What commands write: from the text of the command, the paths and contents
of the inputs and the path of the output, the content of the output. -/
abbrev Commands := String → List (String × String) → String → String

/-- What a command reads from an input if `content` gives the contents of the
files: a phony target is no file. -/
def Links.read (L : Links) (content : String → String) (n : NodeId) : String :=
  match L.child n with
  | none => content (L.path n)
  | some r => if L.command r = "" then "" else content (L.path n)

/-- What the command of `r` writes to its output `o` if it reads `contents`. -/
def Links.exec (L : Links) (X : Commands) (contents : NodeId → String) (r : RuleId) (o : NodeId) :
    String :=
  X (L.command r) ((L.inputs r).map fun m ↦ (L.path m, contents m)) (L.path o)

/-- A build of everything from sources with the contents `κ` gives node `n` the
content `c`. -/
inductive CleanBuild (X : Commands) (L : Links) (κ : String → String) : NodeId → String → Prop
  | source {n : NodeId} (hn : L.child n = none) : CleanBuild X L κ n (κ (L.path n))
  | phony {n : NodeId} {r : RuleId} (hn : L.child n = some r) (hphony : L.command r = "") :
      CleanBuild X L κ n ""
  | built {n : NodeId} {r : RuleId} (contents : NodeId → String) (hn : L.child n = some r)
      (hcommand : L.command r ≠ "")
      (hinputs : ∀ m ∈ L.inputs r, CleanBuild X L κ m (contents m)) :
      CleanBuild X L κ n (L.exec X contents r n)

namespace CleanBuild

variable {X : Commands} {L : Links} {κ κ' : String → String} {n : NodeId} {c c' : String}

theorem unique (h : CleanBuild X L κ n c) (h' : CleanBuild X L κ n c') : c = c' := by
  induction h generalizing c' with
  | source hn =>
      cases h' with
      | source => rfl
      | phony hn' => simp [hn] at hn'
      | built _ hn' => simp [hn] at hn'
  | phony hn hphony =>
      cases h' with
      | source hn' => simp [hn] at hn'
      | phony => rfl
      | built _ hn' hcommand =>
          obtain rfl := Option.some.inj (hn.symm.trans hn')
          exact absurd hphony hcommand
  | built contents hn hcommand _ ih =>
      cases h' with
      | source hn' => simp [hn] at hn'
      | phony hn' hphony =>
          obtain rfl := Option.some.inj (hn.symm.trans hn')
          exact absurd hphony hcommand
      | built contents' hn' _ hinputs' =>
          obtain rfl := Option.some.inj (hn.symm.trans hn')
          rw [Links.exec, Links.exec]
          congr 1
          apply List.map_congr_left
          intro m hm
          rw [ih m hm (hinputs' m hm)]

/-- Every node of an acyclic graph can be built. -/
theorem exists_content (X : Commands) (hL : L.TwoWay) (hac : L.Acyclic)
    (κ : String → String) (n : NodeId) :
    ∃ c, CleanBuild X L κ n c := by
  generalize hk : L.rankBelow n = k
  induction k using Nat.strong_induction_on generalizing n with
  | _ k ih =>
      cases hn : L.child n with
      | none => exact ⟨_, .source hn⟩
      | some r =>
          by_cases hcommand : L.command r = ""
          · exact ⟨_, .phony hn hcommand⟩
          · have hbelow : ∀ m, ∃ c, m ∈ L.inputs r → CleanBuild X L κ m c := by
              intro m
              by_cases hm : m ∈ L.inputs r
              · have hlt := Links.rankBelow_lt hL hac hn hm
                obtain ⟨c, hc⟩ := ih (L.rankBelow m) (hk ▸ hlt) m rfl
                exact ⟨c, fun _ ↦ hc⟩
              · exact ⟨"", fun hin ↦ absurd hin hm⟩
            choose contents hcontents using hbelow
            exact ⟨_, .built contents hn hcommand hcontents⟩

/-- Only the sources below a node matter. -/
theorem congr (h : CleanBuild X L κ n c)
    (hsame : ∀ m, L.child m = none → n ∈ L.Above m → κ' (L.path m) = κ (L.path m)) :
    CleanBuild X L κ' n c := by
  induction h with
  | source hn =>
      rw [← hsame _ hn (Links.self_mem_Above _)]
      exact .source hn
  | phony hn hphony => exact .phony hn hphony
  | built contents hn hcommand _ ih =>
      refine .built contents hn hcommand fun m hm ↦ ih m hm fun k hk hmk ↦ ?_
      exact hsame k hk (hmk.tail ⟨_, hn, hm⟩)

end CleanBuild

end Falcon
