import Falcon.Parser.Entries

/-!
# Which makefiles are accepted

An entry is looked at one field after the other, and the pointer to a field that
is not there is followed.  The lists of paths are the elements of whatever value
the field has, and a value that is no array has none.
-/

namespace Falcon

namespace JsonVal

def isArray : JsonVal → Bool
  | .array _ => true
  | _ => false

/-- Both lists of paths satisfy `p`, and the other fields are strings. -/
def hasFields (p : JsonVal → Bool) (v : JsonVal) : Bool :=
  (v.getObject "inputs").any p && (v.getObject "outputs").any p &&
    (v.getObject "cmd").all isString && (v.getObject "depfile").all isString

/-- The elements are strings, if there are any. -/
def onlyStrings (v : JsonVal) : Bool := v.elements.all isString

def stringArray (v : JsonVal) : Bool := v.isArray && v.onlyStrings

/-- The parser comes to a field that the entry does not have. -/
def lacksField (v : JsonVal) : Bool :=
  v.isRule && ((v.getObject "inputs").isNone ||
    (v.getObject "inputs").any onlyStrings && (v.getObject "outputs").isNone)

end JsonVal

namespace GraphParser

open JsonVal

/-- No path is listed as an output by two entries. -/
def OneWriter (rules : List JsonVal) : Prop :=
  (rules.filter isRule).Pairwise fun v w ↦ (v.listed "outputs").Disjoint (w.listed "outputs")

/-- The makefiles whose entries have their fields, with values that satisfy `p`
for the paths. -/
def Fields (p : JsonVal → Bool) (rules : List JsonVal) : Prop :=
  (∀ v ∈ rules, v.isRule = true → v.hasFields p = true) ∧ OneWriter rules

/-- The makefiles that ought to be accepted. -/
def Grammar (rules : List JsonVal) : Prop := Fields stringArray rules

theorem stringField_cases (name : String) (o : Option JsonVal) :
    o.all isString = true ∧ (∃ data, stringField name o = .ok data) ∨
      o.all isString = false ∧ stringField name o =
        .error (.exception ("Expecting STRING value for " ++ name ++ " field")) := by
  rcases o with - | (entries | elements | data | data)
  · exact Or.inl ⟨rfl, _, rfl⟩
  · exact Or.inr ⟨rfl, rfl⟩
  · exact Or.inr ⟨rfl, rfl⟩
  · exact Or.inl ⟨rfl, _, rfl⟩
  · exact Or.inr ⟨rfl, rfl⟩

/-- A second child is the only thing that stops the linking of the outputs. -/
theorem addOutputs_cases {r : RuleId} {l : List NodeId} (hnd : l.Nodup) (g : Graph) :
    (∀ n ∈ l, (g.node n).childRule = none) ∧ (∃ g', l.foldlM (addOutput r) g = .ok g') ∨
      (∃ n ∈ l, (g.node n).childRule ≠ none) ∧
        ∃ message, l.foldlM (addOutput r) g = .error (.exception message) := by
  induction l generalizing g with
  | nil => exact Or.inl ⟨by simp, g, rfl⟩
  | cons m l ih =>
      obtain ⟨hm, hnd⟩ := List.nodup_cons.mp hnd
      rw [List.foldlM_cons]
      cases hc : (g.node m).childRule with
      | some q =>
          refine Or.inr ⟨⟨m, List.mem_cons_self, by simp [hc]⟩, ?_⟩
          simp [addOutput, Graph.onNode, Node.setChild, hc, Except.map]
      | none =>
          obtain ⟨g₁, hstep⟩ : ∃ g₁, addOutput r g m = .ok g₁ := by
            simp [addOutput, Graph.onNode, Node.setChild, hc, Except.map]
          have hold : ∀ n ∈ l, (g₁.node n).childRule = (g.node n).childRule := by
            have hloop : [m].foldlM (addOutput r) g = .ok g₁ := by
              rw [List.foldlM_cons, hstep]
              rfl
            obtain ⟨-, hnode, -⟩ := addOutputs_spec (List.nodup_singleton m) hloop
            intro n hn
            have hne : n ≠ m := fun heq ↦ hm (heq ▸ hn)
            simp [hnode, hne]
          rw [hstep]
          rcases ih hnd g₁ with ⟨hall, hok⟩ | ⟨⟨n, hn, hchild⟩, herror⟩
          · refine Or.inl ⟨fun n hn ↦ ?_, hok⟩
            rcases List.mem_cons.mp hn with rfl | hn
            · exact hc
            · exact hold n hn ▸ hall n hn
          · exact Or.inr ⟨⟨n, List.mem_cons_of_mem _ hn, hold n hn ▸ hchild⟩, herror⟩

theorem addRule_cases {A : Allocator} (g : Graph) {inputs outputs : List NodeId}
    (command depfile : String) (hin : inputs.Nodup) (hout : outputs.Nodup) :
    (∀ n ∈ outputs, (g.node n).childRule = none) ∧
        (∃ g', addRule A g inputs outputs command depfile = .ok g') ∨
      (∃ n ∈ outputs, (g.node n).childRule ≠ none) ∧
        ∃ message, addRule A g inputs outputs command depfile = .error (.exception message) := by
  rw [addRule]
  generalize A.newRule g.rules = r
  simp only
  generalize hg₀ : ({ g.setRule r { Rule.create inputs outputs with
    command := command, depfile := depfile } with rules := g.rules ++ [r] } : Graph) = g₀
  have hrule₀ : g₀.rule r =
      { Rule.create inputs outputs with command := command, depfile := depfile } := by
    rw [← hg₀]
    exact (Graph.setRule_rule _ _ _ _).trans (if_pos rfl)
  obtain ⟨g₁, hinputs, hnode, -⟩ := addInputs_spec (r := r) hin (g := g₀) (by
    rw [hrule₀]
    simp [Rule.create])
  have hchild : ∀ n, (g₁.node n).childRule = (g.node n).childRule := by
    intro n
    rw [hnode, ← hg₀]
    simp only
    split <;> rfl
  rw [hinputs, Lib.except_ok_bind]
  rcases addOutputs_cases (r := r) hout g₁ with ⟨hall, hok⟩ | ⟨⟨n, hn, hne⟩, herror⟩
  · exact Or.inl ⟨fun n hn ↦ hchild n ▸ hall n hn, hok⟩
  · exact Or.inr ⟨⟨n, hn, hchild n ▸ hne⟩, herror⟩

/-- The outputs of an entry are free just if no earlier entry lists one of them. -/
theorem outputs_free_iff {g : Graph} {entries : List JsonVal} (hp : Parsed g)
    (hlisted : Listed g entries) {paths : List String} {l : List NodeId} (h : Names g paths l) :
    (∀ n ∈ l, (g.node n).childRule = none) ↔
      ∀ w ∈ entries, (w.listed "outputs").Disjoint paths := by
  constructor
  · intro hfree w hw path hpath hmem
    obtain ⟨r, hr, hgives⟩ := hlisted.rule hw
    obtain ⟨m, hm, hmpath⟩ := hgives.outputs.path path hpath
    obtain ⟨n, hn, hnpath⟩ := h.path path hmem
    have heq : m = n := hp.path_injective (hgives.outputs.node m hm).1 (h.node n hn).1
      (hmpath.trans hnpath.symm)
    have hchild : (g.node n).childRule = some r :=
      (hp.twoWay.child_eq_some n r).mpr ⟨hr, heq ▸ hm⟩
    rw [hfree n hn] at hchild
    cases hchild
  · intro hdisjoint n hn
    by_contra hne
    obtain ⟨r, hchild⟩ := Option.ne_none_iff_exists'.mp hne
    obtain ⟨hr, hout⟩ := (hp.twoWay.child_eq_some n r).mp hchild
    obtain ⟨w, hw, hgives⟩ := hlisted.entry hr
    exact hdisjoint w hw (hgives.outputs.node n hout).2 (h.node n hn).2

/-! ## One entry -/

theorem processRule_of_isRule {A : Allocator} {g : Graph} {v : JsonVal} (hv : v.isRule = true) :
    processRule A g v = (do
      let (inputs, g) ← checkNode A g (v.getObject "inputs")
      let (outputs, g) ← checkNode A g (v.getObject "outputs")
      let command ← stringField "cmd" (v.getObject "cmd")
      let depfile ← stringField "depfile" (v.getObject "depfile")
      addRule A g inputs outputs command depfile) := by
  cases v with
  | object fields =>
      have hsome : ((getObject "inputs" (.object fields)).isNone &&
          (getObject "outputs" (.object fields)).isNone) = false := by
        rw [isRule, Bool.or_eq_true] at hv
        rw [Bool.and_eq_false_iff]
        exact hv.imp (by simp [getObject]) (by simp [getObject])
      simp only [processRule, hsome]
      rfl
  | array l => cases hv
  | string data => cases hv
  | literal data => cases hv

theorem processRule_of_not_isRule {A : Allocator} {g : Graph} {v : JsonVal}
    (hv : v.isRule = false) : processRule A g v = .ok g := by
  cases v with
  | object fields =>
      rw [processRule, if_pos]
      · rfl
      · simpa [isRule, getObject] using hv
  | array l => rfl
  | string data => rfl
  | literal data => rfl

/-- An entry that has its fields and no output of the earlier ones. -/
def Follows (entries : List JsonVal) (v : JsonVal) : Prop :=
  v.isRule = true → v.hasFields onlyStrings = true ∧
    ∀ w ∈ entries, (w.listed "outputs").Disjoint (v.listed "outputs")

/-- The three ways in which the parser deals with an entry. -/
theorem processRule_cases {A : Allocator} {g : Graph} {entries : List JsonVal} (hp : Parsed g)
    (hlisted : Listed g entries) (v : JsonVal) :
    Follows entries v ∧ v.lacksField = false ∧ (∃ g', processRule A g v = .ok g') ∨
      ¬ Follows entries v ∧ v.lacksField = true ∧ processRule A g v = .error .nullDereference ∨
      ¬ Follows entries v ∧ v.lacksField = false ∧
        ∃ message, processRule A g v = .error (.exception message) := by
  cases hv : v.isRule with
  | false =>
      refine Or.inl ⟨?_, by simp [lacksField, hv], g, processRule_of_not_isRule hv⟩
      intro h
      rw [hv] at h
      cases h
  | true =>
      rw [processRule_of_isRule hv]
      have hfollows : Follows entries v ↔ v.hasFields onlyStrings = true ∧
          ∀ w ∈ entries, (w.listed "outputs").Disjoint (v.listed "outputs") := by
        simp [Follows, hv]
      rw [hfollows]
      -- the fields are looked at one after the other
      cases hin : v.getObject "inputs" with
      | none => exact Or.inr (Or.inl ⟨by simp [hasFields, hin], by simp [lacksField, hv, hin], rfl⟩)
      | some vin =>
          rcases checkNode_cases A g vin with ⟨hall₁, ⟨inputs, g₁⟩, hcheck₁⟩ | ⟨hall₁, hcheck₁⟩
          swap
          · rw [hcheck₁]
            exact Or.inr (Or.inr ⟨by simp [hasFields, hin, onlyStrings, hall₁],
              by simp [lacksField, hin, onlyStrings, hall₁], _, rfl⟩)
          rw [hcheck₁, Lib.except_ok_bind]
          obtain ⟨hp₁, -, hnd₁, -⟩ := checkNode_parsed hp hcheck₁
          obtain ⟨hgrows₁, hrules₁, -⟩ := checkNode_names hp hcheck₁
          cases hout : v.getObject "outputs" with
          | none =>
              exact Or.inr (Or.inl ⟨by simp [hasFields, hout],
                by simp [lacksField, hv, hin, hout, onlyStrings, hall₁], rfl⟩)
          | some vout =>
              have hfields : v.lacksField = false := by simp [lacksField, hin, hout]
              rcases checkNode_cases A g₁ vout with
                ⟨hall₂, ⟨outputs, g₂⟩, hcheck₂⟩ | ⟨hall₂, hcheck₂⟩
              swap
              · simp only [hcheck₂]
                exact Or.inr (Or.inr ⟨by simp [hasFields, hout, onlyStrings, hall₂],
                  hfields, _, rfl⟩)
              simp only [hcheck₂, Lib.except_ok_bind]
              obtain ⟨hp₂, -, hnd₂, -⟩ := checkNode_parsed hp₁ hcheck₂
              obtain ⟨hgrows₂, hrules₂, hnames⟩ := checkNode_names hp₁ hcheck₂
              rcases stringField_cases "cmd" (v.getObject "cmd") with
                ⟨hcmd, command, hread⟩ | ⟨hcmd, hread⟩
              swap
              · rw [hread]
                exact Or.inr (Or.inr ⟨by simp [hasFields, hcmd], hfields, _, rfl⟩)
              rw [hread, Lib.except_ok_bind]
              rcases stringField_cases "depfile" (v.getObject "depfile") with
                ⟨hdep, depfile, hread⟩ | ⟨hdep, hread⟩
              swap
              · rw [hread]
                exact Or.inr (Or.inr ⟨by simp [hasFields, hdep], hfields, _, rfl⟩)
              rw [hread, Lib.except_ok_bind]
              have hyes : v.hasFields onlyStrings = true := by
                simp [hasFields, hin, hout, onlyStrings, hall₁, hall₂, hcmd, hdep]
              have hlisted₂ : Listed g₂ entries := by
                rw [Listed, hrules₂, hrules₁]
                exact hlisted.grows (hgrows₁.trans hgrows₂)
              have hpaths : v.listed "outputs" = vout.elements.filterMap string? := by
                rw [listed, hout]
                rfl
              rw [hpaths, ← outputs_free_iff hp₂ hlisted₂ hnames]
              rcases addRule_cases (A := A) g₂ command depfile hnd₁ hnd₂ with
                ⟨hfree, hok⟩ | ⟨⟨n, hn, hne⟩, herror⟩
              · exact Or.inl ⟨⟨hyes, hfree⟩, hfields, hok⟩
              · exact Or.inr (Or.inr ⟨fun h ↦ hne (h.2 n hn), hfields, herror⟩)

/-! ## The whole makefile -/

theorem fields_snoc_iff (rules : List JsonVal) (v : JsonVal) :
    Fields onlyStrings (rules ++ [v]) ↔
      Fields onlyStrings rules ∧ Follows (rules.filter isRule) v := by
  have hall : (∀ w ∈ rules ++ [v], w.isRule = true → w.hasFields onlyStrings = true) ↔
      (∀ w ∈ rules, w.isRule = true → w.hasFields onlyStrings = true) ∧
        (v.isRule = true → v.hasFields onlyStrings = true) := by
    simp only [List.mem_append, List.mem_singleton]
    constructor
    · exact fun h ↦ ⟨fun w hw ↦ h w (Or.inl hw), h v (Or.inr rfl)⟩
    · rintro ⟨h, hv⟩ w (hw | rfl)
      · exact h w hw
      · exact hv
  have hpair : OneWriter (rules ++ [v]) ↔ OneWriter rules ∧ (v.isRule = true →
      ∀ w ∈ rules.filter isRule, (w.listed "outputs").Disjoint (v.listed "outputs")) := by
    rw [OneWriter, List.filter_append, List.pairwise_append, OneWriter, List.filter_singleton]
    cases v.isRule <;> simp
  rw [Fields, hall, hpair, Fields, Follows]
  constructor
  · rintro ⟨⟨h, hv⟩, hone, hdisjoint⟩
    exact ⟨⟨h, hone⟩, fun hrule ↦ ⟨hv hrule, hdisjoint hrule⟩⟩
  · rintro ⟨⟨h, hone⟩, hfollows⟩
    exact ⟨⟨h, fun hrule ↦ (hfollows hrule).1⟩, hone, fun hrule ↦ (hfollows hrule).2⟩

/-- The entries are read to the end just if each of them follows the others. -/
theorem processRules_ok_iff (A : Allocator) (rules : List JsonVal) :
    (∃ g, rules.foldlM (processRule A) Graph.empty = .ok g) ↔ Fields onlyStrings rules := by
  induction rules using List.reverseRecOn with
  | nil => simp [Fields, OneWriter]
  | append_singleton rules v ih =>
      rw [fields_snoc_iff, ← ih, List.foldlM_append]
      constructor
      · rintro ⟨g', hrun⟩
        obtain ⟨g, hloop, hrun⟩ := Lib.bind_eq_ok.mp hrun
        obtain ⟨hp, -, hlisted⟩ := processRules_listed hloop
        refine ⟨⟨g, hloop⟩, ?_⟩
        rcases processRule_cases (A := A) hp hlisted v with ⟨h, -⟩ | ⟨-, -, h⟩ | ⟨-, -, _, h⟩
        · exact h
        · simp [h] at hrun
        · simp [h] at hrun
      · rintro ⟨⟨g, hloop⟩, hfollows⟩
        obtain ⟨hp, -, hlisted⟩ := processRules_listed hloop
        rcases processRule_cases (A := A) hp hlisted v with ⟨-, -, g', h⟩ | ⟨h, -⟩ | ⟨h, -⟩
        · exact ⟨g', by simp [hloop, h]⟩
        · exact absurd hfollows h
        · exact absurd hfollows h

theorem processJson_ok_iff (A : Allocator) (graphFilePath : String) (rules : List JsonVal) :
    (∃ g, processJson A graphFilePath rules = .ok g) ↔ Fields onlyStrings rules := by
  rw [← processRules_ok_iff A]
  constructor
  · rintro ⟨g, hrun⟩
    obtain ⟨g₀, hloop, -⟩ := Lib.bind_eq_ok.mp hrun
    exact ⟨g₀, hloop⟩
  · rintro ⟨g₀, hloop⟩
    exact ⟨_, by rw [processJson, hloop]; rfl⟩

/-- A null pointer is followed just at an entry without one of its fields, if no
earlier entry has stopped the parser. -/
theorem processJson_error_iff (A : Allocator) (graphFilePath : String) (rules : List JsonVal) :
    (∃ f, processJson A graphFilePath rules = .error f ∧ ∀ message, f ≠ .exception message) ↔
      ∃ pre v post, rules = pre ++ v :: post ∧ Fields onlyStrings pre ∧ v.lacksField = true := by
  have herror : ∀ f, processJson A graphFilePath rules = .error f ↔
      rules.foldlM (processRule A) Graph.empty = .error f := by
    intro f
    rw [processJson]
    cases rules.foldlM (processRule A) Graph.empty <;> simp
  simp only [herror, Lib.foldlM_eq_error]
  constructor
  · rintro ⟨f, ⟨pre, v, post, g, rfl, hloop, hrun⟩, hf⟩
    refine ⟨pre, v, post, rfl, (processRules_ok_iff A pre).mp ⟨g, hloop⟩, ?_⟩
    obtain ⟨hp, -, hlisted⟩ := processRules_listed hloop
    rcases processRule_cases (A := A) hp hlisted v with
      ⟨-, -, g', h⟩ | ⟨-, h, -⟩ | ⟨-, -, message, h⟩
    · simp [h] at hrun
    · exact h
    · rw [h] at hrun
      exact absurd (Except.error.inj hrun).symm (hf message)
  · rintro ⟨pre, v, post, rfl, hpre, hlacks⟩
    obtain ⟨g, hloop⟩ := (processRules_ok_iff A pre).mpr hpre
    obtain ⟨hp, -, hlisted⟩ := processRules_listed hloop
    rcases processRule_cases (A := A) hp hlisted v with ⟨-, h, -⟩ | ⟨-, -, h⟩ | ⟨-, h, -⟩
    · simp [hlacks] at h
    · exact ⟨_, ⟨pre, v, post, g, rfl, hloop, h⟩, by simp⟩
    · simp [hlacks] at h

theorem hasFields_stringArray (v : JsonVal) :
    v.hasFields stringArray = true ↔ v.hasFields onlyStrings = true ∧
      (v.getObject "inputs").all isArray = true ∧ (v.getObject "outputs").all isArray = true := by
  cases hin : v.getObject "inputs" with
  | none => simp [hasFields, hin]
  | some vin =>
      cases hout : v.getObject "outputs" with
      | none => simp [hasFields, hout]
      | some vout =>
          simp only [hasFields, hin, hout, stringArray, Option.any_some, Option.all_some,
            Bool.and_eq_true]
          tauto

theorem grammar_iff (rules : List JsonVal) :
    Grammar rules ↔ Fields onlyStrings rules ∧ ∀ v ∈ rules, v.isRule = true →
      (v.getObject "inputs").all isArray = true ∧ (v.getObject "outputs").all isArray = true := by
  rw [Grammar, Fields, Fields]
  constructor
  · rintro ⟨h, hone⟩
    refine ⟨⟨fun v hv hrule ↦ ?_, hone⟩, fun v hv hrule ↦ ?_⟩
    · exact ((hasFields_stringArray v).mp (h v hv hrule)).1
    · exact ((hasFields_stringArray v).mp (h v hv hrule)).2
  · rintro ⟨⟨h, hone⟩, harray⟩
    exact ⟨fun v hv hrule ↦
      (hasFields_stringArray v).mpr ⟨h v hv hrule, harray v hv hrule⟩, hone⟩

/-- The parser returns for the grammar and throws an exception for all else. -/
def AcceptsGrammar (A : Allocator) (graphFilePath : String) (rules : List JsonVal) : Prop :=
  (∀ f, processJson A graphFilePath rules = .error f → ∃ message, f = .exception message) ∧
    ((∃ g, processJson A graphFilePath rules = .ok g) ↔ Grammar rules)

/-- The parser accepts the grammar just if no entry lacks a field behind entries
that are all read, and no makefile that is read has a value for a list of paths
that is no array. -/
theorem acceptsGrammar_iff (A : Allocator) (graphFilePath : String) (rules : List JsonVal) :
    AcceptsGrammar A graphFilePath rules ↔
      (∀ pre v post, rules = pre ++ v :: post → Fields onlyStrings pre → v.lacksField = false) ∧
      (Fields onlyStrings rules → ∀ v ∈ rules, v.isRule = true →
        (v.getObject "inputs").all isArray = true ∧ (v.getObject "outputs").all isArray = true) := by
  have hfaults : (∀ f, processJson A graphFilePath rules = .error f →
      ∃ message, f = .exception message) ↔
      ∀ pre v post, rules = pre ++ v :: post → Fields onlyStrings pre → v.lacksField = false := by
    constructor
    · intro hexception pre v post hsplit hpre
      by_contra hlacks
      obtain ⟨f, hrun, hf⟩ := (processJson_error_iff A graphFilePath rules).mpr
        ⟨pre, v, post, hsplit, hpre, Bool.eq_true_of_not_eq_false hlacks⟩
      obtain ⟨message, heq⟩ := hexception f hrun
      exact hf message heq
    · intro hfields f hrun
      by_contra hf
      obtain ⟨pre, v, post, hsplit, hpre, hlacks⟩ :=
        (processJson_error_iff A graphFilePath rules).mp
          ⟨f, hrun, fun message heq ↦ hf ⟨message, heq⟩⟩
      simp [hfields pre v post hsplit hpre] at hlacks
  rw [AcceptsGrammar, hfaults, processJson_ok_iff, grammar_iff]
  constructor
  · rintro ⟨hfields, hiff⟩
    exact ⟨hfields, fun hread ↦ (hiff.mp hread).2⟩
  · rintro ⟨hfields, harray⟩
    exact ⟨hfields, ⟨fun hread ↦ ⟨hread, harray hread⟩, fun h ↦ h.1⟩⟩

/-- The first entry has inputs and no outputs. -/
theorem not_acceptsGrammar_outputs :
    ¬ ∀ (A : Allocator) (graphFilePath : String) (rules : List JsonVal),
      AcceptsGrammar A graphFilePath rules := by
  intro hclaim
  let entry : JsonVal := .object [("inputs", .array [.string "a"]), ("cmd", .string "cat a")]
  have hlacks : entry.lacksField = true := by decide
  have hrun : processJson bumpAllocator "falcon.json" [entry] = .error .nullDereference := by
    have hcases := @processRule_cases bumpAllocator _ [] parsed_empty List.Forall₂.nil entry
    rcases hcases with ⟨-, h, -⟩ | ⟨-, -, h⟩ | ⟨-, h, -⟩
    · simp [hlacks] at h
    · simp [processJson, h]
    · simp [hlacks] at h
  obtain ⟨message, h⟩ := (hclaim bumpAllocator "falcon.json" [entry]).1 _ hrun
  cases h

end GraphParser

end Falcon
