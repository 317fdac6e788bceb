import Falcon.Cache.Keys
import Falcon.Graph.DepfileParser

/-!
# What a cache key tells

The key of a node is the hash of its path and of what it is made from, put one
after the other without a separator.  So a key tells two nodes apart unless
their texts can be cut in two ways: a longer path with a shorter content, a
content that is the hash of a rule, or a command that begins with hashes.
-/

namespace Falcon

open Hash

/-- What a node is made from: the content of a file, or the hashes of the
inputs of its rule and the command. -/
inductive Origin where
  | file (content : String)
  | built (inputHashes : List String) (command : String)
  deriving DecidableEq, Repr

namespace Origin

/-- What `updateNodeHash` feeds to the hasher after the path. -/
def text (H : Host) : Origin → String
  | .file content => content
  | .built inputHashes command => H.platform.digest (inputHashes ++ [command])

end Origin

/-- The origin of a node if `κ` gives the contents of the source files. -/
def Graph.origin (g : Graph) (κ : String → String) (n : NodeId) : Origin :=
  match (g.node n).childRule with
  | none => .file (κ (g.node n).path)
  | some r => .built ((g.rule r).inputs.map fun m ↦ (g.node m).hash) (g.rule r).command

/-- Different nodes whose keys are hashes of one text. -/
def Ambiguous (H : Host) (path : String) (o : Origin) (path' : String) (o' : Origin) : Prop :=
  match o, o' with
  | .file content, .file content' => path ≠ path' ∧ path ++ content = path' ++ content'
  | .file content, .built hashes command =>
    path ++ content = path' ++ H.platform.digest (hashes ++ [command])
  | .built hashes command, .file content =>
    path ++ H.platform.digest (hashes ++ [command]) = path' ++ content
  | .built hashes command, .built hashes' command' =>
    path = path' ∧ hashes.length ≠ hashes'.length ∧
      String.join hashes ++ command = String.join hashes' ++ command'

instance (H : Host) (path : String) (o : Origin) (path' : String) (o' : Origin) :
    Decidable (Ambiguous H path o path' o') :=
  match o, o' with
  | .file content, .file content' =>
    inferInstanceAs (Decidable (path ≠ path' ∧ path ++ content = path' ++ content'))
  | .file content, .built hashes command =>
    inferInstanceAs
      (Decidable (path ++ content = path' ++ H.platform.digest (hashes ++ [command])))
  | .built hashes command, .file content =>
    inferInstanceAs
      (Decidable (path ++ H.platform.digest (hashes ++ [command]) = path' ++ content))
  | .built hashes command, .built hashes' command' =>
    inferInstanceAs (Decidable (path = path' ∧ hashes.length ≠ hashes'.length ∧
      String.join hashes ++ command = String.join hashes' ++ command'))

/-- Every hash is what `updateNodeHash` and `updateRuleHash` make of the
contents `κ` and of the hashes below. -/
structure Graph.Keyed (g : Graph) (H : Host) (κ : String → String) : Prop where
  source : ∀ n ∈ g.allocated, (g.node n).childRule = none →
    (g.node n).hash = H.platform.digest [(g.node n).path, κ (g.node n).path]
  target : ∀ n ∈ g.allocated, ∀ r, (g.node n).childRule = some r → r ∈ g.rules ∧
    (g.node n).hash = H.platform.digest [(g.node n).path, (g.rule r).hash]
  rule : ∀ r ∈ g.rules, (g.rule r).hash =
    H.platform.digest ((g.rule r).inputs.map (fun m ↦ (g.node m).hash) ++ [(g.rule r).command])
  inputs : ∀ r ∈ g.rules, ∀ m ∈ (g.rule r).inputs, m ∈ g.allocated

namespace Graph.Keyed

variable {H : Host} {S : Set String} {g g' : Graph} {κ κ' : String → String} {n m : NodeId}

/-- The hash of a node is that of its path and its origin. -/
theorem hash_eq (h : g.Keyed H κ) (hn : n ∈ g.allocated) :
    (g.node n).hash = H.platform.digest [(g.node n).path, (g.origin κ n).text H] := by
  rw [Graph.origin]
  cases hc : (g.node n).childRule with
  | none => exact h.source n hn hc
  | some r =>
      obtain ⟨hr, hhash⟩ := h.target n hn r hc
      rw [hhash, h.rule r hr]
      rfl

/-- The text that is hashed is one of the strings that the graph hashes. -/
theorem text_mem (h : g.Keyed H κ) (hn : n ∈ g.allocated) :
    String.join [(g.node n).path, (g.origin κ n).text H] ∈ g.hashInputs κ := by
  rw [Graph.origin]
  cases hc : (g.node n).childRule with
  | none => exact Or.inl (Or.inl ⟨n, hn, hc, rfl⟩)
  | some r =>
      refine Or.inl (Or.inr ⟨n, hn, r, hc, ?_⟩)
      rw [h.rule r (h.target n hn r hc).1]
      rfl

theorem built_mem (h : g.Keyed H κ) (hn : n ∈ g.allocated) {hashes : List String}
    {command : String} (ho : g.origin κ n = .built hashes command) :
    String.join (hashes ++ [command]) ∈ g.hashInputs κ := by
  rw [Graph.origin] at ho
  cases hc : (g.node n).childRule with
  | none =>
      rw [hc] at ho
      cases ho
  | some r =>
      rw [hc] at ho
      obtain ⟨rfl, rfl⟩ := Origin.built.inj ho
      exact Or.inr ⟨r, (h.target n hn r hc).1, rfl⟩

variable (hS : H.CollisionFree S)
include hS

theorem hash_length (h : g.Keyed H κ) (hn : n ∈ g.allocated) : (g.node n).hash.length = 64 := by
  rw [h.hash_eq hn]
  exact hS.digest_length _

theorem built_length (h : g.Keyed H κ) (hn : n ∈ g.allocated) {hashes : List String}
    {command : String} (ho : g.origin κ n = .built hashes command) :
    ∀ s ∈ hashes, s.length = 64 := by
  rw [Graph.origin] at ho
  cases hc : (g.node n).childRule with
  | none =>
      rw [hc] at ho
      cases ho
  | some r =>
      rw [hc] at ho
      obtain ⟨rfl, -⟩ := Origin.built.inj ho
      intro s hs
      obtain ⟨k, hk, rfl⟩ := List.mem_map.mp hs
      exact h.hash_length hS (h.inputs r (h.target n hn r hc).1 k hk)

end Graph.Keyed

theorem length_join {k : ℕ} {l : List String} (hl : ∀ s ∈ l, s.length = k) :
    (String.join l).length = k * l.length := by
  induction l with
  | nil => simp
  | cons s l ih =>
      rw [String.join_cons, String.length_append, hl s List.mem_cons_self,
        ih fun t ht ↦ hl t (List.mem_cons_of_mem s ht), List.length_cons, Nat.mul_succ,
        Nat.add_comm]

theorem join_snoc (l : List String) (s : String) : String.join (l ++ [s]) = String.join l ++ s := by
  rw [String.join_append, String.join_cons, String.join_nil, String.append_empty]

/-- As many strings of one length, followed by anything, can be read off. -/
theorem join_append_inj {k : ℕ} {l l' : List String} {s s' : String}
    (hl : ∀ x ∈ l, x.length = k) (hl' : ∀ x ∈ l', x.length = k) (hlen : l.length = l'.length)
    (h : String.join l ++ s = String.join l' ++ s') : l = l' ∧ s = s' := by
  have hsame : (String.join l).toList.length = (String.join l').toList.length := by
    rw [String.length_toList, String.length_toList, length_join hl, length_join hl', hlen]
  rw [← String.toList_inj, String.toList_append, String.toList_append] at h
  obtain ⟨hjoin, hs⟩ := List.append_inj h hsame
  exact ⟨join_inj hl hl' hlen (String.toList_inj.mp hjoin), String.toList_inj.mp hs⟩

/-- A digest at the end can be read off. -/
theorem append_digest_inj {H : Host} {S : Set String} (hS : H.CollisionFree S)
    {path path' : String} {data data' : List String}
    (h : path ++ H.platform.digest data = path' ++ H.platform.digest data') :
    path = path' ∧ H.platform.digest data = H.platform.digest data' := by
  rw [← String.toList_inj, String.toList_append, String.toList_append] at h
  have hlen : (H.platform.digest data).toList.length = (H.platform.digest data').toList.length := by
    rw [String.length_toList, String.length_toList, hS.digest_length, hS.digest_length]
  obtain ⟨hpath, hdigest⟩ := List.append_inj' h hlen
  exact ⟨String.toList_inj.mp hpath, String.toList_inj.mp hdigest⟩

section Separation

variable {H : Host} {S : Set String} {g g' : Graph} {κ κ' : String → String} {n m : NodeId}
  (hS : H.CollisionFree S)
  (h : g.Keyed H κ) (hsub : g.hashInputs κ ⊆ S) (hn : n ∈ g.allocated)
  (h' : g'.Keyed H κ') (hsub' : g'.hashInputs κ' ⊆ S) (hm : m ∈ g'.allocated)

include hS h hsub hn h' hsub' hm

/-- Keys are equal where the texts are. -/
theorem hash_eq_iff : (g.node n).hash = (g'.node m).hash ↔
    (g.node n).path ++ (g.origin κ n).text H = (g'.node m).path ++ (g'.origin κ' m).text H := by
  have hpair : ∀ a b : String, String.join [a, b] = a ++ b := by
    intro a b
    simp only [String.join_cons, String.join_nil, String.append_empty]
  rw [h.hash_eq hn, h'.hash_eq hm, ← hpair, ← hpair]
  constructor
  · exact hS.join_eq_of_digest_eq (hsub (h.text_mem hn)) (hsub' (h'.text_mem hm))
  · intro heq
    rw [Platform.digest, heq]
    rfl

/-- Equal texts have equal origins unless they are ambiguous. -/
theorem origin_eq
    (htext : (g.node n).path ++ (g.origin κ n).text H =
      (g'.node m).path ++ (g'.origin κ' m).text H)
    (hclear : ¬ Ambiguous H (g.node n).path (g.origin κ n) (g'.node m).path (g'.origin κ' m)) :
    (g.node n).path = (g'.node m).path ∧ g.origin κ n = g'.origin κ' m := by
  cases ho : g.origin κ n with
  | file content =>
      cases ho' : g'.origin κ' m with
      | file content' =>
          rw [ho, ho'] at htext hclear
          have hpath : (g.node n).path = (g'.node m).path := by
            by_contra hne
            exact hclear ⟨hne, htext⟩
          simp only [Origin.text, hpath, String.append_right_inj] at htext
          exact ⟨hpath, congrArg Origin.file htext⟩
      | built hashes command =>
          rw [ho, ho'] at htext hclear
          exact absurd htext hclear
  | built hashes command =>
      cases ho' : g'.origin κ' m with
      | file content =>
          rw [ho, ho'] at htext hclear
          exact absurd htext hclear
      | built hashes' command' =>
          rw [ho, ho'] at htext hclear
          obtain ⟨hpath, hdigest⟩ := append_digest_inj hS htext
          have hjoin := hS.join_eq_of_digest_eq (hsub (h.built_mem hn ho))
            (hsub' (h'.built_mem hm ho')) hdigest
          rw [join_snoc, join_snoc] at hjoin
          have hlen : hashes.length = hashes'.length := by
            by_contra hne
            exact hclear ⟨hpath, hne, hjoin⟩
          obtain ⟨rfl, rfl⟩ := join_append_inj (h.built_length hS hn ho)
            (h'.built_length hS hm ho') hlen hjoin
          exact ⟨hpath, rfl⟩

omit hS h hsub hn h' hsub' hm in
/-- An ambiguity is two texts that are equal and do not mean the same. -/
theorem Ambiguous.text_eq {path path' : String} {o o' : Origin}
    (hamb : Ambiguous H path o path' o') :
    path ++ o.text H = path' ++ o'.text H ∧ ¬ (path = path' ∧ o = o') := by
  cases o with
  | file content =>
      cases o' with
      | file content' => exact ⟨hamb.2, fun hsame ↦ hamb.1 hsame.1⟩
      | built hashes command => exact ⟨hamb, by simp⟩
  | built hashes command =>
      cases o' with
      | file content => exact ⟨hamb, by simp⟩
      | built hashes' command' =>
          obtain ⟨rfl, hlen, hjoin⟩ := hamb
          refine ⟨?_, fun hsame ↦ hlen (congrArg List.length (Origin.built.inj hsame.2).1)⟩
          simp only [Origin.text, Platform.digest, join_snoc, hjoin]

/-- Equal keys mean one path and one origin, exactly if the two texts are not
ambiguous. -/
theorem key_separates_iff :
    ((g.node n).hash = (g'.node m).hash →
      (g.node n).path = (g'.node m).path ∧ g.origin κ n = g'.origin κ' m) ↔
    ¬ Ambiguous H (g.node n).path (g.origin κ n) (g'.node m).path (g'.origin κ' m) := by
  rw [hash_eq_iff hS h hsub hn h' hsub' hm]
  constructor
  · intro hsame hamb
    obtain ⟨htext, hdiff⟩ := hamb.text_eq
    exact hdiff (hsame htext)
  · exact fun hclear htext ↦ origin_eq hS h hsub hn h' hsub' hm htext hclear

end Separation

/-! ## Two files with one key -/

def catDigests : List (String × String) :=
  [("abc", "ba7816bf8f01cfea414140de5dae2223b00361a396177a9cb410ff61f20015ad"),
    ("ba7816bf8f01cfea414140de5dae2223b00361a396177a9cb410ff61f20015ad" ++
        "ba7816bf8f01cfea414140de5dae2223b00361a396177a9cb410ff61f20015ad" ++ "cat a ab > out",
      "0ccb238597fdefc6ee91609befdea8eed2944223d8818a049241a4d2b0ffbb0f"),
    ("out0ccb238597fdefc6ee91609befdea8eed2944223d8818a049241a4d2b0ffbb0f",
      "5b45360f84ed87e0cb619e55fedb57834b959558b89c331c5d429a0c7787f1d4")]

def catHost : Host where
  sha256 s := fromHex ((catDigests.lookup s).getD (String.ofList (List.replicate 64 '0'))).toList
  parseDepfile := DepfileParser.parseDepfile
  newNode used := used.sup id + 1
  newNode_fresh := fresh_above
  uninitialised _ := false

/-- The file `a` contains `bc`, the file `ab` contains `c`. -/
def catContent : String → String
  | "a" => "bc"
  | "ab" => "c"
  | _ => ""

def catGraph : Graph where
  node
    | 0 => { Node.create "a" true false with
        parentRules := [0]
        hash := "ba7816bf8f01cfea414140de5dae2223b00361a396177a9cb410ff61f20015ad" }
    | 1 => { Node.create "ab" true false with
        parentRules := [0]
        hash := "ba7816bf8f01cfea414140de5dae2223b00361a396177a9cb410ff61f20015ad" }
    | 2 => { Node.create "out" true false with
        childRule := some 0
        hash := "5b45360f84ed87e0cb619e55fedb57834b959558b89c331c5d429a0c7787f1d4" }
    | _ => Node.create "" true false
  rule
    | 0 => { Rule.create [0, 1] [2] with
        command := "cat a ab > out"
        numInputsReady := 2
        hash := "0ccb238597fdefc6ee91609befdea8eed2944223d8818a049241a4d2b0ffbb0f" }
    | _ => Rule.create [] []
  roots := {2}
  sources := {0, 1}
  nodes := [("a", 0), ("ab", 1), ("out", 2)]
  rules := [0]
  allocated := {0, 1, 2}

theorem collisionFree_catHost : catHost.CollisionFree {s | s ∈ catDigests.map (·.1)} where
  length s := by
    have hall : ∀ e ∈ catDigests, (fromHex e.2.toList).length = 32 := by decide +kernel
    exact length_fromHex_lookup hall s
  injOn := by
    have hall : ∀ x ∈ catDigests.map (·.1), ∀ y ∈ catDigests.map (·.1),
        catHost.sha256 x = catHost.sha256 y → x = y := by decide +kernel
    exact fun x hx y hy h ↦ hall x hx y hy h

theorem keyed_catGraph : catGraph.Keyed catHost catContent where
  source n hn hc := by
    obtain rfl | rfl | rfl : n = 0 ∨ n = 1 ∨ n = 2 := by simpa [catGraph] using hn
    · decide +kernel
    · decide +kernel
    · cases hc
  target n hn r hc := by
    obtain rfl | rfl | rfl : n = 0 ∨ n = 1 ∨ n = 2 := by simpa [catGraph] using hn
    · cases hc
    · cases hc
    · obtain rfl : 0 = r := Option.some.inj hc
      decide +kernel
  rule r hr := by
    obtain rfl : r = 0 := by simpa [catGraph] using hr
    decide +kernel
  inputs r hr m hm := by
    obtain rfl : r = 0 := by simpa [catGraph] using hr
    revert m
    decide

theorem hashInputs_catGraph : catGraph.hashInputs catContent ⊆ {s | s ∈ catDigests.map (·.1)} := by
  rintro s ((⟨n, hn, hc, rfl⟩ | ⟨n, hn, r, hc, rfl⟩) | ⟨r, hr, rfl⟩)
  · obtain rfl | rfl | rfl : n = 0 ∨ n = 1 ∨ n = 2 := by simpa [catGraph] using hn
    · decide +kernel
    · decide +kernel
    · cases hc
  · obtain rfl | rfl | rfl : n = 0 ∨ n = 1 ∨ n = 2 := by simpa [catGraph] using hn
    · cases hc
    · cases hc
    · obtain rfl : 0 = r := Option.some.inj hc
      decide +kernel
  · obtain rfl : r = 0 := by simpa [catGraph] using hr
    decide +kernel

/-- The texts of `a` and `ab` are ambiguous, those of `a` and `out` are not. -/
theorem key_separates_catGraph :
    ¬ ((catGraph.node 0).hash = (catGraph.node 1).hash →
      (catGraph.node 0).path = (catGraph.node 1).path ∧
        catGraph.origin catContent 0 = catGraph.origin catContent 1) ∧
    ((catGraph.node 0).hash = (catGraph.node 2).hash →
      (catGraph.node 0).path = (catGraph.node 2).path ∧
        catGraph.origin catContent 0 = catGraph.origin catContent 2) := by
  constructor
  · rw [key_separates_iff collisionFree_catHost keyed_catGraph hashInputs_catGraph (by decide)
      keyed_catGraph hashInputs_catGraph (by decide)]
    decide
  · rw [key_separates_iff collisionFree_catHost keyed_catGraph hashInputs_catGraph (by decide)
      keyed_catGraph hashInputs_catGraph (by decide)]
    decide +kernel

/-- Keys do not separate: `a` with `bc` in it has the key of `ab` with `c` in it. -/
theorem key_not_separates :
    ¬ ∀ (H : Host) (S : Set String) (g g' : Graph) (κ κ' : String → String) (n m : NodeId),
      H.CollisionFree S → g.Keyed H κ → g.hashInputs κ ⊆ S → n ∈ g.allocated →
      g'.Keyed H κ' → g'.hashInputs κ' ⊆ S → m ∈ g'.allocated →
      (g.node n).hash = (g'.node m).hash →
      (g.node n).path = (g'.node m).path ∧ g.origin κ n = g'.origin κ' m := by
  intro hall
  have hsame := hall catHost _ catGraph catGraph catContent catContent 0 1 collisionFree_catHost
    keyed_catGraph hashInputs_catGraph (by decide) keyed_catGraph hashInputs_catGraph (by decide)
    rfl
  exact absurd hsame.1 (by decide)

end Falcon
