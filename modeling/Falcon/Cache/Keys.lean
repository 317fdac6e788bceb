import Falcon.Build.CleanBuild
import Falcon.Cache.Manager
import Falcon.Graph.Coherent

/-!
# Keys of the cache

A target is stored under its hash.  As long as SHA-256 maps no two of the
strings that are hashed to one value, the hash of a target of a coherent graph
tells which target it is and what a clean build makes of it.
-/

namespace Falcon

/-! ## Hexadecimal digests -/

theorem hexDigit_injOn : ∀ a < 16, ∀ b < 16, hexDigit a = hexDigit b → a = b := by decide

theorem hexByte_injective {a b : UInt8} (h : hexByte a = hexByte b) : a = b := by
  have ha : a.toNat < 256 := a.toNat_lt
  have hb : b.toNat < 256 := b.toNat_lt
  simp only [hexByte, List.cons.injEq, and_true] at h
  have hhigh := hexDigit_injOn _ (by omega) _ (by omega) h.1
  have hlow := hexDigit_injOn _ (by omega) _ (by omega) h.2
  apply UInt8.toNat_inj.mp
  omega

theorem hexString_injective {l l' : List UInt8} (h : hexString l = hexString l') : l = l' := by
  have hchars : l.flatMap hexByte = l'.flatMap hexByte := String.ofList_injective h
  clear h
  induction l generalizing l' with
  | nil =>
      cases l' with
      | nil => rfl
      | cons b l' => simp [hexByte] at hchars
  | cons a l ih =>
      cases l' with
      | nil => simp [hexByte] at hchars
      | cons b l' =>
          simp only [List.flatMap_cons] at hchars
          obtain ⟨hhead, htail⟩ := List.append_inj hchars rfl
          rw [hexByte_injective hhead, ih htail]

/-- Strings of one length can be read off their concatenation. -/
theorem join_inj {k : ℕ} {l l' : List String} (hl : ∀ s ∈ l, s.length = k)
    (hl' : ∀ s ∈ l', s.length = k) (hlen : l.length = l'.length)
    (h : String.join l = String.join l') : l = l' := by
  induction l generalizing l' with
  | nil => exact (List.eq_nil_of_length_eq_zero hlen.symm).symm
  | cons s l ih =>
      obtain ⟨s', l', rfl⟩ := List.exists_cons_of_length_eq_add_one hlen.symm
      rw [String.join_cons, String.join_cons, ← String.toList_inj, String.toList_append,
        String.toList_append] at h
      have hsame : s.toList.length = s'.toList.length := by
        rw [String.length_toList, String.length_toList, hl s List.mem_cons_self,
          hl' s' List.mem_cons_self]
      obtain ⟨hhead, htail⟩ := List.append_inj h hsame
      rw [String.toList_inj.mp hhead, ih (fun x hx ↦ hl x (List.mem_cons_of_mem s hx))
        (fun x hx ↦ hl' x (List.mem_cons_of_mem s' hx)) (by simpa using hlen)
        (String.toList_inj.mp htail)]

/-- SHA-256 makes 32 bytes of any string, and no two strings of `S` have the
same hash. -/
structure Host.CollisionFree (H : Host) (S : Set String) : Prop where
  length : ∀ s, (H.sha256 s).length = 32
  injOn : Set.InjOn H.sha256 S

namespace Host.CollisionFree

variable {H : Host} {S : Set String} (hS : H.CollisionFree S)
include hS

theorem digest_length (data : List String) : (H.platform.digest data).length = 64 := by
  rw [Platform.digest, hexString_length]
  exact congrArg (2 * ·) (hS.length _)

theorem digest_ne_empty (data : List String) : H.platform.digest data ≠ "" := by
  intro h
  have hlen := hS.digest_length data
  rw [h] at hlen
  cases hlen

theorem join_eq_of_digest_eq {data data' : List String} (hdata : String.join data ∈ S)
    (hdata' : String.join data' ∈ S) (h : H.platform.digest data = H.platform.digest data') :
    String.join data = String.join data' :=
  hS.injOn hdata hdata' (hexString_injective h)

end Host.CollisionFree

/-- The strings that the hashes of a graph are digests of if `κ` gives the
contents of the source files. -/
def Graph.hashInputs (g : Graph) (κ : String → String) : Set String :=
  {s | ∃ n ∈ g.allocated, (g.node n).childRule = none ∧
    s = String.join [(g.node n).path, κ (g.node n).path]} ∪
  {s | ∃ n ∈ g.allocated, ∃ r, (g.node n).childRule = some r ∧
    s = String.join [(g.node n).path, (g.rule r).hash]} ∪
  {s | ∃ r ∈ g.rules,
    s = String.join ((g.rule r).inputs.map (fun n ↦ (g.node n).hash) ++ [(g.rule r).command])}

/-- Acyclic links with one node for each path, whose rules have one output and
no depfile. -/
structure Links.Plain (L : Links) : Prop where
  twoWay : L.TwoWay
  acyclic : L.Acyclic
  allocated : ∀ r ∈ L.rules, ∀ n, n ∈ L.inputs r ∨ n ∈ L.outputs r → n ∈ L.allocated
  lookup : ∀ n ∈ L.allocated, L.nodes.lookup (L.path n) = some n
  output : ∀ r ∈ L.rules, ∃ o, L.outputs r = [o]
  noDepfile : ∀ r ∈ L.rules, L.depfile r = ""

theorem Links.Plain.path_injective {L : Links} (hL : L.Plain) {m n : NodeId}
    (hm : m ∈ L.allocated) (hn : n ∈ L.allocated) (heq : L.path m = L.path n) : m = n := by
  have hlookup := hL.lookup m hm
  rw [heq, hL.lookup n hn] at hlookup
  exact (Option.some.inj hlookup).symm

/-- A graph with the links `L` and coherent hashes, which are digests of strings
in `S`. -/
structure Snapshot (H : Host) (S : Set String) (L : Links) (g : Graph) (κ : String → String) :
    Prop where
  links : g.links = L
  coherent : Hash.Coherent H.platform κ g
  hashed : g.hashInputs κ ⊆ S

namespace Snapshot

variable {H : Host} {S : Set String} {L : Links} {g g' : Graph} {κ κ' : String → String}

theorem node_hash (h : Snapshot H S L g κ) {n : NodeId} (hn : n ∈ L.allocated) :
    (g.node n).hash ≠ "" := by
  obtain ⟨rfl, hco, -⟩ := h
  exact (hco.node_hash n hn).1

theorem source_hash (h : Snapshot H S L g κ) {n : NodeId} (hn : n ∈ L.allocated)
    (hc : L.child n = none) :
    (g.node n).hash = H.platform.digest [L.path n, κ (L.path n)] ∧
      String.join [L.path n, κ (L.path n)] ∈ S := by
  obtain ⟨rfl, hco, hsub⟩ := h
  have hnode := hco.node n hn (Set.notMem_empty n)
  rw [Hash.NodeHashed, show (g.node n).childRule = none from hc] at hnode
  exact ⟨hnode.1, hsub (Or.inl (Or.inl ⟨n, hn, hc, rfl⟩))⟩

theorem target_hash (h : Snapshot H S L g κ) {n : NodeId} {r : RuleId} (hn : n ∈ L.allocated)
    (hc : L.child n = some r) :
    (g.node n).hash = H.platform.digest [L.path n, (g.rule r).hash] ∧
      String.join [L.path n, (g.rule r).hash] ∈ S := by
  obtain ⟨rfl, hco, hsub⟩ := h
  have hnode := hco.node n hn (Set.notMem_empty n)
  rw [Hash.NodeHashed, show (g.node n).childRule = some r from hc] at hnode
  exact ⟨hnode.1, hsub (Or.inl (Or.inr ⟨n, hn, r, hc, rfl⟩))⟩

theorem rule_hash (h : Snapshot H S L g κ) {r : RuleId} (hr : r ∈ L.rules) :
    (g.rule r).hash =
        H.platform.digest ((L.inputs r).map (fun n ↦ (g.node n).hash) ++ [L.command r]) ∧
      String.join ((L.inputs r).map (fun n ↦ (g.node n).hash) ++ [L.command r]) ∈ S := by
  obtain ⟨rfl, hco, hsub⟩ := h
  exact ⟨(hco.rule r hr (Set.notMem_empty r)).1, hsub (Or.inr ⟨r, hr, rfl⟩)⟩

variable (hS : H.CollisionFree S)
include hS

theorem node_hash_length (h : Snapshot H S L g κ) {n : NodeId} (hn : n ∈ L.allocated) :
    (g.node n).hash.length = 64 := by
  cases hc : L.child n with
  | none =>
      rw [(h.source_hash hn hc).1]
      exact hS.digest_length _
  | some r =>
      rw [(h.target_hash hn hc).1]
      exact hS.digest_length _

theorem rule_hash_length (h : Snapshot H S L g κ) {r : RuleId} (hr : r ∈ L.rules) :
    (g.rule r).hash.length = 64 := by
  rw [(h.rule_hash hr).1]
  exact hS.digest_length _

variable (hL : L.Plain)
include hL

/-- Two rules of equal hash have inputs of equal hashes. -/
theorem input_hash_eq (h : Snapshot H S L g κ) (h' : Snapshot H S L g' κ') {r : RuleId}
    (hr : r ∈ L.rules) (heq : (g.rule r).hash = (g'.rule r).hash) {m : NodeId}
    (hm : m ∈ L.inputs r) : (g.node m).hash = (g'.node m).hash := by
  obtain ⟨hhash, hmem⟩ := h.rule_hash hr
  obtain ⟨hhash', hmem'⟩ := h'.rule_hash hr
  rw [hhash, hhash'] at heq
  have hjoin := hS.join_eq_of_digest_eq hmem hmem' heq
  rw [String.join_append, String.join_append, String.append_left_inj] at hjoin
  have halloc : ∀ n ∈ L.inputs r, n ∈ L.allocated := fun n hn ↦ hL.allocated r hr n (Or.inl hn)
  have hlists : ((L.inputs r).map fun n ↦ (g.node n).hash) =
      (L.inputs r).map fun n ↦ (g'.node n).hash := by
    refine join_inj (k := 64) ?_ ?_ (by simp) hjoin
    · simpa using fun n hn ↦ h.node_hash_length hS (halloc n hn)
    · simpa using fun n hn ↦ h'.node_hash_length hS (halloc n hn)
  exact List.map_inj_left.mp hlists m hm

/-- The hash of a target tells its path. -/
theorem target_eq (h : Snapshot H S L g κ) (h' : Snapshot H S L g' κ') {m n : NodeId}
    {q r : RuleId} (hm : m ∈ L.allocated) (hn : n ∈ L.allocated) (hq : L.child m = some q)
    (hr : L.child n = some r) (heq : (g.node m).hash = (g'.node n).hash) : m = n := by
  obtain ⟨hhash, hmem⟩ := h.target_hash hm hq
  obtain ⟨hhash', hmem'⟩ := h'.target_hash hn hr
  rw [hhash, hhash'] at heq
  have hjoin := hS.join_eq_of_digest_eq hmem hmem' heq
  simp only [String.join_cons, String.join_nil, String.append_empty] at hjoin
  have hq' := h.rule_hash_length hS ((hL.twoWay.child_eq_some m q).mp hq).1
  have hr' := h'.rule_hash_length hS ((hL.twoWay.child_eq_some n r).mp hr).1
  rw [← String.toList_inj, String.toList_append, String.toList_append] at hjoin
  obtain ⟨hpath, -⟩ := List.append_inj' hjoin (by simp only [String.length_toList, hq', hr'])
  exact hL.path_injective hm hn (String.toList_inj.mp hpath)

/-- Equal hashes mean equal contents after a clean build. -/
theorem content_of_hash {X : Commands} (h : Snapshot H S L g κ) (h' : Snapshot H S L g' κ')
    {n : NodeId} {c : String} (hn : n ∈ L.allocated) (heq : (g.node n).hash = (g'.node n).hash)
    (hc : CleanBuild X L κ n c) : CleanBuild X L κ' n c := by
  induction hc with
  | @source n hchild =>
      obtain ⟨hhash, hmem⟩ := h.source_hash hn hchild
      obtain ⟨hhash', hmem'⟩ := h'.source_hash hn hchild
      rw [hhash, hhash'] at heq
      have hjoin := hS.join_eq_of_digest_eq hmem hmem' heq
      simp only [String.join_cons, String.join_nil, String.append_empty,
        String.append_right_inj] at hjoin
      rw [hjoin]
      exact .source hchild
  | phony hchild hphony => exact .phony hchild hphony
  | @built n r contents hchild hcommand _ ih =>
      obtain ⟨hhash, hmem⟩ := h.target_hash hn hchild
      obtain ⟨hhash', hmem'⟩ := h'.target_hash hn hchild
      rw [hhash, hhash'] at heq
      have hjoin := hS.join_eq_of_digest_eq hmem hmem' heq
      simp only [String.join_cons, String.join_nil, String.append_empty,
        String.append_right_inj] at hjoin
      have hr := ((hL.twoWay.child_eq_some n r).mp hchild).1
      refine .built contents hchild hcommand fun m hm ↦ ?_
      exact ih m hm (hL.allocated r hr m (Or.inl hm)) (h.input_hash_eq hS hL h' hr hjoin hm)

end Snapshot

end Falcon
