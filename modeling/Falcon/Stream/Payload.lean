import Falcon.Lib.JsonString
import Falcon.Stream.Chunks

/-!
# Payloads in the stream

Commands and their output pass `writeBufEscapeJson`, the paths of files from
the cache are written as they are.  All three are strings of bytes.  The escape function knows quotes,
backslashes and newlines; so a payload is what a JSON decoder makes of it
unless it holds another control character, or is no UTF-8, as where a chunk of
output ends inside of a character.
-/

namespace Falcon

open Lib Lib.JsonString

namespace StreamServer

/-! ## The escape function on characters -/

def escapeChar (c : Char) : List Char :=
  if c = '"' ∨ c = '\\' then ['\\', c] else if c = '\n' then ['\\', 'n'] else [c]

theorem escapeJson_large {l : List UInt8} (h : ∀ b ∈ l, 128 ≤ b.toNat) : escapeJson l = l := by
  induction l with
  | nil => rfl
  | cons b l ih =>
      have hb := h b List.mem_cons_self
      have hne : ∀ k : UInt8, k.toNat < 128 → b ≠ k := by
        rintro k hk rfl
        exact absurd hb (Nat.not_le_of_lt hk)
      have hrest : escapeJson l = l := ih fun d hd ↦ h d (List.mem_cons_of_mem b hd)
      rw [escapeJson] at hrest ⊢
      rw [List.flatMap_cons, hrest]
      simp [hne 34 (by decide), hne 92 (by decide), hne 10 (by decide)]

/-- The bytes that are escaped are those of the characters that are. -/
theorem escapeJson_utf8EncodeChar (c : Char) :
    escapeJson (String.utf8EncodeChar c) = utf8 (escapeChar c) := by
  by_cases hascii : c.toNat < 128
  · have hall : ∀ n < 128, escapeJson [UInt8.ofNat n] = utf8 (escapeChar (Char.ofNat n)) := by
      decide +kernel
    rw [utf8EncodeChar_ascii hascii, hall c.toNat hascii, Char.ofNat_toNat]
  · have hlow : ∀ d : Char, d.toNat < 128 → c ≠ d := by
      rintro d hd rfl
      exact hascii hd
    rw [escapeJson_large (utf8EncodeChar_large (Nat.le_of_not_lt hascii)), escapeChar,
      if_neg (not_or.mpr ⟨hlow _ (by decide), hlow _ (by decide)⟩), if_neg (hlow _ (by decide)),
      utf8_cons, utf8_nil, List.append_nil]

theorem escapeJson_utf8 (cs : List Char) : escapeJson (utf8 cs) = utf8 (cs.flatMap escapeChar) := by
  induction cs with
  | nil => rfl
  | cons c cs ih =>
      have happend : ∀ a b, escapeJson (a ++ b) = escapeJson a ++ escapeJson b :=
        fun a b ↦ List.flatMap_append
      rw [utf8_cons, happend, escapeJson_utf8EncodeChar, ih, List.flatMap_cons]
      simp [utf8]

theorem readChar_escapeChar {c : Char} (hc : 32 ≤ c.toNat ∨ c = '\n') (rest : List Char) :
    ∃ d l, escapeChar c = d :: l ∧ readChar d (l ++ rest) = some (c, rest) := by
  by_cases hspecial : c = '"' ∨ c = '\\'
  · refine ⟨'\\', [c], if_pos hspecial, ?_⟩
    rcases hspecial with rfl | rfl <;> rfl
  · rw [escapeChar, if_neg hspecial]
    by_cases hnewline : c = '\n'
    · subst hnewline
      exact ⟨'\\', ['n'], rfl, rfl⟩
    · refine ⟨c, [], if_neg hnewline, readChar_plain ⟨?_, fun h ↦ hspecial (Or.inl h),
        fun h ↦ hspecial (Or.inr h)⟩ rest⟩
      exact hc.resolve_right hnewline

/-- Decoding undoes the escape function as long as it knows all that has to be
escaped. -/
theorem unescape_escape {fuel : ℕ} {cs : List Char}
    (hfuel : (cs.flatMap escapeChar).length ≤ fuel) :
    unescape fuel (cs.flatMap escapeChar) = some cs ↔ ∀ c ∈ cs, 32 ≤ c.toNat ∨ c = '\n' := by
  induction cs generalizing fuel with
  | nil => cases fuel <;> simp [unescape]
  | cons c cs ih =>
      rw [List.flatMap_cons, List.length_append] at hfuel
      rw [List.flatMap_cons, List.forall_mem_cons]
      by_cases hc : 32 ≤ c.toNat ∨ c = '\n'
      · obtain ⟨d, l, hd, hread⟩ := readChar_escapeChar hc (cs.flatMap escapeChar)
        rw [hd, List.length_cons] at hfuel
        obtain ⟨fuel, rfl⟩ : ∃ k, fuel = k + 1 := ⟨fuel - 1, by omega⟩
        have hrest := @ih fuel (by omega)
        rw [hd, List.cons_append, unescape, hread]
        simp only [Option.bind_eq_bind, Option.bind_some, hc, true_and]
        rw [← hrest]
        cases unescape fuel (cs.flatMap escapeChar) <;> simp
      · have hlow : c.toNat < 32 ∧ c ≠ '\n' := by
          rw [not_or, Nat.not_le] at hc
          exact hc
        have hspecial : ¬ (c = '"' ∨ c = '\\') := by
          rintro (rfl | rfl) <;> exact absurd hlow.1 (by decide)
        have hslash : c ≠ '\\' := fun h ↦ hspecial (Or.inr h)
        have hself : escapeChar c = [c] := by
          rw [escapeChar, if_neg hspecial, if_neg hlow.2]
        rw [hself, List.length_cons] at hfuel
        obtain ⟨fuel, rfl⟩ : ∃ k, fuel = k + 1 := ⟨fuel - 1, by omega⟩
        have hnone : readChar c (cs.flatMap escapeChar) = none := by
          rw [readChar, if_neg hslash, if_pos (Or.inr hlow.1)]
        rw [hself, List.singleton_append, unescape, hnone]
        simp [hc]

/-- A text that is decoded to itself after escaping. -/
theorem decode_escapeJson_utf8 (cs : List Char) :
    decode (escapeJson (utf8 cs)) = some (utf8 cs) ↔ ∀ c ∈ cs, 32 ≤ c.toNat ∨ c = '\n' := by
  rw [escapeJson_utf8, decode_utf8, ← unescape_escape (le_refl _), Option.map_eq_some_iff]
  constructor
  · rintro ⟨ds, hds, heq⟩
    rw [hds, utf8_injective heq]
  · exact fun h ↦ ⟨cs, h, rfl⟩

/-- A text that is decoded to itself without escaping. -/
theorem decode_self_utf8 (cs : List Char) :
    decode (utf8 cs) = some (utf8 cs) ↔ ∀ c ∈ cs, Plain c := by
  rw [decode_utf8, ← unescape_self (le_refl _), Option.map_eq_some_iff]
  constructor
  · rintro ⟨ds, hds, heq⟩
    rw [hds, utf8_injective heq]
  · exact fun h ↦ ⟨cs, h, rfl⟩

/-- The bytes that the call is given for the client. -/
def Write.payload : Write → Option (List UInt8)
  | .newCommand _ cmd => some (bytes cmd)
  | .writeStdout _ buf | .writeStderr _ buf => some buf
  | .cacheRetrieveAction path => some (bytes path)
  | .newBuild _ | .endBuild _ | .endCommand _ _ => none

/-- The payload is UTF-8, and escaping quotes, backslashes and newlines is enough for a command
and for output; a path needs none. -/
def Write.Clean : Write → Prop
  | .newCommand _ cmd =>
      ∃ cs, utf8Decode (bytes cmd) = some cs ∧ ∀ c ∈ cs, 32 ≤ c.toNat ∨ c = '\n'
  | .writeStdout _ buf | .writeStderr _ buf =>
      ∃ cs, utf8Decode buf = some cs ∧ ∀ c ∈ cs, 32 ≤ c.toNat ∨ c = '\n'
  | .cacheRetrieveAction path =>
      ∃ cs, utf8Decode (bytes path) = some cs ∧ ∀ c ∈ cs, Plain c
  | .newBuild _ | .endBuild _ | .endCommand _ _ => True

/-- What is no UTF-8 is no text for a decoder, whatever is escaped. -/
theorem decode_escapeJson (buf : List UInt8) : decode (escapeJson buf) = some buf ↔
    ∃ cs, utf8Decode buf = some cs ∧ ∀ c ∈ cs, 32 ≤ c.toNat ∨ c = '\n' := by
  constructor
  · intro h
    obtain ⟨cs, rfl⟩ := decode_eq_some h
    exact ⟨cs, utf8Decode_utf8 cs, (decode_escapeJson_utf8 cs).mp h⟩
  · rintro ⟨cs, hdecode, hcs⟩
    rw [← utf8_of_decode hdecode]
    exact (decode_escapeJson_utf8 cs).mpr hcs

theorem decode_self (buf : List UInt8) : decode buf = some buf ↔
    ∃ cs, utf8Decode buf = some cs ∧ ∀ c ∈ cs, Plain c := by
  constructor
  · intro h
    obtain ⟨cs, rfl⟩ := decode_eq_some h
    exact ⟨cs, utf8Decode_utf8 cs, (decode_self_utf8 cs).mp h⟩
  · rintro ⟨cs, hdecode, hcs⟩
    rw [← utf8_of_decode hdecode]
    exact (decode_self_utf8 cs).mpr hcs

theorem decode_body {op : Write} {payload : List UInt8} (hpayload : op.payload = some payload) :
    decode op.body = some payload ↔ op.Clean := by
  cases op with
  | newCommand cmdId cmd =>
      obtain rfl := Option.some.inj hpayload
      exact decode_escapeJson (bytes cmd)
  | writeStdout cmdId buf =>
      obtain rfl := Option.some.inj hpayload
      exact decode_escapeJson buf
  | writeStderr cmdId buf =>
      obtain rfl := Option.some.inj hpayload
      exact decode_escapeJson buf
  | cacheRetrieveAction path =>
      obtain rfl := Option.some.inj hpayload
      exact decode_self (bytes path)
  | newBuild buildId => cases hpayload
  | endBuild result => cases hpayload
  | endCommand cmdId status => cases hpayload

/-- A call between `newBuild` and `endBuild` appends its text after the comma. -/
theorem Reachable.chunk {s : StreamServer} {p q : Phase} (h : Reachable s p) {op : Write}
    (hop : op.IsChunk) (hnext : p.next op = some q) :
    ∃ s' front front' bs rest, write op s = .ok s' ∧ s.builds = front :: bs ∧
      s'.builds = front' :: rest ∧ front'.buf = front.buf ++
        ((if op.starts && front.firstChunk then [] else bytes ",\n") ++ op.text) := by
  obtain ⟨hkept, hfits⟩ := h.kept
  obtain ⟨s', hrun, -⟩ := hkept.write hfits hnext
  cases p with
  | idle =>
      cases op with
      | newBuild buildId => cases hop
      | _ => cases hnext
  | building announced =>
      obtain ⟨front, hfront, -⟩ := hfits
      obtain ⟨bs, hbuilds⟩ := List.head?_eq_some_iff.mp hfront
      obtain ⟨refcount, rest, heq⟩ := write_chunk hop hrun hbuilds
      exact ⟨s', front, _, bs, rest, hrun, hbuilds, heq, rfl⟩

theorem Write.isChunk_of_payload {op : Write} {payload : List UInt8}
    (hpayload : op.payload = some payload) : op.IsChunk := by
  cases op with
  | newBuild buildId => cases hpayload
  | endBuild result => cases hpayload
  | _ => trivial

/-- What is written between the quotes is decoded to the payload if and only if
the payload is clean. -/
theorem payload_survives_iff {s : StreamServer} {p q : Phase} {op : Write} {payload : List UInt8}
    (h : Reachable s p) (hnext : p.next op = some q) (hpayload : op.payload = some payload) :
    ∃ s' front front' bs rest, write op s = .ok s' ∧ s.builds = front :: bs ∧
      s'.builds = front' :: rest ∧ ∃ separator ∈ [[], bytes ",\n"], ∃ body,
      front'.buf = front.buf ++ (separator ++ (bytes op.opening ++ body ++ bytes "\" \x7d")) ∧
      (decode body = some payload ↔ op.Clean) := by
  obtain ⟨s', front, front', bs, rest, hrun, hbuilds, hbuilds', hbuf⟩ :=
    h.chunk (Write.isChunk_of_payload hpayload) hnext
  refine ⟨s', front, front', bs, rest, hrun, hbuilds, hbuilds', _, ?_, op.body, hbuf,
    decode_body hpayload⟩
  split <;> simp

/-! ## A tab -/

/-- The first build, with one command that has been announced. -/
def announced : StreamServer :=
  ⟨[⟨0, 0, bytes ("\x7b\n  \"id\": 0,\n  \"cmds\": [\n" ++ "    \x7b \"id\": 0, \"cmd\": \"ls\" \x7d"),
    0, false, false⟩], [], [], [], 1⟩

theorem announced_reachable : Reachable announced (.building true) := by
  have hbuild := Reachable.create.step (e := .write (.newBuild 0)) rfl rfl
  exact hbuild.step (e := .write (.newCommand 0 "ls")) rfl rfl

/-- A line of text with quotes is fine. -/
theorem payload_survives_text : ∃ s' front rest,
    write (.writeStdout 0 (bytes "a \"b\"\n")) announced = .ok s' ∧ s'.builds = front :: rest ∧
    ∃ before body,
      front.buf = before ++ (bytes "    \x7b \"id\": 0, \"stdout\": \"" ++ body ++
        bytes "\" \x7d") ∧
      decode body = some (bytes "a \"b\"\n") := by
  have hnext : (Phase.building true).next (.writeStdout 0 (bytes "a \"b\"\n")) =
      some (.building true) := rfl
  obtain ⟨s', front, front', bs, rest, hrun, -, hbuilds, separator, -, body, hbuf, hdecode⟩ :=
    payload_survives_iff announced_reachable hnext rfl
  refine ⟨s', front', rest, hrun, hbuilds, front.buf ++ separator, body, ?_, hdecode.mpr ?_⟩
  · exact hbuf.trans (List.append_assoc _ _ _).symm
  · refine ⟨"a \"b\"\n".toList, ?_, fun c hc => ?_⟩
    · rw [bytes_ascii (by simp)]
      exact utf8Decode_utf8 _
    · have hmem : c ∈ ['a', ' ', '"', 'b', '"', '\n'] := hc
      simp only [List.mem_cons, List.not_mem_nil, or_false] at hmem
      rcases hmem with rfl | rfl | rfl | rfl | rfl | rfl <;> decide

/-- A tab is not escaped. -/
theorem payload_not_survives : ¬ ∀ (s s' : StreamServer) (p q : Phase) (op : Write)
    (payload : List UInt8), Reachable s p → p.next op = some q → op.payload = some payload →
    write op s = .ok s' → ∀ front ∈ s.builds.head?, ∀ front' ∈ s'.builds.head?,
    ∀ separator ∈ [[], bytes ",\n"], ∀ body,
      front'.buf = front.buf ++ (separator ++ (bytes op.opening ++ body ++ bytes "\" \x7d")) →
      decode body = some payload := by
  intro h
  have hdecode := h announced _ _ (.building true) (.writeStdout 0 [9]) [9] announced_reachable rfl
    rfl rfl _ rfl _ rfl (bytes ",\n") (by simp) [9] rfl
  obtain ⟨cs, hcs, hclean⟩ := (decode_escapeJson [9]).mp hdecode
  have htab : cs = [Char.ofNat 9] := Option.some.inj (hcs.symm.trans (utf8Decode_utf8 ['\t']))
  rw [htab] at hclean
  exact absurd (hclean _ (List.mem_singleton_self _)) (by decide)

end StreamServer

end Falcon
