import Falcon.Parser.Libjson

/-!
# Around the document

With no bracket open the parser of `json.c` is in front of the document or behind
it.  In both places it takes white space and comments; behind the document
everything else is an error, and a closing bracket an error of its own.
-/

namespace Falcon

namespace Libjson

/-! ## Bytes -/

/-- The class of a byte, and how many bytes of its character are still to come;
`none` if it is no UTF-8 or a control character. -/
def decode : ℕ → UInt8 → Option (CharClass × ℕ)
  | left + 1, ch => if isContinuation ch then some (.other, left) else none
  | 0, ch =>
    match utf8Header ch with
    | none => none
    | some 0 => if characterClass ch = .error then none else some (characterClass ch, 0)
    | some left => some (.other, left)

/-- Only within a character there are bytes to come behind a class of its own. -/
theorem decode_eq_some {k left : ℕ} {ch : UInt8} {cls : CharClass}
    (h : decode k ch = some (cls, left)) :
    cls = .other ∨ (k = 0 ∧ left = 0 ∧ cls = characterClass ch) := by
  cases k with
  | succ k =>
      rw [decode] at h
      split_ifs at h
      cases h
      exact Or.inl rfl
  | zero =>
      rw [decode] at h
      split at h
      · cases h
      · split_ifs at h
        cases h
        exact Or.inr ⟨rfl, rfl, rfl⟩
      · cases h
        exact Or.inl rfl

namespace Parser

variable {p : Parser} {ch : UInt8}

theorem step_of_none (h : decode p.utf8MultibyteLeft ch = none) :
    ∃ q e, p.step ch = (q, some e) ∧ e ≠ .popEmpty := by
  rw [step]
  cases hleft : p.utf8MultibyteLeft with
  | succ left =>
      rw [hleft, decode] at h
      split_ifs at h with hcont
      exact ⟨p, .utf8, if_neg hcont, by decide⟩
  | zero =>
      rw [hleft, decode] at h
      cases hheader : utf8Header ch with
      | none => exact ⟨_, .utf8, rfl, by decide⟩
      | some left =>
          rw [hheader] at h
          cases left with
          | succ left => cases h
          | zero =>
              change ite _ _ _ = none at h
              split_ifs at h with herror
              exact ⟨p, .badChar, if_pos herror, by decide⟩

theorem step_of_some {cls : CharClass} {left : ℕ}
    (h : decode p.utf8MultibyteLeft ch = some (cls, left)) :
    p.step ch = { p with utf8MultibyteLeft := left }.advance cls ch := by
  rw [step]
  cases hleft : p.utf8MultibyteLeft with
  | succ k =>
      rw [hleft, decode] at h
      split_ifs at h with hcont
      cases h
      exact if_pos hcont
  | zero =>
      rw [hleft, decode] at h
      cases hheader : utf8Header ch with
      | none =>
          rw [hheader] at h
          cases h
      | some k =>
          rw [hheader] at h
          cases k with
          | succ k =>
              cases h
              rfl
          | zero =>
              change ite _ _ _ = some _ at h
              split_ifs at h with herror
              cases h
              have hsame : ({ p with utf8MultibyteLeft := 0 } : Parser) = p := by rw [← hleft]
              rw [hsame]
              exact if_neg herror

end Parser

/-! ## White space and comments -/

/-- Outside of all brackets: between comments, behind the slash of a comment, in
a comment, or behind a star in it. -/
inductive Trail where
  | blank
  | slash
  | comment
  | star
  deriving DecidableEq

namespace Trail

/-- Only white space and comments are read without an error. -/
def next : Trail → CharClass → Option Trail
  | .blank, .space | .blank, .nl | .blank, .white => some .blank
  | .blank, .slash => some .slash
  | .blank, _ => none
  | .slash, .star => some .comment
  | .slash, _ => none
  | .comment, .star => some .star
  | .comment, _ => some .comment
  | .star, .slash => some .blank
  | .star, .star => some .star
  | .star, _ => some .comment

/-- The number is that of the bytes of a character that are still to come. -/
def read : Trail × ℕ → UInt8 → Option (Trail × ℕ)
  | (t, left), ch => (decode left ch).bind fun d ↦ (t.next d.1).map fun t ↦ (t, d.2)

def isClosing (ch : UInt8) : Bool := ch = 0x5d ∨ ch = 0x7d

/-- The state of the parser, if it is `home` outside of comments. -/
def state (home : State) : Trail → State
  | .blank => home
  | .slash => .c1
  | .comment => .c2
  | .star => .c3

end Trail

/-- The parser is outside of all brackets: in front of the document if `home` is
`go`, behind it if it is `ok`. -/
structure Outer (home : State) (s : Trail × ℕ) (p : Parser) : Prop where
  stack : p.stack = []
  type : p.type = .none
  state : p.state = s.1.state home
  saved : s.1 ≠ .blank → p.saveState = home
  left : p.utf8MultibyteLeft = s.2

namespace Outer

variable {home : State} {s s' : Trail × ℕ} {t t' : Trail} {p q : Parser} {cls : CharClass}
  {ch : UInt8} {k : ℕ}

theorem doBuffer (htype : p.type = .none) : p.doBuffer = { p with buffer := [] } := by
  cases p
  cases htype
  rfl

theorem bufferPolicy_state (hhome : home = .go ∨ home = .ok) (t : Trail) (cls : CharClass) :
    bufferPolicy (t.state home) cls = .ignore := by
  rcases hhome with rfl | rfl <;> cases t <;> rfl

section Advance

variable (hhome : home = .go ∨ home = .ok) (h : Outer home (t, k) p) (ch : UInt8)
include hhome h

theorem advance_state {q : State} (hnext : stateTransition (t.state home) cls = .state q) :
    p.advance cls ch = ({ p with state := q }, none) := by
  rw [Parser.advance, h.state, bufferPolicy_state hhome, hnext]

theorem advance_action {act : Action}
    (hnext : stateTransition (t.state home) cls = .action act) :
    p.advance cls ch = p.doAction act := by
  rw [Parser.advance, h.state, bufferPolicy_state hhome, hnext]

omit hhome in
theorem advance_error (hnext : stateTransition (t.state home) cls = .error) :
    p.advance cls ch = (p, some .unexpectedChar) := by
  rw [Parser.advance, h.state, hnext]

end Advance

theorem doAction_cb (htype : p.type = .none) : p.doAction .cb =
    ({ p with buffer := [], saveState := p.state, state := .c1, type := .none }, none) := by
  simp [Parser.doAction, Parser.actionsMap, Parser.actCb, config, chk, doBuffer htype]

theorem doAction_ce : p.doAction .ce =
    ({ p with state := Parser.afterComment p.saveState, type := .none }, none) := rfl

theorem doAction_oe (htype : p.type = .none) (hstack : p.stack = []) :
    p.doAction .oe = ({ p with buffer := [] }, some .popEmpty) := by
  simp [Parser.doAction, Parser.actionsMap, Parser.actOe, Parser.statePop, chk, doBuffer htype,
    hstack]

theorem doAction_ae (htype : p.type = .none) (hstack : p.stack = []) :
    p.doAction .ae = ({ p with buffer := [] }, some .popEmpty) := by
  simp [Parser.doAction, Parser.actionsMap, Parser.actAe, Parser.statePop, chk, doBuffer htype,
    hstack]

/-- The transitions that the machine follows: within white space and comments,
into a comment and out of it. -/
theorem transition_next (hhome : home = .go ∨ home = .ok) (hnext : t.next cls = some t') :
    (stateTransition (t.state home) cls = .state (t'.state home) ∧
      (t' ≠ .blank → t ≠ .blank)) ∨
    (stateTransition (t.state home) cls = .action .cb ∧ t = .blank ∧ t' = .slash) ∨
    (stateTransition (t.state home) cls = .action .ce ∧ t ≠ .blank ∧ t' = .blank) := by
  rcases hhome with rfl | rfl <;> cases t <;> cases cls <;> cases hnext <;> decide

/-- What the machine reads, the parser reads and builds nothing. -/
theorem advance_next (hhome : home = .go ∨ home = .ok) (h : Outer home (t, k) p) (ch : UInt8)
    (hnext : t.next cls = some t') :
    ∃ q, p.advance cls ch = (q, none) ∧ Outer home (t', k) q ∧ q.dom = p.dom := by
  rcases transition_next hhome hnext with ⟨hstate, hinside⟩ | ⟨hcb, rfl, rfl⟩ | ⟨hce, ht, rfl⟩
  · exact ⟨_, advance_state hhome h ch hstate,
      ⟨h.stack, h.type, rfl, fun ht ↦ h.saved (hinside ht), h.left⟩, rfl⟩
  · exact ⟨_, (advance_action hhome h ch hcb).trans (doAction_cb h.type),
      ⟨h.stack, rfl, rfl, fun _ ↦ h.state, h.left⟩, rfl⟩
  · refine ⟨_, (advance_action hhome h ch hce).trans doAction_ce,
      ⟨h.stack, rfl, ?_, fun ht ↦ absurd rfl ht, h.left⟩, rfl⟩
    change Parser.afterComment p.saveState = home
    rw [h.saved ht]
    rcases hhome with rfl | rfl <;> rfl

/-- A closing bracket behind the document stops the parser where it is. -/
theorem advance_closing (h : Outer .ok (.blank, k) p) (ch : UInt8)
    (hcls : cls = .rcurb ∨ cls = .rsqrb) :
    p.advance cls ch = ({ p with buffer := [] }, some .popEmpty) := by
  rcases hcls with rfl | rfl
  · exact (advance_action (Or.inr rfl) h ch rfl).trans (doAction_oe h.type h.stack)
  · exact (advance_action (Or.inr rfl) h ch rfl).trans (doAction_ae h.type h.stack)

/-- Everything else is an error behind the document. -/
theorem advance_refused (h : Outer .ok (t, k) p) (ch : UInt8) (hnext : t.next cls = none)
    (hcls : t = .blank → cls ≠ .rcurb ∧ cls ≠ .rsqrb) :
    ∃ q e, p.advance cls ch = (q, some e) ∧ e ≠ .popEmpty := by
  obtain herror | hsp | hyb : stateTransition (t.state .ok) cls = .error ∨
      stateTransition (t.state .ok) cls = .action .sp ∨
      stateTransition (t.state .ok) cls = .action .yb := by
    cases t with
    | blank =>
        obtain ⟨hcurb, hsqrb⟩ := hcls rfl
        cases cls <;> first | decide | exact absurd rfl hcurb | exact absurd rfl hsqrb | cases hnext
    | slash => cases cls <;> first | decide | cases hnext
    | comment => cases cls <;> cases hnext
    | star => cases cls <;> cases hnext
  · exact ⟨_, _, advance_error h ch herror, by decide⟩
  · refine ⟨{ p with buffer := [] }, .commaOutOfStructure, ?_, by decide⟩
    rw [advance_action (Or.inr rfl) h ch hsp]
    simp [Parser.doAction, Parser.actionsMap, Parser.actSp, chk, doBuffer h.type, h.stack]
  · refine ⟨{ p with buffer := [] }, .commentNotAllowed, ?_, by decide⟩
    rw [advance_action (Or.inr rfl) h ch hyb]
    simp [Parser.doAction, Parser.actionsMap, Parser.actYb, config, chk, doBuffer h.type]

theorem doCallback_cases (p : Parser) (type : JsonType) :
    p.doCallback type = (p, some .heapOverflow) ∨
      p.doCallback type = ({ p with dom := p.dom.callback type [] }, none) := by
  rw [Parser.doCallback]
  split
  · exact Or.inl rfl
  · exact Or.inr rfl

/-- A bracket that opens something is put on the stack, if there is room for its value. -/
theorem doAction_opening {act : Action} (p : Parser) (hact : act = .ob ∨ act = .ab) :
    ∃ q c, p.doAction act = (q, c) ∧ c ≠ some .popEmpty ∧ (c = none → q.stack ≠ []) := by
  rcases hact with rfl | rfl
  · change ∃ q c, chk (chk (p.doCallback .objectBegin) _) _ = (q, c) ∧ _
    rcases doCallback_cases p .objectBegin with h | h
    · rw [h]
      exact ⟨_, _, rfl, by decide, nofun⟩
    · rw [h]
      exact ⟨_, _, rfl, nofun, fun _ ↦ List.cons_ne_nil _ _⟩
  · change ∃ q c, chk (chk (p.doCallback .arrayBegin) _) _ = (q, c) ∧ _
    rcases doCallback_cases p .arrayBegin with h | h
    · rw [h]
      exact ⟨_, _, rfl, by decide, nofun⟩
    · rw [h]
      exact ⟨_, _, rfl, nofun, fun _ ↦ List.cons_ne_nil _ _⟩

/-- In front of the document a bracket opens it, and everything else is an error. -/
theorem advance_opening (h : Outer .go (t, k) p) (ch : UInt8) (hnext : t.next cls = none) :
    ∃ q c, p.advance cls ch = (q, c) ∧ c ≠ some .popEmpty ∧ (c = none → q.stack ≠ []) := by
  obtain herror | hyb | hob | hab : stateTransition (t.state .go) cls = .error ∨
      stateTransition (t.state .go) cls = .action .yb ∨
      stateTransition (t.state .go) cls = .action .ob ∨
      stateTransition (t.state .go) cls = .action .ab := by
    cases t <;> cases cls <;> first | decide | cases hnext
  · exact ⟨_, _, advance_error h ch herror, by decide, by simp⟩
  · refine ⟨{ p with buffer := [] }, some .commentNotAllowed, ?_, by decide, by simp⟩
    rw [advance_action (Or.inl rfl) h ch hyb]
    simp [Parser.doAction, Parser.actionsMap, Parser.actYb, config, chk, doBuffer h.type]
  · rw [advance_action (Or.inl rfl) h ch hob]
    exact doAction_opening p (Or.inl rfl)
  · rw [advance_action (Or.inl rfl) h ch hab]
    exact doAction_opening p (Or.inr rfl)

theorem characterClass_closing : characterClass ch = .rcurb ∨ characterClass ch = .rsqrb ↔
    Trail.isClosing ch = true := by
  rw [Trail.isClosing, decide_eq_true_eq]
  fun_cases characterClass ch <;> grind

theorem left_of (h : Outer home (t, k) p) (left : ℕ) :
    Outer home (t, left) { p with utf8MultibyteLeft := left } :=
  ⟨h.stack, h.type, h.state, h.saved, rfl⟩

theorem step_read (hhome : home = .go ∨ home = .ok) (h : Outer home s p)
    (hread : Trail.read s ch = some s') :
    ∃ q, p.step ch = (q, none) ∧ Outer home s' q ∧ q.dom = p.dom := by
  obtain ⟨t, k⟩ := s
  obtain ⟨⟨cls, left⟩, hdecode, hmap⟩ := Option.bind_eq_some_iff.1 hread
  obtain ⟨t', hnext, rfl⟩ := Option.map_eq_some_iff.1 hmap
  have hleft : p.utf8MultibyteLeft = k := h.left
  rw [← hleft] at hdecode
  rw [Parser.step_of_some hdecode]
  exact (h.left_of left).advance_next hhome ch hnext

theorem step_closing (h : Outer .ok (.blank, 0) p) (hclosing : Trail.isClosing ch = true) :
    p.step ch = ({ p with buffer := [] }, some .popEmpty) := by
  have hcls : characterClass ch = .rcurb ∨ characterClass ch = .rsqrb :=
    characterClass_closing.2 hclosing
  have hstep : p.step ch = p.advance (characterClass ch) ch := by
    rw [Trail.isClosing, decide_eq_true_eq] at hclosing
    rw [Parser.step, h.left]
    rcases hclosing with rfl | rfl <;> rfl
  rw [hstep, h.advance_closing ch hcls]

/-- What the machine does not read has no class, or one that it does not take. -/
theorem read_eq_none (h : Outer home (t, k) p) (hread : Trail.read (t, k) ch = none) :
    (∃ q e, p.step ch = (q, some e) ∧ e ≠ .popEmpty) ∨
    ∃ cls left, decode k ch = some (cls, left) ∧ t.next cls = none ∧
      p.step ch = { p with utf8MultibyteLeft := left }.advance cls ch := by
  have hleft : p.utf8MultibyteLeft = k := h.left
  cases hdecode : decode k ch with
  | none =>
      rw [← hleft] at hdecode
      exact Or.inl (Parser.step_of_none hdecode)
  | some d =>
      obtain ⟨cls, left⟩ := d
      rw [Trail.read, hdecode, Option.bind_some, Option.map_eq_none_iff] at hread
      rw [← hleft] at hdecode
      exact Or.inr ⟨cls, left, rfl, hread, Parser.step_of_some hdecode⟩

theorem step_refused (h : Outer .ok s p) (hread : Trail.read s ch = none)
    (hclosing : ¬ (s = (.blank, 0) ∧ Trail.isClosing ch = true)) :
    ∃ q e, p.step ch = (q, some e) ∧ e ≠ .popEmpty := by
  obtain ⟨t, k⟩ := s
  rcases h.read_eq_none hread with herror | ⟨cls, left, hdecode, hnext, hstep⟩
  · exact herror
  · rw [hstep]
    refine (h.left_of left).advance_refused ch hnext ?_
    rintro rfl
    rcases decode_eq_some hdecode with rfl | ⟨rfl, -, rfl⟩
    · exact ⟨nofun, nofun⟩
    · rw [← not_or, characterClass_closing]
      exact fun hch ↦ hclosing ⟨rfl, hch⟩

theorem step_opening (h : Outer .go s p) (hread : Trail.read s ch = none) :
    ∃ q c, p.step ch = (q, c) ∧ c ≠ some .popEmpty ∧ (c = none → q.stack ≠ []) := by
  obtain ⟨t, k⟩ := s
  rcases h.read_eq_none hread with ⟨q, e, hstep, he⟩ | ⟨cls, left, -, hnext, hstep⟩
  · exact ⟨q, some e, hstep, fun heq ↦ he (Option.some.inj heq), nofun⟩
  · rw [hstep]
    exact (h.left_of left).advance_opening ch hnext

end Outer

/-! ## Within the document -/

/-- A bracket is open behind a step, and the stack was not empty. -/
structure Open (r : Ret) : Prop where
  code : r.2 ≠ some .popEmpty
  stack : r.1.stack ≠ []

/-- The stack was not empty, and if no bracket is open any more the parser is
behind the document. -/
structure Settled (r : Ret) : Prop where
  code : r.2 ≠ some .popEmpty
  closed : r.2 = none → r.1.stack = [] → Outer .ok (.blank, 0) r.1

section Within

variable {p : Parser} {q : State} {r : Ret} {f : Parser → Ret} {act : Action} {cls : CharClass}
  {ch : UInt8}

theorem chk_chk (r : Ret) (f g : Parser → Ret) :
    chk (chk r f) g = chk r fun p ↦ chk (f p) g := by
  obtain ⟨p, _ | e⟩ := r <;> rfl

theorem Open.settled (h : Open r) : Settled r := ⟨h.code, fun _ hstack ↦ absurd hstack h.stack⟩

theorem Settled.of_code {e : JsonError} (he : e ≠ .popEmpty) : Settled (p, some e) :=
  ⟨fun heq ↦ he (Option.some.inj heq), nofun⟩

theorem Open.chk (h : Open r) (hf : ∀ p, p.stack ≠ [] → Open (f p)) : Open (chk r f) := by
  obtain ⟨p, _ | e⟩ := r
  · exact hf p h.stack
  · exact h

namespace Parser

@[simp] theorem doBuffer_stack (p : Parser) : p.doBuffer.stack = p.stack := by
  rw [doBuffer]
  cases p.type <;> rfl

@[simp] theorem doBuffer_left (p : Parser) :
    p.doBuffer.utf8MultibyteLeft = p.utf8MultibyteLeft := by
  rw [doBuffer]
  cases p.type <;> rfl

theorem decodeUnicodeChar_open (hp : p.stack ≠ []) : Open p.decodeUnicodeChar := by
  rw [decodeUnicodeChar]
  constructor
  · split_ifs <;> simp
  · split_ifs <;> exact hp

theorem actSp_open (hp : p.stack ≠ []) : Open p.actSp := by
  rw [actSp]
  split
  case h_1 hnil => exact absurd hnil hp
  all_goals exact ⟨nofun, hp⟩

theorem doCallback_open (hp : p.stack ≠ []) (type : JsonType) : Open (p.doCallback type) := by
  rcases Outer.doCallback_cases p type with h | h
  · rw [h]
    exact ⟨nofun, hp⟩
  · rw [h]
    exact ⟨nofun, hp⟩

/-- Only the two actions of a closing bracket take something off the stack. -/
theorem doAction_open (hp : p.stack ≠ []) (hoe : act ≠ .oe) (hae : act ≠ .ae) :
    Open (p.doAction act) := by
  have hbuffer : p.doBuffer.stack ≠ [] := by rwa [doBuffer_stack]
  refine Open.chk ?_ fun q hq ↦ ⟨nofun, hq⟩
  cases act with
  | oe => exact absurd rfl hoe
  | ae => exact absurd rfl hae
  | sp => exact actSp_open hbuffer
  | ob => exact Open.chk (doCallback_open hp _) fun q _ ↦ ⟨nofun, List.cons_ne_nil _ _⟩
  | ab => exact Open.chk (doCallback_open hp _) fun q _ ↦ ⟨nofun, List.cons_ne_nil _ _⟩
  | yb => exact ⟨by simp [actionsMap, actYb, config], hbuffer⟩
  | cb => exact ⟨nofun, hbuffer⟩
  | uc => exact Open.chk (decodeUnicodeChar_open hp) fun q hq ↦ ⟨nofun, hq⟩
  | _ => exact ⟨nofun, hp⟩

theorem statePop_cons {top : Mode} {stack : List Mode} (h : p.stack = top :: stack) (mode : Mode) :
    p.statePop mode =
      ({ p with stack := stack }, if top = mode then none else some .popUnexpectedMode) := by
  rw [statePop, h]

theorem statePop_settled (hp : p.stack ≠ []) (mode : Mode)
    (hf : ∀ q : Parser, q.utf8MultibyteLeft = p.utf8MultibyteLeft → Settled (f q)) :
    Settled (chk (p.statePop mode) f) := by
  obtain ⟨top, stack, hstack⟩ := List.exists_cons_of_ne_nil hp
  rw [statePop_cons hstack]
  by_cases htop : top = mode
  · rw [if_pos htop]
    exact hf _ rfl
  · rw [if_neg htop]
    exact Settled.of_code (by decide)

/-- The closing bracket of the document leads to the state `ok`. -/
theorem doAction_settled (hp : p.stack ≠ []) (hleft : p.utf8MultibyteLeft = 0)
    (hact : act = .oe ∨ act = .ae) : Settled (p.doAction act) := by
  have hbuffer : p.doBuffer.stack ≠ [] := by rwa [doBuffer_stack]
  have hleft' : p.doBuffer.utf8MultibyteLeft = 0 := by rwa [doBuffer_left]
  rcases hact with rfl | rfl
  · change Settled (chk (chk (p.doBuffer.statePop .object) _) _)
    rw [chk_chk]
    exact statePop_settled hbuffer .object fun q hq ↦ ⟨nofun, fun _ hstack ↦
      ⟨hstack, rfl, rfl, fun ht ↦ absurd rfl ht, hq.trans hleft'⟩⟩
  · change Settled (chk (chk (p.doBuffer.statePop .array) _) _)
    rw [chk_chk]
    exact statePop_settled hbuffer .array fun q hq ↦ ⟨nofun, fun _ hstack ↦
      ⟨hstack, rfl, rfl, fun ht ↦ absurd rfl ht, hq.trans hleft'⟩⟩

theorem transition_other : stateTransition q .other ≠ .action act := by
  intro h
  cases q <;> cases h

theorem doAction_within (hp : p.stack ≠ [])
    (hleft : act = .oe ∨ act = .ae → p.utf8MultibyteLeft = 0) : Settled (p.doAction act) := by
  by_cases hact : act = .oe ∨ act = .ae
  · exact doAction_settled hp (hleft hact) hact
  · rw [not_or] at hact
    exact (doAction_open hp hact.1 hact.2).settled

theorem advance_settled (hp : p.stack ≠ []) (hcls : cls = .other ∨ p.utf8MultibyteLeft = 0)
    (ch : UInt8) : Settled (p.advance cls ch) := by
  cases hnext : stateTransition p.state cls with
  | error =>
      rw [advance, hnext]
      exact Settled.of_code (by decide)
  | state q =>
      rw [advance, hnext]
      refine Open.settled ⟨nofun, ?_⟩
      cases bufferPolicy p.state cls <;> exact hp
  | action act =>
      have hleft : act = .oe ∨ act = .ae → p.utf8MultibyteLeft = 0 := by
        intro _
        refine hcls.resolve_left ?_
        rintro rfl
        exact transition_other hnext
      rw [advance, hnext]
      cases bufferPolicy p.state cls with
      | ignore => exact doAction_within hp hleft
      | append => exact doAction_within (p := p.bufferPush ch) hp hleft
      | escape => exact doAction_within (p := p.bufferPushEscape ch) hp hleft

theorem step_settled (hp : p.stack ≠ []) (ch : UInt8) : Settled (p.step ch) := by
  cases hdecode : decode p.utf8MultibyteLeft ch with
  | none =>
      obtain ⟨q, e, hstep, he⟩ := step_of_none hdecode
      exact hstep ▸ Settled.of_code he
  | some d =>
      obtain ⟨cls, left⟩ := d
      have hopen : { p with utf8MultibyteLeft := left }.stack ≠ [] := hp
      rw [step_of_some hdecode]
      refine advance_settled hopen ?_ ch
      exact (decode_eq_some hdecode).imp_right fun h ↦ h.2.1

end Parser

end Within

/-! ## Where the parser stops -/

/-- With no bracket open the parser is in front of the document or behind it. -/
def Placed (p : Parser) : Prop :=
  p.stack = [] → ∃ s : Trail × ℕ, (s.1 = .blank → s.2 = 0) ∧ (Outer .go s p ∨ Outer .ok s p)

theorem Trail.next_other {t t' : Trail} (h : t.next .other = some t') : t' ≠ .blank := by
  cases t <;> cases h <;> decide

/-- Between comments the parser is never within a character. -/
theorem Trail.read_blank {s s' : Trail × ℕ} {ch : UInt8} (h : Trail.read s ch = some s')
    (hblank : s'.1 = .blank) : s'.2 = 0 := by
  obtain ⟨t, k⟩ := s
  obtain ⟨⟨cls, left⟩, hdecode, hmap⟩ := Option.bind_eq_some_iff.1 h
  obtain ⟨t', hnext, rfl⟩ := Option.map_eq_some_iff.1 hmap
  rcases decode_eq_some hdecode with rfl | ⟨-, hleft, -⟩
  · exact absurd hblank (Trail.next_other hnext)
  · exact hleft

namespace Placed

variable {p q : Parser} {a : List UInt8} {ch : UInt8}

theorem create : Placed Parser.create :=
  fun _ ↦ ⟨(.blank, 0), fun _ ↦ rfl, Or.inl ⟨rfl, rfl, rfl, fun h ↦ absurd rfl h, rfl⟩⟩

/-- A step reads white space and comments, or it stops at a closing bracket behind
the document, or it opens the document, or it stops with another code. -/
theorem step_cases (hp : Placed p) (hstack : p.stack = []) (ch : UInt8) :
    (∃ q, p.step ch = (q, none) ∧ Placed q) ∨
    (p.step ch = ({ p with buffer := [] }, some .popEmpty) ∧
      Outer .ok (.blank, 0) p ∧ Trail.isClosing ch = true) ∨
    ∃ q e, p.step ch = (q, some e) ∧ e ≠ .popEmpty := by
  obtain ⟨s, -, hs⟩ := hp hstack
  cases hread : Trail.read s ch with
  | some s' =>
      left
      rcases hs with hgo | hok
      · obtain ⟨q, hstep, houter, -⟩ := hgo.step_read (Or.inl rfl) hread
        exact ⟨q, hstep, fun _ ↦ ⟨s', Trail.read_blank hread, Or.inl houter⟩⟩
      · obtain ⟨q, hstep, houter, -⟩ := hok.step_read (Or.inr rfl) hread
        exact ⟨q, hstep, fun _ ↦ ⟨s', Trail.read_blank hread, Or.inr houter⟩⟩
  | none =>
      rcases hs with hgo | hok
      · obtain ⟨q, _ | e, hstep, hcode, hopen⟩ := hgo.step_opening hread
        · exact Or.inl ⟨q, hstep, fun hq ↦ absurd hq (hopen rfl)⟩
        · exact Or.inr (Or.inr ⟨q, e, hstep, fun he ↦ hcode (congrArg some he)⟩)
      · by_cases hclosing : s = (.blank, 0) ∧ Trail.isClosing ch = true
        · obtain ⟨rfl, hch⟩ := hclosing
          exact Or.inr (Or.inl ⟨hok.step_closing hch, hok, hch⟩)
        · exact Or.inr (Or.inr (hok.step_refused hread hclosing))

theorem step (hp : Placed p) (hstep : p.step ch = (q, none)) : Placed q := by
  by_cases hstack : p.stack = []
  · rcases hp.step_cases hstack ch with ⟨q', hstep', hq'⟩ | ⟨hstep', -⟩ | ⟨q', e, hstep', -⟩
    · obtain rfl : q' = q := congrArg Prod.fst (hstep'.symm.trans hstep)
      exact hq'
    · cases hstep'.symm.trans hstep
    · cases hstep'.symm.trans hstep
  · have hsettled := Parser.step_settled hstack ch
    rw [hstep] at hsettled
    exact fun hq ↦ ⟨(.blank, 0), fun _ ↦ rfl, Or.inr (hsettled.closed rfl hq)⟩

theorem run (h : Lib.feed Parser.step Parser.create a = (p, none)) : Placed p :=
  Lib.feed_invariant Placed (fun _ _ _ hp hstep ↦ hp.step hstep) create h

/-- The parser finds nothing to take off its stack for a closing bracket behind
the document only. -/
theorem of_popEmpty (hp : Placed p) (hstep : p.step ch = (q, some .popEmpty)) :
    Outer .ok (.blank, 0) p ∧ Trail.isClosing ch = true := by
  by_cases hstack : p.stack = []
  · rcases hp.step_cases hstack ch with ⟨q', hstep', -⟩ | ⟨-, hclosing⟩ | ⟨q', e, hstep', he⟩
    · cases hstep'.symm.trans hstep
    · exact hclosing
    · exact absurd (Option.some.inj (congrArg Prod.snd (hstep'.symm.trans hstep))) he
  · exact absurd (congrArg Prod.snd hstep) (Parser.step_settled hstack ch).code

/-- The state `ok` without an open bracket is that behind the document. -/
theorem outer (hp : Placed p) (hstack : p.stack = []) (hstate : p.state = .ok) :
    Outer .ok (.blank, 0) p := by
  obtain ⟨⟨t, k⟩, hblank, hgo | hok⟩ := hp hstack
  · have hstate' := hgo.state.symm.trans hstate
    cases t <;> cases hstate'
  · have hstate' := hok.state.symm.trans hstate
    cases t with
    | blank =>
        obtain rfl : k = 0 := hblank rfl
        exact hok
    | _ => cases hstate'

end Placed

end Libjson

end Falcon
