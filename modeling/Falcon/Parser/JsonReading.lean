import Falcon.Parser.Boundaries
import Falcon.Parser.JsonStrings

/-!
# The documents that the JSON parser reads

What the grammar derives, the parser reads without an error, and it builds the tree
that the text denotes.  Between two tokens the parser is in one of a few states.
Behind a number or a constant it has not delivered the value yet.
-/

namespace Falcon

namespace Libjson

/-- From each parser of the first kind the bytes lead without an error to one of the
second. -/
def Leads (P : Parser → Prop) (l : List UInt8) (Q : Parser → Prop) : Prop :=
  ∀ p, P p → ∃ q, p.Reads l q ∧ Q q

namespace Leads

variable {P Q R : Parser → Prop} {l m : List UInt8} {ch : UInt8}

theorem nil (P : Parser → Prop) : Leads P [] P := fun p hp ↦ ⟨p, .nil p, hp⟩

theorem append (h : Leads P l Q) (hm : Leads Q m R) : Leads P (l ++ m) R := by
  intro p hp
  obtain ⟨q, hreads, hq⟩ := h p hp
  obtain ⟨r, hrest, hr⟩ := hm q hq
  exact ⟨r, hreads.append hrest, hr⟩

theorem one (h : ∀ p, P p → ∃ q, p.step ch = (q, none) ∧ Q q) : Leads P [ch] Q := by
  intro p hp
  obtain ⟨q, hstep, hq⟩ := h p hp
  exact ⟨q, .one hstep, hq⟩

theorem cons (h : Leads P [ch] Q) (hl : Leads Q l R) : Leads P (ch :: l) R := h.append hl

theorem weaken (h : Leads P l Q) (himp : ∀ p, Q p → R p) : Leads P l R := by
  intro p hp
  obtain ⟨q, hreads, hq⟩ := h p hp
  exact ⟨q, hreads, himp q hq⟩

end Leads

/-! ## White space and comments -/

/-- Within a comment, behind which the parser is back in the state `home`. -/
structure InComment (home : State) (key : Bool) (stack : List Mode) (dom : Dom) (t : Trail)
    (left : ℕ) (p : Parser) : Prop where
  state : p.state = t.state home
  saved : Parser.afterComment p.saveState = home
  key : p.expectingKey = key
  left : p.utf8MultibyteLeft = left
  multi : p.unicodeMulti = 0
  type : p.type = .none
  stack : p.stack = stack
  buffer : p.buffer = []
  dom : p.dom = dom

/-- Between two tokens: nothing is in the buffer and no value is owed. -/
structure Between (home : State) (key : Bool) (stack : List Mode) (dom : Dom) (p : Parser) :
    Prop where
  state : p.state = home
  key : p.expectingKey = key
  left : p.utf8MultibyteLeft = 0
  multi : p.unicodeMulti = 0
  type : p.type = .none
  stack : p.stack = stack
  buffer : p.buffer = []
  dom : p.dom = dom

def isSpace (cls : CharClass) : Prop := cls = .space ∨ cls = .nl ∨ cls = .white

section Blank

variable {home : State} {key : Bool} {stack : List Mode} {dom : Dom} {t t' : Trail} {left k : ℕ}
  {p : Parser} {ch : UInt8} {cls : CharClass} {l : List UInt8} {P : Parser → Prop}

theorem step_of_class (hdecode : decode 0 ch = some (cls, 0)) (hleft : p.utf8MultibyteLeft = 0) :
    p.step ch = p.advance cls ch := by
  have hsame : ({ p with utf8MultibyteLeft := 0 } : Parser) = p := by rw [← hleft]
  have hzero : decode p.utf8MultibyteLeft ch = some (cls, 0) := by rwa [hleft]
  rw [Parser.step_of_some hzero, hsame]

/-- In a comment the parser follows the machine until the comment ends. -/
theorem InComment.step (h : InComment home key stack dom t left p) (ht : t ≠ .blank)
    (ht' : t' ≠ .blank) (hdecode : decode left ch = some (cls, k)) (hnext : t.next cls = some t') :
    ∃ q, p.step ch = (q, none) ∧ InComment home key stack dom t' k q := by
  have hadvance : ({ p with utf8MultibyteLeft := k } : Parser).advance cls ch =
      ({ p with utf8MultibyteLeft := k, state := t'.state home }, none) := by
    have htransition : stateTransition (t.state home) cls = .state (t'.state home) ∧
        bufferPolicy (t.state home) cls = .ignore := by
      cases t with
      | blank => exact absurd rfl ht
      | slash => cases cls <;> cases hnext; exact ⟨rfl, rfl⟩
      | comment => cases cls <;> cases hnext <;> exact ⟨rfl, rfl⟩
      | star => cases cls <;> cases hnext <;> first | exact ⟨rfl, rfl⟩ | exact absurd rfl ht'
    rw [Parser.advance, h.state, htransition.1, htransition.2]
  rw [Parser.step_of_some (h.left ▸ hdecode), hadvance]
  exact ⟨_, rfl, rfl, h.saved, h.key, rfl, h.multi, h.type, h.stack, h.buffer, h.dom⟩

/-- The slash that ends a comment. -/
theorem InComment.close (h : InComment home key stack dom .star 0 p)
    (hdecode : decode 0 ch = some (.slash, 0)) :
    ∃ q, p.step ch = (q, none) ∧ Between home key stack dom q := by
  have hadvance : p.advance .slash ch = p.doAction .ce := by
    rw [Parser.advance, h.state]
    rfl
  rw [step_of_class hdecode h.left, hadvance, Outer.doAction_ce]
  exact ⟨_, rfl, h.saved, h.key, h.left, h.multi, rfl, h.stack, h.buffer, h.dom⟩

/-- White space leads from `P` to `P`, the slash of a comment is taken, and behind the
comment `P` holds again. -/
structure Skips (home : State) (key : Bool) (stack : List Mode) (dom : Dom) (P : Parser → Prop) :
    Prop where
  space : ∀ p ch cls, P p → isSpace cls → decode 0 ch = some (cls, 0) →
    ∃ q, p.step ch = (q, none) ∧ P q
  slash : ∀ p ch, P p → decode 0 ch = some (.slash, 0) →
    ∃ q, p.step ch = (q, none) ∧ InComment home key stack dom .slash 0 q
  back : ∀ p, Between home key stack dom p → P p

namespace Skips

/-- Where the parser is within white space and comments. -/
def Place (home : State) (key : Bool) (stack : List Mode) (dom : Dom) (P : Parser → Prop)
    (s : Trail × ℕ) (p : Parser) : Prop :=
  s = (.blank, 0) ∧ P p ∨ s.1 ≠ .blank ∧ InComment home key stack dom s.1 s.2 p

theorem step {s s' : Trail × ℕ} (h : Skips home key stack dom P)
    (hp : Place home key stack dom P s p) (hread : Trail.read s ch = some s') :
    ∃ q, p.step ch = (q, none) ∧ Place home key stack dom P s' q := by
  obtain ⟨t, left⟩ := s
  obtain ⟨⟨cls, k⟩, hdecode, hmap⟩ := Option.bind_eq_some_iff.mp hread
  obtain ⟨t', hnext, rfl⟩ := Option.map_eq_some_iff.mp hmap
  simp only at hnext hdecode
  rcases hp with ⟨hs, hp⟩ | ⟨ht, hp⟩
  · obtain ⟨rfl, rfl⟩ := Prod.mk.inj hs
    have hclass : t' = .blank ∧ isSpace cls ∨ t' = .slash ∧ cls = .slash := by
      cases cls <;> cases hnext <;> simp [isSpace]
    obtain rfl : k = 0 := by
      rcases decode_eq_some hdecode with rfl | ⟨-, hk, -⟩
      · cases hnext
      · exact hk
    rcases hclass with ⟨rfl, hcls⟩ | ⟨rfl, rfl⟩
    · obtain ⟨q, hstep, hq⟩ := h.space p ch cls hp hcls hdecode
      exact ⟨q, hstep, Or.inl ⟨rfl, hq⟩⟩
    · obtain ⟨q, hstep, hq⟩ := h.slash p ch hp hdecode
      exact ⟨q, hstep, Or.inr ⟨nofun, hq⟩⟩
  · by_cases ht' : t' = .blank
    · subst ht'
      obtain ⟨rfl, rfl⟩ : t = .star ∧ cls = .slash := by
        cases t with
        | blank => exact absurd rfl ht
        | star => cases cls <;> cases hnext; exact ⟨rfl, rfl⟩
        | _ => cases cls <;> cases hnext
      obtain ⟨rfl, rfl⟩ : left = 0 ∧ k = 0 := by
        rcases decode_eq_some hdecode with h | ⟨hleft, hk, -⟩
        · cases h
        · exact ⟨hleft, hk⟩
      obtain ⟨q, hstep, hq⟩ := hp.close hdecode
      exact ⟨q, hstep, Or.inl ⟨rfl, h.back q hq⟩⟩
    · obtain ⟨q, hstep, hq⟩ := hp.step ht ht' hdecode hnext
      exact ⟨q, hstep, Or.inr ⟨ht', hq⟩⟩

theorem run {s : Trail × ℕ} (h : Skips home key stack dom P)
    (hp : Place home key stack dom P s p) (hrun : l.foldlM Trail.read s = some (.blank, 0)) :
    ∃ q, p.Reads l q ∧ P q := by
  induction l generalizing s p with
  | nil =>
      obtain rfl := Option.some.inj hrun
      rcases hp with ⟨-, hp⟩ | ⟨hs, -⟩
      · exact ⟨p, .nil p, hp⟩
      · exact absurd rfl hs
  | cons ch l ih =>
      obtain ⟨s', hread, hrest⟩ := Option.bind_eq_some_iff.mp hrun
      obtain ⟨q, hstep, hq⟩ := h.step hp hread
      obtain ⟨r, hreads, hr⟩ := ih hq hrest
      exact ⟨r, .cons hstep hreads, hr⟩

theorem leads (h : Skips home key stack dom P) (hl : Blank l) : Leads P l P :=
  fun _ hp ↦ h.run (Or.inl ⟨rfl, hp⟩) hl

end Skips

/-- The states in which the parser takes white space and comments and stays. -/
def isHome (q : State) : Bool := q ∈ [State.go, .ok, .o, .k, .co, .v, .a]

theorem isHome_transition (h : isHome home = true) :
    (∀ cls, isSpace cls → stateTransition home cls = .state home ∧
      bufferPolicy home cls = .ignore) ∧
    stateTransition home .slash = .action .cb ∧ bufferPolicy home .slash = .ignore ∧
    Parser.afterComment home = home := by
  refine ⟨fun cls hcls ↦ ?_, ?_⟩
  · rcases hcls with rfl | rfl | rfl <;> cases home <;> first | exact ⟨rfl, rfl⟩ | cases h
  · cases home <;> first | exact ⟨rfl, rfl, rfl⟩ | cases h

theorem Between.skips (hhome : isHome home = true) :
    Skips home key stack dom (Between home key stack dom) := by
  obtain ⟨htransition, hcomment, hpolicy, hback⟩ := isHome_transition hhome
  refine ⟨?_, ?_, fun p hp ↦ hp⟩
  · intro p ch cls hp hcls hdecode
    obtain ⟨hnext, hignore⟩ := htransition cls hcls
    rw [step_of_class hdecode hp.left, Parser.advance, hp.state, hnext, hignore]
    exact ⟨_, rfl, rfl, hp.key, hp.left, hp.multi, hp.type, hp.stack, hp.buffer, hp.dom⟩
  · intro p ch hp hdecode
    rw [step_of_class hdecode hp.left, Parser.advance, hp.state, hcomment, hpolicy]
    refine ⟨_, Outer.doAction_cb hp.type, rfl, ?_, hp.key, hp.left, hp.multi, rfl, hp.stack, rfl,
      hp.dom⟩
    change Parser.afterComment p.state = home
    rw [hp.state, hback]

theorem Between.blank (hhome : isHome home = true) (hl : Blank l) :
    Leads (Between home key stack dom) l (Between home key stack dom) :=
  (Between.skips hhome).leads hl

end Blank

/-! ## Numbers -/

namespace Parser

/-- Within a number, or in front of a value. -/
def inNumber (q : State) (save : State) (type : JsonType) (stack : List Mode)
    (buffer : List UInt8) (dom : Dom) : Parser :=
  ⟨q, save, false, 0, 0, type, stack, buffer, dom⟩

section Numbers

variable {q next : State} {save : State} {type : JsonType} {stack : List Mode}
  {buffer : List UInt8} {dom : Dom} {ch : UInt8} {l : List UInt8}

theorem digit_class (h : Libjson.isDigit ch = true) :
    decode 0 ch = some (characterClass ch, 0) ∧ (characterClass ch).isDigit = true ∧
      (ch ≠ 0x30 → characterClass ch = .digit) :=
  Lib.forall_byte (p := fun ch ↦ Libjson.isDigit ch = true →
    decode 0 ch = some (characterClass ch, 0) ∧ (characterClass ch).isDigit = true ∧
      (ch ≠ 0x30 → characterClass ch = .digit)) (by decide +kernel) ch h

/-- A digit that is added to the buffer. -/
theorem step_digit (h : Libjson.isDigit ch = true)
    (hnext : ∀ cls, cls.isDigit = true → stateTransition q cls = .state next ∧
      bufferPolicy q cls = .append) :
    (inNumber q save type stack buffer dom).step ch =
      (inNumber next save type stack (buffer ++ [ch]) dom, none) := by
  obtain ⟨hdecode, hdigit, -⟩ := digit_class h
  obtain ⟨hstate, hpolicy⟩ := hnext _ hdigit
  rw [step_of_class hdecode rfl, advance]
  simp only [inNumber, hstate, hpolicy]
  rfl

/-- Digits that leave the state alone. -/
theorem reads_moreDigits (hq : q = .i0 ∨ q = .r2 ∨ q = .x3)
    (h : ∀ ch ∈ l, Libjson.isDigit ch = true) :
    (inNumber q save type stack buffer dom).Reads l
      (inNumber q save type stack (buffer ++ l) dom) := by
  have hnext : ∀ cls, cls.isDigit = true → stateTransition q cls = .state q ∧
      bufferPolicy q cls = .append := by
    intro cls hcls
    rcases hq with rfl | rfl | rfl <;> cases cls <;> first | exact ⟨rfl, rfl⟩ | cases hcls
  induction l generalizing buffer with
  | nil =>
      rw [List.append_nil]
      exact .nil _
  | cons ch l ih =>
      rw [List.forall_mem_cons] at h
      have hrest : (inNumber q save type stack (buffer ++ [ch]) dom).Reads l _ := ih h.2
      rw [List.append_assoc] at hrest
      exact .cons (step_digit h.1 hnext) hrest

/-- Digits behind the point, or behind the letter of an exponent. -/
theorem reads_someDigits (hq : q = .r1 ∧ next = .r2 ∨ (q = .x1 ∨ q = .x2) ∧ next = .x3)
    (h : Digits l) :
    (inNumber q save type stack buffer dom).Reads l
      (inNumber next save type stack (buffer ++ l) dom) := by
  have hnext : ∀ cls, cls.isDigit = true → stateTransition q cls = .state next ∧
      bufferPolicy q cls = .append := by
    intro cls hcls
    rcases hq with ⟨rfl, rfl⟩ | ⟨rfl | rfl, rfl⟩ <;> cases cls <;>
      first | exact ⟨rfl, rfl⟩ | cases hcls
  obtain ⟨ch, l, rfl⟩ := List.exists_cons_of_ne_nil h.ne_nil
  obtain ⟨hch, hl⟩ := List.forall_mem_cons.mp h.digits
  have hrest : (inNumber next save type stack (buffer ++ [ch]) dom).Reads l _ :=
    reads_moreDigits (by tauto) hl
  rw [List.append_assoc] at hrest
  exact .cons (step_digit hch hnext) hrest

/-- The states behind the part of a number in front of its point. -/
def afterWhole (whole : List UInt8) : State := if whole = [0x30] then .z0 else .i0

theorem afterWhole_cons (h : ch ≠ 0x30) : afterWhole (ch :: l) = .i0 :=
  if_neg fun heq ↦ h (List.cons.inj heq).1

/-- In front of a number nothing is in the buffer. -/
def isStart (q : State) : Prop := q = .v ∨ q = .a

theorem step_firstDigit (hq : isStart q) (hch : Libjson.isDigit ch = true) (hne : ch ≠ 0x30) :
    (inNumber q save type stack buffer dom).step ch =
      (inNumber .i0 save .int stack (buffer ++ [ch]) dom, none) := by
  obtain ⟨hdecode, -, hdigit⟩ := digit_class hch
  rw [hdigit hne] at hdecode
  rw [step_of_class hdecode rfl]
  rcases hq with rfl | rfl <;> rfl

theorem reads_whole {whole : List UInt8} (hq : isStart q) (h : Whole whole) :
    (inNumber q save .none stack [] dom).Reads whole
      (inNumber (afterWhole whole) save .int stack whole dom) := by
  cases h with
  | zero => rcases hq with rfl | rfl <;> exact .one rfl
  | @digits ch l hch hne hl =>
      rw [afterWhole_cons hne]
      exact .cons (step_firstDigit hq hch hne) (reads_moreDigits (Or.inl rfl) hl)

theorem reads_negative {whole : List UInt8} (hq : isStart q) (h : Whole whole) :
    (inNumber q save .none stack [] dom).Reads (0x2d :: whole)
      (inNumber (afterWhole whole) save .int stack (0x2d :: whole) dom) := by
  have hminus : (inNumber q save .none stack [] dom).step 0x2d =
      (inNumber .m0 save .int stack [0x2d] dom, none) := by
    rcases hq with rfl | rfl <;> rfl
  refine .cons hminus ?_
  cases h with
  | zero => exact .one rfl
  | @digits ch l hch hne hl =>
      obtain ⟨hdecode, -, hdigit⟩ := digit_class hch
      rw [hdigit hne] at hdecode
      have hfirst : (inNumber .m0 save .int stack [0x2d] dom).step ch =
          (inNumber .i0 save .int stack [0x2d, ch] dom, none) := by
        rw [step_of_class hdecode rfl]
        rfl
      rw [afterWhole_cons hne]
      exact .cons hfirst (reads_moreDigits (Or.inl rfl) hl)

theorem reads_signed {sign whole : List UInt8} (hq : isStart q) (hsign : Sign sign)
    (h : Whole whole) :
    (inNumber q save .none stack [] dom).Reads (sign ++ whole)
      (inNumber (afterWhole whole) save .int stack (sign ++ whole) dom) := by
  rcases hsign with rfl | rfl
  · exact reads_whole hq h
  · exact reads_negative hq h

theorem reads_fraction {whole frac : List UInt8} (h : Digits frac) :
    (inNumber (afterWhole whole) save .int stack buffer dom).Reads (0x2e :: frac)
      (inNumber .r2 save .float stack (buffer ++ 0x2e :: frac) dom) := by
  have hpoint : (inNumber (afterWhole whole) save .int stack buffer dom).step 0x2e =
      (inNumber .r1 save .float stack (buffer ++ [0x2e]) dom, none) := by
    rw [afterWhole]
    split <;> rfl
  have hrest : (inNumber .r1 save .float stack (buffer ++ [0x2e]) dom).Reads frac _ :=
    reads_someDigits (Or.inl ⟨rfl, rfl⟩) h
  rw [List.append_assoc] at hrest
  exact .cons hpoint hrest

theorem reads_exponent {exp : List UInt8} (hq : q = .i0 ∧ type = .int ∨ q = .r2 ∧ type = .float)
    (h : Exponent exp) :
    (inNumber q save type stack buffer dom).Reads exp
      (inNumber .x3 save .float stack (buffer ++ exp) dom) := by
  obtain ⟨he, hsign, hdigits⟩ := h
  rename_i e sign l
  have hletter : (inNumber q save type stack buffer dom).step e =
      (inNumber .x1 save .float stack (buffer ++ [e]) dom, none) := by
    rcases hq with ⟨rfl, rfl⟩ | ⟨rfl, rfl⟩ <;> rcases he with rfl | rfl <;> rfl
  refine .cons hletter ?_
  rcases hsign with rfl | hsign
  · have hrest : (inNumber .x1 save .float stack (buffer ++ [e]) dom).Reads l _ :=
      reads_someDigits (Or.inr ⟨Or.inl rfl, rfl⟩) hdigits
    rw [List.append_assoc] at hrest
    exact hrest
  · obtain ⟨c, rfl, hc⟩ : ∃ c, sign = [c] ∧
        (inNumber .x1 save .float stack (buffer ++ [e]) dom).step c =
          (inNumber .x2 save .float stack (buffer ++ [e] ++ [c]) dom, none) := by
      rcases hsign with rfl | rfl <;> exact ⟨_, rfl, rfl⟩
    have happend : buffer ++ e :: ([c] ++ l) = buffer ++ [e] ++ [c] ++ l := by simp
    rw [happend]
    exact .cons hc (reads_someDigits (Or.inr ⟨Or.inr rfl, rfl⟩) hdigits)

end Numbers

end Parser

/-! ## Behind a value -/

/-- A value in the structure on the top of the stack. -/
def Dom.push (dom : Dom) (val : Tree) : Dom := { dom with stack := appendTop val dom.stack }

def Tree.isFloat : Tree → Bool
  | .mk type _ _ _ => type = .float

/-- The states behind a value. -/
def isBehind (q : State) : Bool := q ∈ [State.ok, .z0, .i0, .r2, .x3]

/-- Behind a value: it is in the tree, or the parser puts it there as soon as it sees
that the value has ended. -/
structure Valued (val : Tree) (stack : List Mode) (dom : Dom) (p : Parser) : Prop where
  state : isBehind p.state = true
  key : p.expectingKey = false
  left : p.utf8MultibyteLeft = 0
  multi : p.unicodeMulti = 0
  stack : p.stack = stack
  deliver : p.doBuffer = { p with buffer := [], dom := dom.push val }
  float : p.state = .x3 → val.isFloat = true

section Valued

variable {val : Tree} {stack : List Mode} {dom : Dom} {p q : Parser} {ch : UInt8}
  {cls : CharClass} {l : List UInt8} {act : Action} {save : State} {type : JsonType}
  {buffer : List UInt8}

theorem Between.valued (h : Between .ok false stack (dom.push val) p) :
    Valued val stack dom p := by
  refine ⟨by rw [h.state]; rfl, h.key, h.left, h.multi, h.stack, ?_, fun hstate ↦ ?_⟩
  · rw [Outer.doBuffer h.type, ← h.dom]
  · cases h.state.symm.trans hstate

/-- A number that ends with the buffer. -/
theorem valued_number {q : State} (hq : isBehind q = true)
    (htype : type = .int ∧ q ≠ .x3 ∨ type = .float) :
    Valued (.mk type [] [] buffer) stack dom (.inNumber q save type stack buffer dom) := by
  refine ⟨hq, rfl, rfl, rfl, rfl, ?_, fun hstate ↦ ?_⟩
  · rcases htype with ⟨rfl, -⟩ | rfl <;> rfl
  · rcases htype with ⟨rfl, hne⟩ | rfl
    · exact absurd hstate hne
    · rfl

theorem doBuffer_withState (p : Parser) (q : State) :
    ({ p with state := q } : Parser).doBuffer = { p.doBuffer with state := q } := by
  obtain ⟨_, _, _, _, _, type, _, _, _⟩ := p
  cases type <;> rfl

theorem behind_space {q : State} (hq : isBehind q = true) (hcls : isSpace cls) :
    stateTransition q cls = .state .ok ∧ bufferPolicy q cls = .ignore := by
  rcases hcls with rfl | rfl | rfl <;> cases q <;> first | exact ⟨rfl, rfl⟩ | cases hq

theorem behind_slash {q : State} (hq : isBehind q = true) (hne : q ≠ .x3) :
    stateTransition q .slash = .action .cb ∧ bufferPolicy q .slash = .ignore ∧
      Parser.afterComment q = .ok := by
  cases q <;> first | exact absurd rfl hne | exact ⟨rfl, rfl, rfl⟩ | cases hq

theorem behind_action {q : State} (hq : isBehind q = true)
    (hcls : cls = .comma ∨ cls = .rcurb ∨ cls = .rsqrb) :
    stateTransition q cls = afterValue cls ∧ bufferPolicy q cls = .ignore := by
  rcases hcls with rfl | rfl | rfl <;> cases q <;> first | exact ⟨rfl, rfl⟩ | cases hq

theorem Valued.step_space (h : Valued val stack dom p) (hcls : isSpace cls)
    (hdecode : decode 0 ch = some (cls, 0)) :
    ∃ q, p.step ch = (q, none) ∧ Valued val stack dom q ∧ q.state ≠ .x3 := by
  obtain ⟨hnext, hignore⟩ := behind_space h.state hcls
  rw [step_of_class hdecode h.left, Parser.advance, hnext, hignore]
  refine ⟨_, rfl, ⟨rfl, h.key, h.left, h.multi, h.stack, ?_, fun hx ↦ by cases hx⟩,
    fun hx ↦ by cases hx⟩
  rw [doBuffer_withState, h.deliver]

/-- The slash of a comment has the value delivered. -/
theorem Valued.step_slash (h : Valued val stack dom p) (hne : p.state ≠ .x3)
    (hdecode : decode 0 ch = some (.slash, 0)) :
    ∃ q, p.step ch = (q, none) ∧ InComment .ok false stack (dom.push val) .slash 0 q := by
  obtain ⟨hnext, hignore, hback⟩ := behind_slash h.state hne
  have haction : p.doAction .cb = ({ p.doBuffer with
      saveState := p.doBuffer.state, state := .c1, type := .none }, none) := rfl
  rw [step_of_class hdecode h.left, Parser.advance, hnext, hignore]
  simp only
  rw [haction, h.deliver]
  exact ⟨_, rfl, rfl, hback, h.key, h.left, h.multi, rfl, h.stack, rfl, rfl⟩

theorem Valued.skips : Skips .ok false stack (dom.push val)
    fun p ↦ Valued val stack dom p ∧ p.state ≠ .x3 where
  space _ _ _ hp hcls hdecode := hp.1.step_space hcls hdecode
  slash _ _ hp hdecode := hp.1.step_slash hp.2 hdecode
  back p hp := ⟨hp.valued, fun hstate ↦ by cases hp.state.symm.trans hstate⟩

theorem characterClass_slash : characterClass ch = .slash → ch = 0x2f :=
  Lib.forall_byte (p := fun ch ↦ characterClass ch = .slash → ch = 0x2f) (by decide +kernel) ch

/-- White space and comments behind a value, but no comment right behind a floating
point number. -/
theorem Valued.blank (hl : Blank l) (hapart : val.isFloat = true → l.head? ≠ some 0x2f) :
    Leads (Valued val stack dom) l (Valued val stack dom) := by
  intro p hp
  by_cases hstate : p.state = .x3
  · cases l with
    | nil => exact ⟨p, .nil p, hp⟩
    | cons ch l =>
        obtain ⟨s', hread, hrest⟩ := Option.bind_eq_some_iff.mp hl
        obtain ⟨⟨cls, k⟩, hdecode, hmap⟩ := Option.bind_eq_some_iff.mp hread
        obtain ⟨t', hnext, rfl⟩ := Option.map_eq_some_iff.mp hmap
        have hslash : cls ≠ .slash := by
          rintro rfl
          rcases decode_eq_some hdecode with h | ⟨-, -, hcls⟩
          · cases h
          · exact hapart (hp.float hstate) (congrArg some (characterClass_slash hcls.symm))
        obtain ⟨hcls, rfl⟩ : isSpace cls ∧ t' = .blank := by
          cases cls <;> cases hnext <;> first | exact absurd rfl hslash | simp [isSpace]
        obtain rfl : k = 0 := by
          rcases decode_eq_some hdecode with rfl | ⟨-, hk, -⟩
          · cases hnext
          · exact hk
        obtain ⟨q, hstep, hq⟩ := hp.step_space hcls hdecode
        obtain ⟨r, hreads, hr⟩ := Valued.skips.run (Or.inl ⟨rfl, hq⟩) hrest
        exact ⟨r, .cons hstep hreads, hr.1⟩
  · obtain ⟨q, hreads, hq⟩ := Valued.skips.leads hl p ⟨hp, hstate⟩
    exact ⟨q, hreads, hq.1⟩

/-- What follows a value has it delivered first. -/
theorem Valued.step_action (h : Valued val stack dom p)
    (hcls : cls = .comma ∨ cls = .rcurb ∨ cls = .rsqrb) (hdecode : decode 0 ch = some (cls, 0))
    (hact : afterValue cls = .action act) : p.step ch = p.doAction act := by
  obtain ⟨hnext, hignore⟩ := behind_action h.state hcls
  rw [step_of_class hdecode h.left, Parser.advance, hnext, hignore, hact]

theorem Valued.comma_array : Leads (Valued val (.array :: stack) dom) [0x2c]
    (Between .v false (.array :: stack) (dom.push val)) := by
  refine .one fun p hp ↦ ?_
  rw [hp.step_action (Or.inl rfl) rfl rfl]
  have haction : p.doAction .sp = chk p.doBuffer.actSp fun p ↦ ({ p with type := .none }, none) :=
    rfl
  rw [haction, hp.deliver, Parser.actSp]
  simp only [hp.stack]
  exact ⟨_, rfl, rfl, hp.key, hp.left, hp.multi, rfl, rfl, rfl, rfl⟩

theorem Valued.comma_object : Leads (Valued val (.object :: stack) dom) [0x2c]
    (Between .k true (.object :: stack) (dom.push val)) := by
  refine .one fun p hp ↦ ?_
  rw [hp.step_action (Or.inl rfl) rfl rfl]
  have haction : p.doAction .sp = chk p.doBuffer.actSp fun p ↦ ({ p with type := .none }, none) :=
    rfl
  rw [haction, hp.deliver, Parser.actSp]
  simp only [hp.stack]
  exact ⟨_, rfl, rfl, rfl, hp.left, hp.multi, rfl, rfl, rfl, rfl⟩

theorem Valued.close_array : Leads (Valued val (.array :: stack) dom) [0x5d]
    (Between .ok false stack ((dom.push val).callback .arrayEnd [])) := by
  refine .one fun p hp ↦ ?_
  rw [hp.step_action (Or.inr (Or.inr rfl)) rfl rfl]
  have haction : p.doAction .ae = chk p.doBuffer.actAe
      fun p ↦ ({ p with state := .ok, type := .none }, none) := rfl
  rw [haction, hp.deliver, Parser.actAe]
  simp only [Parser.statePop, hp.stack]
  exact ⟨_, rfl, rfl, hp.key, hp.left, hp.multi, rfl, rfl, rfl, rfl⟩

theorem Valued.close_object : Leads (Valued val (.object :: stack) dom) [0x7d]
    (Between .ok false stack ((dom.push val).callback .objectEnd [])) := by
  refine .one fun p hp ↦ ?_
  rw [hp.step_action (Or.inr (Or.inl rfl)) rfl rfl]
  have haction : p.doAction .oe = chk p.doBuffer.actOe
      fun p ↦ ({ p with state := .ok, type := .none }, none) := rfl
  rw [haction, hp.deliver, Parser.actOe]
  simp only [Parser.statePop, hp.stack]
  exact ⟨_, rfl, rfl, rfl, hp.left, hp.multi, rfl, rfl, rfl, rfl⟩

end Valued

/-! ## Values -/

section Values

variable {depth : ℕ} {key : Bool} {stack : List Mode} {dom : Dom} {p : Parser} {l body data : List UInt8}
  {tree : Tree} {q : State} {type : JsonType}

/-- What is between two tokens, as a parser. -/
theorem Between.eq (h : Between q key stack dom p) :
    p = ⟨q, p.saveState, key, 0, 0, .none, stack, [], dom⟩ := by
  obtain ⟨_, _, _, _, _, _, _, _, _⟩ := p
  obtain ⟨rfl, rfl, rfl, rfl, rfl, rfl, rfl, rfl⟩ := h
  rfl

/-- There is room for what is `depth` deep within the values that are open. -/
def Dom.HasRoom (dom : Dom) (depth : ℕ) : Prop := dom.stack.length + depth ≤ domStackSize

/-- The text leads behind the value that it denotes, wherever a value may stand that is
`depth` deep. -/
def ReadsValue (depth : ℕ) (l : List UInt8) (tree : Tree) : Prop :=
  ∀ q stack dom, Parser.isStart q → dom.stack ≠ [] → dom.HasRoom depth →
    Leads (Between q false stack dom) l (Valued tree stack dom)

/-- A string is the last key of an object or a value, as the parser expects. -/
theorem reads_quoted (hq : Parser.isStart q ∨ q = .o ∨ q = .k)
    (h : Lib.JsonString.decode body = some data) :
    Leads (Between q key stack dom) (quoted body)
      (Between (if key then .co else .ok) false stack
        (dom.callback (if key then .key else .string) data)) := by
  intro p hp
  rw [hp.eq]
  have hopen : Parser.step ⟨q, p.saveState, key, 0, 0, .none, stack, [], dom⟩ 0x22 =
      (Parser.inString .s key p.saveState 0 0 stack [] dom, none) := by
    rcases hq with (rfl | rfl) | rfl | rfl <;> rfl
  have hclose : (Parser.inString .s key p.saveState 0 0 stack data dom).step 0x22 =
      (⟨if key then .co else .ok, p.saveState, false, 0, 0, .none, stack, [],
        dom.callback (if key then .key else .string) data⟩, none) := rfl
  exact ⟨_, .cons hopen ((Parser.reads_body h).append (.one hclose)),
    rfl, rfl, rfl, rfl, rfl, rfl, rfl, rfl⟩

theorem reads_string (h : Lib.JsonString.decode body = some data) :
    ReadsValue depth (quoted body) (.mk .string [] [] data) :=
  fun _ _ _ hq _ _ ↦ (reads_quoted (Or.inl hq) h).weaken fun _ hp ↦ Between.valued hp

theorem isBehind_afterWhole (whole : List UInt8) :
    isBehind (Parser.afterWhole whole) = true ∧ Parser.afterWhole whole ≠ .x3 := by
  rw [Parser.afterWhole]
  split <;> exact ⟨rfl, nofun⟩

theorem reads_number (h : NumberText l type) : ReadsValue depth l (.mk type [] [] l) := by
  intro q stack dom hq _ _ p hp
  rw [hp.eq]
  change ∃ r, (Parser.inNumber q p.saveState .none stack [] dom).Reads l r ∧ _
  cases h with
  | @int sign whole hsign hwhole =>
      obtain ⟨hbehind, hne⟩ := isBehind_afterWhole whole
      exact ⟨_, Parser.reads_signed hq hsign hwhole, valued_number hbehind (Or.inl ⟨rfl, hne⟩)⟩
  | @point sign whole frac hsign hwhole hfrac =>
      rw [← List.append_assoc]
      exact ⟨_, (Parser.reads_signed hq hsign hwhole).append (Parser.reads_fraction hfrac),
        valued_number rfl (Or.inr rfl)⟩
  | @exponent sign whole exp hsign hwhole hne hexp =>
      have hstate : Parser.afterWhole whole = .i0 := if_neg hne
      have hreads : (Parser.inNumber q p.saveState .none stack [] dom).Reads (sign ++ whole) _ :=
        Parser.reads_signed hq hsign hwhole
      rw [hstate] at hreads
      rw [← List.append_assoc]
      exact ⟨_, hreads.append (Parser.reads_exponent (Or.inl ⟨rfl, rfl⟩) hexp),
        valued_number rfl (Or.inr rfl)⟩
  | @pointExponent sign whole frac exp hsign hwhole hfrac hexp =>
      have hreads : (Parser.inNumber q p.saveState .none stack [] dom).Reads (sign ++ whole) _ :=
        Parser.reads_signed hq hsign hwhole
      have hpoint := hreads.append (Parser.reads_fraction hfrac)
      have hassoc : sign ++ (whole ++ 0x2e :: (frac ++ exp)) =
          (sign ++ whole) ++ 0x2e :: frac ++ exp := by simp
      rw [hassoc]
      exact ⟨_, hpoint.append (Parser.reads_exponent (Or.inr ⟨rfl, rfl⟩) hexp),
        valued_number rfl (Or.inr rfl)⟩

theorem reads_constant (h : ConstantText l type) : ReadsValue depth l (.mk type [] [] []) := by
  intro q stack dom hq _ _ p hp
  rw [hp.eq]
  cases h <;> rcases hq with rfl | rfl <;>
    exact ⟨_, rfl, rfl, rfl, rfl, rfl, rfl, rfl, nofun⟩

/-! ## Arrays and objects -/

/-- What is there of an array, in the structures around it. -/
def inArray (elements : List Tree) (outer : List StackElem) (root : Option Tree) : Dom :=
  ⟨⟨.mk .arrayBegin elements [] [], none⟩ :: outer, root⟩

/-- What is there of an object, with its last key. -/
def inObject (entries : List (List UInt8 × Tree)) (last : Option (List UInt8))
    (outer : List StackElem) (root : Option Tree) : Dom :=
  ⟨⟨.mk .objectBegin [] entries [], last⟩ :: outer, root⟩

/-- A structure that is complete. -/
def complete (tree : Tree) : List StackElem → Option Tree → Dom
  | [], _ => ⟨[], some tree⟩
  | outer, root => ⟨appendTop tree outer, root⟩

variable {elements : List Tree} {entries : List (List UInt8 × Tree)} {last : Option (List UInt8)}
  {outer : List StackElem} {root : Option Tree}

theorem callback_arrayEnd : (inArray elements outer root).callback .arrayEnd [] =
    complete (.mk .arrayBegin elements [] []) outer root := by
  cases outer <;> rfl

theorem callback_objectEnd : (inObject entries last outer root).callback .objectEnd [] =
    complete (.mk .objectBegin [] entries []) outer root := by
  cases outer <;> rfl

theorem complete_push (h : dom.stack ≠ []) :
    complete tree dom.stack dom.rootStructure = dom.push tree := by
  obtain ⟨_ | ⟨top, stack⟩, root⟩ := dom
  · exact absurd rfl h
  · rfl

theorem doCallback_room (h : p.dom.HasRoom (depth + 1)) (type : JsonType) :
    p.doCallback type = ({ p with dom := p.dom.callback type [] }, none) := by
  refine if_neg fun hfull ↦ ?_
  have hlength : p.dom.stack.length = domStackSize := of_decide_eq_true hfull.2
  rw [Dom.HasRoom, hlength] at h
  omega

theorem open_array (hq : Parser.isStart q ∨ q = .go) (hroom : dom.HasRoom (depth + 1)) :
    Leads (Between q false stack dom) [0x5b]
      (Between .a false (.array :: stack) (inArray [] dom.stack dom.rootStructure)) := by
  refine .one fun p hp ↦ ?_
  have hstep : p.step 0x5b = p.doAction .ab := by
    rw [hp.eq]
    rcases hq with (rfl | rfl) | rfl <;> rfl
  have haction : p.doAction .ab = chk p.actAb
      fun p ↦ ({ p with state := .a, type := .none }, none) := rfl
  rw [hstep, haction, Parser.actAb, doCallback_room (hp.dom ▸ hroom), hp.eq]
  exact ⟨_, rfl, rfl, rfl, rfl, rfl, rfl, rfl, rfl, rfl⟩

theorem open_object (hq : Parser.isStart q ∨ q = .go) (hroom : dom.HasRoom (depth + 1)) :
    Leads (Between q false stack dom) [0x7b]
      (Between .o true (.object :: stack) (inObject [] none dom.stack dom.rootStructure)) := by
  refine .one fun p hp ↦ ?_
  have hstep : p.step 0x7b = p.doAction .ob := by
    rw [hp.eq]
    rcases hq with (rfl | rfl) | rfl <;> rfl
  have haction : p.doAction .ob = chk p.actOb
      fun p ↦ ({ p with state := .o, type := .none }, none) := rfl
  rw [hstep, haction, Parser.actOb, doCallback_room (hp.dom ▸ hroom), hp.eq]
  exact ⟨_, rfl, rfl, rfl, rfl, rfl, rfl, rfl, rfl, rfl⟩

/-- What is within an array or an object is one less deep. -/
theorem hasRoom_inner (hroom : dom.HasRoom (depth + 1)) {elem : StackElem} {root : Option Tree} :
    Dom.HasRoom ⟨elem :: dom.stack, root⟩ depth := by
  rw [Dom.HasRoom] at hroom ⊢
  rw [List.length_cons]
  omega

theorem close_emptyArray : Leads (Between .a false (.array :: stack) dom) [0x5d]
    (Between .ok false stack (dom.callback .arrayEnd [])) := by
  refine .one fun p hp ↦ ?_
  rw [hp.eq]
  exact ⟨_, rfl, rfl, rfl, rfl, rfl, rfl, rfl, rfl, rfl⟩

theorem close_emptyObject : Leads (Between .o true (.object :: stack) dom) [0x7d]
    (Between .ok false stack (dom.callback .objectEnd [])) := by
  refine .one fun p hp ↦ ?_
  rw [hp.eq]
  exact ⟨_, rfl, rfl, rfl, rfl, rfl, rfl, rfl, rfl, rfl⟩

theorem isHome_of_start (hq : Parser.isStart q) : isHome q = true := by
  rcases hq with rfl | rfl <;> rfl

/-- A value with what is around it. -/
theorem reads_element {x : Element} (hx : x.Spaced) (h : ReadsValue depth x.text x.tree)
    (hq : Parser.isStart q) (hdom : dom.stack ≠ []) (hroom : dom.HasRoom depth) :
    Leads (Between q false stack dom) x.all (Valued x.tree stack dom) := by
  refine (Between.blank (isHome_of_start hq) hx.before).append
    ((h q stack dom hq hdom hroom).append ?_)
  refine Valued.blank hx.after fun hfloat ↦ ?_
  rcases htree : x.tree with ⟨type, array, object, data⟩
  rw [htree] at hfloat
  obtain rfl : type = .float := of_decide_eq_true hfloat
  exact hx.apart array object data htree

theorem reads_items {items : List Element} (hne : items ≠ []) (hspaced : ∀ x ∈ items, x.Spaced)
    (h : ∀ x ∈ items, ReadsValue depth x.text x.tree) (hq : Parser.isStart q)
    (hroom : (inArray elements outer root).HasRoom depth) :
    Leads (Between q false (.array :: stack) (inArray elements outer root))
      (separated (items.map Element.all) ++ [0x5d])
      (Between .ok false stack
        (complete (.mk .arrayBegin (elements ++ items.map Element.tree) [] []) outer root)) := by
  induction items generalizing q elements with
  | nil => exact absurd rfl hne
  | cons x items ih =>
      rw [List.forall_mem_cons] at hspaced h
      have hx : Leads (Between q false (.array :: stack) (inArray elements outer root)) x.all _ :=
        reads_element hspaced.1 h.1 hq (List.cons_ne_nil _ _) hroom
      have hpush : (inArray elements outer root).push x.tree =
          inArray (elements ++ [x.tree]) outer root := rfl
      cases items with
      | nil =>
          have hclose := hx.append Valued.close_array
          rw [hpush, callback_arrayEnd] at hclose
          exact hclose
      | cons y items =>
          have hcomma := hx.append Valued.comma_array
          rw [hpush] at hcomma
          have hrest := hcomma.append (ih (List.cons_ne_nil _ _) hspaced.2 h.2 (Or.inl rfl) hroom)
          rw [List.append_assoc] at hrest
          have hsplit : separated ((x :: y :: items).map Element.all) ++ [0x5d] =
              x.all ++ ([0x2c] ++ (separated ((y :: items).map Element.all) ++ [0x5d])) := by
            simp [separated]
          rw [hsplit]
          simpa using hrest

/-- A key with its colon. -/
theorem reads_key {k : Key} (hk : k.Spaced) (hq : q = .o ∨ q = .k) :
    Leads (Between q true stack (inObject entries last outer root))
      (k.before ++ (quoted k.body ++ (k.colon ++ [0x3a])))
      (Between .v false stack (inObject entries (some k.data) outer root)) := by
  have hhome : isHome q = true := by rcases hq with rfl | rfl <;> rfl
  have hcolon : Leads (Between .co false stack (inObject entries (some k.data) outer root)) [0x3a]
      (Between .v false stack (inObject entries (some k.data) outer root)) := by
    refine .one fun p hp ↦ ?_
    rw [hp.eq]
    exact ⟨_, rfl, rfl, rfl, rfl, rfl, rfl, rfl, rfl, rfl⟩
  exact (Between.blank hhome hk.before).append
    ((reads_quoted (Or.inr hq) hk.body).append ((Between.blank rfl hk.colon).append hcolon))

theorem reads_member {m : Key × Element} (hk : m.1.Spaced) (hx : m.2.Spaced)
    (h : ReadsValue depth m.2.text m.2.tree) (hq : q = .o ∨ q = .k)
    (hroom : (inObject entries last outer root).HasRoom depth) :
    Leads (Between q true stack (inObject entries last outer root)) (memberText m)
      (Valued m.2.tree stack (inObject entries (some m.1.data) outer root)) := by
  have hkey : Leads (Between q true stack (inObject entries last outer root)) _
      (Between .v false stack (inObject entries (some m.1.data) outer root)) := reads_key hk hq
  have hmember := hkey.append (reads_element hx h (Or.inl rfl) (List.cons_ne_nil _ _) hroom)
  simpa [memberText] using hmember

theorem reads_members {members : List (Key × Element)} (hne : members ≠ [])
    (hkeys : ∀ m ∈ members, m.1.Spaced) (hspaced : ∀ m ∈ members, m.2.Spaced)
    (h : ∀ m ∈ members, ReadsValue depth m.2.text m.2.tree) (hq : q = .o ∨ q = .k)
    (hroom : (inObject entries last outer root).HasRoom depth) :
    Leads (Between q true (.object :: stack) (inObject entries last outer root))
      (separated (members.map memberText) ++ [0x7d])
      (Between .ok false stack
        (complete (.mk .objectBegin [] (members.foldl addEntry entries) []) outer root)) := by
  induction members generalizing q entries last with
  | nil => exact absurd rfl hne
  | cons m members ih =>
      rw [List.forall_mem_cons] at hkeys hspaced h
      have hm : Leads (Between q true (.object :: stack) (inObject entries last outer root))
          (memberText m) _ := reads_member hkeys.1 hspaced.1 h.1 hq hroom
      have hpush : (inObject entries (some m.1.data) outer root).push m.2.tree =
          inObject (addEntry entries m) (some m.1.data) outer root := rfl
      cases members with
      | nil =>
          have hclose := hm.append Valued.close_object
          rw [hpush, callback_objectEnd] at hclose
          exact hclose
      | cons m' members =>
          have hcomma := hm.append Valued.comma_object
          rw [hpush] at hcomma
          have hrest := hcomma.append
            (ih (List.cons_ne_nil _ _) hkeys.2 hspaced.2 h.2 (Or.inr rfl) hroom)
          simpa [separated] using hrest

/-- An array or an object, within another one or as the whole document. -/
def ReadsStructure (depth : ℕ) (l : List UInt8) (tree : Tree) : Prop :=
  ∀ q stack dom, Parser.isStart q ∨ q = .go → dom.HasRoom depth →
    Leads (Between q false stack dom) l
      (Between .ok false stack (complete tree dom.stack dom.rootStructure))

theorem ReadsStructure.value (h : ReadsStructure depth l tree) : ReadsValue depth l tree := by
  intro q stack dom hq hdom hroom
  refine (h q stack dom (Or.inl hq) hroom).weaken fun p hp ↦ ?_
  rw [complete_push hdom] at hp
  exact hp.valued

theorem reads_arrayText {items : List Element} (hne : items ≠ [])
    (hspaced : ∀ x ∈ items, x.Spaced) (h : ∀ x ∈ items, ReadsValue depth x.text x.tree) :
    ReadsStructure (depth + 1) (0x5b :: (separated (items.map Element.all) ++ [0x5d]))
      (.mk .arrayBegin (items.map Element.tree) [] []) :=
  fun _ _ _ hq hroom ↦ (open_array hq hroom).cons
    (reads_items hne hspaced h (Or.inr rfl) (hasRoom_inner hroom))

theorem reads_emptyArrayText (h : Blank l) :
    ReadsStructure (depth + 1) (0x5b :: (l ++ [0x5d])) (.mk .arrayBegin [] [] []) := by
  intro q stack dom hq hroom
  have hblank : Leads (Between .a false (.array :: stack)
      (inArray [] dom.stack dom.rootStructure)) l _ := Between.blank rfl h
  have hclose := hblank.append close_emptyArray
  rw [callback_arrayEnd] at hclose
  exact (open_array hq hroom).cons hclose

theorem reads_objectText {members : List (Key × Element)} (hne : members ≠ [])
    (hkeys : ∀ m ∈ members, m.1.Spaced) (hspaced : ∀ m ∈ members, m.2.Spaced)
    (h : ∀ m ∈ members, ReadsValue depth m.2.text m.2.tree) :
    ReadsStructure (depth + 1) (0x7b :: (separated (members.map memberText) ++ [0x7d]))
      (.mk .objectBegin [] (members.foldl addEntry []) []) :=
  fun _ _ _ hq hroom ↦ (open_object hq hroom).cons
    (reads_members hne hkeys hspaced h (Or.inl rfl) (hasRoom_inner hroom))

theorem reads_emptyObjectText (h : Blank l) :
    ReadsStructure (depth + 1) (0x7b :: (l ++ [0x7d])) (.mk .objectBegin [] [] []) := by
  intro q stack dom hq hroom
  have hblank : Leads (Between .o true (.object :: stack)
      (inObject [] none dom.stack dom.rootStructure)) l _ := Between.blank rfl h
  have hclose := hblank.append close_emptyObject
  rw [callback_objectEnd] at hclose
  exact (open_object hq hroom).cons hclose

/-- By induction on the derivation of the text. -/
theorem reads_value (h : ValueText depth l tree) : ReadsValue depth l tree := by
  induction h with
  | string h => exact reads_string h
  | number h => exact reads_number h
  | constant h => exact reads_constant h
  | emptyArray h => exact (reads_emptyArrayText h).value
  | array hne hspaced _ ih => exact (reads_arrayText hne hspaced ih).value
  | emptyObject h => exact (reads_emptyObjectText h).value
  | object hne hkeys hspaced _ ih => exact (reads_objectText hne hkeys hspaced ih).value

theorem reads_structure (h : ValueText depth l tree) (hstructure : tree.isStructure = true) :
    ReadsStructure depth l tree := by
  cases h with
  | string _ => cases hstructure
  | number h => cases h <;> cases hstructure
  | constant h => cases h <;> cases hstructure
  | emptyArray h => exact reads_emptyArrayText h
  | array hne hspaced h => exact reads_arrayText hne hspaced fun x hx ↦ reads_value (h x hx)
  | emptyObject h => exact reads_emptyObjectText h
  | object hne hkeys hspaced h =>
      exact reads_objectText hne hkeys hspaced fun m hm ↦ reads_value (h m hm)

end Values

/-! ## Documents -/

section Documents

variable {depth : ℕ} {before text after : List UInt8} {tree : Tree} {chunks : List (List UInt8)}

theorem reads_document (h : DocumentText depth before text after tree)
    (hdepth : depth ≤ domStackSize) :
    ∃ p, Lib.feed Parser.step Parser.create (before ++ (text ++ after)) = (p, none) ∧
      Between .ok false [] ⟨[], some tree⟩ p := by
  have hcreate : Between .go false [] ⟨[], none⟩ Parser.create :=
    ⟨rfl, rfl, rfl, rfl, rfl, rfl, rfl, rfl⟩
  have hroom : Dom.HasRoom ⟨[], none⟩ depth := (Nat.zero_add depth).le.trans hdepth
  have htext := reads_structure h.value h.structured .go [] ⟨[], none⟩ (Or.inr rfl) hroom
  exact (Between.blank rfl h.before).append (htext.append (Between.blank rfl h.after)) _ hcreate

/-- The boundaries of the chunks do not matter. -/
theorem JsonParser.parseAll_reads (h : DocumentText depth before text after tree)
    (hdepth : depth ≤ domStackSize) (hchunks : chunks.flatten = before ++ (text ++ after))
    (line : ℕ) :
    ∃ p, JsonParser.parseAll line .create chunks = .ok p ∧
      Between .ok false [] ⟨[], some tree⟩ p := by
  obtain ⟨p, hfeed, hp⟩ := reads_document h hdepth
  rw [← hchunks] at hfeed
  exact ⟨p, JsonParser.parseAll_of_none (Lib.feedChunks_of_none hfeed) line, hp⟩

end Documents

end Libjson

end Falcon
