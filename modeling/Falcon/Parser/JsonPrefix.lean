import Falcon.Parser.Cycle
import Falcon.Parser.JsonReading

/-!
# Before the document is complete

The stack of values in the tree is as high as the stack of modes of the parser.  So
there is a root only when the last bracket has been closed, and behind it there is
nothing but white space and comments: a makefile that is cut short gives no graph.
-/

namespace Falcon

namespace Libjson

/-- As many values are open as the parser has modes. -/
def Parser.Balanced (p : Parser) : Prop := p.dom.stack.length = p.stack.length

/-- A step that keeps the balance, and that makes a root only by closing the last
bracket. -/
structure Parser.Keeps (p q : Parser) : Prop where
  balanced : q.Balanced
  root : q.dom.rootStructure = p.dom.rootStructure ∨ q.stack = []

/-- The types of the values that have no parts, and of the keys. -/
def JsonType.isData (type : JsonType) : Bool :=
  type ∈ [JsonType.key, .string, .float, .int, .null, .true, .false]

section Balance

variable {p q : Parser} {act : Action} {mode : Mode} {ch : UInt8}

theorem appendTop_length (val : Tree) (stack : List StackElem) :
    (appendTop val stack).length = stack.length := by
  cases stack <;> rfl

theorem callback_data (type : JsonType) (h : type.isData = true) (dom : Dom) (data : List UInt8) :
    (dom.callback type data).stack.length = dom.stack.length ∧
      (dom.callback type data).rootStructure = dom.rootStructure := by
  obtain ⟨stack, root⟩ := dom
  cases type with
  | key => cases stack <;> exact ⟨rfl, rfl⟩
  | string | float | int | null | true | false => exact ⟨appendTop_length _ _, rfl⟩
  | _ => cases h

namespace Parser

theorem Keeps.refl (h : p.Balanced) : p.Keeps p := ⟨h, Or.inl rfl⟩

/-- Neither of the stacks matters to the rest of the state. -/
theorem Balanced.keeps_of_eq (h : p.Balanced) (hstack : q.stack = p.stack) (hdom : q.dom = p.dom) :
    p.Keeps q := by
  refine ⟨?_, Or.inl (congrArg Dom.rootStructure hdom)⟩
  rw [Balanced, hstack, hdom]
  exact h

theorem Balanced.keeps_data (h : p.Balanced) (type : JsonType) (data : List UInt8)
    (htype : type.isData = true) (hstack : q.stack = p.stack)
    (hdom : q.dom = p.dom.callback type data) : p.Keeps q := by
  obtain ⟨hlength, hroot⟩ := callback_data type htype p.dom data
  refine ⟨?_, Or.inl ?_⟩
  · rw [Balanced, hstack, hdom, hlength]
    exact h
  · rw [hdom, hroot]

theorem Balanced.doBuffer (h : p.Balanced) : p.Keeps p.doBuffer := by
  obtain ⟨state, save, key, left, multi, type, stack, buffer, dom⟩ := p
  cases type with
  | none | arrayBegin | objectBegin | arrayEnd | objectEnd | bstring =>
      exact h.keeps_of_eq rfl rfl
  | key => exact h.keeps_data .key buffer rfl rfl rfl
  | string => exact h.keeps_data .string buffer rfl rfl rfl
  | float => exact h.keeps_data .float buffer rfl rfl rfl
  | int => exact h.keeps_data .int buffer rfl rfl rfl
  | null => exact h.keeps_data .null buffer rfl rfl rfl
  | true => exact h.keeps_data .true buffer rfl rfl rfl
  | false => exact h.keeps_data .false buffer rfl rfl rfl

theorem doBuffer_root (p : Parser) : p.doBuffer.dom.rootStructure = p.dom.rootStructure := by
  obtain ⟨state, save, key, left, multi, type, stack, buffer, dom⟩ := p
  cases type with
  | key => exact (callback_data .key rfl dom buffer).2
  | _ => rfl

/-- The brackets that open something. -/
theorem Balanced.keeps_open (h : p.Balanced) (mode : Mode) {elem : StackElem}
    (hstack : q.stack = mode :: p.stack)
    (hdom : q.dom = { p.dom with stack := elem :: p.dom.stack }) : p.Keeps q := by
  refine ⟨?_, Or.inl (by rw [hdom])⟩
  rw [Balanced, hstack, hdom]
  exact congrArg Nat.succ h

/-- The brackets that close something. -/
theorem Balanced.keeps_close (h : p.Balanced) (type : JsonType)
    (htype : type = .arrayEnd ∨ type = .objectEnd) (hstack : p.stack = mode :: q.stack)
    (hdom : q.dom = p.dom.callback type []) : p.Keeps q := by
  rw [Balanced, hstack, List.length_cons] at h
  have hcallback : p.dom.callback type [] = p.dom.callback .arrayEnd [] := by
    rcases htype with rfl | rfl <;> rfl
  rw [hcallback] at hdom
  obtain ⟨state, save, key, left, multi, type', stack, buffer, ⟨structures, root⟩⟩ := p
  simp only at h hdom
  rcases structures with _ | ⟨v, _ | ⟨w, rest⟩⟩
  · cases h
  · have hq : q.stack = [] := List.length_eq_zero_iff.mp (Nat.succ.inj h).symm
    refine ⟨?_, Or.inr hq⟩
    rw [Balanced, hq, hdom]
    rfl
  · refine ⟨?_, Or.inl (by rw [hdom]; rfl)⟩
    rw [Balanced, hdom]
    exact Nat.succ.inj h

/-- What an action does to the buffer first makes no root. -/
theorem Keeps.buffered (hq : p.doBuffer.Keeps q) : p.Keeps q :=
  ⟨hq.balanced, hq.root.imp_left fun hroot ↦ hroot.trans p.doBuffer_root⟩

theorem Balanced.decodeUnicodeChar (h : p.Balanced) : p.Keeps p.decodeUnicodeChar.1 := by
  rw [Parser.decodeUnicodeChar]
  split_ifs <;> exact h.keeps_of_eq rfl rfl

theorem chk_none {r : Ret} {f : Parser → Ret} (h : (chk r f).2 = none) :
    r.2 = none ∧ chk r f = f r.1 := by
  obtain ⟨p, _ | e⟩ := r
  · exact ⟨rfl, rfl⟩
  · cases h

theorem statePop_none (h : (p.statePop mode).2 = none) :
    ∃ stack, p.stack = mode :: stack ∧ (p.statePop mode).1 = { p with stack := stack } := by
  obtain ⟨state, save, key, left, multi, type, _ | ⟨top, stack⟩, buffer, dom⟩ := p
  · cases h
  · rw [statePop] at h
    simp only at h
    split_ifs at h with htop
    subst htop
    exact ⟨stack, rfl, rfl⟩

theorem Balanced.actAe (h : p.Balanced) (hcode : p.actAe.2 = none) : p.Keeps p.actAe.1 := by
  obtain ⟨hpop, heq⟩ := chk_none hcode
  obtain ⟨stack, hstack, hpopped⟩ := statePop_none hpop
  rw [Parser.actAe, heq, hpopped]
  exact h.keeps_close .arrayEnd (Or.inl rfl) hstack rfl

theorem doCallback_none {type : JsonType} (h : (p.doCallback type).2 = none) :
    p.doCallback type = ({ p with dom := p.dom.callback type [] }, none) := by
  rcases Outer.doCallback_cases p type with hfull | hroom
  · rw [hfull] at h
    cases h
  · exact hroom

theorem Balanced.actOe (h : p.Balanced) (hcode : p.actOe.2 = none) : p.Keeps p.actOe.1 := by
  obtain ⟨hpop, heq⟩ := chk_none hcode
  obtain ⟨stack, hstack, hpopped⟩ := statePop_none hpop
  rw [Parser.actOe, heq, hpopped]
  exact h.keeps_close .objectEnd (Or.inr rfl) hstack rfl

theorem Balanced.actAb (h : p.Balanced) (hcode : p.actAb.2 = none) : p.Keeps p.actAb.1 := by
  obtain ⟨hpush, heq⟩ := chk_none hcode
  rw [Parser.actAb, heq, doCallback_none hpush]
  exact h.keeps_open .array rfl rfl

theorem Balanced.actOb (h : p.Balanced) (hcode : p.actOb.2 = none) : p.Keeps p.actOb.1 := by
  obtain ⟨hpush, heq⟩ := chk_none hcode
  rw [Parser.actOb, heq, doCallback_none hpush]
  exact h.keeps_open .object rfl rfl

theorem Balanced.actSp (h : p.Balanced) : p.Keeps p.actSp.1 := by
  rw [Parser.actSp]
  split <;> exact h.keeps_of_eq rfl rfl

theorem Balanced.actUc (h : p.Balanced) (hcode : p.actUc.2 = none) : p.Keeps p.actUc.1 := by
  obtain ⟨-, heq⟩ := chk_none hcode
  obtain ⟨hbalanced, hroot⟩ := h.decodeUnicodeChar
  rw [Parser.actUc, heq]
  exact ⟨hbalanced, hroot⟩

theorem Balanced.actSe (h : p.Balanced) : p.Keeps p.actSe.1 := by
  obtain ⟨state, save, key, left, multi, type, stack, buffer, dom⟩ := p
  cases key with
  | true => exact h.keeps_data .key buffer rfl rfl rfl
  | false => exact h.keeps_data .string buffer rfl rfl rfl

/-- The state and the type that an action leaves behind do not matter. -/
theorem Keeps.withState (h : p.Keeps q) (state : State) (type : JsonType) :
    p.Keeps { q with state := state, type := type } :=
  ⟨h.balanced, h.root⟩

theorem Balanced.doAction (h : p.Balanced) (hcode : (p.doAction act).2 = none) :
    p.Keeps (p.doAction act).1 := by
  obtain ⟨hcall, heq⟩ := chk_none hcode
  rw [Parser.doAction, heq]
  refine Keeps.withState ?_ _ _
  have hbuffer := h.doBuffer.balanced
  cases act with
  | sp => exact hbuffer.actSp.buffered
  | ae => exact (hbuffer.actAe hcall).buffered
  | oe => exact (hbuffer.actOe hcall).buffered
  | cb => exact (hbuffer.keeps_of_eq (q := p.doBuffer.actCb.1) rfl rfl).buffered
  | yb => cases hcall
  | ab => exact h.actAb hcall
  | ob => exact h.actOb hcall
  | se => exact h.actSe
  | uc => exact h.actUc hcall
  | ce => exact h.keeps_of_eq rfl rfl
  | ks | fa | tr | nu | de | df | mx | zx | ix => exact Keeps.refl h

/-- What is added to the buffer does not matter either. -/
theorem Keeps.of_pushed {r : Parser} (h : r.Keeps q) (hdom : r.dom = p.dom) : p.Keeps q :=
  ⟨h.balanced, h.root.imp_left fun hroot ↦ by rw [hroot, hdom]⟩

theorem Balanced.advance {cls : CharClass} (h : p.Balanced) (hrun : p.advance cls ch = (q, none)) :
    p.Keeps q := by
  have haction : ∀ act (r : Parser), r.stack = p.stack → r.dom = p.dom →
      r.doAction act = (q, none) → p.Keeps q := by
    intro act r hstack hdom hact
    have hcode : (r.doAction act).2 = none := by rw [hact]
    have hkeeps := (h.keeps_of_eq hstack hdom).balanced.doAction hcode
    rw [hact] at hkeeps
    exact hkeeps.of_pushed hdom
  rw [Parser.advance] at hrun
  cases hnext : stateTransition p.state cls with
  | error =>
      rw [hnext] at hrun
      cases hrun
  | state next =>
      rw [hnext] at hrun
      obtain rfl := (Prod.mk.inj hrun).1
      cases bufferPolicy p.state cls <;> exact h.keeps_of_eq rfl rfl
  | action act =>
      rw [hnext] at hrun
      exact haction act _ (by cases bufferPolicy p.state cls <;> rfl)
        (by cases bufferPolicy p.state cls <;> rfl) hrun

theorem Balanced.step (h : p.Balanced) (hrun : p.step ch = (q, none)) : p.Keeps q := by
  cases hdecode : decode p.utf8MultibyteLeft ch with
  | none =>
      obtain ⟨q', e, hstep, -⟩ := step_of_none hdecode
      cases hrun.symm.trans hstep
  | some d =>
      rw [step_of_some hdecode] at hrun
      have hleft := h.keeps_of_eq (q := { p with utf8MultibyteLeft := d.2 }) rfl rfl
      have hkeeps := hleft.balanced.advance hrun
      exact ⟨hkeeps.balanced, hkeeps.root⟩

end Parser

end Balance

/-! ## The root -/

/-- A tree with a root is that of a document that lies behind the parser. -/
structure Rooted (p : Parser) : Prop where
  balanced : p.Balanced
  placed : Placed p
  root : p.dom.rootStructure = none ∨ ∃ s, Outer .ok s p

section Root

variable {p q : Parser} {ch : UInt8} {l a b before text after : List UInt8} {tree : Tree}
  {s : Trail × ℕ} {depth : ℕ}

theorem Rooted.create : Rooted Parser.create := ⟨rfl, Placed.create, Or.inl rfl⟩

/-- Behind the document there are white space and comments only. -/
theorem Outer.step_none (h : Outer .ok s p) (hstep : p.step ch = (q, none)) :
    ∃ s', Trail.read s ch = some s' ∧ Outer .ok s' q := by
  cases hread : Trail.read s ch with
  | some s' =>
      obtain ⟨q', hstep', houter, -⟩ := h.step_read (Or.inr rfl) hread
      obtain rfl : q' = q := congrArg Prod.fst (hstep'.symm.trans hstep)
      exact ⟨s', rfl, houter⟩
  | none =>
      by_cases hclosing : s = (.blank, 0) ∧ Trail.isClosing ch = true
      · obtain ⟨rfl, hch⟩ := hclosing
        cases (h.step_closing hch).symm.trans hstep
      · obtain ⟨q', e, hstep', -⟩ := h.step_refused hread hclosing
        cases hstep'.symm.trans hstep

theorem Rooted.step (h : Rooted p) (hstep : p.step ch = (q, none)) : Rooted q := by
  have hkeeps := h.balanced.step hstep
  refine ⟨hkeeps.balanced, h.placed.step hstep, ?_⟩
  rcases h.root with hroot | ⟨s, houter⟩
  · by_cases hstack : p.stack = []
    · obtain ⟨s, -, hgo | hok⟩ := h.placed hstack
      · -- In front of the document the tree stays as it is until a bracket opens it.
        cases hread : Trail.read s ch with
        | some s' =>
            obtain ⟨q', hstep', -, hdom⟩ := hgo.step_read (Or.inl rfl) hread
            obtain rfl : q' = q := congrArg Prod.fst (hstep'.symm.trans hstep)
            exact Or.inl (by rw [hdom, hroot])
        | none =>
            obtain ⟨q', code, hstep', -, hopen⟩ := hgo.step_opening hread
            obtain ⟨rfl, rfl⟩ := Prod.mk.inj (hstep'.symm.trans hstep)
            exact Or.inl ((hkeeps.root.resolve_right (hopen rfl)).trans hroot)
      · obtain ⟨s', -, houter⟩ := hok.step_none hstep
        exact Or.inr ⟨s', houter⟩
    · rcases hkeeps.root with hsame | hclosed
      · exact Or.inl (hsame.trans hroot)
      · have hsettled := Parser.step_settled hstack ch
        rw [hstep] at hsettled
        exact Or.inr ⟨_, hsettled.closed rfl hclosed⟩
  · obtain ⟨s', -, houter'⟩ := houter.step_none hstep
    exact Or.inr ⟨s', houter'⟩

theorem Rooted.run (h : Lib.feed Parser.step Parser.create l = (p, none)) : Rooted p :=
  Lib.feed_invariant Rooted (fun _ _ _ hp hstep ↦ hp.step hstep) Rooted.create h

theorem Trail.read_closing {s' : Trail × ℕ} (hch : Trail.isClosing ch = true)
    (hread : Trail.read s ch = some s') : s'.1 ≠ .blank := by
  obtain ⟨t, k⟩ := s
  obtain ⟨⟨cls, left⟩, hdecode, hmap⟩ := Option.bind_eq_some_iff.mp hread
  obtain ⟨t', hnext, rfl⟩ := Option.map_eq_some_iff.mp hmap
  have hcls : cls = .other ∨ cls = .rcurb ∨ cls = .rsqrb := by
    rcases decode_eq_some hdecode with rfl | ⟨-, -, rfl⟩
    · exact Or.inl rfl
    · exact Or.inr (Outer.characterClass_closing.mpr hch)
  rcases hcls with rfl | rfl | rfl <;> cases t <;> cases hnext <;> exact nofun

theorem ValueText.getLast_closing (h : ValueText depth text tree)
    (hstructure : tree.isStructure = true) :
    ∃ l ch, text = l ++ [ch] ∧ Trail.isClosing ch = true := by
  cases h with
  | string _ => cases hstructure
  | number h => cases h <;> cases hstructure
  | constant h => cases h <;> cases hstructure
  | emptyArray _ => exact ⟨_, _, (List.cons_append ..).symm, rfl⟩
  | array _ _ _ => exact ⟨_, _, (List.cons_append ..).symm, rfl⟩
  | emptyObject _ => exact ⟨_, _, (List.cons_append ..).symm, rfl⟩
  | object _ _ _ _ => exact ⟨_, _, (List.cons_append ..).symm, rfl⟩

/-- What is between the end of a document and the next read is white space and comments. -/
theorem Outer.run_none (h : Outer .ok s p) (hrun : Lib.feed Parser.step p l = (q, none)) :
    ∃ s', Outer .ok s' q :=
  Lib.feed_invariant (fun r ↦ ∃ s', Outer .ok s' r)
    (fun _ _ _ hr hstep ↦ hr.elim fun _ houter ↦ (houter.step_none hstep).imp fun _ h ↦ h.2)
    ⟨s, h⟩ hrun

/-- Behind a document the parser is not at rest after a closing bracket: one can only
stand in a comment there. -/
theorem Outer.step_closing_state (h : Outer .ok s p) (hch : Trail.isClosing ch = true)
    (hstep : p.step ch = (q, none)) : q.state ≠ .ok := by
  obtain ⟨s', hread, houter⟩ := h.step_none hstep
  have hne := Trail.read_closing hch hread
  rw [houter.state]
  cases hs : s'.1 with
  | blank => exact absurd hs hne
  | slash | comment | star => exact nofun

/-- There is no root as long as there is something of the document to come. -/
theorem rootStructure_of_part (h : DocumentText depth before text after tree)
    (hdepth : depth ≤ domStackSize) (hb : b ≠ []) (htext : before ++ text = a ++ b) :
    ∃ p, Lib.feed Parser.step Parser.create a = (p, none) ∧ p.dom.rootStructure = none := by
  have hwhole : DocumentText depth before text [] tree :=
    ⟨h.before, h.value, h.structured, rfl⟩
  obtain ⟨q, hfeed, hq⟩ := reads_document hwhole hdepth
  rw [List.append_nil, htext] at hfeed
  obtain ⟨p, ha, hfeed⟩ := Lib.feed_append_none hfeed
  refine ⟨p, ha, ?_⟩
  rcases (Rooted.run ha).root with hroot | ⟨s, houter⟩
  · exact hroot
  -- Otherwise the closing bracket of the document is within a comment.
  · exfalso
    obtain ⟨l, ch, rfl, hch⟩ := h.value.getLast_closing h.structured
    obtain ⟨b', c, rfl⟩ := (List.eq_nil_or_concat' b).resolve_left hb
    rw [← List.append_assoc, ← List.append_assoc] at htext
    obtain rfl : ch = c := List.singleton_inj.mp (List.append_inj' htext rfl).2
    obtain ⟨r, hb', hfeed⟩ := Lib.feed_append_none hfeed
    obtain ⟨s', houter'⟩ := houter.run_none hb'
    exact houter'.step_closing_state hch (Lib.feed_singleton_none hfeed) hq.state

end Root

end Libjson

/-! ## Makefiles -/

namespace GraphParser

open Libjson

section Document

variable {depth : ℕ} {before text after : List UInt8} {tree : Tree}

/-- `{"rules":[]}` -/
theorem emptyRules_document : DocumentText 2 []
    [0x7b, 0x22, 0x72, 0x75, 0x6c, 0x65, 0x73, 0x22, 0x3a, 0x5b, 0x5d, 0x7d] []
    (.mk .objectBegin [] [([0x72, 0x75, 0x6c, 0x65, 0x73], .mk .arrayBegin [] [] [])] []) := by
  let members : List (Key × Element) := [(⟨[], [0x72, 0x75, 0x6c, 0x65, 0x73],
    [0x72, 0x75, 0x6c, 0x65, 0x73], []⟩, ⟨[], [0x5b, 0x5d], .mk .arrayBegin [] [] [], []⟩)]
  have hobject : ValueText 2 _ _ := @ValueText.object 1 members (by decide)
    (List.forall_mem_singleton.mpr ⟨by decide, by decide +kernel, by decide⟩)
    (List.forall_mem_singleton.mpr ⟨by decide, by decide, nofun⟩)
    (List.forall_mem_singleton.mpr (@ValueText.emptyArray 0 [] (by decide)))
  exact ⟨by decide, hobject, rfl, by decide⟩

end Document

end GraphParser

end Falcon
