import Falcon.Lib.Feed
import Falcon.Graph.Core

/-!
# The JSON parser

`json/json.c`, a state machine that reads a byte at a time, and the class
`JsonParser` on top of it, which builds a tree of values.  Memory is never
short, and the stack of modes and the buffer have no limit, as `JsonParser`
configures them.  The stack of values is made for 1024 of them.
-/

namespace Falcon

namespace Libjson

/-- `json_error`, from 1 on. -/
inductive JsonError where
  | noMemory
  | badChar
  | popEmpty
  | popUnexpectedMode
  | nestingLimit
  | dataLimit
  | commentNotAllowed
  | unexpectedChar
  | unicodeMissingLowSurrogate
  | unicodeUnexpectedLowSurrogate
  | commaOutOfStructure
  | callback
  | utf8
  -- No code of the source: memory behind the stack of values has been written.
  | heapOverflow
  deriving DecidableEq

/-- `json_type` -/
inductive JsonType where
  | none
  | arrayBegin
  | objectBegin
  | arrayEnd
  | objectEnd
  | int
  | float
  | string
  | key
  | true
  | false
  | null
  | bstring
  deriving DecidableEq

/-! ## Characters -/

/-- `enum classes` -/
inductive CharClass where
  | space | nl | white
  | lcurb | rcurb
  | lsqrb | rsqrb
  | colon | comma | quote | backs | slash
  | plus | minus | dot
  | zero | digit
  | a | b | c | d | e | f | l | n | r | s | t | u
  | abcdf | capE
  | other
  | star
  | hash
  | error
  deriving DecidableEq

/-- `character_class`, for ASCII characters. -/
def characterClass (ch : UInt8) : CharClass :=
  match ch with
  | 0x09 | 0x0d => .white
  | 0x0a => .nl
  | 0x20 => .space
  | 0x22 => .quote
  | 0x23 => .hash
  | 0x2a => .star
  | 0x2b => .plus
  | 0x2c => .comma
  | 0x2d => .minus
  | 0x2e => .dot
  | 0x2f => .slash
  | 0x30 => .zero
  | 0x3a => .colon
  | 0x45 => .capE
  | 0x41 | 0x42 | 0x43 | 0x44 | 0x46 => .abcdf
  | 0x5b => .lsqrb
  | 0x5c => .backs
  | 0x5d => .rsqrb
  | 0x61 => .a
  | 0x62 => .b
  | 0x63 => .c
  | 0x64 => .d
  | 0x65 => .e
  | 0x66 => .f
  | 0x6c => .l
  | 0x6e => .n
  | 0x72 => .r
  | 0x73 => .s
  | 0x74 => .t
  | 0x75 => .u
  | 0x7b => .lcurb
  | 0x7d => .rcurb
  | _ => if ch < 0x20 then .error else if 0x31 ≤ ch ∧ ch ≤ 0x39 then .digit else .other

/-- `utf8_header_table`: how many bytes follow; `none` for `0xff`. -/
def utf8Header (ch : UInt8) : Option ℕ :=
  if ch < 0x80 then some 0
  else if ch < 0xc0 then none
  else if ch < 0xe0 then some 1
  else if ch < 0xf0 then some 2
  else if ch < 0xf8 then some 3
  else if ch < 0xfc then some 4
  else if ch < 0xfe then some 5
  else none

/-- The entries of `utf8_continuation_table` that are zero. -/
def isContinuation (ch : UInt8) : Bool := 0x80 ≤ ch ∧ ch < 0xc0

/-! ## Transitions -/

/-- `enum states` -/
inductive State where
  | go | ok | o | k | co | v | a | s | e0
  | u1 | u2 | u3 | u4
  | m0 | z0 | i0
  | r1 | r2
  | x1 | x2 | x3
  | t1 | t2 | t3
  | f1 | f2 | f3 | f4
  | n1 | n2 | n3
  | c1 | c2 | c3
  | y1
  | d1 | d2
  deriving DecidableEq

/-- `enum actions` -/
inductive Action where
  | ks | sp | ab | ae | ob | oe | cb | yb | ce | fa | tr | nu | de | df | se | mx | zx | ix | uc
  deriving DecidableEq

/-- An entry of the transition table. -/
inductive Next where
  | state (q : State)
  | action (act : Action)
  | error
  deriving DecidableEq

/-- The digits that may stand in an escape sequence. -/
def CharClass.isHex : CharClass → Bool
  | .zero | .digit | .a | .b | .c | .d | .e | .f | .abcdf | .capE => true
  | _ => false

def CharClass.isDigit : CharClass → Bool
  | .zero | .digit => true
  | _ => false

/-- What may follow a value, except after an exponent a comment. -/
def afterValue : CharClass → Next
  | .space | .nl | .white => .state .ok
  | .rcurb => .action .oe
  | .rsqrb => .action .ae
  | .comma => .action .sp
  | .slash => .action .cb
  | .hash => .action .yb
  | _ => .error

/-- White space that leaves the state alone, or the beginning of a comment. -/
def between (q : State) : CharClass → Next
  | .space | .nl | .white => .state q
  | .slash => .action .cb
  | .hash => .action .yb
  | _ => .error

/-- The beginning of a value. -/
def startValue (q : State) : CharClass → Next
  | .lcurb => .action .ob
  | .lsqrb => .action .ab
  | .quote => .state .s
  | .minus => .action .mx
  | .zero => .action .zx
  | .digit => .action .ix
  | .f => .state .f1
  | .n => .state .n1
  | .t => .state .t1
  | cls => between q cls

/-- One letter of a constant. -/
def letter (expected : CharClass) (next : Next) (cls : CharClass) : Next :=
  if cls = expected then next else .error

/-- `state_transition_table` -/
def stateTransition : State → CharClass → Next
  | .go, .lcurb => .action .ob
  | .go, .lsqrb => .action .ab
  | .go, cls => between .go cls
  | .ok, cls => afterValue cls
  | .o, .rcurb => .action .oe
  | .o, .quote => .state .s
  | .o, cls => between .o cls
  | .k, .quote => .state .s
  | .k, cls => between .k cls
  | .co, .colon => .action .ks
  | .co, cls => between .co cls
  | .v, cls => startValue .v cls
  | .a, .rsqrb => .action .ae
  | .a, cls => startValue .a cls
  | .s, .nl | .s, .white => .error
  | .s, .quote => .action .se
  | .s, .backs => .state .e0
  | .s, _ => .state .s
  | .e0, .quote | .e0, .backs | .e0, .slash => .state .s
  | .e0, .b | .e0, .f | .e0, .n | .e0, .r | .e0, .t => .state .s
  | .e0, .u => .state .u1
  | .e0, _ => .error
  | .u1, cls => if cls.isHex then .state .u2 else .error
  | .u2, cls => if cls.isHex then .state .u3 else .error
  | .u3, cls => if cls.isHex then .state .u4 else .error
  | .u4, cls => if cls.isHex then .action .uc else .error
  | .m0, .zero => .state .z0
  | .m0, .digit => .state .i0
  | .m0, _ => .error
  | .z0, .dot => .action .df
  | .z0, cls => afterValue cls
  | .i0, .dot => .action .df
  | .i0, .e | .i0, .capE => .action .de
  | .i0, cls => if cls.isDigit then .state .i0 else afterValue cls
  | .r1, cls => if cls.isDigit then .state .r2 else .error
  | .r2, .e | .r2, .capE => .state .x1
  | .r2, cls => if cls.isDigit then .state .r2 else afterValue cls
  | .x1, .plus | .x1, .minus => .state .x2
  | .x1, cls => if cls.isDigit then .state .x3 else .error
  | .x2, cls => if cls.isDigit then .state .x3 else .error
  | .x3, .slash | .x3, .hash => .error
  | .x3, cls => if cls.isDigit then .state .x3 else afterValue cls
  | .t1, cls => letter .r (.state .t2) cls
  | .t2, cls => letter .u (.state .t3) cls
  | .t3, cls => letter .e (.action .tr) cls
  | .f1, cls => letter .a (.state .f2) cls
  | .f2, cls => letter .l (.state .f3) cls
  | .f3, cls => letter .s (.state .f4) cls
  | .f4, cls => letter .e (.action .fa) cls
  | .n1, cls => letter .u (.state .n2) cls
  | .n2, cls => letter .l (.state .n3) cls
  | .n3, cls => letter .l (.action .nu) cls
  | .c1, cls => letter .star (.state .c2) cls
  | .c2, .star => .state .c3
  | .c2, _ => .state .c2
  | .c3, .slash => .action .ce
  | .c3, .star => .state .c3
  | .c3, _ => .state .c2
  | .y1, .nl => .action .ce
  | .y1, _ => .state .y1
  | .d1, cls => letter .backs (.state .d2) cls
  | .d2, cls => letter .u (.state .u1) cls

/-- An entry of the buffer policy table. -/
inductive Policy where
  | ignore
  | append
  | escape
  deriving DecidableEq

/-- `buffer_policy_table` -/
def bufferPolicy : State → CharClass → Policy
  | .v, .minus | .v, .zero | .v, .digit => .append
  | .a, .minus | .a, .zero | .a, .digit => .append
  | .s, .nl | .s, .white | .s, .quote | .s, .backs => .ignore
  | .s, _ => .append
  | .e0, .quote | .e0, .backs | .e0, .slash => .escape
  | .e0, .b | .e0, .f | .e0, .n | .e0, .r | .e0, .t => .escape
  | .u1, cls | .u2, cls | .u3, cls | .u4, cls => if cls.isHex then .append else .ignore
  | .z0, .dot => .append
  | .i0, .dot | .i0, .e | .i0, .capE => .append
  | .r2, .e | .r2, .capE => .append
  | .x1, .plus | .x1, .minus => .append
  | .m0, cls | .i0, cls | .r1, cls | .r2, cls | .x1, cls | .x2, cls | .x3, cls =>
    if cls.isDigit then .append else .ignore
  | _, _ => .ignore

/-! ## The tree of values -/

/-- The class `JsonVal`. -/
inductive Tree where
  | mk (type : JsonType) (array : List Tree) (object : List (List UInt8 × Tree))
    (data : List UInt8)

/-- `tree_append`.  An insertion keeps the first value of a key. -/
def Tree.append : Tree → Option (List UInt8) → Tree → Tree
  | .mk type array object data, some key, val =>
    .mk type array (if (object.lookup key).isSome then object else object ++ [(key, val)]) data
  | .mk type array object data, none, val => .mk type (array ++ [val]) object data

/-- `struct stack_elem` -/
structure StackElem where
  val : Tree
  key : Option (List UInt8)

/-- `json_parser_dom` -/
structure Dom where
  stack : List StackElem
  rootStructure : Option Tree

/-- The room that `json_parser_dom_init` makes on the stack. -/
def domStackSize : ℕ := 1024

/-- `dom_push` finds the stack full.  What it is reallocated to is twice its size, but
in bytes: the block gets smaller, and the element is written behind it. -/
def Dom.isFull (dom : Dom) : Bool := dom.stack.length = domStackSize

/-- `ctx->append` on the top of the stack. -/
def appendTop (val : Tree) : List StackElem → List StackElem
  | [] => []
  | top :: stack => { top with val := top.val.append top.key val } :: stack

/-- `json_parser_dom_callback`, which returns 0 whatever happens, while there is room
on the stack.  Of an empty stack nothing is popped: the parser has checked its own. -/
def Dom.callback (dom : Dom) (type : JsonType) (data : List UInt8) : Dom :=
  match type with
  | .arrayBegin | .objectBegin =>
    { dom with stack := ⟨.mk type [] [] [], none⟩ :: dom.stack }
  | .objectEnd | .arrayEnd =>
    match dom.stack with
    | [] => dom
    | [v] => ⟨[], some v.val⟩
    | v :: stack => { dom with stack := appendTop v.val stack }
  | .key =>
    match dom.stack with
    | [] => dom
    | top :: stack => { dom with stack := { top with key := some data } :: stack }
  | .string | .int | .float | .null | .true | .false =>
    { dom with stack := appendTop (.mk type [] [] data) dom.stack }
  | .none | .bstring => dom

/-! ## The parser -/

inductive Mode where
  | array
  | object
  deriving DecidableEq

/-- `json_config` -/
structure Config where
  allowCComments : Bool
  allowYamlComments : Bool

/-- What `JsonParser::JsonParser` asks for. -/
def config : Config := ⟨true, false⟩

/-- `json_parser`, with the tree that its callback builds.  The buffer ends at
`buffer_offset`. -/
structure Parser where
  state : State
  saveState : State
  expectingKey : Bool
  utf8MultibyteLeft : ℕ
  unicodeMulti : ℕ
  type : JsonType
  stack : List Mode
  buffer : List UInt8
  dom : Dom

/-- What a function of the parser leaves behind, and the code it returns. -/
abbrev Ret := Parser × Option JsonError

/-- The macro `CHK`. -/
def chk (r : Ret) (f : Parser → Ret) : Ret :=
  match r with
  | (p, none) => f p
  | (p, some e) => (p, some e)

namespace Parser

/-- `json_parser_init` and `json_parser_dom_init` -/
def create : Parser where
  state := .go
  saveState := .go
  expectingKey := false
  utf8MultibyteLeft := 0
  unicodeMulti := 0
  type := .none
  stack := []
  buffer := []
  dom := ⟨[], none⟩

def statePush (p : Parser) (mode : Mode) : Parser := { p with stack := mode :: p.stack }

def statePop (p : Parser) (mode : Mode) : Ret :=
  match p.stack with
  | [] => (p, some .popEmpty)
  | top :: stack =>
    ({ p with stack := stack }, if top = mode then none else some .popUnexpectedMode)

def bufferPush (p : Parser) (ch : UInt8) : Parser := { p with buffer := p.buffer ++ [ch] }

def doCallbackWithBuf (p : Parser) (type : JsonType) : Parser :=
  { p with dom := p.dom.callback type p.buffer }

/-- The values that are pushed are those that begin here. -/
def doCallback (p : Parser) (type : JsonType) : Ret :=
  if (type = .arrayBegin ∨ type = .objectBegin) ∧ p.dom.isFull then (p, some .heapOverflow)
  else ({ p with dom := p.dom.callback type [] }, none)

def doBuffer (p : Parser) : Parser :=
  let p := match p.type with
    | .key | .string | .float | .int | .null | .true | .false => p.doCallbackWithBuf p.type
    | _ => p
  { p with buffer := [] }

/-- `hextable` -/
def hex (ch : UInt8) : ℕ :=
  if 0x30 ≤ ch ∧ ch ≤ 0x39 then ch.toNat - 0x30
  else if 0x41 ≤ ch ∧ ch ≤ 0x46 then ch.toNat - 0x41 + 10
  else if 0x61 ≤ ch ∧ ch ≤ 0x66 then ch.toNat - 0x61 + 10
  else 255

def isHighSurrogate (uc : ℕ) : Bool := uc &&& 0xfc00 = 0xd800

def isLowSurrogate (uc : ℕ) : Bool := uc &&& 0xfc00 = 0xdc00

/-- The last four bytes of the buffer are the digits. -/
def decodeUnicodeChar (p : Parser) : Ret :=
  let offset := p.buffer.length - 4
  let uval := (p.buffer.drop offset).foldl (fun uval ch ↦ uval <<< 4 ||| hex ch) 0
  let b := p.buffer.take offset
  if p.unicodeMulti = 0 ∧ uval < 0x80 then ({ p with buffer := b ++ [.ofNat uval] }, none)
  else if p.unicodeMulti ≠ 0 then
    if ¬ isLowSurrogate uval then ({ p with buffer := b }, some .unicodeMissingLowSurrogate)
    else
      let uval := 0x10000 + ((p.unicodeMulti &&& 0x3ff) <<< 10) + (uval &&& 0x3ff)
      ({ p with
        buffer := b ++ [.ofNat (uval >>> 18 ||| 0xf0), .ofNat (uval >>> 12 &&& 0x3f ||| 0x80),
          .ofNat (uval >>> 6 &&& 0x3f ||| 0x80), .ofNat (uval &&& 0x3f ||| 0x80)]
        unicodeMulti := 0 }, none)
  else if isLowSurrogate uval then
    ({ p with buffer := b }, some .unicodeUnexpectedLowSurrogate)
  else if isHighSurrogate uval then ({ p with buffer := b, unicodeMulti := uval }, none)
  else if uval < 0x800 then
    ({ p with
      buffer := b ++ [.ofNat (uval >>> 6 ||| 0xc0), .ofNat (uval &&& 0x3f ||| 0x80)] }, none)
  else
    ({ p with
      buffer := b ++ [.ofNat (uval >>> 12 ||| 0xe0), .ofNat (uval >>> 6 &&& 0x3f ||| 0x80),
        .ofNat (uval &&& 0x3f ||| 0x80)] }, none)

def bufferPushEscape (p : Parser) (next : UInt8) : Parser :=
  p.bufferPush <| match next with
    | 0x62 => 0x08
    | 0x66 => 0x0c
    | 0x6e => 0x0a
    | 0x72 => 0x0d
    | 0x74 => 0x09
    | 0x22 => 0x22
    | 0x2f => 0x2f
    | 0x5c => 0x5c
    | _ => 0x00

/-! ### Actions -/

def actUc (p : Parser) : Ret :=
  chk p.decodeUnicodeChar fun p ↦
    ({ p with state := if p.unicodeMulti ≠ 0 then .d1 else .s }, none)

def actYb (p : Parser) : Ret :=
  if config.allowYamlComments then ({ p with saveState := p.state }, none)
  else (p, some .commentNotAllowed)

def actCb (p : Parser) : Ret :=
  if config.allowCComments then ({ p with saveState := p.state }, none)
  else (p, some .commentNotAllowed)

/-- The state behind a comment: after a number it is `ok`. -/
def afterComment : State → State
  | .go => .go
  | .ok => .ok
  | .o => .o
  | .k => .k
  | .co => .co
  | .v => .v
  | .a => .a
  | _ => .ok

def actCe (p : Parser) : Ret := ({ p with state := afterComment p.saveState }, none)

def actOb (p : Parser) : Ret :=
  chk (p.doCallback .objectBegin) fun p ↦
    ({ p.statePush .object with expectingKey := true }, none)

def actOe (p : Parser) : Ret :=
  chk (p.statePop .object) fun p ↦
    chk (p.doCallback .objectEnd) fun p ↦ ({ p with expectingKey := false }, none)

def actAb (p : Parser) : Ret :=
  chk (p.doCallback .arrayBegin) fun p ↦ (p.statePush .array, none)

def actAe (p : Parser) : Ret := chk (p.statePop .array) fun p ↦ p.doCallback .arrayEnd

def actSe (p : Parser) : Ret :=
  let p := p.doCallbackWithBuf (if p.expectingKey then .key else .string)
  ({ p with
    buffer := []
    state := if p.expectingKey then .co else .ok
    expectingKey := false }, none)

def actSp (p : Parser) : Ret :=
  match p.stack with
  | [] => (p, some .commaOutOfStructure)
  | .object :: _ => ({ p with expectingKey := true, state := .k }, none)
  | .array :: _ => ({ p with state := .v }, none)

/-- `struct action_descr` -/
structure ActionDescr where
  call : Option (Parser → Ret)
  type : JsonType
  -- `none` if the function sets the state.
  state : Option State
  dobuffer : Bool

/-- `actions_map` -/
def actionsMap : Action → ActionDescr
  | .ks => ⟨none, .none, some .v, false⟩
  | .sp => ⟨some actSp, .none, none, true⟩
  | .ab => ⟨some actAb, .none, some .a, false⟩
  | .ae => ⟨some actAe, .none, some .ok, true⟩
  | .ob => ⟨some actOb, .none, some .o, false⟩
  | .oe => ⟨some actOe, .none, some .ok, true⟩
  | .cb => ⟨some actCb, .none, some .c1, true⟩
  | .yb => ⟨some actYb, .none, some .y1, true⟩
  | .ce => ⟨some actCe, .none, none, false⟩
  | .fa => ⟨none, .false, some .ok, false⟩
  | .tr => ⟨none, .true, some .ok, false⟩
  | .nu => ⟨none, .null, some .ok, false⟩
  | .de => ⟨none, .float, some .x1, false⟩
  | .df => ⟨none, .float, some .r1, false⟩
  | .se => ⟨some actSe, .none, none, false⟩
  | .mx => ⟨none, .int, some .m0, false⟩
  | .zx => ⟨none, .int, some .z0, false⟩
  | .ix => ⟨none, .int, some .i0, false⟩
  | .uc => ⟨some actUc, .none, none, false⟩

def doAction (p : Parser) (action : Action) : Ret :=
  let descr := actionsMap action
  let called := match descr.call with
    | some call => call (if descr.dobuffer then p.doBuffer else p)
    | none => (p, none)
  chk called fun p ↦ ({ p with state := descr.state.getD p.state, type := descr.type }, none)

/-! ### Bytes -/

/-- Add the byte to the buffer and move to the next state. -/
def advance (p : Parser) (cls : CharClass) (ch : UInt8) : Ret :=
  let pushed := match bufferPolicy p.state cls with
    | .ignore => p
    | .append => p.bufferPush ch
    | .escape => p.bufferPushEscape ch
  match stateTransition p.state cls with
  | .error => (p, some .unexpectedChar)
  | .action action => pushed.doAction action
  | .state q => ({ pushed with state := q }, none)

/-- The body of the loop of `json_parser_string`. -/
def step (p : Parser) (ch : UInt8) : Ret :=
  match p.utf8MultibyteLeft with
  | left + 1 =>
    if isContinuation ch then { p with utf8MultibyteLeft := left }.advance .other ch
    else (p, some .utf8)
  | 0 =>
    match utf8Header ch with
    | none => ({ p with utf8MultibyteLeft := 0xff }, some .utf8)
    | some 0 =>
      if characterClass ch = .error then (p, some .badChar) else p.advance (characterClass ch) ch
    | some left => { p with utf8MultibyteLeft := left }.advance .other ch

/-- `json_parser_string` -/
def jsonParserString (p : Parser) (s : List UInt8) : Ret := Lib.feed step p s

/-- `json_parser_is_done` -/
def jsonParserIsDone (p : Parser) : Bool := p.stack = [] ∧ p.state ≠ .go

end Parser

end Libjson

end Falcon
