/-
**The decoder of the market data.**

`src/AlpacaMsgpackDecoder.cpp`: a visitor of the MessagePack values that the data feed sends.  The
messages are the maps in the outermost array; the visitor finds them by counting the open arrays and
maps, keeps what the recognised keys of the current one have, and emits an event at its end.

Doubles are an arbitrary type with the conversions and tests of the source as parameters.  The calls
of the parser come from outside and are those of `TradingAlgo/Msgpack.lean`.

Main definitions:

* `Trading.Item` — what is kept of a message, and what the scalars do to it;
* `Trading.AlpacaVisitor.visit` — the calls on the visitor;
* `Trading.AlpacaMsgpackDecoder.decodeRaw` — the visitor after a whole value;
* `Trading.referenceDecode` — messages decoded one by one: a fold over the pairs of each.
-/

import TradingAlgo.Engine
import TradingAlgo.Msgpack

set_option relaxedAutoImplicit false
set_option autoImplicit false

namespace Trading

open Msgpack (Scalar Value Call)

/-! ### Timestamps -/

/-- Bytes as a big-endian number. -/
def bigEndian (bytes : List UInt8) : UInt64 :=
  bytes.foldl (fun acc byte => acc * 256 + byte.toUInt64) 0

/-- `decodeTimestampExt`: the first byte is the type of the extension. -/
def decodeTimestampExt : List UInt8 → UInt64
  | [] => 0
  | extType :: body =>
      -- the type is -1 as an `int8_t`
      if extType ≠ 255 then 0
      else if body.length = 4 then bigEndian body * 1000000000
      else if body.length = 8 then
        let val := bigEndian body
        let nsec30 := (val >>> 34).toUInt32
        let sec34 := val &&& 0x3FFFFFFFF
        sec34 * 1000000000 + nsec30.toUInt64
      else if body.length = 12 then
        let nsec := bigEndian (body.take 4)
        let sec := bigEndian (body.drop 4)
        sec * 1000000000 + nsec
      else 0

/-! ### What is kept of a message -/

/-- `double`, with what the decoder does with its values. -/
structure Doubles (F : Type) where
  zero : F
  /-- `static_cast<double>` of a `uint64_t`. -/
  ofUInt64 : UInt64 → F
  /-- `static_cast<uint64_t>`, for the values that are finite, not negative and below `2^64`. -/
  toUInt64 : F → Option UInt64
  isSafePrice : F → Bool
  /-- `static_cast<uint64_t>(raw * kScalingFactor)`. -/
  scaled : F → UInt64

/-- `FieldId`. -/
inductive FieldId
  | none
  | type
  | symbol
  | timestamp
  | bidPrice
  | bidSize
  | askPrice
  | askSize
  deriving DecidableEq, Repr

/-- The field of a key in `visit_str`. -/
def fieldOfKey : List UInt8 → FieldId
  | [84] => .type             -- "T"
  | [83] => .symbol           -- "S"
  | [116] => .timestamp       -- "t"
  | [112] => .bidPrice        -- "p"
  | [115] => .bidSize         -- "s"
  | [98, 112] => .bidPrice    -- "bp"
  | [98, 115] => .bidSize     -- "bs"
  | [97, 112] => .askPrice    -- "ap"
  | [97, 115] => .askSize     -- "as"
  | _ => .none

/-- The fields of `AlpacaVisitor` that hold the current message.  The two buffers keep what earlier
messages left behind the lengths. -/
structure Item (F : Type) where
  msgType : CharArray 8 := CharArray.ofBytes 8 []
  msgTypeLen : ℕ := 0
  symbolBuf : CharArray 8 := CharArray.ofBytes 8 []
  symbolLen : ℕ := 0
  timestamp : UInt64 := 0
  p1Raw : F
  s1Raw : UInt64 := 0
  p2Raw : F
  s2Raw : UInt64 := 0
  hasTimestamp : Bool := false
  invalidItem : Bool := false
  deriving DecidableEq, Repr

/-- `std::memcpy` of at most eight bytes over the beginning of a buffer. -/
def copyOver (buffer : CharArray 8) (v : List UInt8) : CharArray 8 where
  bytes := v.take 8 ++ buffer.bytes.drop v.length
  length_eq := by simp [buffer.length_eq]; omega

namespace Item

variable {F : Type} (d : Doubles F)

/-- A message of which nothing was read. -/
def empty : Item F where
  p1Raw := d.zero
  p2Raw := d.zero

/-- `resetItem`: the bytes of the buffers stay. -/
def resetItem (item : Item F) : Item F :=
  { item with
    msgTypeLen := 0
    symbolLen := 0
    timestamp := 0
    p1Raw := d.zero
    s1Raw := 0
    p2Raw := d.zero
    s2Raw := 0
    hasTimestamp := false
    invalidItem := false }

/-- The switch of `visit_str` for a value. -/
def visitStr (item : Item F) (field : FieldId) (v : List UInt8) : Item F :=
  match field with
  | .type => { item with msgTypeLen := min v.length 8, msgType := copyOver item.msgType v }
  | .symbol => { item with symbolLen := min v.length 8, symbolBuf := copyOver item.symbolBuf v }
  | _ => item

/-- The switch of `visit_positive_integer`. -/
def visitPositiveInteger (item : Item F) (field : FieldId) (v : UInt64) : Item F :=
  match field with
  | .timestamp => { item with timestamp := v, hasTimestamp := true }
  | .bidPrice => { item with p1Raw := d.ofUInt64 v }
  | .bidSize => { item with s1Raw := v }
  | .askPrice => { item with p2Raw := d.ofUInt64 v }
  | .askSize => { item with s2Raw := v }
  | _ => item

/-- The switch of `visit_negative_integer`. -/
def visitNegativeInteger (item : Item F) (field : FieldId) : Item F :=
  match field with
  | .timestamp => { item with timestamp := 0, hasTimestamp := true }
  | .bidPrice | .bidSize | .askPrice | .askSize => { item with invalidItem := true }
  | _ => item

/-- The switch of `visit_float64`. -/
def visitFloat64 (item : Item F) (field : FieldId) (v : F) : Item F :=
  match field with
  | .timestamp => { item with timestamp := (d.toUInt64 v).getD 0, hasTimestamp := true }
  | .bidPrice => { item with p1Raw := v }
  | .bidSize =>
      match d.toUInt64 v with
      | none => { item with invalidItem := true }
      | some size => { item with s1Raw := size }
  | .askPrice => { item with p2Raw := v }
  | .askSize =>
      match d.toUInt64 v with
      | none => { item with invalidItem := true }
      | some size => { item with s2Raw := size }
  | _ => item

/-- The body of `visit_ext`. -/
def visitExt (item : Item F) (field : FieldId) (v : List UInt8) : Item F :=
  if field = .timestamp ∧ 2 ≤ v.length then
    { item with timestamp := decodeTimestampExt v, hasTimestamp := true }
  else item

/-- What a scalar does as the value of a field.  `null_visitor` ignores the kinds of scalars that
the decoder does not know. -/
def assign (field : FieldId) (item : Item F) : Scalar F → Item F
  | .str v => item.visitStr field v
  | .positiveInteger v => item.visitPositiveInteger d field v
  | .negativeInteger _ => item.visitNegativeInteger field
  | .float32 v => item.visitFloat64 d field v
  | .float64 v => item.visitFloat64 d field v
  | .ext v => item.visitExt field v
  | .nil => item
  | .boolean _ => item
  | .bin _ => item

/-- The string view on the type. -/
def mt (item : Item F) : List UInt8 := item.msgType.bytes.take item.msgTypeLen

/-- The string view on the symbol. -/
def sym (item : Item F) : List UInt8 := item.symbolBuf.bytes.take item.symbolLen

end Item

/-! ### The visitor -/

/-- `AlpacaVisitor`, with the log of its calls of `emit_fn`, and the number of those of the
callback for a successful authentication. -/
structure AlpacaVisitor (F : Type) where
  eventBuffer : MarketEvent
  /-- Whether there is a callback. -/
  onAuthSuccess : Bool
  arrivedAt : UInt64
  arrayDepth : UInt32 := 0
  arrayIndex : UInt32 := 0
  mapDepth : UInt32 := 0
  inKey : Bool := false
  currentField : FieldId := .none
  item : Item F
  emitted : List (MarketEvent × List UInt8) := []
  authSuccesses : ℕ := 0
  deriving DecidableEq, Repr

namespace AlpacaVisitor

variable {F : Type} (d : Doubles F)

/-- The last lines of `emitItem`, with the other fields of the event already written. -/
def emit (s : AlpacaVisitor F) (event : MarketEvent) : AlpacaVisitor F :=
  let event :=
    { event with
      symbol := CharArray.ofBytes 8 s.item.sym
      timestamp := if s.item.hasTimestamp then s.item.timestamp else 0
      arrivedAt := s.arrivedAt }
  { s with eventBuffer := event, emitted := s.emitted ++ [(event, s.item.sym)] }

/-- `emitItem`. -/
def emitItem (s : AlpacaVisitor F) : AlpacaVisitor F :=
  let item := s.item
  if item.invalidItem then s
  else if item.mt = [115, 117, 99, 99, 101, 115, 115] then
    -- "success"
    if s.arrayIndex = 0 ∧ s.onAuthSuccess then
      { s with authSuccesses := s.authSuccesses + 1 }
    else s
  else if item.mt = [] ∨ item.sym = [] then s
  else if item.mt = [113] then
    -- "q", a quote
    if ¬ d.isSafePrice item.p1Raw ∨ ¬ d.isSafePrice item.p2Raw then s
    else
      s.emit
        { s.eventBuffer with
          eventType := 1
          p1 := d.scaled item.p1Raw
          s1 := item.s1Raw
          p2 := d.scaled item.p2Raw
          s2 := item.s2Raw }
  else if item.mt = [116] then
    -- "t", a trade
    if ¬ d.isSafePrice item.p1Raw then s
    else
      s.emit
        { s.eventBuffer with
          eventType := 2
          p1 := d.scaled item.p1Raw
          s1 := item.s1Raw
          p2 := 0
          s2 := 0 }
  else s

/-- The scalars.  In a key only a string matters, in a value what is the value of a field. -/
def visitScalar (s : AlpacaVisitor F) (x : Scalar F) : AlpacaVisitor F :=
  if s.mapDepth ≠ 1 then s
  else if s.inKey then
    match x with
    | .str v => { s with currentField := fieldOfKey v }
    | _ => s
  else { s with item := s.item.assign d s.currentField x }

/-- The calls. -/
def visit (s : AlpacaVisitor F) : Call F → AlpacaVisitor F
  | .scalar x => s.visitScalar d x
  | .startArray _ => { s with arrayDepth := s.arrayDepth + 1, arrayIndex := 0 }
  | .startArrayItem => s
  | .endArrayItem =>
      if s.arrayDepth = 1 then { s with arrayIndex := s.arrayIndex + 1 } else s
  | .endArray => { s with arrayDepth := s.arrayDepth - 1 }
  | .startMap _ =>
      let s := { s with mapDepth := s.mapDepth + 1 }
      if s.arrayDepth = 1 ∧ s.mapDepth = 1 then
        { s with item := s.item.resetItem d, currentField := .none }
      else s
  | .startMapKey => { s with inKey := true, currentField := .none }
  | .endMapKey => { s with inKey := false }
  | .startMapValue => s
  | .endMapValue => { s with currentField := .none }
  | .endMap =>
      let s := if s.arrayDepth = 1 ∧ s.mapDepth = 1 then s.emitItem d else s
      { s with mapDepth := s.mapDepth - 1 }

/-- A visitor as `decodeRaw` makes it. -/
def create (eventBuffer : MarketEvent) (onAuthSuccess : Bool) (arrivedAt : UInt64) :
    AlpacaVisitor F where
  eventBuffer := eventBuffer
  onAuthSuccess := onAuthSuccess
  arrivedAt := arrivedAt
  item := Item.empty d

end AlpacaVisitor

/-- `AlpacaMsgpackDecoder`: the event buffer and the callback live as long as the decoder. -/
structure AlpacaMsgpackDecoder where
  eventBuffer : MarketEvent
  onAuthSuccess : Bool
  deriving DecidableEq, Repr

/-- `decodeRaw` of a frame that holds one value: the visitor after its calls. -/
def AlpacaMsgpackDecoder.decodeRaw {F : Type} (d : Doubles F) (decoder : AlpacaMsgpackDecoder)
    (v : Value F) (arrivedAt : UInt64) : AlpacaVisitor F :=
  Msgpack.run (AlpacaVisitor.visit d)
    (AlpacaVisitor.create d decoder.eventBuffer decoder.onAuthSuccess arrivedAt) v

/-! ### Messages one by one -/

section Reference

variable {F : Type} (d : Doubles F)

/-- The field that a key selects. -/
def keyField : Value F → FieldId
  | .scalar (.str v) => fieldOfKey v
  | _ => .none

/-- One pair of a message: a scalar for a field. -/
def Item.assignPair (item : Item F) (pair : Value F × Value F) : Item F :=
  match pair.2 with
  | .scalar x => item.assign d (keyField pair.1) x
  | _ => item

/-- A message by itself: a fold over its pairs from an empty item, and `emitItem` on a visitor that
has seen nothing else. -/
def referenceItem (arrivedAt : UInt64) (pairs : List (Value F × Value F)) :
    List (MarketEvent × List UInt8) :=
  let nothing : MarketEvent := ⟨0, CharArray.ofBytes 8 [], 0, 0, 0, 0, 0, 0⟩
  let visitor := AlpacaVisitor.create d nothing false arrivedAt
  (AlpacaVisitor.emitItem d
    { visitor with item := pairs.foldl (Item.assignPair d) (Item.empty d) }).emitted

/-- What an element of the outermost array leads to. -/
def referenceElement (arrivedAt : UInt64) : Value F → List (MarketEvent × List UInt8)
  | .map pairs => referenceItem d arrivedAt pairs
  | _ => []

/-- **The reference decoder**: the elements of the outermost array one by one. -/
def referenceDecode (arrivedAt : UInt64) : Value F → List (MarketEvent × List UInt8)
  | .array items => items.flatMap (referenceElement d arrivedAt)
  | _ => []

/-- The maps in the outermost array have scalar keys, and the recognised ones scalar values. -/
def ScalarFields (v : Value F) : Prop :=
  ∀ items, v = .array items → ∀ pairs, .map pairs ∈ items → ∀ pair ∈ pairs,
    pair.1.isScalar ∧ (keyField pair.1 ≠ .none → pair.2.isScalar)

end Reference

end Trading
