/-
**Trade updates, read field by field.**

`parseTradingUpdate` of `src/AlpacaFillListener.cpp` turns a JSON value into a fill, a cancel or
nothing.  Quantities are read with `std::stoll`, which is content with an integer at the front of a
string, where `queryOrders` asks the same fields to be integers from end to end.  The two kinds of
messages treat a quantity that cannot be read differently: a fill is dropped, a cancel counts it as
zero and is returned all the same.

Main definitions:

* `Trading.parseQty`, `Trading.parsePrice` — a number, as an integer or as text;
* `Trading.readHeader` — what all messages have in common;
* `Trading.parseTradingUpdate` — the whole function, with no result for a signed overflow;
* `Trading.Denotes` — the integer that a JSON value stands for;
* `Trading.FaithfulUpdate` — the update has the quantities that the value states.

Main results:

* `Trading.parseTradingUpdate_execution`, `Trading.parseTradingUpdate_ended` — a message whose
  quantities are integers gives the update of that message;
* `Trading.parseTradingUpdate_faithful_iff` — for which values the update is faithful.
-/

import TradingAlgo.CxxLibrary
import TradingAlgo.Nlohmann
import TradingAlgo.FillListener

set_option relaxedAutoImplicit false
set_option autoImplicit false

namespace Trading

open Nlohmann

/-! ### Numbers -/

/-- `parseQty`.  `get<int64_t>` of an unsigned integer is a cast. -/
def parseQty : Json → Option ℤ
  | .string s => Cxx.stoll (utf8 s)
  | .integer v => some v.toInt
  | .unsigned v => some v.toInt64.toInt
  | _ => none

/-- The integer in the range of `int64_t` that a JSON value stands for: a JSON integer, or a string
that is one from end to end. -/
def Denotes : Json → ℤ → Prop
  | .integer v, n => v.toInt = n
  | .unsigned v, n => (v.toNat : ℤ) = n ∧ n < 2 ^ 63
  | .string s, n => Cxx.wholeInt64 (utf8 s) = some n
  | _, _ => False

/-- The values that stand for no integer, and that `parseQty` takes for one: unsigned integers that
the cast makes negative, and strings that only begin like an integer. -/
def Misread : Json → Prop
  | .unsigned v => 2 ^ 63 ≤ v.toNat
  | .string s => Cxx.wholeInt64 (utf8 s) = none ∧ (Cxx.stoll (utf8 s)).isSome = true
  | _ => False

/-- The cast keeps what fits. -/
theorem toInt_toInt64 {v : UInt64} (h : v.toNat < 2 ^ 63) : v.toInt64.toInt = v.toNat := by
  rw [← UInt64.ofNat_toNat (x := v), UInt64.toInt64_ofNat',
    Int64.toInt_ofNat_of_lt (by simpa using h), UInt64.ofNat_toNat]

/-- What denotes an integer is read as that integer. -/
theorem Denotes.parseQty_eq {j : Json} {n : ℤ} (h : Denotes j n) : parseQty j = some n := by
  cases j with
  | integer v => exact congrArg some h
  | unsigned v =>
      obtain ⟨hv, hlt⟩ := h
      exact congrArg some ((toInt_toInt64 (by omega)).trans hv)
  | string s => exact Cxx.stoll_of_wholeInt64 h
  | _ => exact h.elim

theorem Denotes.not_misread {j : Json} {n : ℤ} (h : Denotes j n) : ¬ Misread j := by
  cases j with
  | unsigned v =>
      obtain ⟨hv, hlt⟩ := h
      exact fun hm => absurd hm (by simp only [Misread]; omega)
  | string s =>
      intro hm
      cases hm.1.symm.trans h
  | _ => exact id

theorem Misread.parseQty_isSome {j : Json} (h : Misread j) : (parseQty j).isSome = true := by
  cases j with
  | unsigned v => rfl
  | string s => exact h.2
  | _ => exact h.elim

/-- What is read is denoted, or misread. -/
theorem denotes_of_parseQty {j : Json} {n : ℤ} (h : parseQty j = some n) (hread : ¬ Misread j) :
    Denotes j n := by
  cases j with
  | integer v => exact Option.some_inj.1 h
  | unsigned v =>
      have hlt : v.toNat < 2 ^ 63 := not_le.1 hread
      have hv : (v.toNat : ℤ) = n := (toInt_toInt64 hlt).symm.trans (Option.some_inj.1 h)
      exact ⟨hv, by omega⟩
  | string s =>
      cases hwhole : Cxx.wholeInt64 (utf8 s) with
      | none => exact absurd ⟨hwhole, by rw [← Option.isSome_some (a := n), ← h]; rfl⟩ hread
      | some v =>
          rw [parseQty, Cxx.stoll_of_wholeInt64 hwhole] at h
          rw [Denotes, hwhole, h]
  | _ => cases h

/-! ### The function -/

/-- What is read of every message before the event is looked at. -/
structure Header where
  event : String
  data : Json
  order : Json
  symbol : String
  side : OrderSide
  orderId : String

/-- The checks of `parseTradingUpdate` up to the order's id; nothing when one of them fails. -/
def readHeader (parsed : Json) : Option Header := do
  let stream ← parsed.member "stream"
  guard (stream.text = some "trade_updates")
  let data ← parsed.member "data"
  guard data.isObject
  let event ← (data.member "event").bind Json.text
  let order ← data.member "order"
  guard order.isObject
  let symbol ← (order.member "symbol").bind Json.text
  let sideStr ← (order.member "side").bind Json.text
  let side ← parseSide sideStr
  some
    { event := event
      data := data
      order := order
      symbol := symbol
      side := side
      orderId := ((order.member "id").bind Json.text).getD "" }

namespace Header

variable (h : Header)

/-- The events that are executions. -/
def IsFill : Prop := h.event = "fill" ∨ h.event = "partial_fill"

/-- The events that end an order. -/
def IsEnd : Prop := h.event = "canceled" ∨ h.event = "expired" ∨ h.event = "rejected"

instance : Decidable h.IsFill := inferInstanceAs (Decidable (_ ∨ _))

instance : Decidable h.IsEnd := inferInstanceAs (Decidable (_ ∨ _ ∨ _))

theorem IsEnd.not_isFill {h : Header} (hend : h.IsEnd) : ¬ h.IsFill := by
  rcases hend with he | he | he <;> simp [IsFill, he]

end Header

section Parse

variable (stod : String → Option (ℚ × ℕ))

/-- `parsePrice`, with `std::stod` as for the prices of reported orders. -/
def parsePrice : Json → Option ℚ
  | .string s => (stod s).map Prod.fst
  | .integer v => some v.toInt
  | .unsigned v => some v.toNat
  | .float v => some v
  | _ => none

/-- The branch for `fill` and `partial_fill`. -/
def parseFill (h : Header) : TradeUpdate :=
  match h.data.member "qty", h.data.member "price" with
  | some qty, some price =>
      match parseQty qty, parsePrice stod price with
      | some qty, some price =>
          .fill
            { symbol := CharArray.ofBytes 8 (utf8 h.symbol)
              side := h.side
              isPartial := h.event = "partial_fill"
              quantity := qty
              price := price
              alpacaOrderId := CharArray.ofBytes 48 (utf8 h.orderId) }
      | _, _ => .none
  | _, _ => .none

/-- `total_qty` and `filled_qty`: zero unless there is a member that can be read. -/
def qtyOrZero (h : Header) (key : String) : ℤ := ((h.order.member key).bind parseQty).getD 0

/-- The branch for `canceled`, `expired` and `rejected`.  The difference is signed, so there is no
result when it overflows. -/
def parseCancel (h : Header) : Option TradeUpdate :=
  (Cxx.exact64 (qtyOrZero h "qty" - qtyOrZero h "filled_qty")).map fun rest =>
    .cancel
      { symbol := CharArray.ofBytes 8 (utf8 h.symbol)
        side := h.side
        quantity := max 0 rest
        alpacaOrderId := CharArray.ofBytes 48 (utf8 h.orderId) }

/-- `parseTradingUpdate`. -/
def parseTradingUpdate (parsed : Json) : Option TradeUpdate :=
  match readHeader parsed with
  | none => some .none
  | some h =>
      if h.IsFill then some (parseFill stod h)
      else if h.IsEnd then parseCancel h
      else some .none

/-! ### Messages whose quantities are integers -/

/-- The members of the header. -/
theorem readHeader_members {parsed : Json} {h : Header} (hh : readHeader parsed = some h) :
    parsed.member "data" = some h.data ∧ h.data.member "order" = some h.order := by
  simp only [readHeader, Option.bind_eq_bind, Option.bind_eq_some_iff] at hh
  obtain ⟨stream, -, -, -, data, hdata, -, -, event, -, order, horder, -, -, symbol, -, side, -,
    orderSide, -, hh⟩ := hh
  cases hh
  exact ⟨hdata, horder⟩

/-- **An execution whose quantity is an integer is read as it is.** -/
theorem parseTradingUpdate_execution {parsed : Json} {h : Header} {qtyField priceField : Json}
    {qty : ℤ} {price : ℚ} (hh : readHeader parsed = some h) (hfill : h.IsFill)
    (hqty : h.data.member "qty" = some qtyField) (hprice : h.data.member "price" = some priceField)
    (hq : Denotes qtyField qty) (hp : parsePrice stod priceField = some price) :
    parseTradingUpdate stod parsed =
      some (TradeMessage.execution (h.event = "partial_fill") (utf8 h.orderId) (utf8 h.symbol)
        h.side qty price).update := by
  simp [parseTradingUpdate, hh, hfill, parseFill, hqty, hprice, hq.parseQty_eq, hp,
    TradeMessage.update]

theorem qtyOrZero_of_denotes {h : Header} {key : String} {field : Json} {n : ℤ}
    (hfield : h.order.member key = some field) (hn : Denotes field n) : qtyOrZero h key = n := by
  simp [qtyOrZero, hfield, hn.parseQty_eq]

/-- **The end of an order whose quantities are integers is read as it is**, while their difference
does not overflow. -/
theorem parseTradingUpdate_ended {parsed : Json} {h : Header} {qtyField filledField : Json}
    {qty filledQty : ℤ} (hh : readHeader parsed = some h) (hend : h.IsEnd)
    (hqty : h.order.member "qty" = some qtyField)
    (hfilled : h.order.member "filled_qty" = some filledField)
    (hq : Denotes qtyField qty) (hf : Denotes filledField filledQty)
    (hrange : Cxx.IsInt64 (qty - filledQty)) :
    parseTradingUpdate stod parsed =
      some (TradeMessage.ended (utf8 h.orderId) (utf8 h.symbol) h.side qty filledQty).update := by
  simp [parseTradingUpdate, hh, hend, hend.not_isFill, parseCancel, qtyOrZero_of_denotes hqty hq,
    qtyOrZero_of_denotes hfilled hf, Cxx.exact64_of_isInt64 hrange, TradeMessage.update]

/-! ### Faithful updates -/

/-- A field, given by the keys that lead to it, states an integer. -/
def States (parsed : Json) (keys : List String) (n : ℤ) : Prop :=
  ∃ field, keys.foldlM Json.member parsed = some field ∧ Denotes field n

/-- The update has the quantities that the value states: a fill that of `data.qty`, a cancel what
`order.filled_qty` leaves of `order.qty`; otherwise there is no update.  An overflow is none of
these. -/
def FaithfulUpdate (parsed : Json) : Prop :=
  (∃ fill qty, parseTradingUpdate stod parsed = some (.fill fill) ∧
      States parsed ["data", "qty"] qty ∧ fill.quantity = qty) ∨
    (∃ cancel qty filledQty, parseTradingUpdate stod parsed = some (.cancel cancel) ∧
      States parsed ["data", "order", "qty"] qty ∧
      States parsed ["data", "order", "filled_qty"] filledQty ∧
      cancel.quantity = max 0 (qty - filledQty)) ∨
    parseTradingUpdate stod parsed = some .none

/-- An execution with a price has no quantity that is misread. -/
def FillReadable (h : Header) : Prop :=
  ∀ qty price, h.data.member "qty" = some qty → h.data.member "price" = some price →
    (parsePrice stod price).isSome = true → ¬ Misread qty

/-- The end of an order states both quantities, and they are not too far apart. -/
def EndReadable (h : Header) : Prop :=
  ∃ qtyField filledField qty filledQty,
    h.order.member "qty" = some qtyField ∧ h.order.member "filled_qty" = some filledField ∧
      Denotes qtyField qty ∧ Denotes filledField filledQty ∧ Cxx.IsInt64 (qty - filledQty)

variable {stod}

theorem states_data {parsed : Json} {h : Header} (hh : readHeader parsed = some h) (key : String)
    (n : ℤ) : States parsed ["data", key] n ↔
      ∃ field, h.data.member key = some field ∧ Denotes field n := by
  simp [States, List.foldlM, (readHeader_members hh).1]

theorem states_order {parsed : Json} {h : Header} (hh : readHeader parsed = some h) (key : String)
    (n : ℤ) : States parsed ["data", "order", key] n ↔
      ∃ field, h.order.member key = some field ∧ Denotes field n := by
  simp [States, List.foldlM, (readHeader_members hh).1, (readHeader_members hh).2]

/-- What the branch for executions can do. -/
theorem parseFill_cases (h : Header) :
    parseFill stod h = .none ∨
      ∃ qtyField priceField fill, h.data.member "qty" = some qtyField ∧
        h.data.member "price" = some priceField ∧ parseQty qtyField = some fill.quantity ∧
        parsePrice stod priceField = some fill.price ∧ parseFill stod h = .fill fill := by
  unfold parseFill
  cases hqty : h.data.member "qty" with
  | none => exact Or.inl rfl
  | some qtyField =>
      cases hprice : h.data.member "price" with
      | none => exact Or.inl rfl
      | some priceField =>
          simp only
          cases hq : parseQty qtyField with
          | none => exact Or.inl rfl
          | some qty =>
              cases hp : parsePrice stod priceField with
              | none => exact Or.inl rfl
              | some price => exact Or.inr ⟨_, _, _, rfl, rfl, hq, hp, rfl⟩

/-- With both fields readable the branch returns a fill. -/
theorem parseFill_eq_fill {h : Header} {qtyField priceField : Json} {qty : ℤ} {price : ℚ}
    (hqty : h.data.member "qty" = some qtyField) (hprice : h.data.member "price" = some priceField)
    (hq : parseQty qtyField = some qty) (hp : parsePrice stod priceField = some price) :
    ∃ fill, parseFill stod h = .fill fill := by
  simp [parseFill, hqty, hprice, hq, hp]

/-- When an execution is read faithfully. -/
theorem faithfulUpdate_iff_of_isFill {parsed : Json} {h : Header}
    (hh : readHeader parsed = some h) (hfill : h.IsFill) :
    FaithfulUpdate stod parsed ↔ FillReadable stod h := by
  have hparse : parseTradingUpdate stod parsed = some (parseFill stod h) := by
    simp [parseTradingUpdate, hh, hfill]
  simp only [FaithfulUpdate, hparse, Option.some_inj, states_data hh]
  constructor
  · intro hfaithful qtyField priceField hqty hprice hp hmis
    obtain ⟨price, hp⟩ := Option.isSome_iff_exists.1 hp
    obtain ⟨qty, hq⟩ := Option.isSome_iff_exists.1 hmis.parseQty_isSome
    obtain ⟨fill, heq⟩ := parseFill_eq_fill hqty hprice hq hp
    rw [heq] at hfaithful
    rcases hfaithful with ⟨_, n, -, ⟨field, hfield, hn⟩, -⟩ | ⟨_, _, _, hcancel, -⟩ | hnone
    · rw [hqty] at hfield
      cases hfield
      exact hn.not_misread hmis
    · cases hcancel
    · cases hnone
  · intro hreadable
    have hcases : parseFill stod h = .none ∨ _ := parseFill_cases h
    rcases hcases with heq | ⟨qtyField, priceField, fill, hqty, hprice, hq, hp, heq⟩
    · exact Or.inr (Or.inr heq)
    · have hread : ¬ Misread qtyField := hreadable _ _ hqty hprice (by rw [hp]; rfl)
      exact Or.inl ⟨fill, fill.quantity, heq, ⟨qtyField, hqty, denotes_of_parseQty hq hread⟩, rfl⟩

/-- When the end of an order is read faithfully.  This branch never returns nothing, so it has to
find both quantities. -/
theorem faithfulUpdate_iff_of_isEnd {parsed : Json} {h : Header}
    (hh : readHeader parsed = some h) (hend : h.IsEnd) :
    FaithfulUpdate stod parsed ↔ EndReadable h := by
  have hparse : parseTradingUpdate stod parsed = parseCancel h := by
    simp [parseTradingUpdate, hh, hend, hend.not_isFill]
  constructor
  · intro hfaithful
    rw [FaithfulUpdate, hparse] at hfaithful
    simp only [states_order hh] at hfaithful
    rcases hfaithful with ⟨fill, _, hfill, -⟩ | ⟨cancel, qty, filledQty, hcancel,
      ⟨qtyField, hqty, hq⟩, ⟨filledField, hfilled, hf⟩, -⟩ | hnone
    · obtain ⟨_, -, hfill⟩ := Option.map_eq_some_iff.1 hfill
      cases hfill
    · refine ⟨qtyField, filledField, qty, filledQty, hqty, hfilled, hq, hf, ?_⟩
      -- there is a result, so the difference did not overflow
      obtain ⟨rest, hrest, -⟩ := Option.map_eq_some_iff.1 hcancel
      rw [qtyOrZero_of_denotes hqty hq, qtyOrZero_of_denotes hfilled hf] at hrest
      exact (Option.ite_none_right_eq_some.1 hrest).1
    · obtain ⟨_, -, hnone⟩ := Option.map_eq_some_iff.1 hnone
      cases hnone
  · rintro ⟨qtyField, filledField, qty, filledQty, hqty, hfilled, hq, hf, hrange⟩
    exact Or.inr (Or.inl ⟨_, qty, filledQty,
      parseTradingUpdate_ended stod hh hend hqty hfilled hq hf hrange,
      (states_order hh _ _).2 ⟨qtyField, hqty, hq⟩,
      (states_order hh _ _).2 ⟨filledField, hfilled, hf⟩, rfl⟩)

variable (stod)

/-- **For which values the update is faithful**: those that are no trade update, executions with a
price whose quantity is not misread, ends of orders that state both quantities as integers with a
difference in range, and other events. -/
theorem parseTradingUpdate_faithful_iff (parsed : Json) :
    FaithfulUpdate stod parsed ↔
      ∀ h, readHeader parsed = some h →
        (h.IsFill → FillReadable stod h) ∧ (h.IsEnd → EndReadable h) := by
  cases hh : readHeader parsed with
  | none => simp [FaithfulUpdate, parseTradingUpdate, hh]
  | some h =>
      simp only [Option.some_inj, forall_eq']
      by_cases hfill : h.IsFill
      · have hend : ¬ h.IsEnd := fun hend => hend.not_isFill hfill
        simp [faithfulUpdate_iff_of_isFill hh hfill, hfill, hend]
      · by_cases hend : h.IsEnd
        · simp [faithfulUpdate_iff_of_isEnd hh hend, hfill, hend]
        · simp [FaithfulUpdate, parseTradingUpdate, hh, hfill, hend]

end Parse

/-- An execution of one and a half shares. -/
def fractionalFill : Json :=
  .object [("stream", .string "trade_updates"),
    ("data", .object [("event", .string "fill"), ("qty", .string "1.5"), ("price", .float 100),
      ("order", .object [("symbol", .string "AAPL"), ("side", .string "buy")])])]

/-- It is returned as a fill of one share, and no integer is stated. -/
theorem fractional_fill_is_truncated :
    (∃ fill, parseTradingUpdate (fun _ => none) fractionalFill = some (.fill fill) ∧
        fill.quantity = 1) ∧
      ¬ FaithfulUpdate (fun _ => none) fractionalFill := by
  have hmis : Misread (.string "1.5") := ⟨by decide +kernel, by decide +kernel⟩
  have hheader : ∃ h, readHeader fractionalFill = some h ∧ h.IsFill ∧
      h.data.member "qty" = some (.string "1.5") ∧ h.data.member "price" = some (.float 100) :=
    ⟨_, rfl, by decide +kernel, rfl, rfl⟩
  refine ⟨⟨_, rfl, by decide +kernel⟩, fun hfaithful => ?_⟩
  obtain ⟨h, hh, hfill, hqty, hprice⟩ := hheader
  exact (faithfulUpdate_iff_of_isFill hh hfill).1 hfaithful _ _ hqty hprice rfl hmis

end Trading
