/-
**The payload of an order.**

`AlpacaRestClient::buildOrderPayload` writes the JSON of an order by hand: literals, the symbol up
to its first NUL, and numerals.  The price of a limit order is the quotient and the remainder by
`SCALING_FACTOR`, the latter with leading zeros.

Main definitions:

* `Trading.kPriceDecimals`, `Trading.buildOrderPayload` — the function of the source;
* `Trading.readPayload` — how a payload is read: its members by their keys, numbers from numerals;
* `Trading.sent` — what an order should be read as.

Main results:

* `Trading.buildOrderPayload_eq` — the payload is the text of an object;
* `Trading.order_payload_round_trip` — **an order is read back from its payload**, so different
  orders have different payloads.
-/

import TradingAlgo.CxxLibrary
import TradingAlgo.JsonObject
import TradingAlgo.Nlohmann
import TradingAlgo.Orders

set_option relaxedAutoImplicit false
set_option autoImplicit false

namespace Trading

open Nlohmann (utf8)
open Cxx JsonObject

/-! ### The payload -/

/-- The loop that counts the digits of a power of ten after its first. -/
def countDigits (f : ℕ) : ℕ := if 1 < f then countDigits (f / 10) + 1 else 0

/-- `kPriceDecimals`. -/
def kPriceDecimals : ℕ := countDigits SCALING_FACTOR.toNat

/-- The numeral of `limit_price`. -/
def limitPriceText (price : UInt64) : List UInt8 :=
  let whole := price / 10000
  let frac := price % 10000
  let fracStr := toStringNat frac.toNat
  toStringNat whole.toNat ++ [46] ++ List.replicate (kPriceDecimals - fracStr.length) 48 ++ fracStr

/-- `buildOrderPayload`: what is in `payload_buf_` afterwards. -/
def buildOrderPayload (order : Order) : List UInt8 :=
  utf8 "\x7b\"symbol\":\"" ++ order.symbol.view ++
  utf8 "\",\"qty\":\"" ++ toStringInt order.quantity ++
  utf8 "\",\"side\":\"" ++ (if order.side = .buy then utf8 "buy" else utf8 "sell") ++
  if order.type = .market then utf8 "\",\"type\":\"market\",\"time_in_force\":\"day\"\x7d"
  else
    utf8 "\",\"type\":\"limit\",\"time_in_force\":\"day\",\"limit_price\":\"" ++
    limitPriceText order.price ++ utf8 "\"\x7d"

/-! ### Reading a payload -/

/-- What the broker takes from a payload. -/
structure SentOrder where
  symbol : List UInt8
  qty : ℤ
  side : OrderSide
  type : OrderType
  /-- None when there is no `limit_price`. -/
  limitPrice : Option ℚ
  deriving DecidableEq, Repr

/-- A decimal numeral with exactly four digits after the point. -/
def readPrice (text : List UInt8) : Option ℚ :=
  match text.dropWhile isDigit with
  | 46 :: frac =>
      let whole := text.takeWhile isDigit
      if whole ≠ [] ∧ frac.length = 4 ∧ frac.all isDigit then
        some ((digitsValue whole : ℚ) + (digitsValue frac : ℚ) / 10 ^ 4)
      else none
  | _ => none

def readSide (text : List UInt8) : Option OrderSide :=
  if text = utf8 "buy" then some .buy else if text = utf8 "sell" then some .sell else none

def readType (text : List UInt8) : Option OrderType :=
  if text = utf8 "market" then some .market
  else if text = utf8 "limit" then some .limit
  else none

/-- The order that members stand for; a price that is there must be a numeral. -/
def readSentOrder (ms : List Member) : Option SentOrder := do
  let symbol ← ms.lookup (utf8 "symbol")
  let qty ← (ms.lookup (utf8 "qty")).bind wholeInt64
  let side ← (ms.lookup (utf8 "side")).bind readSide
  let type ← (ms.lookup (utf8 "type")).bind readType
  let limitPrice ← (ms.lookup (utf8 "limit_price")).elim (some none) fun text =>
    (readPrice text).map some
  return { symbol, qty, side, type, limitPrice }

/-- The order that a payload stands for. -/
def readPayload (text : List UInt8) : Option SentOrder := (readObject text).bind readSentOrder

/-- What an order is to be read as: its price in units is a ten-thousandth of the number. -/
def sent (order : Order) : SentOrder where
  symbol := order.symbol.view
  qty := order.quantity
  side := order.side
  type := order.type
  limitPrice := if order.type = .limit then some ((order.price.toNat : ℚ) / 10000) else none

/-! ### The members of a payload -/

/-- The text of a side. -/
def sideText (side : OrderSide) : List UInt8 := if side = .buy then utf8 "buy" else utf8 "sell"

/-- The members that `buildOrderPayload` writes. -/
def orderMembers (order : Order) : List Member :=
  [(utf8 "symbol", order.symbol.view), (utf8 "qty", toStringInt order.quantity),
    (utf8 "side", sideText order.side)] ++
  if order.type = .market then
    [(utf8 "type", utf8 "market"), (utf8 "time_in_force", utf8 "day")]
  else
    [(utf8 "type", utf8 "limit"), (utf8 "time_in_force", utf8 "day"),
      (utf8 "limit_price", limitPriceText order.price)]

/-- **The payload is the text of an object.** -/
theorem buildOrderPayload_eq (order : Order) :
    buildOrderPayload order = objectText (orderMembers order) := by
  -- with the brackets to the right the two sides are the same but for where the literals are cut
  cases htype : order.type with
  | market =>
      simp only [buildOrderPayload, orderMembers, sideText, htype, if_pos, objectText,
        membersText, memberText, stringText, List.cons_append, List.nil_append,
        List.append_assoc]
      rfl
  | limit =>
      simp only [buildOrderPayload, orderMembers, sideText, htype, reduceCtorEq, if_false,
        objectText, membersText, memberText, stringText, List.cons_append, List.nil_append,
        List.append_assoc]
      rfl

theorem isPlain_of_isDigit {c : UInt8} (h : isDigit c = true) : isPlain c = true := by
  simp only [isDigit, isPlain, decide_eq_true_eq, UInt8.le_iff_toNat_le, ne_eq,
    ← UInt8.toNat_inj] at h ⊢
  simp at h ⊢
  omega

theorem isPlain_toStringInt (v : ℤ) : ∀ c ∈ toStringInt v, isPlain c = true := by
  intro c hc
  have hdigits : c ∈ toStringNat v.natAbs → isPlain c = true := fun hmem =>
    isPlain_of_isDigit (isDigit_toStringNat _ c hmem)
  unfold toStringInt at hc
  split_ifs at hc
  · rcases List.mem_cons.1 hc with rfl | hc
    · decide
    · exact hdigits hc
  · exact hdigits hc

/-! ### The price -/

theorem kPriceDecimals_eq : kPriceDecimals = 4 := by
  simp [kPriceDecimals, SCALING_FACTOR, countDigits]

/-- The digits after the point. -/
def fracText (price : UInt64) : List UInt8 :=
  List.replicate (4 - (toStringNat (price % 10000).toNat).length) 48 ++
    toStringNat (price % 10000).toNat

theorem limitPriceText_eq (price : UInt64) :
    limitPriceText price = toStringNat (price / 10000).toNat ++ 46 :: fracText price := by
  simp [limitPriceText, fracText, kPriceDecimals_eq]

theorem isDigit_fracText (price : UInt64) : ∀ c ∈ fracText price, isDigit c = true := by
  intro c hc
  rcases List.mem_append.1 hc with hc | hc
  · rw [List.eq_of_mem_replicate hc]
    decide
  · exact isDigit_toStringNat _ c hc

theorem length_fracText (price : UInt64) : (fracText price).length = 4 := by
  have hlt : (price % 10000).toNat < 10 ^ 4 := by
    rw [UInt64.toNat_mod]
    exact Nat.mod_lt _ (by decide)
  have hlen := length_toStringNat_le (by norm_num) hlt
  simp only [fracText, List.length_append, List.length_replicate]
  omega

theorem digitsValue_fracText (price : UInt64) :
    digitsValue (fracText price) = price.toNat % 10000 := by
  rw [fracText, digitsValue_replicate_append, digitsValue_toStringNat, UInt64.toNat_mod]
  rfl

/-- **The numeral of a price denotes it exactly.** -/
theorem readPrice_limitPriceText (price : UInt64) :
    readPrice (limitPriceText price) = some ((price.toNat : ℚ) / 10000) := by
  have hdigit := isDigit_toStringNat (price / 10000).toNat
  have htake : (limitPriceText price).takeWhile isDigit = toStringNat (price / 10000).toNat := by
    rw [limitPriceText_eq, List.takeWhile_append_of_pos hdigit]
    simp [isDigit]
  have hdrop : (limitPriceText price).dropWhile isDigit = 46 :: fracText price := by
    rw [limitPriceText_eq, List.dropWhile_append_of_pos hdigit]
    simp [isDigit]
  have hfrac : (fracText price).all isDigit = true := List.all_eq_true.2 (isDigit_fracText price)
  have hvalue : ((price.toNat / 10000 : ℕ) : ℚ) + (price.toNat % 10000 : ℕ) / 10 ^ 4 =
      price.toNat / 10000 := by
    have hsplit : ((10000 * (price.toNat / 10000) + price.toNat % 10000 : ℕ) : ℚ) =
        price.toNat := by
      rw [Nat.div_add_mod]
    push_cast at hsplit
    linarith
  simp only [readPrice, hdrop, htake]
  rw [if_pos ⟨toStringNat_ne_nil _, length_fracText price, hfrac⟩, digitsValue_toStringNat,
    digitsValue_fracText, UInt64.toNat_div]
  exact congrArg some hvalue

example : limitPriceText 50007 = utf8 "5.0007" := by
  rw [limitPriceText_eq]
  decide

theorem isPlain_limitPriceText (price : UInt64) :
    ∀ c ∈ limitPriceText price, isPlain c = true := by
  intro c hc
  rw [limitPriceText_eq] at hc
  rcases List.mem_append.1 hc with hc | hc
  · exact isPlain_of_isDigit (isDigit_toStringNat _ c hc)
  · rcases List.mem_cons.1 hc with rfl | hc
    · decide
    · exact isPlain_of_isDigit (isDigit_fracText price c hc)

/-! ### Reading a payload back -/

/-- The members by the type of the order. -/
theorem orderMembers_market {order : Order} (htype : order.type = .market) :
    orderMembers order =
      [(utf8 "symbol", order.symbol.view), (utf8 "qty", toStringInt order.quantity),
        (utf8 "side", sideText order.side), (utf8 "type", utf8 "market"),
        (utf8 "time_in_force", utf8 "day")] := by
  simp [orderMembers, htype]

theorem orderMembers_limit {order : Order} (htype : order.type = .limit) :
    orderMembers order =
      [(utf8 "symbol", order.symbol.view), (utf8 "qty", toStringInt order.quantity),
        (utf8 "side", sideText order.side), (utf8 "type", utf8 "limit"),
        (utf8 "time_in_force", utf8 "day"), (utf8 "limit_price", limitPriceText order.price)] := by
  simp [orderMembers, htype]

theorem plain_orderMembers {order : Order} (hsymbol : ∀ c ∈ order.symbol.view, isPlain c = true) :
    ∀ m ∈ orderMembers order, PlainMember m := by
  have hconst : ∀ k v, k.all isPlain = true → v.all isPlain = true → PlainMember (k, v) :=
    fun k v hk hv => (plainMember_iff (k, v)).2 ⟨hk, hv⟩
  have hfirst : PlainMember (utf8 "symbol", order.symbol.view) :=
    hconst _ _ (by decide) (List.all_eq_true.2 hsymbol)
  have hqty : PlainMember (utf8 "qty", toStringInt order.quantity) :=
    hconst _ _ (by decide) (List.all_eq_true.2 (isPlain_toStringInt order.quantity))
  have hside : PlainMember (utf8 "side", sideText order.side) := by
    cases order.side <;> exact hconst _ _ (by decide) (by decide)
  have hday : PlainMember (utf8 "time_in_force", utf8 "day") := hconst _ _ (by decide) (by decide)
  have hprice : PlainMember (utf8 "limit_price", limitPriceText order.price) :=
    hconst _ _ (by decide) (List.all_eq_true.2 (isPlain_limitPriceText order.price))
  cases htype : order.type with
  | market =>
      rw [orderMembers_market htype]
      simpa [hfirst, hqty, hside, hday] using
        hconst (utf8 "type") (utf8 "market") (by decide) (by decide)
  | limit =>
      rw [orderMembers_limit htype]
      simpa [hfirst, hqty, hside, hday, hprice] using
        hconst (utf8 "type") (utf8 "limit") (by decide) (by decide)

theorem nodup_orderMembers (order : Order) : ((orderMembers order).map Prod.fst).Nodup := by
  have hkeys : [utf8 "symbol", utf8 "qty", utf8 "side", utf8 "type", utf8 "time_in_force",
      utf8 "limit_price"].Nodup := by
    decide
  cases htype : order.type with
  | market =>
      rw [orderMembers_market htype]
      exact hkeys.sublist (List.sublist_append_left _ [utf8 "limit_price"])
  | limit =>
      rw [orderMembers_limit htype]
      exact hkeys

theorem readSentOrder_orderMembers {order : Order} (hqty : IsInt64 order.quantity) :
    readSentOrder (orderMembers order) = some (sent order) := by
  have hread := wholeInt64_toStringInt hqty
  have hside : readSide (sideText order.side) = some order.side := by
    cases order.side <;> decide
  cases htype : order.type with
  | market =>
      have hlookup : readSentOrder (orderMembers order) =
          (wholeInt64 (toStringInt order.quantity)).bind fun qty =>
            (readSide (sideText order.side)).bind fun side =>
              some ⟨order.symbol.view, qty, side, .market, none⟩ := by
        rw [orderMembers_market htype]
        rfl
      rw [hlookup, hread, hside]
      simp [sent, htype]
  | limit =>
      have hlookup : readSentOrder (orderMembers order) =
          (wholeInt64 (toStringInt order.quantity)).bind fun qty =>
            (readSide (sideText order.side)).bind fun side =>
              ((readPrice (limitPriceText order.price)).map some).bind fun limitPrice =>
                some ⟨order.symbol.view, qty, side, .limit, limitPrice⟩ := by
        rw [orderMembers_limit htype]
        rfl
      rw [hlookup, hread, hside, readPrice_limitPriceText order.price]
      simp [sent, htype]

/-- Orders that are read alike agree in what is sent of them. -/
theorem eq_of_sent_eq {order order' : Order} (h : sent order = sent order') :
    order.symbol.view = order'.symbol.view ∧ order.quantity = order'.quantity ∧
      order.side = order'.side ∧ order.type = order'.type ∧
      (order.type = .limit → order.price = order'.price) := by
  obtain ⟨hsymbol, hqty, hside, htype, hprice⟩ := SentOrder.mk.inj h
  refine ⟨hsymbol, hqty, hside, htype, fun hlimit => ?_⟩
  rw [if_pos hlimit, if_pos (htype.symm.trans hlimit), Option.some_inj] at hprice
  have hcast : (order.price.toNat : ℚ) = order'.price.toNat := by linarith
  exact UInt64.toNat_inj.1 (by exact_mod_cast hcast)

/-- **An order is read back from its payload**: it is the text of a JSON object, whose fields are
those of the order, the price with exactly four digits after the point and only for a limit order.
So different orders have different payloads. -/
theorem order_payload_round_trip :
    (∀ order : Order, (∀ c ∈ order.symbol.view, isPlain c = true) → IsInt64 order.quantity →
      WellFormed (buildOrderPayload order) ∧
      readPayload (buildOrderPayload order) = some (sent order)) ∧
    (∀ order order' : Order, (∀ c ∈ order.symbol.view, isPlain c = true) →
      (∀ c ∈ order'.symbol.view, isPlain c = true) → IsInt64 order.quantity →
      IsInt64 order'.quantity → buildOrderPayload order = buildOrderPayload order' →
      order.symbol.view = order'.symbol.view ∧ order.quantity = order'.quantity ∧
        order.side = order'.side ∧ order.type = order'.type ∧
        (order.type = .limit → order.price = order'.price)) := by
  have hread : ∀ order : Order, (∀ c ∈ order.symbol.view, isPlain c = true) →
      IsInt64 order.quantity → readPayload (buildOrderPayload order) = some (sent order) := by
    intro order hsymbol hqty
    rw [readPayload, buildOrderPayload_eq, readObject_objectText (plain_orderMembers hsymbol),
      Option.bind_some, readSentOrder_orderMembers hqty]
  refine ⟨?_, ?_⟩
  · intro order hsymbol hqty
    refine ⟨⟨orderMembers order, plain_orderMembers hsymbol, nodup_orderMembers order, ?_⟩, ?_⟩
    · exact buildOrderPayload_eq order
    · exact hread order hsymbol hqty
  · intro order order' hsymbol hsymbol' hqty hqty' heq
    have hsent := hread order hsymbol hqty
    rw [heq, hread order' hsymbol' hqty', Option.some_inj] at hsent
    exact eq_of_sent_eq hsent.symm

/-- Ten shares with a limit of 450.0007. -/
theorem order_payload_round_trip_for_a_limit :
    let order : Order :=
      { symbol := CharArray.ofBytes 8 (utf8 "MSFT")
        quantity := 10
        price := 4500007
        side := .buy
        type := .limit }
    WellFormed (buildOrderPayload order) ∧ readPayload (buildOrderPayload order) =
      some ⟨utf8 "MSFT", 10, .buy, .limit, some (4500007 / 10000)⟩ := by
  intro order
  have hsymbol : order.symbol.view.all isPlain = true := by decide
  obtain ⟨hform, hread⟩ :=
    order_payload_round_trip.1 order (List.all_eq_true.1 hsymbol) (by decide)
  exact ⟨hform, hread.trans (by decide +kernel)⟩

end Trading
