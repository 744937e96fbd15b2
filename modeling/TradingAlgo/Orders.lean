/-
**Orders and fills.**

The records the components of the engine exchange (`include/Order.hpp`, `include/Fill.hpp`).
Quantities are `int64_t` in the source and integers here: that no quantity or counter leaves the
range of `int64_t` is assumed throughout, and where the source guards against that range itself
(`RiskManager`) the model follows the guard.  A `double` price is the rational number it denotes.

* `Trading.Order`, `Trading.Fill` — the records, with the symbol as the array of eight bytes that
  it is in the source;
* `Trading.OrderSide.signed` — a quantity with the sign of its side;
* `Trading.llround`, `Trading.Fill.priceScaled` — the price of a fill as a whole number of
  ten-thousandths.
-/

import TradingAlgo.CharArray
import Mathlib.Data.Rat.Floor

set_option relaxedAutoImplicit false
set_option autoImplicit false

namespace Trading

/-- `enum class OrderSide`. -/
inductive OrderSide
  | buy
  | sell
  deriving DecidableEq, Repr

/-- `enum class OrderType`. -/
inductive OrderType
  | market
  | limit
  deriving DecidableEq, Repr

/-- A quantity with the sign of its side, the `delta` of `onOrderSent` and `onOrderCancelled`. -/
def OrderSide.signed : OrderSide → ℤ → ℤ
  | .buy, q => q
  | .sell, q => -q

@[simp] theorem OrderSide.signed_buy (q : ℤ) : OrderSide.buy.signed q = q := rfl

@[simp] theorem OrderSide.signed_sell (q : ℤ) : OrderSide.sell.signed q = -q := rfl

@[simp] theorem OrderSide.signed_zero (side : OrderSide) : side.signed 0 = 0 := by
  cases side <;> rfl

theorem OrderSide.signed_sub (side : OrderSide) (p q : ℤ) :
    side.signed (p - q) = side.signed p - side.signed q := by
  cases side with
  | buy => rfl
  | sell => simp only [signed_sell]; ring

/-- The opposite side. -/
def OrderSide.other : OrderSide → OrderSide
  | .buy => .sell
  | .sell => .buy

theorem OrderSide.ne_other (side : OrderSide) : side ≠ side.other := by
  cases side <;> simp [OrderSide.other]

/-- `struct Order`. -/
structure Order where
  id : UInt64 := 0
  symbol : CharArray 8
  quantity : ℤ
  price : UInt64 := 0
  side : OrderSide
  type : OrderType := .market
  arrivedAt : UInt64 := 0
  queuedAt : UInt64 := 0
  deriving DecidableEq, Repr

/-- `struct Fill`, without the two identifiers that are always zero and never read. -/
structure Fill where
  symbol : CharArray 8
  side : OrderSide
  quantity : ℤ
  price : ℚ
  deriving DecidableEq, Repr

/-- `SCALING_FACTOR`. -/
def SCALING_FACTOR : ℤ := 10000

/-- `std::llround`: the nearest integer, halves away from zero. -/
def llround (q : ℚ) : ℤ := if 0 ≤ q then ⌊q + 1 / 2⌋ else -⌊-q + 1 / 2⌋

/-- `std::llround(fill.price * SCALING_FACTOR)`, the product taken exactly. -/
def Fill.priceScaled (fill : Fill) : ℤ := llround (fill.price * SCALING_FACTOR)

end Trading
