/-
**What reconciled fills cost.**

After a reconnect the broker reports, for an order, how much of it was executed and at which average
price.  What the listener has booked of it live, it has booked at the prices of the live fills; the
rest it books at the average over all executions, the live ones included.  So the value that is
booked is the true one only if the live fills have that average themselves.

Main definitions:

* `Trading.Execution`, `Trading.qtyOf`, `Trading.valueOf` — executions, their quantity and value;
* `Trading.FillListener.processLive` — the live partial fills of an order;
* `Trading.fillsValue` — the value of the `Fill` records that were passed on.

Main results:

* `Trading.FillListener.findFilledQty_processLive` — what the listener remembers of the live fills;
* `Trading.reconciled_fills_carry_cost_iff` — when the value booked is the value reported.
-/

import TradingAlgo.Reconnect

set_option relaxedAutoImplicit false
set_option autoImplicit false

namespace Trading

/-! ### Executions -/

/-- An execution of a part of an order. -/
structure Execution where
  qty : ℤ
  price : ℚ
  deriving DecidableEq, Repr

/-- The executed quantity. -/
def qtyOf (executions : List Execution) : ℤ := (executions.map Execution.qty).sum

/-- The value of the executions. -/
def valueOf (executions : List Execution) : ℚ := (executions.map fun e => e.price * (e.qty : ℚ)).sum

/-- The message of a partial fill of the order `id`. -/
def Execution.event (e : Execution) (id symbol : List UInt8) (side : OrderSide) : FillEvent where
  symbol := CharArray.ofBytes 8 symbol
  side := side
  isPartial := true
  quantity := e.qty
  price := e.price
  alpacaOrderId := CharArray.ofBytes 48 id

/-- It is what `parseTradingUpdate` makes of a `partial_fill`. -/
theorem Execution.update_eq (e : Execution) (id symbol : List UInt8) (side : OrderSide) :
    (TradeMessage.execution true id symbol side e.qty e.price).update =
      .fill (e.event id symbol side) := rfl

/-- The value of a `Fill` record passed to `onFill`. -/
def fillValue : ListenerCall → ℚ
  | .onFill fill => fill.price * fill.quantity
  | _ => 0

/-- The sum of `price * quantity` over the `Fill` records passed to `onFill`. -/
def fillsValue (calls : List ListenerCall) : ℚ := (calls.map fillValue).sum

theorem fillsValue_append (calls calls' : List ListenerCall) :
    fillsValue (calls ++ calls') = fillsValue calls + fillsValue calls' := by
  simp [fillsValue]

namespace FillListener

/-! ### Live fills -/

/-- The live partial fills of an order, one after the other. -/
def processLive (id symbol : List UInt8) (side : OrderSide) :
    FillListener → List Execution → FillListener × List ListenerCall
  | l, [] => (l, [])
  | l, e :: live =>
      let r := l.processFillEvent (e.event id symbol side)
      let r' := processLive id symbol side r.1 live
      (r'.1, r.2 ++ r'.2)

section Live

variable (id symbol : List UInt8) (side : OrderSide)

/-- Every live fill is passed on at its own price. -/
theorem fillsValue_processLive (l : FillListener) (live : List Execution) :
    fillsValue (l.processLive id symbol side live).2 = valueOf live := by
  induction live generalizing l with
  | nil => rfl
  | cons e live ih =>
      have hone : fillsValue (l.processFillEvent (e.event id symbol side)).2 = e.price * e.qty := by
        simp only [processFillEvent, Execution.event]
        by_cases hview : (CharArray.ofBytes 48 id).view = [] <;>
          simp [hview, fillsValue, fillValue]
      simp only [processLive, fillsValue_append, hone, ih]
      simp [valueOf]

/-- An id that does not fit its buffer is looked up in vain. -/
theorem findFilledQty_of_not_isId {l : FillListener} {id : List UInt8} (hne : id ≠ [])
    (hid : ¬ IsId id) : l.findFilledQty id = 0 := by
  have hnone : BoundedMemo.find entryKey id l.filledEntries = none := by
    rw [BoundedMemo.find_eq_none_iff]
    intro hmem
    obtain ⟨entry, -, rfl⟩ := List.mem_map.1 hmem
    exact hid ⟨hne, entry.orderId.zero_notMem_view, entry.orderId.view_length_le⟩
  simp [findFilledQty, hnone]

/-- **What the listener remembers of the live fills**: their quantity, or nothing when the id does
not fit its buffer. -/
theorem findFilledQty_processLive {l : FillListener} (hnew : l.findFilledQty id = 0)
    (live : List Execution) :
    (l.processLive id symbol side live).1.findFilledQty id =
      if IsId id then qtyOf live else 0 := by
  by_cases hid : IsId id
  · rw [if_pos hid]
    -- with what was remembered before as a summand
    suffices h : ∀ l : FillListener, (l.processLive id symbol side live).1.findFilledQty id =
        l.findFilledQty id + qtyOf live by rw [h l, hnew, zero_add]
    induction live with
    | nil => intro l; simp [processLive, qtyOf]
    | cons e live ih =>
        intro l
        have hone : (l.processFillEvent (e.event id symbol side)).1.findFilledQty id =
            l.findFilledQty id + e.qty := by
          simp [processFillEvent, Execution.event, hid.view, hid.1,
            findFilledQty_upsertFilledQty_self _ hid]
        rw [processLive, ih, hone]
        simp only [qtyOf, List.map_cons, List.sum_cons]
        ring
  · rw [if_neg hid]
    by_cases hne : id = []
    · -- without an id nothing is remembered
      subst hne
      have hview : (CharArray.ofBytes 48 []).view = [] := by decide
      suffices h : ∀ l : FillListener, (l.processLive [] symbol side live).1 = l by
        rw [h l, hnew]
      induction live with
      | nil => intro l; rfl
      | cons e live ih =>
          intro l
          simp only [processLive, ih]
          simp [processFillEvent, Execution.event, hview]
    · exact findFilledQty_of_not_isId hne hid

end Live

/-! ### The rest -/

/-- A reconciliation books what the listener does not remember, at the reported average. -/
theorem fillsValue_reconcileFill (l : FillListener) (o : AlpacaOrderStatus) (side : OrderSide) :
    fillsValue (l.reconcileFill o side).2 =
      o.filledAvgPrice * (max 0 (o.filledQty - l.findFilledQty o.id) : ℤ) := by
  unfold reconcileFill
  simp only
  split_ifs with hnone hfilled
  · rw [max_eq_left hnone]
    simp [fillsValue]
  · rw [max_eq_right (by omega)]
    simp [fillsValue, fillValue, missedFill]
  · rw [max_eq_right (by omega)]
    simp [fillsValue, fillValue, missedFill]

theorem fillsValue_reconcileCancel (l : FillListener) (o : AlpacaOrderStatus) (side : OrderSide) :
    fillsValue (l.reconcileCancel o side).2 =
      o.filledAvgPrice * (max 0 (o.filledQty - l.findFilledQty o.id) : ℤ) := by
  -- the release of the rest and the completion are worth nothing
  have hrelease : ∀ order : Order,
      fillsValue
        (if 0 < max 0 (o.qty - o.filledQty) then [.onOrderCancelled order] else []) = 0 := by
    intro order
    split_ifs <;> simp [fillsValue, fillValue]
  simp only [reconcileCancel, fillsValue_append, hrelease]
  split_ifs with hmissed
  · rw [max_eq_right hmissed.le]
    simp [fillsValue, fillValue, missedFill]
  · rw [max_eq_left (by omega)]
    simp [fillsValue, fillValue]

end FillListener

/-- What the listener counts as booked of the live fills: their quantity, but nothing when the id
of the order does not fit its buffer. -/
def alreadyFilled (o : AlpacaOrderStatus) (live : List Execution) : ℤ :=
  if FillListener.IsId o.id then qtyOf live else 0

/-- With what was counted as booked taken off, the rest at the average makes up the total exactly
when the live fills have that average. -/
theorem booked_eq_reported_iff (live avg : ℚ) (counted filledQty : ℤ) :
    live + avg * (max 0 (filledQty - counted) : ℤ) = filledQty * avg ↔
      live = avg * (min counted filledQty : ℤ) := by
  have hsplit : ((max 0 (filledQty - counted) : ℤ) : ℚ) =
      filledQty - (min counted filledQty : ℤ) := by
    have : max 0 (filledQty - counted) = filledQty - min counted filledQty := by omega
    rw [this]
    push_cast
    ring
  rw [hsplit]
  constructor
  · intro h
    linarith
  · intro h
    rw [h]
    ring

/-- **When reconciled fills carry the right cost.**  An order of which the listener knows nothing is
filled live in part, and then a report with a larger quantity is reconciled, as filled or as
cancelled.  The `Fill` records for the order are worth the reported quantity at the reported average
exactly when the live fills are worth their own quantity at this average. -/
theorem reconciled_fills_carry_cost_iff (l : FillListener) (o : AlpacaOrderStatus)
    (side : OrderSide) (live : List Execution) (hnew : l.findFilledQty o.id = 0) :
    let r := l.processLive o.id o.symbol side live
    (fillsValue (r.2 ++ (r.1.reconcileFill o side).2) = o.filledQty * o.filledAvgPrice ↔
      valueOf live = o.filledAvgPrice * (min (alreadyFilled o live) o.filledQty : ℤ)) ∧
    (fillsValue (r.2 ++ (r.1.reconcileCancel o side).2) = o.filledQty * o.filledAvgPrice ↔
      valueOf live = o.filledAvgPrice * (min (alreadyFilled o live) o.filledQty : ℤ)) := by
  intro r
  have hlive : fillsValue r.2 = valueOf live := FillListener.fillsValue_processLive _ _ _ _ _
  have hcounted : r.1.findFilledQty o.id = alreadyFilled o live :=
    FillListener.findFilledQty_processLive _ _ _ hnew live
  rw [fillsValue_append, fillsValue_append, FillListener.fillsValue_reconcileFill,
    FillListener.fillsValue_reconcileCancel, hlive, hcounted]
  exact ⟨booked_eq_reported_iff _ _ _ _, booked_eq_reported_iff _ _ _ _⟩

/-- An order of 100 shares as the broker reports it, 60 of them filled live. -/
def partialOrder (filledAvgPrice : ℚ) : AlpacaOrderStatus where
  id := [49]
  symbol := [65, 65, 80, 76]
  side := "buy"
  status := "filled"
  qty := 100
  filledQty := 100
  filledAvgPrice := filledAvgPrice

/-- All 100 shares at 150. -/
theorem reconciled_cost_of_one_price :
    let r := FillListener.processLive [49] [65, 65, 80, 76] .buy {} [⟨60, 150⟩]
    fillsValue (r.2 ++ (r.1.reconcileFill (partialOrder 150) .buy).2) = 100 * 150 :=
  (reconciled_fills_carry_cost_iff {} (partialOrder 150) .buy [⟨60, 150⟩] rfl).1.2
    (by decide +kernel)

/-- 60 shares at 150.00 live, and 40 at 151.00 that are missed: the average is 150.40, and the 40
are booked at it. -/
theorem reconciled_cost_of_two_prices :
    let live : List Execution := [⟨60, 150⟩]
    let missed : List Execution := [⟨40, 151⟩]
    let o := partialOrder (1504 / 10)
    let r := FillListener.processLive o.id o.symbol .buy {} live
    qtyOf live < o.filledQty ∧ o.filledQty = qtyOf (live ++ missed) ∧
      o.filledQty * o.filledAvgPrice = valueOf (live ++ missed) ∧
      fillsValue (r.2 ++ (r.1.reconcileFill o .buy).2) ≠ o.filledQty * o.filledAvgPrice ∧
      fillsValue (r.2 ++ (r.1.reconcileCancel o .buy).2) ≠ o.filledQty * o.filledAvgPrice := by
  decide +kernel

end Trading
