/-
**The fill listener.**

`src/AlpacaFillListener.cpp` turns the broker's messages into calls of the position manager.  It
remembers, for at most 4096 orders each, how much of an order it has booked and which orders are
done, so that after a reconnect it can ask the broker for all orders of the session and book only
what it missed.

The functions below return the listener's new state together with the calls that it made of the
other components, in order; a component that is not there is one that ignores its calls.  The two
memories are instances of `BoundedMemo`, with the id up to its first NUL as the key.

Main definitions:

* `Trading.FillEvent`, `Trading.CancelEvent`, `Trading.TradeMessage` — the messages;
* `Trading.FillListener` — the state, with `findFilledQty`, `upsertFilledQty`, `isCompleted` and
  `markCompleted`;
* `Trading.FillListener.processFillEvent`, `processCancelEvent` — live messages;
* `Trading.FillListener.reconcileFill`, `reconcileCancel`, `reconcileOrder`, `reconcilePage`,
  `reconcileAfterReconnect` — the orders that the broker reports after a reconnect.

Main results:

* `Trading.FillListener.findFilledQty_upsertFilledQty`, `isCompleted_markCompleted` — the memories
  while there is room in them;
* `Trading.FillListener.reconcileOrder_cases` — everything that a reported order can lead to.
-/

import TradingAlgo.BoundedMemo
import TradingAlgo.OrderGateway

set_option relaxedAutoImplicit false
set_option autoImplicit false

namespace Trading

/-! ### Messages -/

/-- `struct FillEvent`. -/
structure FillEvent where
  symbol : CharArray 8
  side : OrderSide
  isPartial : Bool
  quantity : ℤ
  price : ℚ
  alpacaOrderId : CharArray 48
  deriving DecidableEq, Repr

/-- `struct CancelEvent`. -/
structure CancelEvent where
  symbol : CharArray 8
  side : OrderSide
  quantity : ℤ
  alpacaOrderId : CharArray 48
  deriving DecidableEq, Repr

/-- `TradeUpdate`, the variant that `parseTradingUpdate` returns. -/
inductive TradeUpdate
  | none
  | fill (event : FillEvent)
  | cancel (event : CancelEvent)
  deriving DecidableEq, Repr

/-- A message of the `trade_updates` stream, by the fields that are read of it: `partial_fill` and
`fill` with the executed quantity, `canceled`, `expired` and `rejected` with the order's quantity
and what was executed of it. -/
inductive TradeMessage
  | execution (isPartial : Bool) (orderId symbol : List UInt8) (side : OrderSide) (qty : ℤ)
      (price : ℚ)
  | ended (orderId symbol : List UInt8) (side : OrderSide) (qty filledQty : ℤ)
  deriving DecidableEq, Repr

/-- What `parseTradingUpdate` makes of a message. -/
def TradeMessage.update : TradeMessage → TradeUpdate
  | .execution isPartial orderId symbol side qty price =>
      .fill
        { symbol := CharArray.ofBytes 8 symbol
          side := side
          isPartial := isPartial
          quantity := qty
          price := price
          alpacaOrderId := CharArray.ofBytes 48 orderId }
  | .ended orderId symbol side qty filledQty =>
      .cancel
        { symbol := CharArray.ofBytes 8 symbol
          side := side
          quantity := max 0 (qty - filledQty)
          alpacaOrderId := CharArray.ofBytes 48 orderId }

/-- `struct AlpacaOrderStatus`: an order as the broker reports it. -/
structure AlpacaOrderStatus where
  id : List UInt8
  symbol : List UInt8
  side : String
  status : String
  createdAt : List UInt8 := []
  qty : ℤ := 0
  filledQty : ℤ := 0
  filledAvgPrice : ℚ := 0
  deriving DecidableEq, Repr

/-- `parseSide`. -/
def parseSide (side : String) : Option OrderSide :=
  if side = "buy" then some .buy else if side = "sell" then some .sell else none

/-! ### The listener -/

/-- The calls that the listener makes: of the position manager, the pending order tracker and the
latency tracker. -/
inductive ListenerCall
  | onFill (fill : Fill)
  | onOrderCancelled (order : Order)
  | onOrderCompleted (slot : OrderSlotKey) (alpacaOrderId : List UInt8)
  | recordFillReceived (alpacaOrderId : List UInt8)
  deriving DecidableEq, Repr

/-- A call as the position manager sees it. -/
def PositionManager.receive (pm : PositionManager) : ListenerCall → PositionManager
  | .onFill fill => pm.onFill fill
  | .onOrderCancelled order => pm.onOrderCancelled order
  | _ => pm

/-- `FilledEntry`. -/
structure FilledEntry where
  orderId : CharArray 48
  filledQty : ℤ := 0
  deriving DecidableEq, Repr

/-- The two memories of the listener. -/
structure FillListener where
  filledEntries : List FilledEntry := []
  /-- `completed_entries_`, each entry an id. -/
  completedEntries : List (CharArray 48) := []
  deriving DecidableEq, Repr

namespace FillListener

open BoundedMemo

/-- `kMaxTrackedOrders`. -/
def kMaxTrackedOrders : ℕ := 4096

/-- The id of an entry, as it is compared. -/
def entryKey (entry : FilledEntry) : List UInt8 := entry.orderId.view

/-- `findFilledQty`. -/
def findFilledQty (l : FillListener) (orderId : List UInt8) : ℤ :=
  match find entryKey orderId l.filledEntries with
  | some entry => entry.filledQty
  | none => 0

/-- `upsertFilledQty`. -/
def upsertFilledQty (l : FillListener) (orderId : List UInt8) (qty : ℤ) : FillListener :=
  { l with
    filledEntries :=
      upsert entryKey kMaxTrackedOrders orderId (fun entry => { entry with filledQty := qty })
        { orderId := CharArray.ofBytes 48 orderId, filledQty := qty } l.filledEntries }

/-- `isCompleted`. -/
def isCompleted (l : FillListener) (orderId : List UInt8) : Bool :=
  l.completedEntries.any fun entry => entry.view = orderId

/-- `markCompleted`. -/
def markCompleted (l : FillListener) (orderId : List UInt8) : FillListener :=
  if l.isCompleted orderId then l
  else
    { l with
      completedEntries :=
        push kMaxTrackedOrders l.completedEntries (CharArray.ofBytes 48 orderId) }

/-- `processFillEvent`. -/
def processFillEvent (l : FillListener) (fillEvent : FillEvent) :
    FillListener × List ListenerCall :=
  let fill : Fill :=
    { symbol := fillEvent.symbol
      side := fillEvent.side
      quantity := fillEvent.quantity
      price := fillEvent.price }
  let orderId := fillEvent.alpacaOrderId.view
  -- the fill is passed on whatever the memories hold of the order
  let l' :=
    if orderId ≠ [] then
      let l := l.upsertFilledQty orderId (l.findFilledQty orderId + fillEvent.quantity)
      if fillEvent.isPartial then l else l.markCompleted orderId
    else l
  (l', [.onFill fill] ++ (if orderId ≠ [] then [.recordFillReceived orderId] else []) ++
    (if fillEvent.isPartial then []
    else [.onOrderCompleted ⟨fillEvent.symbol, fillEvent.side⟩ orderId]))

/-- `processCancelEvent`. -/
def processCancelEvent (l : FillListener) (cancelEvent : CancelEvent) :
    FillListener × List ListenerCall :=
  let order : Order :=
    { symbol := cancelEvent.symbol, quantity := cancelEvent.quantity, side := cancelEvent.side }
  let orderId := cancelEvent.alpacaOrderId.view
  (if orderId ≠ [] then l.markCompleted orderId else l,
    [.onOrderCancelled order, .onOrderCompleted ⟨cancelEvent.symbol, cancelEvent.side⟩ orderId])

/-- The dispatch in `handleTradeUpdate`. -/
def handleTradeUpdate (l : FillListener) : TradeUpdate → FillListener × List ListenerCall
  | .none => (l, [])
  | .fill event => l.processFillEvent event
  | .cancel event => l.processCancelEvent event

/-! ### Reconciliation -/

/-- The fill that stands for the executions that were missed. -/
def missedFill (alpacaOrder : AlpacaOrderStatus) (side : OrderSide) (quantity : ℤ) : Fill :=
  { symbol := CharArray.ofBytes 8 alpacaOrder.symbol
    side := side
    quantity := quantity
    price := alpacaOrder.filledAvgPrice }

/-- `reconcileFill`, without the count that is only logged. -/
def reconcileFill (l : FillListener) (alpacaOrder : AlpacaOrderStatus) (side : OrderSide) :
    FillListener × List ListenerCall :=
  let alreadyFilled := l.findFilledQty alpacaOrder.id
  let remaining := alpacaOrder.filledQty - alreadyFilled
  if remaining ≤ 0 then (l, [])
  else
    let l := l.upsertFilledQty alpacaOrder.id alpacaOrder.filledQty
    let fill := ListenerCall.onFill (missedFill alpacaOrder side remaining)
    if alpacaOrder.status = "filled" then
      (l.markCompleted alpacaOrder.id,
        [fill, .onOrderCompleted ⟨CharArray.ofBytes 8 alpacaOrder.symbol, side⟩ alpacaOrder.id])
    else (l, [fill])

/-- `reconcileCancel`. -/
def reconcileCancel (l : FillListener) (alpacaOrder : AlpacaOrderStatus) (side : OrderSide) :
    FillListener × List ListenerCall :=
  let alreadyFilled := l.findFilledQty alpacaOrder.id
  let missedFills := alpacaOrder.filledQty - alreadyFilled
  let unfilled := max 0 (alpacaOrder.qty - alpacaOrder.filledQty)
  -- the order is marked as completed also when there was nothing to book
  let l :=
    if 0 < missedFills then l.upsertFilledQty alpacaOrder.id alpacaOrder.filledQty else l
  (l.markCompleted alpacaOrder.id,
    (if 0 < missedFills then [.onFill (missedFill alpacaOrder side missedFills)] else []) ++
    (if 0 < unfilled then
      [.onOrderCancelled
        { symbol := CharArray.ofBytes 8 alpacaOrder.symbol, quantity := unfilled, side := side }]
    else []) ++
    [.onOrderCompleted ⟨CharArray.ofBytes 8 alpacaOrder.symbol, side⟩ alpacaOrder.id])

/-- The statuses that lead to `reconcileFill`. -/
def isFillStatus (status : String) : Prop := status = "filled" ∨ status = "partially_filled"

/-- The statuses that lead to `reconcileCancel`. -/
def isCancelStatus (status : String) : Prop :=
  status = "canceled" ∨ status = "expired" ∨ status = "rejected"

instance (status : String) : Decidable (isFillStatus status) :=
  inferInstanceAs (Decidable (_ ∨ _))

instance (status : String) : Decidable (isCancelStatus status) :=
  inferInstanceAs (Decidable (_ ∨ _ ∨ _))

/-- One round of the loop over a page in `reconcileAfterReconnect`. -/
def reconcileOrder (l : FillListener) (alpacaOrder : AlpacaOrderStatus) :
    FillListener × List ListenerCall :=
  if alpacaOrder.id = [] ∨ l.isCompleted alpacaOrder.id then (l, [])
  else
    match parseSide alpacaOrder.side with
    | none => (l, [])
    | some side =>
        if isFillStatus alpacaOrder.status then l.reconcileFill alpacaOrder side
        else if isCancelStatus alpacaOrder.status then l.reconcileCancel alpacaOrder side
        else (l, [])

/-- The loop over a page. -/
def reconcilePage : FillListener → List AlpacaOrderStatus → FillListener × List ListenerCall
  | l, [] => (l, [])
  | l, alpacaOrder :: page =>
      let r := l.reconcileOrder alpacaOrder
      let r' := reconcilePage r.1 page
      (r'.1, r.2 ++ r'.2)

/-- `kPageSize`. -/
def kPageSize : ℕ := 500

/-- The cursor for the next page, if there is to be one: the creation time of the last order of a
full page. -/
def nextCursor (page : List AlpacaOrderStatus) : Option (List UInt8) :=
  if page.length < kPageSize then none
  else
    match page.getLast? with
    | none => none
    | some alpacaOrder => if alpacaOrder.createdAt = [] then none else some alpacaOrder.createdAt

/-- An id that is stored as it is: NUL-free and of at most 48 bytes. -/
def IsId (id : List UInt8) : Prop := id ≠ [] ∧ (0 : UInt8) ∉ id ∧ id.length ≤ 48

instance (id : List UInt8) : Decidable (IsId id) := inferInstanceAs (Decidable (_ ∧ _ ∧ _))

theorem IsId.view {id : List UInt8} (h : IsId id) : (CharArray.ofBytes 48 id).view = id :=
  CharArray.view_ofBytes h.2.1 h.2.2

theorem IsId.entryKey_mk {id : List UInt8} (h : IsId id) (qty : ℤ) :
    entryKey ⟨CharArray.ofBytes 48 id, qty⟩ = id := h.view

theorem entryKey_with (qty : ℤ) (entry : FilledEntry) :
    entryKey { entry with filledQty := qty } = entryKey entry := rfl

@[simp] theorem findFilledQty_markCompleted (l : FillListener) (id id' : List UInt8) :
    (l.markCompleted id).findFilledQty id' = l.findFilledQty id' := by
  unfold markCompleted findFilledQty
  split_ifs <;> rfl

@[simp] theorem filledEntries_markCompleted (l : FillListener) (id : List UInt8) :
    (l.markCompleted id).filledEntries = l.filledEntries := by
  unfold markCompleted
  split_ifs <;> rfl

@[simp] theorem isCompleted_upsertFilledQty (l : FillListener) (id id' : List UInt8) (qty : ℤ) :
    (l.upsertFilledQty id qty).isCompleted id' = l.isCompleted id' := rfl

@[simp] theorem completedEntries_upsertFilledQty (l : FillListener) (id : List UInt8) (qty : ℤ) :
    (l.upsertFilledQty id qty).completedEntries = l.completedEntries := rfl

theorem isCompleted_iff {l : FillListener} {id : List UInt8} :
    l.isCompleted id = true ↔ id ∈ l.completedEntries.map CharArray.view := by
  simp [isCompleted]

/-- `markCompleted` is an update that leaves an entry as it is. -/
theorem completedEntries_markCompleted (l : FillListener) (id : List UInt8) :
    (l.markCompleted id).completedEntries =
      upsert CharArray.view kMaxTrackedOrders id (fun entry => entry) (CharArray.ofBytes 48 id)
        l.completedEntries := by
  unfold markCompleted upsert
  by_cases hc : l.isCompleted id = true
  · rw [if_pos hc, if_pos (isCompleted_iff.1 hc), modifyFirst_id]
  · rw [if_neg hc, if_neg (fun h => hc (isCompleted_iff.2 h))]

/-- A quantity is found again, whether there was room for it or an entry had to go. -/
theorem findFilledQty_upsertFilledQty_self (l : FillListener) {id : List UInt8} (hid : IsId id)
    (qty : ℤ) : (l.upsertFilledQty id qty).findFilledQty id = qty := by
  unfold findFilledQty FillListener.upsertFilledQty
  rw [find_upsert_self entryKey (entryKey_with qty) (hid.entryKey_mk qty)]
  cases find entryKey id l.filledEntries <;> rfl

/-- Both memories have room for all of `ids`. -/
structure Fits (ids : List (List UInt8)) (l : FillListener) : Prop where
  filled : Capacity entryKey kMaxTrackedOrders ids l.filledEntries
  completed : Capacity CharArray.view kMaxTrackedOrders ids l.completedEntries

section Fits

variable {ids : List (List UInt8)} {l : FillListener} {id : List UInt8}

theorem Fits.upsertFilledQty (h : Fits ids l) (hmem : id ∈ ids) (hid : IsId id) (qty : ℤ) :
    Fits ids (l.upsertFilledQty id qty) :=
  ⟨h.filled.upsert entryKey hmem (entryKey_with qty) (hid.entryKey_mk qty), h.completed⟩

theorem Fits.markCompleted (h : Fits ids l) (hmem : id ∈ ids) (hid : IsId id) :
    Fits ids (l.markCompleted id) := by
  refine ⟨by rw [filledEntries_markCompleted]; exact h.filled, ?_⟩
  rw [completedEntries_markCompleted]
  exact h.completed.upsert CharArray.view hmem (fun _ => rfl) hid.view

/-- The quantity is found again, and no other one changes. -/
theorem findFilledQty_upsertFilledQty (h : Fits ids l) (hmem : id ∈ ids) (hid : IsId id) (qty : ℤ)
    (id' : List UInt8) :
    (l.upsertFilledQty id qty).findFilledQty id' =
      if id' = id then qty else l.findFilledQty id' := by
  split_ifs with heq
  · rw [heq, l.findFilledQty_upsertFilledQty_self hid]
  · have hroom := h.filled.room entryKey hmem
    unfold findFilledQty FillListener.upsertFilledQty
    rw [find_upsert_of_ne entryKey hroom (entryKey_with qty) (hid.entryKey_mk qty) heq]

/-- The order is completed, and no other one is. -/
theorem isCompleted_markCompleted (h : Fits ids l) (hmem : id ∈ ids) (hid : IsId id)
    (id' : List UInt8) :
    (l.markCompleted id).isCompleted id' = true ↔ id' = id ∨ l.isCompleted id' = true := by
  rw [isCompleted_iff, isCompleted_iff, completedEntries_markCompleted,
    keys_upsert CharArray.view (h.completed.room CharArray.view hmem) (fun _ => rfl) hid.view]
  split_ifs with hk
  · constructor
    · exact Or.inr
    · rintro (rfl | h')
      · exact hk
      · exact h'
  · rw [List.mem_append, List.mem_singleton, or_comm]

end Fits

/-! ### What a report leads to -/

/-- There is nothing to do for a reported order: it has no id, it is done, its side or its status is
not one of those that are handled, or all of its executions are booked. -/
def Settled (l : FillListener) (o : AlpacaOrderStatus) : Prop :=
  o.id = [] ∨ l.isCompleted o.id = true ∨ parseSide o.side = none ∨
    (isFillStatus o.status ∧ o.filledQty ≤ l.findFilledQty o.id) ∨
    (¬ isFillStatus o.status ∧ ¬ isCancelStatus o.status)

theorem reconcileOrder_of_settled {l : FillListener} {o : AlpacaOrderStatus} (h : Settled l o) :
    l.reconcileOrder o = (l, []) := by
  unfold reconcileOrder
  rcases h with h | h | h | ⟨hfill, hle⟩ | ⟨hfill, hcancel⟩
  · rw [if_pos (Or.inl h)]
  · rw [if_pos (Or.inr h)]
  · simp [h]
  · -- `reconcileFill` is reached and finds nothing that remains
    split_ifs
    · rfl
    · cases parseSide o.side with
      | none => rfl
      | some side => simp [reconcileFill, hle]
  · split_ifs
    · rfl
    · cases parseSide o.side with
      | none => rfl
      | some side => rfl

/-- **Everything that a reported order can lead to**: nothing, the fill of what was missed, or that
fill and the release of the rest. -/
theorem reconcileOrder_cases (l : FillListener) (o : AlpacaOrderStatus) :
    (Settled l o ∧ l.reconcileOrder o = (l, [])) ∨
    (∃ side, o.id ≠ [] ∧ l.isCompleted o.id = false ∧ parseSide o.side = some side ∧
      isFillStatus o.status ∧ l.findFilledQty o.id < o.filledQty ∧
      l.reconcileOrder o = l.reconcileFill o side) ∨
    (∃ side, o.id ≠ [] ∧ l.isCompleted o.id = false ∧ parseSide o.side = some side ∧
      ¬ isFillStatus o.status ∧ isCancelStatus o.status ∧
      l.reconcileOrder o = l.reconcileCancel o side) := by
  by_cases hsettled : Settled l o
  · exact Or.inl ⟨hsettled, reconcileOrder_of_settled hsettled⟩
  · right
    simp only [Settled, not_or, not_and, not_le, not_not, Bool.not_eq_true] at hsettled
    obtain ⟨hid, hc, hside, hmissed, hstatus⟩ := hsettled
    obtain ⟨side, hside⟩ := Option.ne_none_iff_exists'.1 hside
    by_cases hfill : isFillStatus o.status
    · refine Or.inl ⟨side, hid, hc, hside, hfill, hmissed hfill, ?_⟩
      simp [reconcileOrder, hid, hc, hside, hfill]
    · refine Or.inr ⟨side, hid, hc, hside, hfill, hstatus hfill, ?_⟩
      simp [reconcileOrder, hid, hc, hside, hfill, hstatus hfill]

end FillListener

end Trading
