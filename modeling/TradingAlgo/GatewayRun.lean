/-
**A whole run of the order gateway.**

`OrderGateway::run` takes the orders out of the queue in two loops, first with `wait_and_pop` and,
once the engine stops, with `try_pop`; both give an order the next number and pass it to
`executeOrder`.  An order that the risk manager approved is reserved in the position manager, and it
is the gateway that has to release it when it is not placed: once, whichever way it fails.

Main definitions:

* `Trading.Replies` — what the two requests for an order come to;
* `Trading.Handled` — an order as it was handled, with the requests that were made for it;
* `Trading.Gateway.run` — the two loops.

Main results:

* `Trading.Gateway.executeOrder_effect` — everything `executeOrder` requests and releases;
* `Trading.PositionManager.countersOf_foldl_onOrderCancelled` — what releases do to the counters;
* `Trading.run_releases_what_it_does_not_place` — the run as a whole.
-/

import TradingAlgo.OrderGateway
import TradingAlgo.Shutdown

set_option relaxedAutoImplicit false
set_option autoImplicit false

namespace Trading

/-! ### The run -/

/-- What the two requests for an order come to, when they are made. -/
structure Replies where
  cancel : Outcome Unit
  place : Outcome OrderAck
  deriving DecidableEq, Repr

/-- The orders of the `placeOrder` calls among the requests. -/
def placements (requests : List Request) : List Order :=
  requests.filterMap fun request =>
    match request with
    | .placeOrder order => some order
    | .cancelOrder _ => none

/-- The request returned a result. -/
def Outcome.isSuccess {α : Type} : Outcome α → Bool
  | .success _ => true
  | _ => false

/-- An order as it was handled: with its number, the requests that were made for it, and what a
placement comes to. -/
structure Handled where
  order : Order
  requests : List Request
  placeReply : Outcome OrderAck
  deriving DecidableEq, Repr

/-- `placeOrder` was called for the order and succeeded. -/
def Handled.placed (h : Handled) : Bool := h.order ∈ placements h.requests ∧ h.placeReply.isSuccess

namespace Gateway

/-- The gateway in the middle of `run`. -/
structure Run where
  gateway : Gateway
  orderIdCounter : UInt64 := 0
  handled : List Handled := []

/-- The body that the two loops share. -/
def handle (r : Run) (x : Order × Replies) : Run :=
  let counter := r.orderIdCounter + 1
  let order := { x.1 with id := counter }
  let g := r.gateway.executeOrder order x.2.cancel x.2.place
  { gateway := g
    orderIdCounter := counter
    handled := r.handled ++ [⟨order, g.requests.drop r.gateway.requests.length, x.2.place⟩] }

/-- `run` on the orders in the queue: `wait_and_pop` takes the first `k` of them and `try_pop` the
others.  Without concurrent pushes the first loop does not end before the queue is empty, but
nothing below depends on it. -/
def run (g : Gateway) (queue : List (Order × Replies)) (k : ℕ) : Run :=
  let r := (queue.take k).foldl handle { gateway := g }
  (queue.drop k).foldl handle r

theorem run_eq (g : Gateway) (queue : List (Order × Replies)) (k : ℕ) :
    g.run queue k = queue.foldl handle { gateway := g } := by
  rw [run, ← List.foldl_append, List.take_append_drop]

/-! ### One order -/

/-- What a placement requests and releases. -/
theorem place_effect (g : Gateway) (order : Order) (reply : Outcome OrderAck) :
    (g.place order reply).requests = g.requests ++ [.placeOrder order] ∧
      (g.place order reply).positionManager =
        if reply.isSuccess then g.positionManager
        else g.positionManager.onOrderCancelled order := by
  cases reply <;> exact ⟨rfl, rfl⟩

/-- **Everything `executeOrder` requests and releases**: `placeOrder` is called at most once, and
for this order; unless it was called and succeeded, the order is released, once. -/
theorem executeOrder_effect (g : Gateway) (order : Order) (cancelReply : Outcome Unit)
    (placeReply : Outcome OrderAck) :
    ∃ requests,
      (g.executeOrder order cancelReply placeReply).requests = g.requests ++ requests ∧
      (placements requests = [] ∨ placements requests = [order]) ∧
      (g.executeOrder order cancelReply placeReply).positionManager =
        if order ∈ placements requests ∧ placeReply.isSuccess then g.positionManager
        else g.positionManager.onOrderCancelled order := by
  unfold executeOrder
  cases g.existingOrder order with
  | none =>
      obtain ⟨hreq, hpm⟩ := g.place_effect order placeReply
      exact ⟨_, hreq, Or.inr rfl, by simpa [placements] using hpm⟩
  | some prevId =>
      by_cases hacc : cancelReply.cancelAccepted = true
      · simp only [hacc, if_true]
        obtain ⟨hreq, hpm⟩ := place_effect
          { g with requests := g.requests ++ [.cancelOrder prevId.view] } order placeReply
        refine ⟨[.cancelOrder prevId.view, .placeOrder order], ?_, Or.inr rfl, ?_⟩
        · rw [hreq, List.append_assoc]
          rfl
        · simpa [placements] using hpm
      · simp only [hacc]
        exact ⟨[.cancelOrder prevId.view], rfl, Or.inl rfl, rfl⟩

/-! ### All orders -/

/-- The orders that were handled and not placed. -/
def unplaced (handled : List Handled) : List Order :=
  (handled.filter fun h => !h.placed).map Handled.order

/-- What holds after the orders of a queue, in terms of what was done for each of them. -/
structure RunInv (g : Gateway) (queue : List Order) (r : Run) : Prop where
  counter : r.orderIdCounter = UInt64.ofNat queue.length
  numbered : r.handled.map Handled.order = Stopping.numbered queue
  requests : r.gateway.requests = g.requests ++ r.handled.flatMap Handled.requests
  once : ∀ h ∈ r.handled, placements h.requests = [] ∨ placements h.requests = [h.order]
  released : r.gateway.positionManager =
    (unplaced r.handled).foldl PositionManager.onOrderCancelled g.positionManager

theorem runInv_init (g : Gateway) : RunInv g [] { gateway := g } where
  counter := rfl
  numbered := rfl
  requests := by simp
  once := by simp
  released := rfl

/-- What is added for one more order: it is numbered, and released unless it was placed. -/
theorem handle_eq (r : Run) (x : Order × Replies) :
    ∃ h : Handled, h.order = { x.1 with id := r.orderIdCounter + 1 } ∧
      (placements h.requests = [] ∨ placements h.requests = [h.order]) ∧
      (handle r x).orderIdCounter = r.orderIdCounter + 1 ∧
      (handle r x).handled = r.handled ++ [h] ∧
      (handle r x).gateway.requests = r.gateway.requests ++ h.requests ∧
      (handle r x).gateway.positionManager =
        if h.placed then r.gateway.positionManager
        else r.gateway.positionManager.onOrderCancelled h.order := by
  obtain ⟨order, horder⟩ : ∃ order : Order, order = { x.1 with id := r.orderIdCounter + 1 } :=
    ⟨_, rfl⟩
  obtain ⟨requests, hreq, honce, hpm⟩ :=
    r.gateway.executeOrder_effect order x.2.cancel x.2.place
  have hdrop : (r.gateway.executeOrder order x.2.cancel x.2.place).requests.drop
      r.gateway.requests.length = requests := by
    rw [hreq, List.drop_left]
  refine ⟨⟨order, requests, x.2.place⟩, horder, honce, rfl, ?_, ?_, ?_⟩
  · simp only [handle, ← horder, hdrop]
  · simp only [handle, ← horder, hreq]
  · simp only [handle, ← horder, hpm, Handled.placed, decide_eq_true_eq]

/-- One more order. -/
theorem RunInv.handle {g : Gateway} {queue : List Order} {r : Run} (h : RunInv g queue r)
    (x : Order × Replies) : RunInv g (queue ++ [x.1]) (Gateway.handle r x) := by
  obtain ⟨y, hy, honce, hcounter, hhandled, hreq, hpm⟩ := handle_eq r x
  have hid : r.orderIdCounter + 1 = UInt64.ofNat (queue.length + 1) := by
    rw [h.counter, UInt64.ofNat_add]
    rfl
  refine ⟨?_, ?_, ?_, ?_, ?_⟩
  · rw [hcounter, hid, List.length_append, List.length_singleton]
  · rw [hhandled, List.map_append, h.numbered, List.map_singleton, hy, hid,
      Stopping.numbered_concat]
  · rw [hreq, hhandled, h.requests, List.flatMap_append, List.append_assoc]
    simp
  · intro z hz
    rw [hhandled, List.mem_append, List.mem_singleton] at hz
    rcases hz with hz | rfl
    · exact h.once z hz
    · exact honce
  · -- the last order is among the unplaced ones exactly when it is released
    rw [hpm, hhandled, unplaced, List.filter_append, List.map_append, List.foldl_append, h.released,
      unplaced]
    cases hplaced : y.placed <;> simp [hplaced]

/-- **After any orders.** -/
theorem runInv_foldl (g : Gateway) (queue : List (Order × Replies)) :
    RunInv g (queue.map Prod.fst) (queue.foldl Gateway.handle { gateway := g }) := by
  induction queue using List.reverseRecOn with
  | nil => exact runInv_init g
  | append_singleton queue x ih =>
      rw [List.foldl_append, List.map_append]
      exact ih.handle x

end Gateway

/-! ### What releases do to the counters -/

/-- The sum of the signed quantities of the orders with a key. -/
def signedQty (orders : List Order) (k : UInt64) : ℤ :=
  ((orders.filter fun order => symbolBufferToKey order.symbol = k).map fun order =>
    order.side.signed order.quantity).sum

namespace PositionManager

theorem find_modify (pm : PositionManager) (j : Fin kMaxSymbols) (f : Counters → Counters)
    (k : UInt64) : (pm.modify j f).find k = pm.find k := by
  rw [find_eq, find_eq, keys_modify]

theorem find_onOrderCancelled (pm : PositionManager) (order : Order) (k : UInt64) :
    (pm.onOrderCancelled order).find k = pm.find k := by
  unfold onOrderCancelled
  split
  · rfl
  · exact find_modify _ _ _ _

/-- A getter after the counters of one slot have changed. -/
theorem read_modify (pm : PositionManager) (j : Fin kMaxSymbols) (f : Counters → Counters)
    (symbol : List UInt8) (field : Counters → ℤ) :
    (pm.modify j f).read symbol field =
      if pm.find (symbolToKey symbol) = some j then field (f (pm.table j).counters)
      else pm.read symbol field := by
  rw [read, read, find_modify]
  cases pm.find (symbolToKey symbol) with
  | none => simp
  | some i =>
      simp only [counters_modify, Option.some_inj]
      split <;> rfl

/-- A release takes the order off the pending quantity of its symbol and changes nothing else. -/
theorem countersOf_onOrderCancelled {pm : PositionManager} {order : Order}
    (hpresent : (pm.find (symbolBufferToKey order.symbol)).isSome) (symbol : List UInt8) :
    (pm.onOrderCancelled order).countersOf symbol =
      { pm.countersOf symbol with
        pending := (pm.countersOf symbol).pending - signedQty [order] (symbolToKey symbol) } := by
  obtain ⟨j, hj⟩ := Option.isSome_iff_exists.1 hpresent
  have hstep : pm.onOrderCancelled order = pm.modify j order.cancelled := by
    rw [onOrderCancelled, findMutable_eq_find, hj]
  -- two keys are in two slots
  have hslot : pm.find (symbolToKey symbol) = some j ↔
      symbolBufferToKey order.symbol = symbolToKey symbol := by
    constructor
    · intro h
      exact (find_some hj).symm.trans (find_some h)
    · intro h
      rw [← h, hj]
  rw [hstep]
  simp only [countersOf, getFilledPosition, getPendingPosition, getCostBasis, getRealizedPnl,
    read_modify, hslot]
  by_cases hkey : symbolBufferToKey order.symbol = symbolToKey symbol
  · have hread : ∀ field : Counters → ℤ, pm.read symbol field = field (pm.table j).counters := by
      intro field
      rw [read, hslot.2 hkey]
    simp [hkey, hread, Order.cancelled, signedQty]
  · simp [hkey, signedQty]

/-- **What releases do to the counters.** -/
theorem countersOf_foldl_onOrderCancelled {orders : List Order} {pm : PositionManager}
    (hpresent : ∀ order ∈ orders, (pm.find (symbolBufferToKey order.symbol)).isSome)
    (symbol : List UInt8) :
    (orders.foldl onOrderCancelled pm).countersOf symbol =
      { pm.countersOf symbol with
        pending := (pm.countersOf symbol).pending - signedQty orders (symbolToKey symbol) } := by
  induction orders generalizing pm with
  | nil => simp [signedQty]
  | cons order orders ih =>
      have hrest : ∀ o ∈ orders,
          ((pm.onOrderCancelled order).find (symbolBufferToKey o.symbol)).isSome := by
        intro o ho
        rw [find_onOrderCancelled]
        exact hpresent o (List.mem_cons_of_mem _ ho)
      have hsum : signedQty (order :: orders) (symbolToKey symbol) =
          signedQty [order] (symbolToKey symbol) + signedQty orders (symbolToKey symbol) := by
        simp only [signedQty]
        by_cases hkey : symbolBufferToKey order.symbol = symbolToKey symbol <;> simp [hkey]
      rw [List.foldl_cons, ih hrest,
        countersOf_onOrderCancelled (hpresent order List.mem_cons_self), hsum]
      simp only [Counters.mk.injEq, true_and, and_true]
      ring

end PositionManager

/-- **The gateway releases exactly what it does not place.**  Whatever orders are in the queue and
whatever their requests come to, with or without a tracker: they are handled in the order of the
queue with the ids 1 to `n`, for each of them `placeOrder` is called at most once and no other calls
are made, and the position manager gets one release of each order without a successful placement and
nothing else, so that only the pending quantities change, by the signed quantities of these. -/
theorem run_releases_what_it_does_not_place (g : Gateway) (queue : List (Order × Replies)) (k : ℕ)
    (hpresent : ∀ x ∈ queue, (g.positionManager.find (symbolBufferToKey x.1.symbol)).isSome) :
    let r := g.run queue k
    let unplaced := Gateway.unplaced r.handled
    r.handled.map Handled.order = Stopping.numbered (queue.map Prod.fst) ∧
      r.gateway.requests = g.requests ++ r.handled.flatMap Handled.requests ∧
      (∀ h ∈ r.handled, placements h.requests = [] ∨ placements h.requests = [h.order]) ∧
      r.gateway.positionManager =
        unplaced.foldl PositionManager.onOrderCancelled g.positionManager ∧
      ∀ symbol, r.gateway.positionManager.countersOf symbol =
        { g.positionManager.countersOf symbol with
          pending := (g.positionManager.countersOf symbol).pending -
            signedQty unplaced (symbolToKey symbol) } := by
  intro r unplaced
  have hinv : Gateway.RunInv g (queue.map Prod.fst) r := by
    rw [show r = _ from g.run_eq queue k]
    exact Gateway.runInv_foldl g queue
  refine ⟨hinv.numbered, hinv.requests, hinv.once, hinv.released, fun symbol => ?_⟩
  rw [hinv.released]
  refine PositionManager.countersOf_foldl_onOrderCancelled (fun order horder => ?_) symbol
  -- an unplaced order is one of the queue but for its number
  obtain ⟨h, hmem, rfl⟩ := List.mem_map.1 horder
  have hnumbered : h.order ∈ Stopping.numbered (queue.map Prod.fst) := by
    rw [← hinv.numbered]
    exact List.mem_map_of_mem (List.mem_of_mem_filter hmem)
  obtain ⟨i, hi, heq⟩ := List.mem_mapIdx.1 hnumbered
  have hx := hpresent _ (List.getElem_mem (by simpa using hi))
  rw [← heq]
  simpa using hx

/-- Three purchases of a registered symbol: the first is placed, the second skipped because the
first could not be cancelled, and the placement of the third, in the second loop, throws. -/
theorem run_of_three_orders :
    let aapl : CharArray 8 := CharArray.ofBytes 8 [65, 65, 80, 76]
    let order : Order := { symbol := aapl, quantity := 10, side := .buy }
    let g : Gateway :=
      { positionManager := ({} : PositionManager).onOrderSent { order with quantity := 30 }
        pendingTracker := some {} }
    let queue : List (Order × Replies) :=
      [(order, ⟨.threw, .success ⟨[97]⟩⟩), (order, ⟨.error 500, .success ⟨[98]⟩⟩),
        (order, ⟨.error 422, .threw⟩)]
    let r := g.run queue 2
    placements r.gateway.requests = [{ order with id := 1 }, { order with id := 3 }] ∧
      (r.gateway.positionManager.countersOf [65, 65, 80, 76]).pending = 10 ∧
      r.handled.map Handled.order = Stopping.numbered (queue.map Prod.fst) := by
  intro aapl order g queue r
  have h := run_releases_what_it_does_not_place g queue 2 (by decide +kernel)
  exact ⟨by decide +kernel, by decide +kernel, h.1⟩

end Trading
