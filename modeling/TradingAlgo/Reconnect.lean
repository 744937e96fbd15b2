/-
**A session: the broker, its stream, and the listener across reconnects.**

The broker executes and ends orders and sends a message for each event.  Messages that it sends
while the listener is not subscribed are lost, the others are delivered later and in order.  A
reconnect runs `handleAuthorization`: the listener subscribes, and on every connection but the first
it then reconciles against REST snapshots, each taken when its query is answered.  Between any two
of these steps the broker may go on.

Main definitions:

* `Trading.Session.BrokerOrder`, `Trading.Session.Progress` — an order, and how far it is;
* `Trading.Session.State`, `Trading.Session.step` — the machine, with the log of the listener's
  calls and the orders that were reported to it;
* `Trading.Session.applied`, `Trading.Session.released` — what the listener has passed to `onFill`
  and `onOrderCancelled` for an order.

Main results:

* `Trading.Session.step_cases` — everything that a step can do;
* `Trading.Session.reconcile_eq_reconcilePage` — an answered query is the loop over its page.
-/

import TradingAlgo.FillListener

set_option relaxedAutoImplicit false
set_option autoImplicit false

namespace Trading

namespace Session

/-! ### The broker -/

/-- How an order ends. -/
inductive Ending
  | filled
  | canceled
  | expired
  | rejected
  deriving DecidableEq, Repr

/-- The status text of an order that has ended. -/
def Ending.status : Ending → String
  | .filled => "filled"
  | .canceled => "canceled"
  | .expired => "expired"
  | .rejected => "rejected"

/-- An order that the broker has accepted. -/
structure BrokerOrder where
  id : List UInt8
  symbol : List UInt8
  side : OrderSide
  qty : ℤ
  createdAt : List UInt8 := []
  deriving DecidableEq, Repr

/-- How far an order is: what was executed of it, at which value, and how it ended. -/
structure Progress where
  executed : ℤ := 0
  value : ℚ := 0
  ending : Option Ending := none
  deriving DecidableEq, Repr

/-- The text of a side. -/
def sideText : OrderSide → String
  | .buy => "buy"
  | .sell => "sell"

@[simp] theorem parseSide_sideText (side : OrderSide) : parseSide (sideText side) = some side := by
  cases side <;> simp [sideText, parseSide]

/-- The text of a status. -/
def Progress.status (p : Progress) : String :=
  match p.ending with
  | some ending => ending.status
  | none => if p.executed = 0 then "new" else "partially_filled"

/-- An order as the broker reports it. -/
def report (order : BrokerOrder) (p : Progress) : AlpacaOrderStatus where
  id := order.id
  symbol := order.symbol
  side := sideText order.side
  status := p.status
  createdAt := order.createdAt
  qty := order.qty
  filledQty := p.executed
  filledAvgPrice := p.value / p.executed

/-- The progress after an execution. -/
def Progress.execute (order : BrokerOrder) (p : Progress) (qty : ℤ) (price : ℚ) : Progress where
  executed := p.executed + qty
  value := p.value + price * qty
  ending := if p.executed + qty = order.qty then some .filled else none

/-- The message of an execution: `fill` for the last one, `partial_fill` for the others. -/
def executionMessage (order : BrokerOrder) (p : Progress) (qty : ℤ) (price : ℚ) : TradeMessage :=
  .execution (p.executed + qty ≠ order.qty) order.id order.symbol order.side qty price

/-- The message of a cancellation, an expiry or a rejection. -/
def endMessage (order : BrokerOrder) (p : Progress) : TradeMessage :=
  .ended order.id order.symbol order.side order.qty p.executed

/-- The id that a message carries. -/
def messageId : TradeMessage → List UInt8
  | .execution _ orderId _ _ _ _ => orderId
  | .ended orderId _ _ _ _ => orderId

/-- `fill`, `canceled`, `expired` and `rejected` are the last messages of an order. -/
def Terminal : TradeMessage → Prop
  | .execution isPartial _ _ _ _ _ => isPartial = false
  | .ended .. => True

instance (m : TradeMessage) : Decidable (Terminal m) :=
  match m with
  | .execution isPartial _ _ _ _ _ => inferInstanceAs (Decidable (isPartial = false))
  | .ended .. => isTrue trivial

/-! ### The machine -/

/-- The state of a session with `n` orders. -/
structure State (n : ℕ) where
  broker : Fin n → Progress := fun _ => {}
  listener : FillListener := {}
  /-- `has_connected_`. -/
  hasConnected : Bool := false
  /-- The broker sends to the listener. -/
  subscribed : Bool := false
  /-- The listener is inside `reconcileAfterReconnect`. -/
  reconciling : Bool := false
  /-- Messages sent and not yet delivered, each with the order it is about. -/
  stream : List (Fin n × TradeMessage) := []
  /-- The listener's calls, each with the order it made them for. -/
  log : List (Fin n × ListenerCall) := []
  /-- The reports that reconciliations have worked off. -/
  reported : List (Fin n × AlpacaOrderStatus) := []

/-- The steps. -/
inductive Action (n : ℕ)
  /-- The broker executes a part of an order. -/
  | execute (i : Fin n) (qty : ℤ) (price : ℚ)
  /-- The broker ends an order that is not filled. -/
  | finish (i : Fin n) (ending : Ending)
  /-- The connection is lost, and with it what is in flight. -/
  | disconnect
  /-- `handleAuthorization` on a new connection, up to the first query. -/
  | authorized
  /-- A query of the reconciliation is answered, with these orders on the page. -/
  | query (reply : Outcome (List (Fin n)))
  /-- The next message is processed. -/
  | deliver
  deriving DecidableEq, Repr

variable {n : ℕ}

/-- The broker sends a message. -/
def send (s : State n) (i : Fin n) (message : TradeMessage) : State n :=
  { s with stream := if s.subscribed then s.stream ++ [(i, message)] else s.stream }

/-- One round of the loop over a page: the order `i`, as it stands at the broker. -/
def reconcile (orders : Fin n → BrokerOrder) (s : State n) (i : Fin n) : State n :=
  let r := s.listener.reconcileOrder (report (orders i) (s.broker i))
  { s with
    listener := r.1
    log := s.log ++ r.2.map (Prod.mk i)
    reported := s.reported ++ [(i, report (orders i) (s.broker i))] }

/-- The page of a query. -/
def page (orders : Fin n → BrokerOrder) (s : State n) (is : List (Fin n)) :
    List AlpacaOrderStatus :=
  is.map fun i => report (orders i) (s.broker i)

/-- The step function. -/
def step (orders : Fin n → BrokerOrder) (s : State n) : Action n → Option (State n)
  | .execute i qty price =>
      if (s.broker i).ending = none ∧ 0 < qty ∧ (s.broker i).executed + qty ≤ (orders i).qty then
        some (send
          { s with
            broker := Function.update s.broker i ((s.broker i).execute (orders i) qty price) }
          i (executionMessage (orders i) (s.broker i) qty price))
      else none
  | .finish i ending =>
      if (s.broker i).ending = none ∧ ending ≠ .filled then
        some (send
          { s with
            broker := Function.update s.broker i { s.broker i with ending := some ending } }
          i (endMessage (orders i) (s.broker i)))
      else none
  | .disconnect => some { s with subscribed := false, stream := [] }
  | .authorized =>
      if s.subscribed = false ∧ s.reconciling = false then
        -- `sendSubscribe` comes first: from here on messages are kept, before any snapshot
        some { s with subscribed := true, reconciling := s.hasConnected, hasConnected := true }
      else none
  | .query reply =>
      if s.reconciling then
        match reply with
        | .success is =>
            some
              { is.foldl (reconcile orders) s with
                reconciling := (FillListener.nextCursor (page orders s is)).isSome }
        | .error _ => some { s with reconciling := false }
        | .threw => some { s with reconciling := false }
      else none
  | .deliver =>
      -- no message is read while the thread is inside `reconcileAfterReconnect`
      if s.reconciling then none
      else
        match s.stream with
        | [] => none
        | (i, message) :: stream =>
            let r := s.listener.handleTradeUpdate message.update
            some { s with
              listener := r.1
              stream := stream
              log := s.log ++ r.2.map (Prod.mk i) }

/-- **Everything that a step can do.** -/
theorem step_cases {orders : Fin n → BrokerOrder} {s t : State n} {a : Action n}
    (h : step orders s a = some t) :
    (∃ i qty price, a = .execute i qty price ∧ (s.broker i).ending = none ∧ 0 < qty ∧
      (s.broker i).executed + qty ≤ (orders i).qty ∧
      t = send
        { s with
          broker := Function.update s.broker i ((s.broker i).execute (orders i) qty price) }
        i (executionMessage (orders i) (s.broker i) qty price)) ∨
    (∃ i ending, a = .finish i ending ∧ (s.broker i).ending = none ∧ ending ≠ .filled ∧
      t = send
        { s with
          broker := Function.update s.broker i { s.broker i with ending := some ending } }
        i (endMessage (orders i) (s.broker i))) ∨
    (a = .disconnect ∧ t = { s with subscribed := false, stream := [] }) ∨
    (a = .authorized ∧ s.subscribed = false ∧ s.reconciling = false ∧
      t = { s with subscribed := true, reconciling := s.hasConnected, hasConnected := true }) ∨
    (∃ is, a = .query (.success is) ∧ s.reconciling = true ∧
      t = { is.foldl (reconcile orders) s with
        reconciling := (FillListener.nextCursor (page orders s is)).isSome }) ∨
    ((∃ reply, a = .query reply) ∧ s.reconciling = true ∧ t = { s with reconciling := false }) ∨
    (∃ i m stream, a = .deliver ∧ s.reconciling = false ∧ s.stream = (i, m) :: stream ∧
      t = { s with
        listener := (s.listener.handleTradeUpdate m.update).1
        stream := stream
        log := s.log ++ (s.listener.handleTradeUpdate m.update).2.map (Prod.mk i) }) := by
  cases a with
  | execute i qty price =>
      simp only [step, Option.ite_none_right_eq_some, Option.some_inj] at h
      obtain ⟨⟨hnone, hpos, hle⟩, rfl⟩ := h
      exact Or.inl ⟨i, qty, price, rfl, hnone, hpos, hle, rfl⟩
  | finish i ending =>
      simp only [step, Option.ite_none_right_eq_some, Option.some_inj] at h
      obtain ⟨⟨hnone, hending⟩, rfl⟩ := h
      exact Or.inr (Or.inl ⟨i, ending, rfl, hnone, hending, rfl⟩)
  | disconnect =>
      simp only [step, Option.some_inj] at h
      exact Or.inr (Or.inr (Or.inl ⟨rfl, h.symm⟩))
  | authorized =>
      simp only [step, Option.ite_none_right_eq_some, Option.some_inj] at h
      obtain ⟨⟨hsub, hrec⟩, rfl⟩ := h
      exact Or.inr (Or.inr (Or.inr (Or.inl ⟨rfl, hsub, hrec, rfl⟩)))
  | query reply =>
      simp only [step, Option.ite_none_right_eq_some] at h
      obtain ⟨hrec, h⟩ := h
      cases reply with
      | success is =>
          exact Or.inr (Or.inr (Or.inr (Or.inr (Or.inl
            ⟨is, rfl, hrec, (Option.some_inj.1 h).symm⟩))))
      | error _ | threw =>
          exact Or.inr (Or.inr (Or.inr (Or.inr (Or.inr (Or.inl
            ⟨⟨_, rfl⟩, hrec, (Option.some_inj.1 h).symm⟩)))))
  | deliver =>
      simp only [step, Option.ite_none_left_eq_some, Bool.not_eq_true] at h
      obtain ⟨hrec, h⟩ := h
      cases hs : s.stream with
      | nil => simp [hs] at h
      | cons x stream =>
          simp only [hs, Option.some_inj] at h
          exact Or.inr (Or.inr (Or.inr (Or.inr (Or.inr (Or.inr
            ⟨x.1, x.2, stream, rfl, hrec, rfl, h.symm⟩)))))

/-! ### What the listener has passed on -/

/-- The quantity of an `onFill` call. -/
def fillQty : ListenerCall → ℤ
  | .onFill fill => fill.quantity
  | _ => 0

/-- The quantity of an `onOrderCancelled` call. -/
def releaseQty : ListenerCall → ℤ
  | .onOrderCancelled order => order.quantity
  | _ => 0

/-- The total passed to `onFill` for an order. -/
def applied (s : State n) (i : Fin n) : ℤ := Runs.tally fillQty s.log i

/-- The total passed to `onOrderCancelled` for an order. -/
def released (s : State n) (i : Fin n) : ℤ := Runs.tally releaseQty s.log i

/-- The quantity that a message will add to `onFill`. -/
def messageFillQty : TradeMessage → ℤ
  | .execution _ _ _ _ qty _ => qty
  | .ended .. => 0

/-- The quantity that a message will add to `onOrderCancelled`. -/
def messageReleaseQty : TradeMessage → ℤ
  | .execution .. => 0
  | .ended _ _ _ qty filledQty => max 0 (qty - filledQty)

/-- What is on its way to `onFill` for an order. -/
def fillsInFlight (s : State n) (i : Fin n) : ℤ := Runs.tally messageFillQty s.stream i

/-- What is on its way to `onOrderCancelled` for an order. -/
def releasesInFlight (s : State n) (i : Fin n) : ℤ := Runs.tally messageReleaseQty s.stream i

theorem sum_fillQty_handleTradeUpdate (l : FillListener) (m : TradeMessage) :
    ((l.handleTradeUpdate m.update).2.map fillQty).sum = messageFillQty m := by
  cases m with
  | execution isPartial orderId symbol side qty price =>
      simp only [TradeMessage.update, FillListener.handleTradeUpdate,
        FillListener.processFillEvent, messageFillQty]
      split_ifs <;> simp [fillQty]
  | ended => rfl

theorem sum_releaseQty_handleTradeUpdate (l : FillListener) (m : TradeMessage) :
    ((l.handleTradeUpdate m.update).2.map releaseQty).sum = messageReleaseQty m := by
  cases m with
  | execution isPartial orderId symbol side qty price =>
      simp only [TradeMessage.update, FillListener.handleTradeUpdate,
        FillListener.processFillEvent, messageReleaseQty]
      split_ifs <;> simp [releaseQty]
  | ended orderId symbol side qty filledQty =>
      simp [TradeMessage.update, FillListener.handleTradeUpdate,
        FillListener.processCancelEvent, messageReleaseQty, releaseQty]

/-- What a reconciled fill passes on. -/
theorem sums_reconcileFill {l : FillListener} {o : AlpacaOrderStatus} (side : OrderSide)
    (hmissed : l.findFilledQty o.id < o.filledQty) :
    ((l.reconcileFill o side).2.map fillQty).sum = o.filledQty - l.findFilledQty o.id ∧
      ((l.reconcileFill o side).2.map releaseQty).sum = 0 := by
  unfold FillListener.reconcileFill
  rw [if_neg (by omega)]
  simp only
  split_ifs <;> simp [fillQty, releaseQty, FillListener.missedFill]

/-- What a reconciled cancellation passes on. -/
theorem sums_reconcileCancel (l : FillListener) (o : AlpacaOrderStatus) (side : OrderSide) :
    ((l.reconcileCancel o side).2.map fillQty).sum =
        max 0 (o.filledQty - l.findFilledQty o.id) ∧
      ((l.reconcileCancel o side).2.map releaseQty).sum = max 0 (o.qty - o.filledQty) := by
  unfold FillListener.reconcileCancel
  simp only
  constructor <;> split_ifs <;> simp [fillQty, releaseQty, FillListener.missedFill] <;> omega

/-! ### Reports -/

theorem isCancelStatus_iff {p : Progress} :
    FillListener.isCancelStatus p.status ↔ ∃ ending, p.ending = some ending ∧ ending ≠ .filled := by
  unfold Progress.status
  cases p.ending with
  | none => by_cases h : p.executed = 0 <;> simp [h, FillListener.isCancelStatus]
  | some ending => cases ending <;> simp [Ending.status, FillListener.isCancelStatus]

/-- **An answered query is the loop over its page.** -/
theorem reconcile_eq_reconcilePage (orders : Fin n → BrokerOrder) (is : List (Fin n))
    (s : State n) :
    (is.foldl (reconcile orders) s).listener =
        (s.listener.reconcilePage (page orders s is)).1 ∧
      (is.foldl (reconcile orders) s).log.map Prod.snd =
        s.log.map Prod.snd ++ (s.listener.reconcilePage (page orders s is)).2 := by
  induction is generalizing s with
  | nil => simp [page, FillListener.reconcilePage]
  | cons i is ih =>
      obtain ⟨hl, hlog⟩ := ih (reconcile orders s i)
      have hpage : page orders (reconcile orders s i) is = page orders s is := rfl
      rw [hpage] at hl hlog
      refine ⟨hl, ?_⟩
      rw [List.foldl_cons, hlog]
      simp [reconcile, page, FillListener.reconcilePage, Function.comp_def]

end Session

end Trading
