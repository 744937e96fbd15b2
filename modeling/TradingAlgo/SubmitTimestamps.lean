/-
**The times of submission.**

`src/LatencyTracker.cpp` keeps the time at which an order was submitted, from its placement to its
first fill: `recordOrderSubmit` puts it into a map, `recordFillReceived` takes it out.  The gateway
calls the one after the reply to a placement; the listener calls the other for the fills that it
receives on the stream, and for nothing else.  An order that ends without such a fill, or whose
fills are all processed before the gateway has come to its record, stays in the map.

The machine below has the gateway's accesses and requests one by one, and the listener's messages
and pages.  The listener works off a message or a page in one step, since of its calls only
`recordFillReceived` touches the map.

Main definitions:

* `Trading.LatencyTracker` — `recordOrderSubmit` and `recordFillReceived`;
* `Trading.Submits.State`, `Trading.Submits.step` — the gateway, the stream and the listener;
* `Trading.Submits.NoneLeft` — the property;
* `Trading.Submits.Unanswered` — a submission that no fill has followed.

Main results:

* `Trading.Submits.exec_eq_executeOrder` — the gateway's steps without interruption are
  `executeOrder`;
* `Trading.Submits.Inv.step` — the map holds the submissions that no fill has followed;
* `Trading.no_submit_timestamp_left_iff` — when the orders that have ended leave nothing behind.
-/

import TradingAlgo.FillListener

set_option relaxedAutoImplicit false
set_option autoImplicit false

namespace Trading

/-! ### The latency tracker -/

/-- `LatencyTracker`, by its times of submission and what it has recorded of fills. -/
structure LatencyTracker where
  /-- `submit_timestamps_`. -/
  submitTimestamps : List UInt8 → Option UInt64 := fun _ => none
  /-- The values that the histogram for `FillRoundTrip` was given. -/
  fillRoundTrip : List Int64 := []

namespace LatencyTracker

/-- `recordOrderSubmit` at the time `now`. -/
def recordOrderSubmit (t : LatencyTracker) (clientOrderId : List UInt8) (now : UInt64) :
    LatencyTracker :=
  { t with submitTimestamps := Function.update t.submitTimestamps clientOrderId (some now) }

/-- `recordFillReceived` at the time `now`. -/
def recordFillReceived (t : LatencyTracker) (clientOrderId : List UInt8) (now : UInt64) :
    LatencyTracker :=
  match t.submitTimestamps clientOrderId with
  | some submitted =>
      { submitTimestamps := Function.update t.submitTimestamps clientOrderId none
        fillRoundTrip := t.fillRoundTrip ++ [(now - submitted).toInt64] }
  | none => t

theorem isSome_recordOrderSubmit (t : LatencyTracker) (id : List UInt8) (now : UInt64)
    (id' : List UInt8) :
    ((t.recordOrderSubmit id now).submitTimestamps id').isSome ↔
      id = id' ∨ (t.submitTimestamps id').isSome := by
  simp only [recordOrderSubmit, Function.update_apply]
  split_ifs with h
  · simp [h]
  · simp [Ne.symm h]

theorem isSome_recordFillReceived (t : LatencyTracker) (id : List UInt8) (now : UInt64)
    (id' : List UInt8) :
    ((t.recordFillReceived id now).submitTimestamps id').isSome ↔
      (t.submitTimestamps id').isSome ∧ id ≠ id' := by
  unfold recordFillReceived
  cases hsubmitted : t.submitTimestamps id with
  | none =>
      refine ⟨fun h => ⟨h, ?_⟩, And.left⟩
      rintro rfl
      simp [hsubmitted] at h
  | some submitted =>
      simp only [Function.update_apply]
      split_ifs with h
      · simp [h]
      · simp [Ne.symm h]

end LatencyTracker

namespace Submits

/-! ### The machine -/

/-- Where the gateway stands in `executeOrder`: as in `Trading.Replace`, with the call of
`recordOrderSubmit` as an access of its own. -/
inductive Pc
  | idle
  | cancelling (order : Order) (prevId : AlpacaOrderId)
  | placing (order : Order)
  | recording (order : Order) (clientOrderId : List UInt8)
  | submitting (clientOrderId : List UInt8)
  deriving DecidableEq, Repr

/-- What happens to orders: the gateway has recorded a submission, the listener has processed the
message of an execution, or it has learned that the order is in a terminal state. -/
inductive Event
  | submitted (id : List UInt8)
  | executed (id : List UInt8)
  | ended (id : List UInt8)
  deriving DecidableEq, Repr

/-- The events of a message. -/
def messageEvents : TradeMessage → List Event
  | .execution isPartial orderId _ _ _ _ =>
      if isPartial then [.executed orderId] else [.executed orderId, .ended orderId]
  | .ended orderId _ _ _ _ => [.ended orderId]

/-- The events of an order that a reconciliation reports. -/
def reportEvents (o : AlpacaOrderStatus) : List Event :=
  if o.status = "filled" ∨ FillListener.isCancelStatus o.status then [.ended o.id] else []

/-- The gateway, the messages on the stream, the listener, and the history. -/
structure State where
  gateway : Gateway
  pc : Pc := .idle
  latency : LatencyTracker := {}
  listener : FillListener := {}
  stream : List TradeMessage := []
  history : List Event := []

/-- The steps, with the times that the clock returns: those of the gateway, a message comes in, and
the listener processes the next message or a page of a reconciliation. -/
inductive Action
  | dequeue (order : Order)
  | cancelReply (reply : Outcome Unit)
  | placeReply (reply : Outcome OrderAck)
  | record
  | submit (now : UInt64)
  | arrive (message : TradeMessage)
  | process (now : UInt64)
  | reconcile (page : List AlpacaOrderStatus) (now : UInt64)
  deriving DecidableEq, Repr

/-- A call of the listener, as it reaches the gateway's components and the latency tracker. -/
def receive (now : UInt64) (c : Gateway × LatencyTracker) : ListenerCall → Gateway × LatencyTracker
  | .onOrderCompleted slot id =>
      ({ c.1 with
          pendingTracker :=
            c.1.pendingTracker.map fun t => t.onOrderCompleted slot.symbol slot.side id }, c.2)
  | .recordFillReceived id => (c.1, c.2.recordFillReceived id now)
  | call => ({ c.1 with positionManager := c.1.positionManager.receive call }, c.2)

/-- The listener after a message or a page, with its calls and what they were for. -/
def handled (s : State) (now : UInt64) (r : FillListener × List ListenerCall)
    (events : List Event) : State :=
  let c := r.2.foldl (receive now) (s.gateway, s.latency)
  { s with gateway := c.1, latency := c.2, listener := r.1, history := s.history ++ events }

/-- The step function. -/
def step (s : State) : Action → Option State
  | .dequeue order =>
      match s.pc with
      | .idle =>
          some { s with
            pc :=
              match s.gateway.existingOrder order with
              | none => .placing order
              | some prevId => .cancelling order prevId }
      | _ => none
  | .cancelReply reply =>
      match s.pc with
      | .cancelling order prevId =>
          let g : Gateway :=
            { s.gateway with requests := s.gateway.requests ++ [.cancelOrder prevId.view] }
          some { s with
            gateway := if reply.cancelAccepted then g else g.release order
            pc := if reply.cancelAccepted then .placing order else .idle }
      | _ => none
  | .placeReply reply =>
      match s.pc with
      | .placing order =>
          let g : Gateway :=
            { s.gateway with requests := s.gateway.requests ++ [.placeOrder order] }
          match reply with
          | .success ack => some { s with gateway := g, pc := .recording order ack.clientOrderId }
          | .error _ => some { s with gateway := g.release order, pc := .idle }
          | .threw => some { s with gateway := g.release order, pc := .idle }
      | _ => none
  | .record =>
      match s.pc with
      | .recording order clientOrderId =>
          some { s with
            gateway :=
              { s.gateway with
                pendingTracker := s.gateway.pendingTracker.map fun t =>
                  t.recordOrder order.symbol order.side clientOrderId }
            pc := .submitting clientOrderId }
      | _ => none
  | .submit now =>
      match s.pc with
      | .submitting clientOrderId =>
          some { s with
            gateway := { s.gateway with submits := s.gateway.submits ++ [clientOrderId] }
            pc := .idle
            latency := s.latency.recordOrderSubmit clientOrderId now
            history := s.history ++ [.submitted clientOrderId] }
      | _ => none
  | .arrive message => some { s with stream := s.stream ++ [message] }
  | .process now =>
      match s.stream with
      | [] => none
      | message :: stream =>
          some (handled { s with stream := stream } now
            (s.listener.handleTradeUpdate message.update) (messageEvents message))
  | .reconcile page now =>
      some (handled s now (s.listener.reconcilePage page) (page.flatMap reportEvents))

/-- The start. -/
def init (g : Gateway) : State where
  gateway := g

/-- **The gateway's steps without interruption are `executeOrder`.** -/
theorem exec_eq_executeOrder (s : State) (hpc : s.pc = .idle) (order : Order)
    (cancelReply : Outcome Unit) (placeReply : Outcome OrderAck) (now : UInt64) :
    ∃ as t, Runs.exec step s as = some t ∧ t.pc = .idle ∧
      t.gateway = s.gateway.executeOrder order cancelReply placeReply := by
  have hplace : ∀ s' : State, s'.pc = .placing order →
      ∃ as t, Runs.exec step s' as = some t ∧ t.pc = .idle ∧
        t.gateway = s'.gateway.place order placeReply := by
    intro s' hpc'
    cases placeReply with
    | success ack =>
        refine ⟨[.placeReply (.success ack), .record, .submit now], ?_⟩
        simp [step, hpc', Gateway.place, Gateway.record]
    | error statusCode =>
        refine ⟨[.placeReply (.error statusCode)], ?_⟩
        simp [step, hpc', Gateway.place]
    | threw =>
        refine ⟨[.placeReply .threw], ?_⟩
        simp [step, hpc', Gateway.place]
  unfold Gateway.executeOrder
  cases hprev : s.gateway.existingOrder order with
  | none =>
      obtain ⟨as, t, hrun, ht⟩ := hplace { s with pc := .placing order } rfl
      refine ⟨.dequeue order :: as, t, ?_, ht⟩
      simpa [step, hpc, hprev] using hrun
  | some prevId =>
      by_cases hacc : cancelReply.cancelAccepted = true
      · simp only [hacc, if_true]
        obtain ⟨as, t, hrun, ht⟩ := hplace
          { s with
            gateway :=
              { s.gateway with requests := s.gateway.requests ++ [.cancelOrder prevId.view] }
            pc := .placing order } rfl
        refine ⟨.dequeue order :: .cancelReply cancelReply :: as, t, ?_, ht⟩
        simpa [step, hpc, hprev, hacc] using hrun
      · refine ⟨[.dequeue order, .cancelReply cancelReply], ?_⟩
        simp [step, hpc, hprev, hacc]

/-! ### What is left in the map -/

/-- An id as the listener reads it from a message: of at most 48 bytes, up to the first NUL. -/
def readId (id : List UInt8) : List UInt8 := (CharArray.ofBytes 48 id).view

/-- The order whose submission an event answers: a live execution that carries an id. -/
def Event.answers : Event → Option (List UInt8)
  | .executed orderId => if readId orderId = [] then none else some (readId orderId)
  | _ => none

/-- A submission of the order was recorded, and no message of an execution was processed since. -/
def Unanswered (history : List Event) (id : List UInt8) : Prop :=
  Runs.Since (· = .submitted id) (fun event => event.answers = some id) history

/-- The gateway is idle and all messages are processed. -/
def Quiescent (s : State) : Prop := s.pc = .idle ∧ s.stream = []

/-- Then the map holds no order that has reached a terminal state. -/
def NoneLeft (s : State) : Prop :=
  Quiescent s → ∀ id, .ended id ∈ s.history → s.latency.submitTimestamps id = none

/-- The map holds the submissions that no fill has followed. -/
def Inv (s : State) : Prop :=
  ∀ id, (s.latency.submitTimestamps id).isSome ↔ Unanswered s.history id

theorem inv_init (g : Gateway) : Inv (init g) := by
  intro id
  simp [init, Unanswered]

/-- The id that a call takes out of the map. -/
def receivedId : ListenerCall → Option (List UInt8)
  | .recordFillReceived id => some id
  | _ => none

/-- Of the listener's calls only `recordFillReceived` reaches the map. -/
theorem foldl_receive_snd (now : UInt64) (calls : List ListenerCall) :
    ∀ c : Gateway × LatencyTracker, (calls.foldl (receive now) c).2 =
      (calls.filterMap receivedId).foldl (fun t id => t.recordFillReceived id now) c.2 := by
  induction calls with
  | nil => exact fun _ => rfl
  | cons call calls ih =>
      intro c
      rw [List.foldl_cons, ih]
      cases call <;> rfl

/-- A live message takes out the order that its events answer. -/
theorem receivedIds_handleTradeUpdate (l : FillListener) (message : TradeMessage) :
    (l.handleTradeUpdate message.update).2.filterMap receivedId =
      (messageEvents message).filterMap Event.answers := by
  cases message with
  | execution isPartial orderId symbol side qty price =>
      by_cases hid : (CharArray.ofBytes 48 orderId).view = [] <;> cases isPartial <;>
        simp [TradeMessage.update, FillListener.handleTradeUpdate, FillListener.processFillEvent,
          List.filterMap_cons, receivedId, messageEvents, Event.answers, readId, hid]
  | ended => rfl

/-- A reported order takes out nothing. -/
theorem receivedIds_reconcileOrder (l : FillListener) (o : AlpacaOrderStatus) :
    (l.reconcileOrder o).2.filterMap receivedId = [] := by
  rcases l.reconcileOrder_cases o with ⟨-, h⟩ | ⟨side, -, -, -, -, -, h⟩ | ⟨side, -, -, -, -, -, h⟩
  · rw [h]
    rfl
  · rw [h, FillListener.reconcileFill]
    split_ifs <;> rfl
  · rw [h, FillListener.reconcileCancel]
    split_ifs <;> rfl

theorem receivedIds_reconcilePage (page : List AlpacaOrderStatus) :
    ∀ l : FillListener, (l.reconcilePage page).2.filterMap receivedId = [] := by
  induction page with
  | nil => exact fun _ => rfl
  | cons o page ih =>
      intro l
      rw [FillListener.reconcilePage, List.filterMap_append, receivedIds_reconcileOrder, ih]
      rfl

/-- What the map holds after calls that take orders out. -/
theorem isSome_foldl_recordFillReceived (now : UInt64) (ids : List (List UInt8)) (id : List UInt8) :
    ∀ t : LatencyTracker,
      ((ids.foldl (fun t id => t.recordFillReceived id now) t).submitTimestamps id).isSome ↔
        (t.submitTimestamps id).isSome ∧ id ∉ ids := by
  induction ids with
  | nil => simp
  | cons id' ids ih =>
      intro t
      rw [List.foldl_cons, ih, LatencyTracker.isSome_recordFillReceived, List.mem_cons, not_or,
        and_assoc, ne_comm]

/-- What is unanswered after events that are no submissions. -/
theorem unanswered_append {history events : List Event}
    (hevents : ∀ id, .submitted id ∉ events) (id : List UInt8) :
    Unanswered (history ++ events) id ↔
      Unanswered history id ∧ id ∉ events.filterMap Event.answers := by
  induction events using List.reverseRecOn with
  | nil => simp
  | append_singleton events event ih =>
      have hevent : event ≠ .submitted id := by
        rintro rfl
        exact hevents id (by simp)
      have hrest := ih fun id' hmem => hevents id' (by simp [hmem])
      rw [Unanswered] at hrest ⊢
      rw [← List.append_assoc, Runs.since_concat, hrest]
      simp [hevent, and_assoc]

section Steps

variable {s t : State}

/-- A step that leaves the map and the history alone. -/
theorem Inv.quiet (h : Inv s) (hlatency : t.latency = s.latency)
    (hhistory : t.history = s.history) : Inv t := by
  intro id
  rw [hlatency, hhistory]
  exact h id

/-- The gateway records a submission. -/
theorem Inv.submit (h : Inv s) {now : UInt64} (hstep : step s (.submit now) = some t) : Inv t := by
  cases hpc : s.pc with
  | submitting clientOrderId =>
      simp only [step, hpc, Option.some_inj] at hstep
      subst hstep
      intro id
      rw [LatencyTracker.isSome_recordOrderSubmit, h id, Unanswered, Unanswered, Runs.since_concat]
      simp [Event.answers]
  | _ => simp [step, hpc] at hstep

/-- The listener has worked something off: it takes out the orders that the events answer. -/
theorem Inv.handled (h : Inv s) (now : UInt64) {r : FillListener × List ListenerCall}
    {events : List Event} (hevents : ∀ id, .submitted id ∉ events)
    (hcalls : r.2.filterMap receivedId = events.filterMap Event.answers) :
    Inv (handled s now r events) := by
  intro id
  simp only [Submits.handled]
  rw [foldl_receive_snd, hcalls, isSome_foldl_recordFillReceived, unanswered_append hevents, h id]

theorem submitted_not_mem_messageEvents (message : TradeMessage) (id : List UInt8) :
    .submitted id ∉ messageEvents message := by
  cases message with
  | execution isPartial => cases isPartial <;> simp [messageEvents]
  | ended => simp [messageEvents]

/-- The reports of a page only end orders. -/
theorem eq_ended_of_mem_reports {page : List AlpacaOrderStatus} {event : Event}
    (h : event ∈ page.flatMap reportEvents) : ∃ id, event = .ended id := by
  obtain ⟨o, -, h⟩ := List.mem_flatMap.1 h
  unfold reportEvents at h
  split_ifs at h
  · exact ⟨o.id, List.mem_singleton.1 h⟩
  · cases h

/-- The gateway's steps but the last, and the arrival of a message. -/
theorem step_quiet {a : Action} (ha : ∀ now, a ≠ .submit now) (ha' : ∀ now, a ≠ .process now)
    (ha'' : ∀ page now, a ≠ .reconcile page now) (hstep : step s a = some t) :
    t.latency = s.latency ∧ t.history = s.history := by
  cases a with
  | dequeue order | cancelReply reply | record =>
      cases hpc : s.pc <;> simp only [step, hpc, Option.some_inj, reduceCtorEq] at hstep
      subst hstep
      exact ⟨rfl, rfl⟩
  | placeReply reply =>
      cases hpc : s.pc <;> simp only [step, hpc, reduceCtorEq] at hstep
      cases reply <;>
      · obtain rfl := Option.some_inj.1 hstep
        exact ⟨rfl, rfl⟩
  | arrive message =>
      obtain rfl := Option.some_inj.1 hstep
      exact ⟨rfl, rfl⟩
  | submit now => exact absurd rfl (ha now)
  | process now => exact absurd rfl (ha' now)
  | reconcile page now => exact absurd rfl (ha'' page now)

/-- **One step**: the map goes on to hold the submissions that no fill has followed. -/
theorem Inv.step (h : Inv s) {a : Action} (hstep : Submits.step s a = some t) : Inv t := by
  cases a with
  | submit now => exact h.submit hstep
  | process now =>
      cases hstream : s.stream with
      | nil => simp [Submits.step, hstream] at hstep
      | cons message stream =>
          simp only [Submits.step, hstream, Option.some_inj] at hstep
          subst hstep
          have hrest : Inv { s with stream := stream } := h
          exact hrest.handled now (submitted_not_mem_messageEvents message)
            (receivedIds_handleTradeUpdate s.listener message)
  | reconcile page now =>
      obtain rfl := Option.some_inj.1 hstep
      refine h.handled now (fun id hmem => ?_) ?_
      · obtain ⟨id', heq⟩ := eq_ended_of_mem_reports hmem
        cases heq
      · rw [receivedIds_reconcilePage, eq_comm, List.filterMap_eq_nil_iff]
        intro event hmem
        obtain ⟨id', rfl⟩ := eq_ended_of_mem_reports hmem
        rfl
  | dequeue order | cancelReply reply | placeReply reply | record | arrive message =>
      obtain ⟨hlatency, hhistory⟩ := step_quiet (by simp) (by simp) (by simp) hstep
      exact h.quiet hlatency hhistory

end Steps

end Submits

/-- **When the orders that have ended leave no time of submission behind**: in every state that the
gateway and the listener can reach, in any order of their steps, the map is free of orders that have
ended once the gateway is idle and all messages are processed, exactly when of each of these orders
a live execution was processed after its submission was recorded, if it was. -/
theorem no_submit_timestamp_left_iff (g : Gateway) (as : List Submits.Action) (s : Submits.State)
    (hrun : Runs.exec Submits.step (Submits.init g) as = some s) :
    Submits.NoneLeft s ↔ (Submits.Quiescent s →
      ∀ id, .ended id ∈ s.history → ¬ Submits.Unanswered s.history id) := by
  have hinv : Submits.Inv s :=
    Runs.exec_inv (fun s a t h hstep => h.step hstep) (Submits.inv_init g) hrun
  refine forall_congr' fun _ => forall_congr' fun id => forall_congr' fun _ => ?_
  rw [← hinv id, Option.not_isSome_iff_eq_none]

/-- An order of AAPL that is placed and submitted at the time 5; the messages come in after that and
are processed one by one. -/
def submitThen (messages : List TradeMessage) : List Submits.Action :=
  [.dequeue { symbol := CharArray.ofBytes 8 [65, 65, 80, 76], quantity := 10, side := .buy },
    .placeReply (.success ⟨[97, 45, 49]⟩), .record, .submit 5] ++
    messages.flatMap fun message => [.arrive message, .process 9]

/-- The order is executed in part and then canceled: it has left the map with the first message. -/
theorem no_submit_timestamp_left_after_a_fill :
    let id : List UInt8 := [97, 45, 49]
    let as := submitThen [.execution true id [65, 65, 80, 76] .buy 4 100,
      .ended id [65, 65, 80, 76] .buy 10 4]
    ∃ s, Runs.exec Submits.step (Submits.init { positionManager := {} }) as = some s ∧
      Submits.Quiescent s ∧ .ended id ∈ s.history ∧ Submits.NoneLeft s := by
  intro id as
  have hrun : (Runs.exec Submits.step (Submits.init { positionManager := {} }) as).any (fun s =>
      s.pc = .idle ∧ s.stream = [] ∧
        s.history = [.submitted id, .executed id, .ended id]) = true := by
    decide +kernel
  obtain ⟨s, hs, hprops⟩ := (Option.any_eq_true _ _).1 hrun
  obtain ⟨hpc, hstream, hhistory⟩ := of_decide_eq_true hprops
  refine ⟨s, hs, ⟨hpc, hstream⟩, by simp [hhistory], ?_⟩
  refine (no_submit_timestamp_left_iff _ as s hs).2 fun _ id' hended => ?_
  have hid : id' = id := by simpa [hhistory] using hended
  have hsplit : s.history = [.submitted id] ++ [.executed id, .ended id] := hhistory
  have hanswered : id ∈ [Submits.Event.executed id, .ended id].filterMap Submits.Event.answers := by
    decide
  rw [hsplit, hid, Submits.unanswered_append (by simp)]
  exact fun h => h.2 hanswered

/-- The order is canceled before anything was executed: it has ended, and its time of submission
stays. -/
theorem no_submit_timestamp_left_fails :
    let id : List UInt8 := [97, 45, 49]
    let as := submitThen [.ended id [65, 65, 80, 76] .buy 10 0]
    ¬ ∀ s, Runs.exec Submits.step (Submits.init { positionManager := {} }) as = some s →
      Submits.NoneLeft s := by
  intro id as hclean
  have hrun : (Runs.exec Submits.step (Submits.init { positionManager := {} }) as).any (fun s =>
      s.pc = .idle ∧ s.stream = [] ∧ .ended id ∈ s.history ∧
        s.latency.submitTimestamps id = some 5) = true := by
    decide +kernel
  obtain ⟨s, hs, hprops⟩ := (Option.any_eq_true _ _).1 hrun
  obtain ⟨hpc, hstream, hended, hleft⟩ := of_decide_eq_true hprops
  have hnone := hclean s hs ⟨hpc, hstream⟩ id hended
  rw [hleft] at hnone
  cases hnone

end Trading
