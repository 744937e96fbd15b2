/-
**The times that are taken on the hot path.**

Four readings of the clock go with an order: when its frame arrived, when the consumer got the
event, before the order was pushed, and when the gateway took it out of the queue.  They are made on
three kinds of threads, two of them travel in the event and in the order and one stays behind in the
round of the consumer, and the differences are recorded in three places: `ZmqTransport` and
`StrategyRisk` by the consumer, `MpscQueue` and `EndToEnd` by the gateway.  All differences are of
unsigned numbers, and would wrap around if a later reading were the smaller one.

The machine has the source, the consumers and the gateway with one step for each reading, taken in
any order, over a clock that does not go back (`CLOCK_MONOTONIC`).  ZeroMQ is a transport as in
`TradingAlgo/PubSub.lean`, and a value is recorded as it is: the range and the precision of the
histograms that keep it are not modelled.  The order queue is the first-in,
first-out queue that its accesses come to.  A thread that has left its loop just takes no more
steps.

Main definitions:

* `Trading.LatencyMetric` — what is recorded;
* `Trading.HotPath.Round` — a consumer's round, from reading to reading;
* `Trading.HotPath.State`, `Trading.HotPath.step` — the machine;
* `Trading.HotPath.Timely`, `Trading.HotPath.Logged` — its invariants.

Main results:

* `Trading.latencies_add_up` — for every order that the gateway takes, the recorded end-to-end time
  is the sum of the three recorded stages.
-/

import TradingAlgo.MarketFeed
import TradingAlgo.Shutdown

set_option relaxedAutoImplicit false
set_option autoImplicit false

namespace Trading

open Msgpack

/-- `enum class LatencyMetric`, without the count. -/
inductive LatencyMetric
  | endToEnd
  | zmqTransport
  | strategyRisk
  | mpscQueue
  | fillRoundTrip
  deriving DecidableEq, Repr

/-- The values that were recorded for a metric, in order. -/
def valuesOf (metric : LatencyMetric) (records : List (LatencyMetric × UInt64)) : List UInt64 :=
  Runs.entries records metric

namespace HotPath

/-- The readings of a round that has led to an order.  They go with the order through the model, and
no step looks at them. -/
structure Readings where
  arrivedAt : UInt64
  zmqReceivedAt : UInt64
  preQueueAt : UInt64
  deriving DecidableEq, Repr

/-- `ZmqTransport` of a round. -/
def Readings.zmqTransport (r : Readings) : UInt64 := r.zmqReceivedAt - r.arrivedAt

/-- `StrategyRisk` of a round. -/
def Readings.strategyRisk (r : Readings) : UInt64 := r.preQueueAt - r.zmqReceivedAt

/-- Where a consumer is in its round. -/
inductive Round
  | waiting
  /-- With an event out of the payload. -/
  | received (event : MarketEvent)
  /-- `zmq_received_at` is read and `ZmqTransport` recorded. -/
  | timed (event : MarketEvent) (zmqReceivedAt : UInt64)
  /-- The risk manager has let the order through. -/
  | approved (event : MarketEvent) (zmqReceivedAt : UInt64) (order : Order)
  /-- `pre_queue_at` is read, `StrategyRisk` recorded and the order stamped. -/
  | stamped (order : Order) (readings : Readings)
  deriving DecidableEq, Repr

/-- An order that the gateway has taken, with the time at which it did. -/
structure Taken where
  order : Order
  readings : Readings
  dequeuedAt : UInt64
  deriving DecidableEq, Repr

/-- `MpscQueue` of an order. -/
def Taken.mpscQueue (x : Taken) : UInt64 := x.dequeuedAt - x.order.queuedAt

/-- `EndToEnd` of an order. -/
def Taken.endToEnd (x : Taken) : UInt64 := x.dequeuedAt - x.order.arrivedAt

/-- The state.  `timed`, `stamped` and `pushed` are logs of the consumers, `taken` and `executed` of
the gateway: the orders as they came out of the queue, and as `executeOrder` gets them. -/
structure State where
  clock : UInt64
  toPublish : List (MarketEvent × List UInt8) := []
  channel : PubSub.State ℕ ZmqMessage := {}
  risk : RiskState
  strategies : ℕ → SimpleMarketMakingStrategy := fun _ => {}
  rounds : ℕ → Round := fun _ => .waiting
  queue : List (Order × Readings) := []
  /-- The order that is out of the queue, before `dequeued_at` is read. -/
  popped : Option (Order × Readings) := none
  orderIdCounter : UInt64 := 0
  records : List (LatencyMetric × UInt64) := []
  timed : List (ℕ × UInt64 × UInt64) := []
  stamped : List (ℕ × Readings) := []
  pushed : List (ℕ × Order × Readings) := []
  taken : List Taken := []
  executed : List Order := []

/-- The steps. -/
inductive Action (F : Type)
  | tick (now : UInt64)
  | frame (value : Value F) (cut : ℕ)
  | publish (lost : ℕ → Bool)
  | receive (i : ℕ)
  | time (i : ℕ)
  | decide (i : ℕ)
  | stamp (i : ℕ)
  | push (i : ℕ)
  | pop
  | dequeue
  | environment (risk : RiskState)

variable {F : Type}

/-- The step function. -/
def step (d : Doubles F) (rm : RiskManager) (wants : ℕ → ZmqMessage → Bool) (s : State) :
    Action F → Option State
  | .tick now => if s.clock ≤ now then some { s with clock := now } else none
  | .frame value cut =>
      -- `onSourceData` reads the clock; what the decoder then emits is `Frame.events_eq`
      if s.toPublish = [] then
        some { s with toPublish := Frame.events d ⟨value, cut, s.clock⟩ }
      else none
  | .publish lost =>
      match s.toPublish with
      | [] => none
      | x :: rest =>
          some { s with
            toPublish := rest
            channel := PubSub.publish wants s.channel (messageOf x) lost }
  | .receive i =>
      match s.rounds i with
      | .waiting =>
          (PubSub.receive s.channel i).map fun r =>
            { s with
              channel := r.2
              rounds := Function.update s.rounds i (.received r.1.payload) }
      | _ => none
  | .time i =>
      match s.rounds i with
      | .received event =>
          some { s with
            rounds := Function.update s.rounds i (.timed event s.clock)
            records := s.records ++ [(.zmqTransport, s.clock - event.arrivedAt)]
            timed := s.timed ++ [(i, event.arrivedAt, s.clock)] }
      | _ => none
  | .decide i =>
      match s.rounds i with
      | .timed event zmqReceivedAt =>
          let r := (s.strategies i).onMarketEvent event
          let s := { s with strategies := Function.update s.strategies i r.1 }
          match r.2 with
          | none => some { s with rounds := Function.update s.rounds i .waiting }
          | some order =>
              let v := rm.onNewOrder s.risk order s.clock
              some { s with
                risk := v.2
                rounds := Function.update s.rounds i
                  (if v.1 then .approved event zmqReceivedAt order else .waiting) }
      | _ => none
  | .stamp i =>
      match s.rounds i with
      | .approved event zmqReceivedAt order =>
          let readings : Readings := ⟨event.arrivedAt, zmqReceivedAt, s.clock⟩
          some { s with
            rounds := Function.update s.rounds i
              (.stamped { order with arrivedAt := event.arrivedAt, queuedAt := s.clock } readings)
            records := s.records ++ [(.strategyRisk, s.clock - zmqReceivedAt)]
            stamped := s.stamped ++ [(i, readings)] }
      | _ => none
  | .push i =>
      match s.rounds i with
      | .stamped order readings =>
          some { s with
            rounds := Function.update s.rounds i .waiting
            queue := s.queue ++ [(order, readings)]
            pushed := s.pushed ++ [(i, order, readings)] }
      | _ => none
  | .pop =>
      match s.popped, s.queue with
      | none, x :: rest => some { s with popped := some x, queue := rest }
      | _, _ => none
  | .dequeue =>
      match s.popped with
      | some (order, readings) =>
          let counter := s.orderIdCounter + 1
          some { s with
            popped := none
            orderIdCounter := counter
            records := s.records ++ [(.mpscQueue, s.clock - order.queuedAt)] ++
              [(.endToEnd, s.clock - order.arrivedAt)]
            taken := s.taken ++ [⟨order, readings, s.clock⟩]
            executed := s.executed ++ [{ order with id := counter }] }
      | none => none
  | .environment risk => some { s with risk := risk }

/-- The engine with its threads started. -/
def init (clock : UInt64) (risk : RiskState) : State where
  clock := clock
  risk := risk

/-- Everything that a step can do. -/
inductive Stepped (d : Doubles F) (wants : ℕ → ZmqMessage → Bool) (s : State) :
    Action F → State → Prop
  | tick {now : UInt64} (hnow : s.clock ≤ now) :
      Stepped d wants s (.tick now) { s with clock := now }
  | frame {value : Value F} {cut : ℕ} (hempty : s.toPublish = []) :
      Stepped d wants s (.frame value cut)
        { s with toPublish := Frame.events d ⟨value, cut, s.clock⟩ }
  | publish {x : MarketEvent × List UInt8} {rest : List (MarketEvent × List UInt8)}
      (hrest : s.toPublish = x :: rest) (lost : ℕ → Bool) :
      Stepped d wants s (.publish lost)
        { s with
          toPublish := rest
          channel := PubSub.publish wants s.channel (messageOf x) lost }
  | receive {i : ℕ} {m : ZmqMessage} {channel : PubSub.State ℕ ZmqMessage}
      (hi : s.rounds i = .waiting) (hreceive : PubSub.receive s.channel i = some (m, channel)) :
      Stepped d wants s (.receive i)
        { s with
          channel := channel
          rounds := Function.update s.rounds i (.received m.payload) }
  | time {i : ℕ} {event : MarketEvent} (hi : s.rounds i = .received event) :
      Stepped d wants s (.time i)
        { s with
          rounds := Function.update s.rounds i (.timed event s.clock)
          records := s.records ++ [(.zmqTransport, s.clock - event.arrivedAt)]
          timed := s.timed ++ [(i, event.arrivedAt, s.clock)] }
  | decide {i : ℕ} {event : MarketEvent} {zmqReceivedAt : UInt64}
      (hi : s.rounds i = .timed event zmqReceivedAt)
      (strategies : ℕ → SimpleMarketMakingStrategy) (risk : RiskState) {round : Round}
      (hround : round = .waiting ∨ ∃ order, round = .approved event zmqReceivedAt order) :
      Stepped d wants s (.decide i)
        { s with
          strategies := strategies
          risk := risk
          rounds := Function.update s.rounds i round }
  | stamp {i : ℕ} {event : MarketEvent} {zmqReceivedAt : UInt64} {order : Order}
      (hi : s.rounds i = .approved event zmqReceivedAt order) :
      Stepped d wants s (.stamp i)
        { s with
          rounds := Function.update s.rounds i
            (.stamped { order with arrivedAt := event.arrivedAt, queuedAt := s.clock }
              ⟨event.arrivedAt, zmqReceivedAt, s.clock⟩)
          records := s.records ++ [(.strategyRisk, s.clock - zmqReceivedAt)]
          stamped := s.stamped ++ [(i, ⟨event.arrivedAt, zmqReceivedAt, s.clock⟩)] }
  | push {i : ℕ} {order : Order} {readings : Readings} (hi : s.rounds i = .stamped order readings) :
      Stepped d wants s (.push i)
        { s with
          rounds := Function.update s.rounds i .waiting
          queue := s.queue ++ [(order, readings)]
          pushed := s.pushed ++ [(i, order, readings)] }
  | pop {x : Order × Readings} {rest : List (Order × Readings)} (hpopped : s.popped = none)
      (hqueue : s.queue = x :: rest) :
      Stepped d wants s .pop { s with popped := some x, queue := rest }
  | dequeue {order : Order} {readings : Readings} (hpopped : s.popped = some (order, readings)) :
      Stepped d wants s .dequeue
        { s with
          popped := none
          orderIdCounter := s.orderIdCounter + 1
          records := s.records ++ [(.mpscQueue, s.clock - order.queuedAt)] ++
            [(.endToEnd, s.clock - order.arrivedAt)]
          taken := s.taken ++ [⟨order, readings, s.clock⟩]
          executed := s.executed ++ [{ order with id := s.orderIdCounter + 1 }] }
  | environment (risk : RiskState) :
      Stepped d wants s (.environment risk) { s with risk := risk }

/-- **A step does one of these.** -/
theorem stepped_of_step {d : Doubles F} {rm : RiskManager} {wants : ℕ → ZmqMessage → Bool}
    {s t : State} {a : Action F} (h : step d rm wants s a = some t) : Stepped d wants s a t := by
  cases a with
  | tick now =>
      simp only [step, Option.ite_none_right_eq_some, Option.some_inj] at h
      obtain ⟨hnow, rfl⟩ := h
      exact .tick hnow
  | frame value cut =>
      simp only [step, Option.ite_none_right_eq_some, Option.some_inj] at h
      obtain ⟨hempty, rfl⟩ := h
      exact .frame hempty
  | publish lost =>
      simp only [step] at h
      split at h
      · cases h
      · next x rest hrest => exact Option.some_inj.1 h ▸ .publish hrest lost
  | receive i =>
      simp only [step] at h
      split at h
      · next hi =>
          obtain ⟨⟨m, channel⟩, hreceive, rfl⟩ := Option.map_eq_some_iff.1 h
          exact .receive hi hreceive
      · cases h
  | time i =>
      simp only [step] at h
      split at h
      · next event hi => exact Option.some_inj.1 h ▸ .time hi
      · cases h
  | decide i =>
      simp only [step] at h
      split at h
      · next event zmqReceivedAt hi =>
          split at h
          · exact Option.some_inj.1 h ▸ .decide hi _ s.risk (Or.inl rfl)
          · next order horder =>
              refine Option.some_inj.1 h ▸ .decide hi _ _ ?_
              split_ifs
              · exact Or.inr ⟨order, rfl⟩
              · exact Or.inl rfl
      · cases h
  | stamp i =>
      simp only [step] at h
      split at h
      · next event zmqReceivedAt order hi => exact Option.some_inj.1 h ▸ .stamp hi
      · cases h
  | push i =>
      simp only [step] at h
      split at h
      · next order readings hi => exact Option.some_inj.1 h ▸ .push hi
      · cases h
  | pop =>
      simp only [step] at h
      split at h
      · next x rest hpopped hqueue => exact Option.some_inj.1 h ▸ .pop hpopped hqueue
      · cases h
  | dequeue =>
      simp only [step] at h
      split at h
      · next order readings hpopped => exact Option.some_inj.1 h ▸ .dequeue hpopped
      · cases h
  | environment risk => exact Option.some_inj.1 h ▸ .environment risk

/-! ### No reading is later than the clock -/

/-- An order with the readings of its round, all of them in their order and before `bound`. -/
structure Stamped (bound : UInt64) (order : Order) (r : Readings) : Prop where
  arrivedAt : order.arrivedAt = r.arrivedAt
  queuedAt : order.queuedAt = r.preQueueAt
  arrived_le : r.arrivedAt ≤ r.zmqReceivedAt
  received_le : r.zmqReceivedAt ≤ r.preQueueAt
  queued_le : r.preQueueAt ≤ bound

theorem Stamped.mono {bound bound' : UInt64} {order : Order} {r : Readings}
    (h : Stamped bound order r) (hle : bound ≤ bound') : Stamped bound' order r :=
  ⟨h.arrivedAt, h.queuedAt, h.arrived_le, h.received_le, UInt64.le_trans h.queued_le hle⟩

/-- The readings of a round are in their order. -/
def Round.Sound (clock : UInt64) : Round → Prop
  | .waiting => True
  | .received event => event.arrivedAt ≤ clock
  | .timed event zmqReceivedAt => event.arrivedAt ≤ zmqReceivedAt ∧ zmqReceivedAt ≤ clock
  | .approved event zmqReceivedAt _ => event.arrivedAt ≤ zmqReceivedAt ∧ zmqReceivedAt ≤ clock
  | .stamped order readings => Stamped clock order readings

theorem Round.Sound.mono {clock now : UInt64} {round : Round} (h : round.Sound clock)
    (hle : clock ≤ now) : round.Sound now := by
  cases round with
  | waiting => trivial
  | received event => exact UInt64.le_trans h hle
  | timed event zmqReceivedAt => exact ⟨h.1, UInt64.le_trans h.2 hle⟩
  | approved event zmqReceivedAt order => exact ⟨h.1, UInt64.le_trans h.2 hle⟩
  | stamped order readings => exact Stamped.mono h hle

/-- **Nothing on the way is from the future**, and what was taken, was taken after it was pushed. -/
structure Timely (s : State) : Prop where
  toPublish : ∀ x ∈ s.toPublish, x.1.arrivedAt ≤ s.clock
  inbox : ∀ i, ∀ m ∈ s.channel.inbox i, m.payload.arrivedAt ≤ s.clock
  rounds : ∀ i, (s.rounds i).Sound s.clock
  queue : ∀ x ∈ s.queue, Stamped s.clock x.1 x.2
  popped : ∀ x ∈ s.popped, Stamped s.clock x.1 x.2
  taken : ∀ x ∈ s.taken, Stamped x.dequeuedAt x.order x.readings

theorem timely_init (clock : UInt64) (risk : RiskState) : Timely (init clock risk) where
  toPublish _ hx := absurd hx List.not_mem_nil
  inbox _ _ hm := absurd hm List.not_mem_nil
  rounds _ := trivial
  queue _ hx := absurd hx List.not_mem_nil
  popped _ hx := by cases hx
  taken _ hx := absurd hx List.not_mem_nil

variable {d : Doubles F} {wants : ℕ → ZmqMessage → Bool} {s t : State}

/-- The rounds after a step of one consumer. -/
theorem Timely.rounds_update (h : Timely s) (i : ℕ) (round : Round) (hround : round.Sound s.clock)
    (j : ℕ) : (Function.update s.rounds i round j).Sound s.clock := by
  by_cases hj : j = i
  · subst hj
    rwa [Function.update_self]
  · rw [Function.update_of_ne hj]
    exact h.rounds j

theorem Timely.step (h : Timely s) {a : Action F} (hstep : Stepped d wants s a t) : Timely t := by
  cases hstep with
  | tick hnow =>
      exact ⟨fun x hx => UInt64.le_trans (h.toPublish x hx) hnow,
        fun i m hm => UInt64.le_trans (h.inbox i m hm) hnow, fun i => (h.rounds i).mono hnow,
        fun x hx => (h.queue x hx).mono hnow, fun x hx => (h.popped x hx).mono hnow, h.taken⟩
  | frame hempty =>
      refine ⟨fun x hx => ?_, h.inbox, h.rounds, h.queue, h.popped, h.taken⟩
      rw [(Frame.stamped_of_mem_events hx).1]
      exact UInt64.le_refl _
  | @publish x rest hrest lost =>
      refine ⟨fun y hy => h.toPublish y (hrest ▸ List.mem_cons_of_mem x hy), fun i m hm => ?_,
        h.rounds, h.queue, h.popped, h.taken⟩
      rcases PubSub.mem_inbox_publish hm with hold | rfl
      · exact h.inbox i m hold
      · exact h.toPublish x (hrest ▸ List.mem_cons_self)
  | @receive i m channel hi hreceive =>
      obtain ⟨hm, hrest⟩ := PubSub.mem_inbox_receive hreceive
      exact ⟨h.toPublish, fun j m' hm' => h.inbox j m' (hrest j m' hm'),
        h.rounds_update i (.received m.payload) (h.inbox i m hm), h.queue, h.popped, h.taken⟩
  | @time i event hi =>
      have hevent : (Round.received event).Sound s.clock := hi ▸ h.rounds i
      exact ⟨h.toPublish, h.inbox,
        h.rounds_update i (.timed event s.clock) ⟨hevent, UInt64.le_refl _⟩, h.queue,
        h.popped, h.taken⟩
  | @decide i event zmqReceivedAt hi strategies risk round hround =>
      have htimed : (Round.timed event zmqReceivedAt).Sound s.clock := hi ▸ h.rounds i
      refine ⟨h.toPublish, h.inbox, h.rounds_update i round ?_, h.queue, h.popped, h.taken⟩
      rcases hround with rfl | ⟨order, rfl⟩
      · trivial
      · exact htimed
  | @stamp i event zmqReceivedAt order hi =>
      have happroved : (Round.approved event zmqReceivedAt order).Sound s.clock := hi ▸ h.rounds i
      exact ⟨h.toPublish, h.inbox,
        h.rounds_update i (.stamped _ _)
          ⟨rfl, rfl, happroved.1, happroved.2, UInt64.le_refl _⟩, h.queue, h.popped, h.taken⟩
  | @push i order readings hi =>
      have hstamped : (Round.stamped order readings).Sound s.clock := hi ▸ h.rounds i
      refine ⟨h.toPublish, h.inbox, h.rounds_update i .waiting trivial, fun x hx => ?_,
        h.popped, h.taken⟩
      rcases List.mem_append.1 hx with hold | hnew
      · exact h.queue x hold
      · rw [List.mem_singleton.1 hnew]
        exact hstamped
  | @pop x rest hpopped hqueue =>
      refine ⟨h.toPublish, h.inbox, h.rounds,
        fun y hy => h.queue y (hqueue ▸ List.mem_cons_of_mem x hy), fun y hy => ?_, h.taken⟩
      obtain rfl := Option.some_inj.1 hy
      exact h.queue x (hqueue ▸ List.mem_cons_self)
  | @dequeue order readings hpopped =>
      refine ⟨h.toPublish, h.inbox, h.rounds, h.queue, fun x hx => ?_, fun x hx => ?_⟩
      · cases hx
      · rcases List.mem_append.1 hx with hold | hnew
        · exact h.taken x hold
        · rw [List.mem_singleton.1 hnew]
          exact h.popped (order, readings) hpopped
  | environment risk => exact ⟨h.toPublish, h.inbox, h.rounds, h.queue, h.popped, h.taken⟩

/-! ### What is recorded -/

/-- The readings of an order that is stamped and not yet pushed. -/
def Round.held : Round → List Readings
  | .stamped _ readings => [readings]
  | _ => []

/-- The two readings of a round that is not yet decided, or not yet stamped. -/
def Round.begun : Round → List (UInt64 × UInt64)
  | .timed event zmqReceivedAt => [(event.arrivedAt, zmqReceivedAt)]
  | .approved event zmqReceivedAt _ => [(event.arrivedAt, zmqReceivedAt)]
  | _ => []

/-- **The queue is first in, first out, and every value is recorded once**: the orders that were
pushed are those that were taken, the one that is popped and those in the queue; a consumer stamps
what it pushes, and the rounds in which it stamps are among those in which it has received
something. -/
structure Logged (s : State) : Prop where
  fifo : s.pushed.map Prod.snd =
    s.taken.map (fun x => (x.order, x.readings)) ++ s.popped.toList ++ s.queue
  counter : s.orderIdCounter = UInt64.ofNat s.taken.length
  executed : s.executed = Stopping.numbered (s.taken.map Taken.order)
  endToEnd : valuesOf .endToEnd s.records = s.taken.map Taken.endToEnd
  mpscQueue : valuesOf .mpscQueue s.records = s.taken.map Taken.mpscQueue
  strategyRisk : valuesOf .strategyRisk s.records = s.stamped.map fun x => x.2.strategyRisk
  zmqTransport : valuesOf .zmqTransport s.records = s.timed.map fun x => x.2.2 - x.2.1
  stamped : ∀ i, Runs.entries s.stamped i =
    (Runs.entries s.pushed i).map Prod.snd ++ (s.rounds i).held
  timed : ∀ i, ((Runs.entries s.stamped i).map (fun r => (r.arrivedAt, r.zmqReceivedAt)) ++
    (s.rounds i).begun).Sublist (Runs.entries s.timed i)

theorem logged_init (clock : UInt64) (risk : RiskState) : Logged (init clock risk) where
  fifo := rfl
  counter := rfl
  executed := rfl
  endToEnd := rfl
  mpscQueue := rfl
  strategyRisk := rfl
  zmqTransport := rfl
  stamped _ := rfl
  timed _ := List.Sublist.refl _

/-- A record of another metric. -/
theorem valuesOf_concat_of_ne {metric metric' : LatencyMetric} (h : metric ≠ metric')
    (records : List (LatencyMetric × UInt64)) (value : UInt64) :
    valuesOf metric (records ++ [(metric', value)]) = valuesOf metric records :=
  Runs.entries_concat_of_ne h records value

theorem valuesOf_concat_self (metric : LatencyMetric) (records : List (LatencyMetric × UInt64))
    (value : UInt64) :
    valuesOf metric (records ++ [(metric, value)]) = valuesOf metric records ++ [value] :=
  Runs.entries_concat_self records metric value

/-- A step that leaves the logs alone and brings a round to one that holds no more than before. -/
theorem Logged.of_round (h : Logged s) (i : ℕ) (round : Round)
    (hheld : round.held = (s.rounds i).held) (hbegun : round.begun.Sublist (s.rounds i).begun)
    (j : ℕ) :
    Runs.entries s.stamped j =
        (Runs.entries s.pushed j).map Prod.snd ++ (Function.update s.rounds i round j).held ∧
      ((Runs.entries s.stamped j).map (fun r => (r.arrivedAt, r.zmqReceivedAt)) ++
        (Function.update s.rounds i round j).begun).Sublist (Runs.entries s.timed j) := by
  by_cases hj : j = i
  · subst hj
    rw [Function.update_self, hheld]
    exact ⟨h.stamped j, ((List.Sublist.refl _).append hbegun).trans (h.timed j)⟩
  · rw [Function.update_of_ne hj]
    exact ⟨h.stamped j, h.timed j⟩

/-- The event of a round is timed. -/
theorem Logged.time (h : Logged s) {i : ℕ} {event : MarketEvent}
    (hi : s.rounds i = .received event) :
    Logged { s with
      rounds := Function.update s.rounds i (.timed event s.clock)
      records := s.records ++ [(.zmqTransport, s.clock - event.arrivedAt)]
      timed := s.timed ++ [(i, event.arrivedAt, s.clock)] } := by
  refine ⟨h.fifo, h.counter, h.executed, ?_, ?_, ?_, ?_, fun j => ?_, fun j => ?_⟩
  · rw [valuesOf_concat_of_ne (by decide), h.endToEnd]
  · rw [valuesOf_concat_of_ne (by decide), h.mpscQueue]
  · rw [valuesOf_concat_of_ne (by decide), h.strategyRisk]
  · rw [valuesOf_concat_self, h.zmqTransport, List.map_append]
    rfl
  · by_cases hj : j = i
    · subst hj
      have hstamped := h.stamped j
      rw [hi] at hstamped
      simpa [Round.held] using hstamped
    · simpa [hj] using h.stamped j
  · by_cases hj : j = i
    · subst hj
      have htimed := h.timed j
      rw [hi] at htimed
      simp only [Round.begun, List.append_nil] at htimed
      simp only [Function.update_self, Round.begun, Runs.entries_concat_self]
      exact htimed.append (List.Sublist.refl _)
    · simpa [hj, Runs.entries_concat_of_ne hj] using h.timed j

/-- The order of a round is stamped. -/
theorem Logged.stamp (h : Logged s) {i : ℕ} {event : MarketEvent} {zmqReceivedAt : UInt64}
    {order : Order} (hi : s.rounds i = .approved event zmqReceivedAt order) :
    Logged { s with
      rounds := Function.update s.rounds i
        (.stamped { order with arrivedAt := event.arrivedAt, queuedAt := s.clock }
          ⟨event.arrivedAt, zmqReceivedAt, s.clock⟩)
      records := s.records ++ [(.strategyRisk, s.clock - zmqReceivedAt)]
      stamped := s.stamped ++ [(i, ⟨event.arrivedAt, zmqReceivedAt, s.clock⟩)] } := by
  refine ⟨h.fifo, h.counter, h.executed, ?_, ?_, ?_, ?_, fun j => ?_, fun j => ?_⟩
  · rw [valuesOf_concat_of_ne (by decide), h.endToEnd]
  · rw [valuesOf_concat_of_ne (by decide), h.mpscQueue]
  · rw [valuesOf_concat_self, h.strategyRisk, List.map_append]
    rfl
  · rw [valuesOf_concat_of_ne (by decide), h.zmqTransport]
  · by_cases hj : j = i
    · subst hj
      have hstamped := h.stamped j
      rw [hi] at hstamped
      simp only [Round.held, List.append_nil] at hstamped
      simp only [Function.update_self, Round.held, Runs.entries_concat_self, hstamped]
    · simpa [hj, Runs.entries_concat_of_ne hj] using h.stamped j
  · by_cases hj : j = i
    · subst hj
      have htimed := h.timed j
      rw [hi] at htimed
      simpa [Round.begun, Runs.entries_concat_self] using htimed
    · simpa [hj, Runs.entries_concat_of_ne hj] using h.timed j

/-- The order of a round is pushed. -/
theorem Logged.push (h : Logged s) {i : ℕ} {order : Order} {readings : Readings}
    (hi : s.rounds i = .stamped order readings) :
    Logged { s with
      rounds := Function.update s.rounds i .waiting
      queue := s.queue ++ [(order, readings)]
      pushed := s.pushed ++ [(i, order, readings)] } := by
  refine ⟨?_, h.counter, h.executed, h.endToEnd, h.mpscQueue, h.strategyRisk,
    h.zmqTransport, fun j => ?_, fun j => ?_⟩
  · simp only [List.map_append, h.fifo, List.append_assoc]
    rfl
  · by_cases hj : j = i
    · subst hj
      have hstamped := h.stamped j
      rw [hi] at hstamped
      simpa [Round.held, Runs.entries_concat_self] using hstamped
    · simpa [hj, Runs.entries_concat_of_ne hj] using h.stamped j
  · by_cases hj : j = i
    · subst hj
      have htimed := h.timed j
      rw [hi] at htimed
      simpa [Round.begun] using htimed
    · simpa [hj] using h.timed j

/-- The gateway stamps the order that it has popped. -/
theorem Logged.dequeue (h : Logged s) {order : Order} {readings : Readings}
    (hpopped : s.popped = some (order, readings)) :
    Logged { s with
      popped := none
      orderIdCounter := s.orderIdCounter + 1
      records := s.records ++ [(.mpscQueue, s.clock - order.queuedAt)] ++
        [(.endToEnd, s.clock - order.arrivedAt)]
      taken := s.taken ++ [⟨order, readings, s.clock⟩]
      executed := s.executed ++ [{ order with id := s.orderIdCounter + 1 }] } := by
  refine ⟨?_, ?_, ?_, ?_, ?_, ?_, ?_, h.stamped, h.timed⟩
  · have hfifo := h.fifo
    rw [hpopped] at hfifo
    simpa using hfifo
  · rw [h.counter, List.length_append]
    simp
  · simp only [List.map_append, List.map_cons, List.map_nil]
    rw [Stopping.numbered_concat, h.executed, h.counter, List.length_map]
    simp
  · rw [valuesOf_concat_self, valuesOf_concat_of_ne (by decide), h.endToEnd, List.map_append]
    rfl
  · rw [valuesOf_concat_of_ne (by decide), valuesOf_concat_self, h.mpscQueue, List.map_append]
    rfl
  · rw [valuesOf_concat_of_ne (by decide), valuesOf_concat_of_ne (by decide), h.strategyRisk]
  · rw [valuesOf_concat_of_ne (by decide), valuesOf_concat_of_ne (by decide), h.zmqTransport]

theorem Logged.step (h : Logged s) {a : Action F} (hstep : Stepped d wants s a t) : Logged t := by
  cases hstep with
  | tick hnow =>
      exact ⟨h.fifo, h.counter, h.executed, h.endToEnd, h.mpscQueue, h.strategyRisk,
        h.zmqTransport, h.stamped, h.timed⟩
  | frame hempty =>
      exact ⟨h.fifo, h.counter, h.executed, h.endToEnd, h.mpscQueue, h.strategyRisk,
        h.zmqTransport, h.stamped, h.timed⟩
  | publish hrest lost =>
      exact ⟨h.fifo, h.counter, h.executed, h.endToEnd, h.mpscQueue, h.strategyRisk,
        h.zmqTransport, h.stamped, h.timed⟩
  | @receive i m channel hi hreceive =>
      have hround := h.of_round i (.received m.payload) (by rw [hi]; rfl)
        (List.nil_sublist _)
      exact ⟨h.fifo, h.counter, h.executed, h.endToEnd, h.mpscQueue, h.strategyRisk,
        h.zmqTransport, fun j => (hround j).1, fun j => (hround j).2⟩
  | time hi => exact h.time hi
  | @decide i event zmqReceivedAt hi strategies risk round hround =>
      have hlogs := h.of_round i round
        (by rw [hi]; rcases hround with rfl | ⟨order, rfl⟩ <;> rfl)
        (by
          rw [hi]
          rcases hround with rfl | ⟨order, rfl⟩
          · exact List.nil_sublist _
          · exact List.Sublist.refl _)
      exact ⟨h.fifo, h.counter, h.executed, h.endToEnd, h.mpscQueue, h.strategyRisk,
        h.zmqTransport, fun j => (hlogs j).1, fun j => (hlogs j).2⟩
  | stamp hi => exact h.stamp hi
  | push hi => exact h.push hi
  | @pop x rest hpopped hqueue =>
      refine ⟨?_, h.counter, h.executed, h.endToEnd, h.mpscQueue, h.strategyRisk,
        h.zmqTransport, h.stamped, h.timed⟩
      have hfifo := h.fifo
      rw [hpopped, hqueue] at hfifo
      simpa using hfifo
  | dequeue hpopped => exact h.dequeue hpopped
  | environment risk =>
      exact ⟨h.fifo, h.counter, h.executed, h.endToEnd, h.mpscQueue, h.strategyRisk,
        h.zmqTransport, h.stamped, h.timed⟩

theorem Round.length_held_le (round : Round) : round.held.length ≤ 1 := by
  cases round <;> simp [held]

/-- The difference of two readings in their order does not wrap around. -/
theorem toNat_sub_readings {a b c : UInt64} (hab : a ≤ b) (hbc : b ≤ c) :
    (c - a).toNat = (b - a).toNat + (c - b).toNat := by
  have hab' := UInt64.le_iff_toNat_le.1 hab
  have hbc' := UInt64.le_iff_toNat_le.1 hbc
  rw [UInt64.toNat_sub_of_le _ _ (UInt64.le_trans hab hbc), UInt64.toNat_sub_of_le _ _ hab,
    UInt64.toNat_sub_of_le _ _ hbc]
  omega

/-- **The stages of an order add up.** -/
theorem Stamped.endToEnd_eq {x : Taken} (h : Stamped x.dequeuedAt x.order x.readings) :
    x.endToEnd.toNat = x.readings.zmqTransport.toNat + x.readings.strategyRisk.toNat +
      x.mpscQueue.toNat := by
  rw [Taken.endToEnd, Taken.mpscQueue, h.arrivedAt, h.queuedAt,
    toNat_sub_readings (UInt64.le_trans h.arrived_le h.received_le) h.queued_le,
    toNat_sub_readings h.arrived_le h.received_le]
  rfl

end HotPath

/-- **The recorded latencies add up.**  However the threads take their steps, whatever is lost and
whatever the risk manager decides: the gateway takes the orders as they were pushed and numbers
them; it records `MpscQueue` and `EndToEnd` for each of them, and the consumers have recorded
`StrategyRisk` for what they push, and `ZmqTransport` for what they receive; and for every order
that the gateway has taken, the end-to-end time is the sum of the other three, none of which has
wrapped around. -/
theorem latencies_add_up {F : Type} (d : Doubles F) (rm : RiskManager)
    (wants : ℕ → ZmqMessage → Bool) (clock : UInt64) (risk : RiskState)
    (as : List (HotPath.Action F)) (s : HotPath.State)
    (hrun : Runs.exec (HotPath.step d rm wants) (HotPath.init clock risk) as = some s) :
    s.taken.map (fun x => (x.order, x.readings)) <+: s.pushed.map Prod.snd ∧
      s.executed = Stopping.numbered (s.taken.map HotPath.Taken.order) ∧
      valuesOf .endToEnd s.records = s.taken.map HotPath.Taken.endToEnd ∧
      valuesOf .mpscQueue s.records = s.taken.map HotPath.Taken.mpscQueue ∧
      valuesOf .strategyRisk s.records = s.stamped.map (fun x => x.2.strategyRisk) ∧
      valuesOf .zmqTransport s.records = s.timed.map (fun x => x.2.2 - x.2.1) ∧
      (∀ i, ∃ held, held.length ≤ 1 ∧
        Runs.entries s.stamped i = (Runs.entries s.pushed i).map Prod.snd ++ held) ∧
      (∀ i, ((Runs.entries s.stamped i).map fun r => (r.arrivedAt, r.zmqReceivedAt)).Sublist
        (Runs.entries s.timed i)) ∧
      ∀ x ∈ s.taken,
        x.readings.arrivedAt ≤ x.readings.zmqReceivedAt ∧
          x.readings.zmqReceivedAt ≤ x.readings.preQueueAt ∧
          x.readings.preQueueAt ≤ x.dequeuedAt ∧
          x.endToEnd.toNat = x.readings.zmqTransport.toNat + x.readings.strategyRisk.toNat +
            x.mpscQueue.toNat := by
  have htimely : HotPath.Timely s :=
    Runs.exec_inv (fun _ _ _ h hst => h.step (HotPath.stepped_of_step hst))
      (HotPath.timely_init clock risk) hrun
  have hlogged : HotPath.Logged s :=
    Runs.exec_inv (fun _ _ _ h hst => h.step (HotPath.stepped_of_step hst))
      (HotPath.logged_init clock risk) hrun
  refine ⟨?_, hlogged.executed, hlogged.endToEnd, hlogged.mpscQueue, hlogged.strategyRisk,
    hlogged.zmqTransport, fun i => ?_, fun i => ?_, fun x hx => ?_⟩
  · rw [hlogged.fifo, List.append_assoc]
    exact List.prefix_append _ _
  · exact ⟨_, (s.rounds i).length_held_le, hlogged.stamped i⟩
  · exact (List.sublist_append_left _ _).trans (hlogged.timed i)
  · have hstamped := htimely.taken x hx
    exact ⟨hstamped.arrived_le, hstamped.received_le, hstamped.queued_le, hstamped.endToEnd_eq⟩

/-- A trade that arrives at 7, is received at 10, approved, pushed at 200000015 and taken at
200000030. -/
def oneTrade : List (HotPath.Action ℕ) :=
  [.frame (.array [.map tradePairs]) 100, .publish fun _ => false, .tick 10, .receive 0, .time 0,
    .tick 200000000, .decide 0, .tick 200000015, .stamp 0, .push 0, .pop, .tick 200000030, .dequeue]

theorem latencies_add_up_for_one_trade :
    ∃ s, Runs.exec (HotPath.step wholeDoubles ⟨1000, 10000⟩ fun i _ => i = 0)
        (HotPath.init 7 (RiskState.wire [[65, 65, 80, 76]] 100000000)) oneTrade = some s ∧
      valuesOf .endToEnd s.records = [200000023] ∧
      valuesOf .zmqTransport s.records = [3] ∧ valuesOf .strategyRisk s.records = [200000005] ∧
      valuesOf .mpscQueue s.records = [15] ∧
      ∀ x ∈ s.taken, x.endToEnd.toNat = x.readings.zmqTransport.toNat +
        x.readings.strategyRisk.toNat + x.mpscQueue.toNat := by
  have hvalues : (Runs.exec (HotPath.step wholeDoubles ⟨1000, 10000⟩ fun i _ => i = 0)
      (HotPath.init 7 (RiskState.wire [[65, 65, 80, 76]] 100000000)) oneTrade).any (fun s =>
        valuesOf .endToEnd s.records = [200000023] ∧
        valuesOf .zmqTransport s.records = [3] ∧ valuesOf .strategyRisk s.records = [200000005] ∧
        valuesOf .mpscQueue s.records = [15]) = true := by decide +kernel
  obtain ⟨s, hrun, hs⟩ := (Option.any_eq_true _ _).1 hvalues
  obtain ⟨hend, hzmq, hrisk, hqueue⟩ := of_decide_eq_true hs
  have h := latencies_add_up wholeDoubles _ _ _ _ _ s hrun
  exact ⟨s, hrun, hend, hzmq, hrisk, hqueue, fun x hx => (h.2.2.2.2.2.2.2.2 x hx).2.2.2⟩

end Trading
