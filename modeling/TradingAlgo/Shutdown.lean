/-
**Stopping the engine.**

The consumers and the gateway watch the same flag and nothing orders their exits.  A consumer looks
at `is_running_` once in a round, and then receives, decides and pushes; `OrderGateway::run` leaves
its wait loop when the flag is cleared and the queue is empty, and executes what `try_pop` still
finds.  A consumer whose round began before the flag was cleared may push after that.

The model puts the threads around the queue of `TradingAlgo/MpscQueue.lean`, whose atomic steps it
keeps.  What other threads do to the positions is left open: any state of them may come about at any
time, so a decision whose loads are interleaved with other threads is one in some such state.

Main definitions:

* `Trading.Stopping.State`, `Trading.Stopping.step` — the consumers, the queue and the gateway;
* `Trading.Stopping.Stepped` — everything that a step can do;
* `Trading.Stopping.InTime` — the condition on a step: no order is approved after `run` has
  returned, and at its last load no approved order is on the way into the queue;
* `Trading.Stopping.Inv` — where the approved orders are.

Main results:

* `Trading.no_order_lost_iff` — when all threads have ended, every approved order has been executed
  exactly once if and only if every step of the run was in time.
-/

import TradingAlgo.Engine
import TradingAlgo.MpscFifo

set_option relaxedAutoImplicit false
set_option autoImplicit false

namespace Trading

/-- `Order{}`. -/
instance : Inhabited Order :=
  ⟨{ symbol := CharArray.ofBytes 8 [], quantity := 0, side := .buy }⟩

namespace Stopping

variable {n : ℕ}

/-- Where a consumer stands in `MarketEventConsumer::run`. -/
inductive Thread
  | checking
  | receiving
  | deciding (message : ZmqMessage)
  | approved (order : Order)
  | pushing
  | exited
  deriving DecidableEq, Repr

/-- Whether a consumer has an approved order that is not, or not yet wholly, in the queue. -/
def Thread.carries : Thread → Bool
  | .approved _ => true
  | .pushing => true
  | _ => false

/-- The order that a consumer is about to push. -/
def Thread.waiting : Thread → List Order
  | .approved order => [order]
  | _ => []

/-- The two loops of `OrderGateway::run`. -/
inductive Loop
  | wait
  | drain
  deriving DecidableEq, Repr

/-- The call at the head of a loop. -/
def Loop.call : Loop → Mpsc.Call
  | .wait => .waitAndPopWhile
  | .drain => .tryPop

/-- Where the gateway stands in `run`. -/
inductive Gateway
  | calling (loop : Loop)
  | popping (loop : Loop)
  | executing (loop : Loop) (order : Order)
  | finished
  deriving DecidableEq, Repr

/-- What follows a loop. -/
def Loop.after : Loop → Gateway
  | .wait => .calling .drain
  | .drain => .finished

/-- The threads and what they share; `is_running_` is the flag of the queue's state.  `approved`
are the orders that the risk manager approved, with their consumers, and `executed` the orders that
were passed to `executeOrder`. -/
structure State (n : ℕ) where
  queue : Mpsc.State n Order := Mpsc.init n Order
  risk : RiskState
  consumers : Fin n → MarketEventConsumer
  thread : Fin n → Thread := fun _ => .checking
  gateway : Gateway := .calling .wait
  orderIdCounter : UInt64 := 0
  approved : List (Fin n × Order) := []
  executed : List Order := []

/-- The steps. -/
inductive Action (n : ℕ)
  /-- Someone clears `is_running_`. -/
  | clear
  /-- The other threads change the positions. -/
  | environment (risk : RiskState)
  /-- `is_running_.load()` at the head of a consumer's loop. -/
  | check (i : Fin n)
  /-- A consumer receives a message, or nothing that it can use. -/
  | receive (i : Fin n) (message : Option ZmqMessage)
  /-- The strategy and the risk manager decide on the message. -/
  | decide (i : Fin n) (now preQueueAt : UInt64)
  /-- The three steps of `push`. -/
  | allocate (i : Fin n) (node : Mpsc.Addr)
  | exchange (i : Fin n)
  | link (i : Fin n)
  /-- The next step of the gateway. -/
  | gateway

/-- What a consumer makes of the message that it has received. -/
def decision (rm : RiskManager) (s : State n) (i : Fin n) (now preQueueAt : UInt64) :
    Option (MarketEventConsumer × RiskState × Option Order) :=
  match s.thread i with
  | .deciding message => some ((s.consumers i).onMessage rm s.risk message now preQueueAt)
  | _ => none

/-- A consumer after the decision. -/
def Thread.afterDecision : Option Order → Thread
  | none => .checking
  | some order => .approved order

/-- Where the gateway goes on after a step of its pop. -/
def Gateway.afterPop (loop : Loop) : Mpsc.Consumer Order → Gateway
  | .returned _ (some order) => .executing loop order
  | .returned _ none => loop.after
  | _ => .popping loop

/-- The next step of `OrderGateway::run`. -/
def gatewayStep (s : State n) : Option (State n) :=
  match s.gateway with
  | .calling loop =>
      (Mpsc.step s.queue (.call loop.call)).map fun queue =>
        { s with queue := queue, gateway := .popping loop }
  | .popping loop =>
      (Mpsc.step s.queue .consume).map fun queue =>
        { s with queue := queue, gateway := .afterPop loop queue.consumer }
  | .executing loop order =>
      some { s with
        orderIdCounter := s.orderIdCounter + 1
        executed := s.executed ++ [{ order with id := s.orderIdCounter + 1 }]
        gateway := .calling loop }
  | .finished => none

/-- The step function. -/
def step (rm : RiskManager) (s : State n) : Action n → Option (State n)
  | .clear => (Mpsc.step s.queue (.setRunning false)).map fun queue => { s with queue := queue }
  | .environment risk => some { s with risk := risk }
  | .check i =>
      if s.thread i = .checking then
        some { s with
          thread := Function.update s.thread i
            (if s.queue.running then .receiving else .exited) }
      else none
  | .receive i none =>
      if s.thread i = .receiving then
        some { s with thread := Function.update s.thread i .checking }
      else none
  | .receive i (some message) =>
      if s.thread i = .receiving ∧ (s.consumers i).receives message then
        some { s with thread := Function.update s.thread i (.deciding message) }
      else none
  | .decide i now preQueueAt =>
      (decision rm s i now preQueueAt).map fun r =>
        { s with
          risk := r.2.1
          consumers := Function.update s.consumers i r.1
          thread := Function.update s.thread i (.afterDecision r.2.2)
          approved := s.approved ++ (r.2.2.map (Prod.mk i)).toList }
  | .allocate i node =>
      match s.thread i with
      | .approved order =>
          (Mpsc.step s.queue (.allocate i order node)).map fun queue =>
            { s with queue := queue, thread := Function.update s.thread i .pushing }
      | _ => none
  | .exchange i =>
      (Mpsc.step s.queue (.exchange i)).map fun queue => { s with queue := queue }
  | .link i =>
      (Mpsc.step s.queue (.link i)).map fun queue =>
        { s with queue := queue, thread := Function.update s.thread i .checking }
  | .gateway => gatewayStep s

/-- Everything that a step can do. -/
inductive Stepped (rm : RiskManager) (s : State n) : Action n → State n → Prop
  | clear {queue : Mpsc.State n Order}
      (hqueue : Mpsc.step s.queue (.setRunning false) = some queue) :
      Stepped rm s .clear { s with queue := queue }
  | environment (risk : RiskState) : Stepped rm s (.environment risk) { s with risk := risk }
  /-- A consumer looks at the flag or receives. -/
  | turn {a : Action n} {i : Fin n} {x : Thread} (ha : a ≠ .gateway)
      (hi : ¬ (s.thread i).carries) (hx : ¬ x.carries) :
      Stepped rm s a { s with thread := Function.update s.thread i x }
  | decide {i : Fin n} {now preQueueAt : UInt64}
      {r : MarketEventConsumer × RiskState × Option Order}
      (hr : decision rm s i now preQueueAt = some r) :
      Stepped rm s (.decide i now preQueueAt)
        { s with
          risk := r.2.1
          consumers := Function.update s.consumers i r.1
          thread := Function.update s.thread i (.afterDecision r.2.2)
          approved := s.approved ++ (r.2.2.map (Prod.mk i)).toList }
  | allocate {i : Fin n} {node : Mpsc.Addr} {order : Order} {queue : Mpsc.State n Order}
      (hi : s.thread i = .approved order)
      (hqueue : Mpsc.step s.queue (.allocate i order node) = some queue) :
      Stepped rm s (.allocate i node)
        { s with queue := queue, thread := Function.update s.thread i .pushing }
  | exchange {i : Fin n} {queue : Mpsc.State n Order}
      (hqueue : Mpsc.step s.queue (.exchange i) = some queue) :
      Stepped rm s (.exchange i) { s with queue := queue }
  | link {i : Fin n} {queue : Mpsc.State n Order}
      (hqueue : Mpsc.step s.queue (.link i) = some queue) :
      Stepped rm s (.link i)
        { s with queue := queue, thread := Function.update s.thread i .checking }
  | gateway {t : State n} (hgateway : gatewayStep s = some t) : Stepped rm s .gateway t

/-- **A step does one of these.** -/
theorem stepped_of_step {rm : RiskManager} {s t : State n} {a : Action n}
    (h : step rm s a = some t) : Stepped rm s a t := by
  cases a with
  | clear =>
      simp only [step] at h
      obtain ⟨queue, hqueue, rfl⟩ := Option.map_eq_some_iff.1 h
      exact .clear hqueue
  | environment risk => exact Option.some_inj.1 h ▸ .environment risk
  | check i =>
      simp only [step, Option.ite_none_right_eq_some, Option.some_inj] at h
      obtain ⟨hi, rfl⟩ := h
      exact .turn (by simp) (by simp [hi, Thread.carries]) (by split_ifs <;> simp [Thread.carries])
  | receive i message =>
      cases message with
      | none =>
          simp only [step, Option.ite_none_right_eq_some, Option.some_inj] at h
          obtain ⟨hi, rfl⟩ := h
          exact .turn (by simp) (by simp [hi, Thread.carries]) (by simp [Thread.carries])
      | some message =>
          simp only [step, Option.ite_none_right_eq_some, Option.some_inj] at h
          obtain ⟨⟨hi, -⟩, rfl⟩ := h
          exact .turn (by simp) (by simp [hi, Thread.carries]) (by simp [Thread.carries])
  | decide i now preQueueAt =>
      obtain ⟨r, hr, rfl⟩ := Option.map_eq_some_iff.1 h
      exact .decide hr
  | allocate i node =>
      cases hi : s.thread i with
      | approved order =>
          simp only [step, hi] at h
          obtain ⟨queue, hqueue, rfl⟩ := Option.map_eq_some_iff.1 h
          exact .allocate hi hqueue
      | _ => simp [step, hi] at h
  | exchange i =>
      obtain ⟨queue, hqueue, rfl⟩ := Option.map_eq_some_iff.1 h
      exact .exchange hqueue
  | link i =>
      obtain ⟨queue, hqueue, rfl⟩ := Option.map_eq_some_iff.1 h
      exact .link hqueue
  | gateway => exact .gateway h

/-- Everything that a step of the gateway can do. -/
inductive GatewayStepped (s : State n) : State n → Prop
  | called {loop : Loop} {queue : Mpsc.State n Order} (hg : s.gateway = .calling loop)
      (hqueue : Mpsc.step s.queue (.call loop.call) = some queue) :
      GatewayStepped s { s with queue := queue, gateway := .popping loop }
  | popped {loop : Loop} {queue : Mpsc.State n Order} (hg : s.gateway = .popping loop)
      (hqueue : Mpsc.step s.queue .consume = some queue) :
      GatewayStepped s { s with queue := queue, gateway := .afterPop loop queue.consumer }
  | executed {loop : Loop} {order : Order} (hg : s.gateway = .executing loop order) :
      GatewayStepped s
        { s with
          orderIdCounter := s.orderIdCounter + 1
          executed := s.executed ++ [{ order with id := s.orderIdCounter + 1 }]
          gateway := .calling loop }

theorem gatewayStepped_of_gatewayStep {s t : State n} (h : gatewayStep s = some t) :
    GatewayStepped s t := by
  cases hg : s.gateway with
  | calling loop =>
      simp only [gatewayStep, hg] at h
      obtain ⟨queue, hqueue, rfl⟩ := Option.map_eq_some_iff.1 h
      exact .called hg hqueue
  | popping loop =>
      simp only [gatewayStep, hg] at h
      obtain ⟨queue, hqueue, rfl⟩ := Option.map_eq_some_iff.1 h
      exact .popped hg hqueue
  | executing loop order =>
      simp only [gatewayStep, hg, Option.some_inj] at h
      exact h ▸ .executed hg
  | finished => simp [gatewayStep, hg] at h

/-- The gateway is at the load of `try_pop` that finds no node: `run` returns after it. -/
def AtLastLoad (s : State n) : Prop :=
  s.gateway = .popping .drain ∧ s.queue.consumer = .loadingNext .tryPop ∧
    Mpsc.nextOf s.queue.heap s.queue.tail = none

/-- The condition on a step: no order is approved after `run` has returned, and at its last load
no approved order is on the way into the queue. -/
def InTime (rm : RiskManager) (s : State n) : Action n → Prop
  | .decide i now preQueueAt =>
      s.gateway = .finished → (decision rm s i now preQueueAt).bind (·.2.2) = none
  | .gateway => AtLastLoad s → ∀ i, ¬ (s.thread i).carries
  | _ => True

instance (s : State n) : Decidable (AtLastLoad s) :=
  inferInstanceAs (Decidable (_ ∧ _ ∧ _))

instance (rm : RiskManager) (s : State n) (a : Action n) : Decidable (InTime rm s a) :=
  match a with
  | .decide i now preQueueAt =>
      inferInstanceAs (Decidable (s.gateway = .finished →
        (decision rm s i now preQueueAt).bind (·.2.2) = none))
  | .gateway => inferInstanceAs (Decidable (AtLastLoad s → ∀ i, ¬ (s.thread i).carries))
  | .clear => isTrue trivial
  | .environment _ => isTrue trivial
  | .check _ => isTrue trivial
  | .receive _ _ => isTrue trivial
  | .allocate _ _ => isTrue trivial
  | .exchange _ => isTrue trivial
  | .link _ => isTrue trivial

/-- All consumers have exited and `run` has returned. -/
def Ended (s : State n) : Prop := s.gateway = .finished ∧ ∀ i, s.thread i = .exited

instance (s : State n) : Decidable (Ended s) := inferInstanceAs (Decidable (_ ∧ _))

/-- The orders as the gateway numbers them, one after the other. -/
def numbered (orders : List Order) : List Order :=
  orders.mapIdx fun k order => { order with id := UInt64.ofNat (k + 1) }

/-- Every approved order was executed exactly once: what was executed are the approved orders in
some order, numbered. -/
def ExecutedOnce (s : State n) : Prop :=
  ∃ orders, orders.Perm (s.approved.map Prod.snd) ∧ s.executed = numbered orders

/-! ### Where the orders are -/

/-- The order that the gateway has taken out of the queue and not yet executed. -/
def inHand (s : State n) : List Order :=
  match s.gateway with
  | .popping _ => s.queue.consumer.inHand
  | .executing _ order => [order]
  | _ => []

/-- **The invariant.**  An approved order is with its consumer, in the queue, in the gateway's hand
or executed. -/
structure Inv (s : State n) : Prop where
  queue : ∃ chain, Mpsc.Inv s.queue chain
  issued : Mpsc.Issued s.queue
  idle : ∀ i, s.thread i ≠ .pushing ↔ s.queue.producer i = .idle
  approved : ∀ i, Runs.entries s.approved i = s.queue.issued i ++ (s.thread i).waiting
  popping : ∀ loop, s.gateway = .popping loop → s.queue.consumer.call? = some loop.call
  executed : ∃ orders, s.queue.popped = orders ++ inHand s ∧ s.executed = numbered orders
  counter : s.orderIdCounter = UInt64.ofNat s.executed.length

/-- The engine after its start. -/
def init (risk : RiskState) (consumers : Fin n → MarketEventConsumer) : State n where
  risk := risk
  consumers := consumers

theorem inv_init (risk : RiskState) (consumers : Fin n → MarketEventConsumer) :
    Inv (init risk consumers) where
  queue := ⟨_, Mpsc.inv_init⟩
  issued := fun _ => rfl
  idle := fun _ => by simp [init, Mpsc.init]
  approved := fun _ => rfl
  popping := fun loop h => by cases h
  executed := ⟨[], rfl, rfl⟩
  counter := rfl

theorem numbered_concat (orders : List Order) (order : Order) :
    numbered (orders ++ [order]) =
      numbered orders ++ [{ order with id := UInt64.ofNat (orders.length + 1) }] := by
  simp [numbered, List.mapIdx_append]

@[simp] theorem length_numbered (orders : List Order) :
    (numbered orders).length = orders.length := by
  simp [numbered]

section Steps

variable {rm : RiskManager} {s t : State n}

/-- A consumer moves on and does not touch the queue. -/
theorem Inv.move (h : Inv s) {i : Fin n} {x : Thread} (hi : s.thread i ≠ .pushing)
    (hx : x ≠ .pushing) (risk : RiskState) (consumers : Fin n → MarketEventConsumer)
    {approved : List (Fin n × Order)} (happroved : ∀ j, Runs.entries approved j =
      s.queue.issued j ++ (Function.update s.thread i x j).waiting) :
    Inv { s with
      risk := risk
      consumers := consumers
      thread := Function.update s.thread i x
      approved := approved } := by
  refine { h with idle := fun j => ?_, approved := happroved }
  by_cases hji : j = i
  · subst hji
    simp [hx, (h.idle j).1 hi]
  · simp only [Function.update_of_ne hji]
    exact h.idle j

theorem Thread.waiting_of_not_carries {x : Thread} (hx : ¬ x.carries) : x.waiting = [] := by
  cases x <;> simp_all [Thread.carries, Thread.waiting]

theorem Thread.ne_pushing_of_not_carries {x : Thread} (hx : ¬ x.carries) : x ≠ .pushing := by
  rintro rfl
  exact hx rfl

/-- A consumer moves on and approves nothing. -/
theorem Inv.turn (h : Inv s) {i : Fin n} {x : Thread} (hi : ¬ (s.thread i).carries)
    (hx : ¬ x.carries) : Inv { s with thread := Function.update s.thread i x } := by
  refine h.move (Thread.ne_pushing_of_not_carries hi) (Thread.ne_pushing_of_not_carries hx)
    s.risk s.consumers fun j => (h.approved j).trans ?_
  by_cases hji : j = i
  · subst hji
    rw [Function.update_self, Thread.waiting_of_not_carries hi, Thread.waiting_of_not_carries hx]
  · rw [Function.update_of_ne hji]

/-- A step on the queue that is not the gateway's. -/
theorem Inv.push (h : Inv s) {a : Mpsc.Action n Order} {queue : Mpsc.State n Order}
    {thread : Fin n → Thread} (hstep : Mpsc.step s.queue a = some queue)
    (hconsumer : queue.consumer = s.queue.consumer) (hpopped : queue.popped = s.queue.popped)
    (hidle : ∀ i, thread i ≠ .pushing ↔ queue.producer i = .idle)
    (happroved : ∀ i, Runs.entries s.approved i = queue.issued i ++ (thread i).waiting) :
    Inv { s with queue := queue, thread := thread } := by
  obtain ⟨chain, hchain⟩ := h.queue
  obtain ⟨orders, horders, hexecuted⟩ := h.executed
  refine ⟨hchain.step hstep, h.issued.step hstep, hidle, happroved, fun loop hloop => ?_,
    ⟨orders, ?_, hexecuted⟩, h.counter⟩
  · exact (congrArg _ hconsumer).trans (h.popping loop hloop)
  · show queue.popped = orders ++ inHand { s with queue := queue, thread := thread }
    rw [hpopped, horders]
    simp only [inHand, hconsumer]

/-- A step of the gateway on the queue. -/
theorem Inv.pop (h : Inv s) {a : Mpsc.Action n Order} {queue : Mpsc.State n Order}
    {gateway : Gateway} (hstep : Mpsc.step s.queue a = some queue)
    (hproducer : queue.producer = s.queue.producer) (hissued : queue.issued = s.queue.issued)
    (hpopping : ∀ loop, gateway = .popping loop → queue.consumer.call? = some loop.call)
    (hhand : ∃ new, queue.popped = s.queue.popped ++ new ∧
      inHand { s with queue := queue, gateway := gateway } = inHand s ++ new) :
    Inv { s with queue := queue, gateway := gateway } := by
  obtain ⟨chain, hchain⟩ := h.queue
  obtain ⟨orders, horders, hexecuted⟩ := h.executed
  obtain ⟨new, hpopped, hnew⟩ := hhand
  refine ⟨hchain.step hstep, h.issued.step hstep, fun i => ?_, fun i => ?_, hpopping,
    ⟨orders, ?_, hexecuted⟩, h.counter⟩
  · exact (h.idle i).trans (by simp only [hproducer])
  · exact (h.approved i).trans (by simp only [hissued])
  · show queue.popped = orders ++ inHand { s with queue := queue, gateway := gateway }
    rw [hpopped, hnew, horders, List.append_assoc]

theorem Loop.call_ne_destroy (loop : Loop) : loop.call ≠ .destroy := by
  cases loop <;> simp [Loop.call]

/-- **Every step of the gateway keeps the invariant.** -/
theorem Inv.gateway (h : Inv s) (hstep : gatewayStep s = some t) : Inv t := by
  cases gatewayStepped_of_gatewayStep hstep with
  | called hg hqueue =>
      cases Mpsc.stepped_of_step hqueue with
      | called hready hdestroy =>
          refine h.pop hqueue rfl rfl (fun loop' hloop => ?_) ⟨[], by simp, ?_⟩
          · cases hloop
            rfl
          · simp [inHand, hg, Mpsc.Consumer.inHand]
  | @popped loop queue hg hqueue =>
      obtain ⟨hissued, -, hproducer⟩ := Mpsc.consume_frame hqueue
      obtain ⟨⟨new, hpopped, hnew⟩, hnext⟩ :=
        Mpsc.consume_within (h.popping loop hg) loop.call_ne_destroy hqueue
      have hhand : inHand s = s.queue.consumer.inHand := by simp only [inHand, hg]
      refine h.pop hqueue hproducer hissued (fun loop' hloop => ?_) ⟨new, hpopped, ?_⟩
      · rcases hnext with hcall | ⟨r, hr⟩
        · obtain rfl : loop = loop' := by
            cases hc : queue.consumer <;> simp_all [Gateway.afterPop, Mpsc.Consumer.call?]
          exact hcall
        · cases r <;> cases loop <;> simp [hr, Gateway.afterPop, Loop.after] at hloop
      · rw [hhand, ← hnew]
        rcases hnext with hcall | ⟨r, hr⟩
        · cases hc : queue.consumer <;> simp_all [inHand, Gateway.afterPop, Mpsc.Consumer.call?]
        · cases r <;> cases loop <;>
            simp [hr, inHand, Gateway.afterPop, Loop.after, Mpsc.Consumer.inHand]
  | @executed loop order hg =>
      obtain ⟨orders, horders, hexecuted⟩ := h.executed
      refine { h with
        popping := fun loop' hloop => by cases hloop
        executed := ⟨orders ++ [order], ?_, ?_⟩
        counter := ?_ }
      · simpa [inHand, hg] using horders
      · rw [numbered_concat, ← hexecuted, h.counter, ← length_numbered orders, ← hexecuted]
        simp
      · simp [h.counter]

/-- The decision on a message: what it approves is added to the log and with the consumer. -/
theorem Inv.decide (h : Inv s) {i : Fin n} {now preQueueAt : UInt64}
    {r : MarketEventConsumer × RiskState × Option Order}
    (hr : decision rm s i now preQueueAt = some r) :
    Inv { s with
      risk := r.2.1
      consumers := Function.update s.consumers i r.1
      thread := Function.update s.thread i (.afterDecision r.2.2)
      approved := s.approved ++ (r.2.2.map (Prod.mk i)).toList } := by
  obtain ⟨message, hmessage⟩ : ∃ message, s.thread i = .deciding message := by
    cases hi : s.thread i <;> simp_all [decision]
  have hchecking : Thread.afterDecision r.2.2 ≠ .pushing := by
    cases r.2.2 <;> simp [Thread.afterDecision]
  refine h.move (by simp [hmessage]) hchecking _ _ fun j => ?_
  have hj := h.approved j
  simp only [Runs.entries] at hj ⊢
  rw [List.filter_append, List.map_append, hj]
  by_cases hji : j = i
  · subst hji
    cases r.2.2 <;> simp [hmessage, Thread.afterDecision, Thread.waiting]
  · rw [Function.update_of_ne hji]
    cases r.2.2 <;> simp [Ne.symm hji]

/-- A producer's state in the queue and the thread's own, after a step of both. -/
theorem Inv.idle_update (h : Inv s) {i : Fin n} {x : Mpsc.Producer Order} {y : Thread}
    (hxy : y ≠ .pushing ↔ x = .idle) (j : Fin n) :
    Function.update s.thread i y j ≠ .pushing ↔
      Function.update s.queue.producer i x j = .idle := by
  by_cases hji : j = i
  · subst hji
    simpa using hxy
  · simp only [Function.update_of_ne hji]
    exact h.idle j

/-- A thread with a push under way is in it. -/
theorem Inv.pushing (h : Inv s) {i : Fin n} (hi : s.queue.producer i ≠ .idle) :
    s.thread i = .pushing := by
  by_contra hne
  exact hi ((h.idle i).1 hne)

/-- **Every step keeps the invariant.** -/
theorem Inv.step {a : Action n} (h : Inv s) (hstep : Stopping.step rm s a = some t) : Inv t := by
  cases stepped_of_step hstep with
  | clear hqueue =>
      obtain rfl := Option.some_inj.1 hqueue
      exact h.push hqueue rfl rfl h.idle h.approved
  | environment risk => exact { h with }
  | turn ha hi hx => exact h.turn hi hx
  | decide hr => exact h.decide hr
  | @allocate i node order queue hi hqueue =>
      cases Mpsc.stepped_of_step hqueue with
      | allocated hidle hfree hd =>
          refine h.push hqueue rfl rfl (h.idle_update (by simp)) fun j => (h.approved j).trans ?_
          by_cases hji : j = i
          · subst hji
            simp [hi, Thread.waiting]
          · simp only [Function.update_of_ne hji]
  | @exchange i queue hqueue =>
      cases Mpsc.stepped_of_step hqueue with
      | exchanged hi =>
          have hpushing : s.thread i = .pushing := h.pushing (by simp [hi])
          refine h.push hqueue rfl rfl (fun j => ?_) h.approved
          rw [← Function.update_eq_self i s.thread]
          exact h.idle_update (by simp [hpushing]) j
  | @link i queue hqueue =>
      cases Mpsc.stepped_of_step hqueue with
      | missingPrev hi hprev =>
          obtain ⟨chain, hchain⟩ := h.queue
          obtain ⟨prev, hsome⟩ := hchain.exists_prevHead hi
          rw [hprev] at hsome
          cases hsome
      | linked hi hprev =>
          have hpushing : s.thread i = .pushing := h.pushing (by simp [hi])
          refine h.push hqueue rfl rfl (h.idle_update (by simp)) fun j => (h.approved j).trans ?_
          by_cases hji : j = i
          · subst hji
            simp [hpushing, Thread.waiting]
          · simp only [Function.update_of_ne hji]
  | gateway hgateway => exact h.gateway hgateway

/-! ### After the gateway has returned -/

/-- The consumers do not move the gateway, and what was approved stays in the log. -/
theorem step_frame {a : Action n} (hstep : Stopping.step rm s a = some t) (ha : a ≠ .gateway) :
    t.gateway = s.gateway ∧ t.queue.popped = s.queue.popped ∧
      s.approved.length ≤ t.approved.length := by
  cases stepped_of_step hstep with
  | gateway => exact absurd rfl ha
  | environment | turn => exact ⟨rfl, rfl, le_rfl⟩
  | decide hr => exact ⟨rfl, rfl, by simp⟩
  | clear hqueue => exact ⟨rfl, (Mpsc.step_of_ne_consume hqueue (by simp)).1, le_rfl⟩
  | allocate hi hqueue => exact ⟨rfl, (Mpsc.step_of_ne_consume hqueue (by simp)).1, le_rfl⟩
  | exchange hqueue => exact ⟨rfl, (Mpsc.step_of_ne_consume hqueue (by simp)).1, le_rfl⟩
  | link hqueue => exact ⟨rfl, (Mpsc.step_of_ne_consume hqueue (by simp)).1, le_rfl⟩

/-- **`run` returns at its last load**, and nothing else happens there. -/
theorem Inv.returns (h : Inv s) (hstep : gatewayStep s = some t) (ht : t.gateway = .finished) :
    AtLastLoad s ∧ t.thread = s.thread ∧ t.approved = s.approved ∧
      t.queue.popped = s.queue.popped ∧ t.queue.pushed = s.queue.pushed := by
  cases gatewayStepped_of_gatewayStep hstep with
  | called => cases ht
  | executed => cases ht
  | @popped loop queue hg hqueue =>
      obtain ⟨-, hpushed, -⟩ := Mpsc.consume_frame hqueue
      have hcall := h.popping loop hg
      obtain ⟨⟨new, hpopped, hnew⟩, hnext⟩ :=
        Mpsc.consume_within hcall loop.call_ne_destroy hqueue
      -- the pop has returned nothing, and its loop was the second one
      obtain ⟨hr, rfl⟩ : queue.consumer = .returned loop.call none ∧ loop = .drain := by
        rcases hnext with hnext | ⟨r, hr⟩
        · cases hc : queue.consumer <;> simp_all [Gateway.afterPop, Mpsc.Consumer.call?]
        · cases r <;> cases loop <;> simp_all [Gateway.afterPop, Loop.after]
      have hbefore : s.queue.consumer ≠ .returned .tryPop none := by
        intro hc
        simp [hc, Mpsc.Consumer.call?] at hcall
      rcases Mpsc.returned_none_cases hqueue hbefore hr with ⟨-, hload, hnull⟩ | ⟨hc, -⟩
      · obtain rfl : new = [] := by
          simpa [hr, hload, Mpsc.Consumer.inHand] using hnew.symm
        exact ⟨⟨hg, hload, hnull⟩, rfl, rfl, by simpa using hpopped, hpushed⟩
      · cases hc

/-- Nothing is left: every order that was pushed has been popped, and no other is on the way. -/
def Settled (s : State n) : Prop :=
  s.gateway = .finished →
    s.queue.popped = s.queue.pushed.map Prod.snd ∧ ∀ i, ¬ (s.thread i).carries

/-- A consumer that carries nothing is not in a push. -/
theorem Inv.idle_of_not_carries (h : Inv s) {i : Fin n} (hi : ¬ (s.thread i).carries) :
    s.queue.producer i = .idle :=
  (h.idle i).1 (Thread.ne_pushing_of_not_carries hi)

/-- A consumer that carries nothing moves on, and carries nothing. -/
theorem Settled.update (h : ∀ i, ¬ (s.thread i).carries) {x : Thread} (hx : ¬ x.carries)
    (i j : Fin n) : ¬ (Function.update s.thread i x j).carries := by
  by_cases hji : j = i
  · subst hji
    rwa [Function.update_self]
  · rw [Function.update_of_ne hji]
    exact h j

/-- **A step in time leaves nothing behind.** -/
theorem Settled.step (hs : Settled s) (h : Inv s) {a : Action n} (hok : InTime rm s a)
    (hstep : Stopping.step rm s a = some t) : Settled t := by
  intro ht
  by_cases ha : a = .gateway
  · subst ha
    obtain ⟨hlast, hthread, -, hpopped, hpushed⟩ := h.returns hstep ht
    obtain ⟨chain, hchain⟩ := h.queue
    have hcarries : ∀ i, ¬ (s.thread i).carries := hok hlast
    refine ⟨?_, hthread ▸ hcarries⟩
    -- no link is owed, so the null link is that of the last node
    have howed : ∀ i node prevHead, s.queue.producer i ≠ .exchanged node prevHead := by
      intro i node prevHead hi
      simp [h.idle_of_not_carries (hcarries i)] at hi
    rw [hpopped, hpushed]
    exact hchain.all_popped (hchain.alone hlast.2.2 howed)
  · rw [(step_frame hstep ha).1] at ht
    obtain ⟨hall, hcarries⟩ := hs ht
    have hidle := fun i => h.idle_of_not_carries (hcarries i)
    cases stepped_of_step hstep with
    | gateway => exact absurd rfl ha
    | clear hqueue =>
        obtain rfl := Option.some_inj.1 hqueue
        exact ⟨hall, hcarries⟩
    | environment => exact ⟨hall, hcarries⟩
    | @turn _ i x _ hi hx => exact ⟨hall, Settled.update hcarries hx i⟩
    | @decide i now preQueueAt r hr =>
        have hnone : r.2.2 = none := by simpa [hr] using hok ht
        refine ⟨hall, Settled.update hcarries ?_ i⟩
        simp [hnone, Thread.afterDecision, Thread.carries]
    | @allocate i node order queue hi hqueue =>
        exact absurd (by simp [hi, Thread.carries]) (hcarries i)
    | @exchange i queue hqueue => simp [Mpsc.step, hidle i] at hqueue
    | @link i queue hqueue => simp [Mpsc.step, hidle i] at hqueue

/-! ### Late steps -/

/-- Each consumer's pushed orders are the first of its approved ones. -/
theorem Inv.entries_prefix (h : Inv s) (i : Fin n) :
    Runs.entries s.queue.pushed i <+: Runs.entries s.approved i := by
  rw [h.approved i, h.issued i, List.append_assoc]
  exact List.prefix_append _ _

theorem Inv.popped_le_pushed (h : Inv s) : s.queue.popped.length ≤ s.queue.pushed.length := by
  obtain ⟨chain, hchain⟩ := h.queue
  have hlen := congrArg List.length hchain.values
  rw [List.length_map, List.length_append] at hlen
  omega

/-- An order on its way into the queue has not been popped. -/
theorem Inv.lt_of_carries (h : Inv s) {i : Fin n} (hi : (s.thread i).carries) :
    s.queue.popped.length < s.approved.length := by
  have hissued := h.issued i
  have happroved := h.approved i
  have hpushed : s.queue.pushed.length ≤ s.approved.length :=
    (Runs.subperm_of_entries h.entries_prefix).length_le
  have hpopped := h.popped_le_pushed
  -- an order whose push has not exchanged `head_` is approved and not pushed
  have hlt : ∀ order, Runs.entries s.approved i = Runs.entries s.queue.pushed i ++ [order] →
      s.queue.popped.length < s.approved.length := by
    intro order heq
    refine hpopped.trans_lt (Runs.length_lt_of_entries h.entries_prefix (i := i) ?_)
    simp [heq]
  cases hthread : s.thread i with
  | approved order =>
      have hidle : s.queue.producer i = .idle := (h.idle i).1 (by simp [hthread])
      refine hlt order ?_
      rw [happroved, hissued, hidle, hthread]
      simp [Mpsc.Producer.pending, Thread.waiting, Mpsc.pushedBy, Runs.entries]
  | pushing =>
      cases hproducer : s.queue.producer i with
      | idle => exact absurd hthread ((h.idle i).2 hproducer)
      | allocated node order =>
          refine hlt order ?_
          rw [happroved, hissued, hproducer, hthread]
          simp [Mpsc.Producer.pending, Thread.waiting, Mpsc.pushedBy, Runs.entries]
      | exchanged node prevHead =>
          -- its node is in the chain, behind another one
          obtain ⟨chain, hchain⟩ := h.queue
          have hpair := (hchain.exchanged i node prevHead hproducer).1.length_le
          have hlen := congrArg List.length hchain.values
          rw [List.length_map, List.length_append, List.length_map, List.length_tail] at hlen
          rw [List.length_cons, List.length_singleton] at hpair
          omega
  | _ => simp [hthread, Thread.carries] at hi

/-- `run` has returned and an approved order is left. -/
def Lost (s : State n) : Prop :=
  s.gateway = .finished ∧ s.queue.popped.length < s.approved.length

/-- What is lost stays lost. -/
theorem Lost.step (hs : Lost s) {a : Action n} (hstep : Stopping.step rm s a = some t) :
    Lost t := by
  have ha : a ≠ .gateway := by
    rintro rfl
    simp [Stopping.step, gatewayStep, hs.1] at hstep
  obtain ⟨hgateway, hpopped, hle⟩ := step_frame hstep ha
  exact ⟨hgateway.trans hs.1, hpopped ▸ hs.2.trans_le hle⟩

/-- **A late step loses an order.** -/
theorem Inv.lost (h : Inv s) {a : Action n} (hlate : ¬ InTime rm s a)
    (hstep : Stopping.step rm s a = some t) : Lost t := by
  cases a with
  | decide i now preQueueAt =>
      obtain ⟨r, hr, rfl⟩ := Option.map_eq_some_iff.1 hstep
      simp only [InTime, hr, Option.bind_some, Classical.not_imp] at hlate
      obtain ⟨order, horder⟩ := Option.ne_none_iff_exists'.1 hlate.2
      refine ⟨hlate.1, ?_⟩
      have hpushed := (Runs.subperm_of_entries h.entries_prefix).length_le
      have hpopped := h.popped_le_pushed
      simp only [horder, Option.map_some, Option.toList_some, List.length_append,
        List.length_singleton]
      omega
  | gateway =>
      simp only [InTime, Classical.not_imp, not_forall, not_not] at hlate
      obtain ⟨⟨hgateway, hload, hnull⟩, i, hi⟩ := hlate
      obtain ⟨chain, hchain⟩ := h.queue
      obtain ⟨node, hnode⟩ := Option.isSome_iff_exists.1
        (hchain.live (by simp [hload]) s.queue.tail (List.mem_of_head? hchain.tail))
      have hnext : node.next = none := by simpa [Mpsc.nextOf, hnode] using hnull
      simp only [Stopping.step, gatewayStep, hgateway, Mpsc.step, Mpsc.consume, hload, hnode, hnext,
        Option.map_some, Option.some_inj] at hstep
      subst hstep
      exact ⟨rfl, h.lt_of_carries hi⟩
  | _ => exact absurd trivial hlate

end Steps

/-! ### The end -/

/-- The queue and the gateway's hand are empty at the end: what was executed was popped. -/
theorem Inv.executed_eq {s : State n} (h : Inv s) (hs : s.gateway = .finished) :
    s.executed = numbered s.queue.popped := by
  obtain ⟨orders, horders, hexecuted⟩ := h.executed
  rw [hexecuted, horders]
  simp [inHand, hs]

/-- At the end each consumer has pushed what was approved. -/
theorem Inv.entries_eq {s : State n} (h : Inv s) (hs : Ended s) (i : Fin n) :
    Runs.entries s.approved i = Runs.entries s.queue.pushed i := by
  have hidle : s.queue.producer i = .idle := (h.idle i).1 (by simp [hs.2 i])
  rw [h.approved i, h.issued i, hidle, hs.2 i]
  simp [Mpsc.Producer.pending, Thread.waiting, Mpsc.pushedBy, Runs.entries]

end Stopping

/-- **Every approved order is executed exactly once if and only if every step was in time.**  In
every interleaving of the consumers, the gateway and the clearing of the flag, once all consumers
have exited and `run` has returned. -/
theorem no_order_lost_iff {n : ℕ} (rm : RiskManager) (risk : RiskState)
    (consumers : Fin n → MarketEventConsumer) (as : List (Stopping.Action n))
    (s : Stopping.State n)
    (hrun : Runs.exec (Stopping.step rm) (Stopping.init risk consumers) as = some s)
    (hended : Stopping.Ended s) :
    Stopping.ExecutedOnce s ↔
      Runs.AllSteps (Stopping.step rm) (Stopping.InTime rm) (Stopping.init risk consumers) as := by
  have hinv : ∀ {as' t}, Runs.exec (Stopping.step rm) (Stopping.init risk consumers) as' = some t →
      Stopping.Inv t := fun hrun =>
    Runs.exec_inv (fun s a t h hst => h.step hst) (Stopping.inv_init risk consumers) hrun
  have h := hinv hrun
  have hexecuted := h.executed_eq hended.1
  constructor
  · rintro ⟨orders, hperm, hnumbered⟩
    by_contra hnot
    obtain ⟨as', a, t, ⟨bs, rfl⟩, hrun', hlate⟩ := Runs.exists_of_not_allSteps hnot
    rw [List.append_assoc, Runs.exec_append hrun'] at hrun
    obtain ⟨u, hstep, hrest⟩ := Option.bind_eq_some_iff.1 hrun
    have hlost : Stopping.Lost s := Runs.exec_inv (fun s a t h hst => h.step hst)
      ((hinv hrun').lost hlate hstep) hrest
    have hlen := hlost.2
    rw [← Stopping.length_numbered, ← hexecuted, hnumbered, Stopping.length_numbered,
      hperm.length_eq, List.length_map] at hlen
    exact absurd hlen (lt_irrefl _)
  · intro hok
    have hboth : Stopping.Inv s ∧ Stopping.Settled s :=
      Runs.exec_inv_of_allSteps (I := fun s => Stopping.Inv s ∧ Stopping.Settled s)
        (fun s a t h hoka hst => ⟨h.1.step hst, h.2.step h.1 hoka hst⟩)
        ⟨Stopping.inv_init risk consumers, fun hfinished => by cases hfinished⟩ hok hrun
    have hpopped := (hboth.2 hended.1).1
    have hperm : s.queue.pushed.Perm s.approved :=
      (Runs.subperm_of_entries h.entries_prefix).antisymm
        (Runs.subperm_of_entries fun i => (h.entries_eq hended i) ▸ List.prefix_rfl)
    exact ⟨s.queue.popped, hpopped ▸ hperm.map Prod.snd, hexecuted⟩

/-- A trade of AAPL, as its consumer receives it. -/
def tradeMessage : ZmqMessage :=
  ZmqMarketEventSink.publish
    { eventType := 2
      symbol := CharArray.ofBytes 8 [65, 65, 80, 76]
      timestamp := 1
      p1 := 500000
      s1 := 10
      p2 := 0
      s2 := 0
      arrivedAt := 2 }
    [65, 65, 80, 76]

/-- The consumer of AAPL. -/
def tradeConsumers : Fin 1 → MarketEventConsumer :=
  fun _ => { strategy := {}, subscription := [65, 65, 80, 76] }

/-- The flag is cleared after the push: the order is executed, and both threads end. -/
theorem no_order_lost_after_push :
    let as : List (Stopping.Action 1) :=
      [.check 0, .receive 0 (some tradeMessage), .decide 0 1000000000 3, .allocate 0 1,
        .exchange 0, .gateway, .gateway, .clear, .gateway, .link 0, .gateway, .gateway, .gateway,
        .gateway, .gateway, .gateway, .gateway, .gateway, .gateway, .gateway, .gateway, .gateway,
        .check 0]
    let start := Stopping.init (RiskState.wire [[65, 65, 80, 76]] 100) tradeConsumers
    ∃ s, Runs.exec (Stopping.step {}) start as = some s ∧ Stopping.Ended s ∧
      s.approved.length = 1 ∧ Stopping.ExecutedOnce s := by
  intro as start
  have hrun : (Runs.exec (Stopping.step {}) start as).any (fun s =>
      Stopping.Ended s ∧ s.approved.length = 1) = true := by
    decide +kernel
  obtain ⟨s, hs, hprops⟩ := (Option.any_eq_true _ _).1 hrun
  obtain ⟨hended, happroved⟩ := of_decide_eq_true hprops
  have hok : Runs.AllSteps (Stopping.step {}) (Stopping.InTime {}) start as := by decide +kernel
  exact ⟨s, hs, hended, happroved, (no_order_lost_iff {} _ _ as s hs hended).2 hok⟩

/-- The flag is cleared while the consumer holds a message: the gateway returns, and the order that
is approved after that is never executed. -/
theorem no_order_lost_fails :
    let as : List (Stopping.Action 1) :=
      [.check 0, .receive 0 (some tradeMessage), .clear, .gateway, .gateway, .gateway, .gateway,
        .gateway, .gateway, .decide 0 1000000000 3, .allocate 0 1, .exchange 0, .link 0, .check 0]
    let start := Stopping.init (RiskState.wire [[65, 65, 80, 76]] 100) tradeConsumers
    ∃ s, Runs.exec (Stopping.step {}) start as = some s ∧ Stopping.Ended s ∧
      ¬ Stopping.ExecutedOnce s := by
  intro as start
  have hrun : (Runs.exec (Stopping.step {}) start as).any (fun s =>
      Stopping.Ended s ∧ s.approved.length = 1 ∧ s.executed = []) = true := by
    decide +kernel
  obtain ⟨s, hs, hprops⟩ := (Option.any_eq_true _ _).1 hrun
  obtain ⟨hended, happroved, hexecuted⟩ := of_decide_eq_true hprops
  refine ⟨s, hs, hended, ?_⟩
  rintro ⟨orders, hperm, hnumbered⟩
  have hlen := congrArg List.length hnumbered
  rw [hexecuted, Stopping.length_numbered, hperm.length_eq, List.length_map, happroved] at hlen
  cases hlen

end Trading
