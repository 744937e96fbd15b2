/-
**From the market data socket to the order queue.**

A frame that arrives on the market data socket is decoded on the thread of the source, its events
are published one by one, every consumer takes the ones that its subscription lets through from its
own queue, and what its strategy makes of them goes through the risk manager into the order queue.
The parts are modelled elsewhere; here they run together.  The source's thread, the consumers and
the other threads take their steps in any order, frames may be cut, the transport may drop anything,
and the engine may be told to stop at any time.

ZeroMQ is a transport as in `TradingAlgo/PubSub.lean`, with subscriptions to prefixes of the topic.
A round of a consumer is one step here.

Main definitions:

* `Trading.SocketMessage`, `Trading.Frame` — what arrives on the socket;
* `Trading.Feed.State`, `Trading.Feed.step` — the way of the data, with all threads;
* `Trading.Answers` — an order is the answer to an event.

Main results:

* `Trading.orders_come_from_trades` — whatever happens, the orders of a consumer answer, in their
  order and each at most once, trades of the frames that its symbol is a prefix of.
-/

import TradingAlgo.Consumers
import TradingAlgo.PubSub
import TradingAlgo.TruncatedFrames

set_option relaxedAutoImplicit false
set_option autoImplicit false

namespace Trading

open Msgpack

variable {F : Type}

/-! ### What arrives -/

/-- A message of the socket.  Of a frame the parser gets as far as the first `cut` calls of a
value. -/
inductive SocketMessage (F : Type)
  | opened
  | message (value : Value F) (cut : ℕ)
  /-- Errors, closing, and the kinds that `onMessage` does not look at. -/
  | other

/-- What the source sends. -/
inductive SourceRequest
  | auth
  | subscribe
  deriving DecidableEq, Repr

/-- A frame that was decoded, with the time of its arrival. -/
structure Frame (F : Type) where
  value : Value F
  cut : ℕ
  arrivedAt : UInt64

/-- The events of a frame are those of its complete elements. -/
def Frame.events (d : Doubles F) (frame : Frame F) : List (MarketEvent × List UInt8) :=
  (completeElements frame.cut frame.value).flatMap
    (AlpacaVisitor.elementEvents (messageEvents d frame.arrivedAt))

/-- An event with its symbol, as it is published. -/
def messageOf (x : MarketEvent × List UInt8) : ZmqMessage := ZmqMarketEventSink.publish x.1 x.2

namespace Feed

/-! ### The threads -/

/-- The state.  `toPublish` are the events of the frame in hand that are still to be published;
`polling` are the consumers that have found `is_running_` set and wait for a message; `frames` and
`pushed` are logs, the second one with the consumer, the event and the order. -/
structure State (F : Type) where
  isRunning : Bool := true
  decoder : AlpacaMsgpackDecoder
  requests : List SourceRequest := []
  frames : List (Frame F) := []
  toPublish : List (MarketEvent × List UInt8) := []
  channel : PubSub.State ℕ ZmqMessage := {}
  polling : ℕ → Bool := fun _ => false
  engine : TradingEngine
  pushed : List (ℕ × MarketEvent × Order) := []

/-- The steps. -/
inductive Action (F : Type)
  | socket (now : UInt64) (message : SocketMessage F)
  | publish (lost : ℕ → Bool)
  | check (i : ℕ)
  | timeout (i : ℕ)
  | receive (i : ℕ) (now preQueueAt : UInt64)
  | fill (fill : Fill)
  | cancelled (order : Order)
  | stop

/-- The subscriptions. -/
def wants (e : TradingEngine) (i : ℕ) (message : ZmqMessage) : Bool :=
  (e.consumers[i]?).any fun consumer => consumer.receives message

/-- The order that a consumer makes of a message. -/
def answer (e : TradingEngine) (i : ℕ) (message : ZmqMessage) (now preQueueAt : UInt64) :
    Option Order :=
  (e.consumers[i]?).bind fun consumer =>
    (consumer.onMessage e.riskManager e.risk message now preQueueAt).2.2

/-- `AlpacaWebSocketSource::onMessage`, and `onSourceData` up to its first call of `publish`.  The
callback of the decoder is `sendSubscribe`. -/
def onMessage (d : Doubles F) (s : State F) (now : UInt64) (message : SocketMessage F) : State F :=
  if s.isRunning then
    match message with
    | .opened => { s with requests := s.requests ++ [.auth] }
    | .message value cut =>
        let visitor := s.decoder.decodeCalls d (value.calls.take cut) now
        { s with
          decoder := { s.decoder with eventBuffer := visitor.eventBuffer }
          requests := s.requests ++ List.replicate visitor.authSuccesses .subscribe
          frames := s.frames ++ [⟨value, cut, now⟩]
          toPublish := visitor.emitted }
    | .other => s
  else s

/-- The step function. -/
def step (d : Doubles F) (s : State F) : Action F → Option (State F)
  | .socket now message =>
      -- the source's thread is still in its callback while there is something to publish
      if s.toPublish = [] then some (onMessage d s now message) else none
  | .publish lost =>
      match s.toPublish with
      | [] => none
      | x :: rest =>
          some { s with
            toPublish := rest
            channel := PubSub.publish (wants s.engine) s.channel (messageOf x) lost }
  | .check i =>
      if s.isRunning ∧ ¬ s.polling i then
        some { s with polling := Function.update s.polling i true }
      else none
  | .timeout i =>
      if s.polling i then some { s with polling := Function.update s.polling i false } else none
  | .receive i now preQueueAt =>
      if s.polling i then do
        let (message, channel) ← PubSub.receive s.channel i
        let engine ← s.engine.step (.deliver i message now preQueueAt)
        some { s with
          channel := channel
          polling := Function.update s.polling i false
          engine := engine
          pushed := s.pushed ++ (answer s.engine i message now preQueueAt).toList.map fun order =>
            (i, message.payload, order) }
      else none
  | .fill fill => (s.engine.step (.fill fill)).map fun engine => { s with engine := engine }
  | .cancelled order =>
      (s.engine.step (.cancelled order)).map fun engine => { s with engine := engine }
  | .stop => some { s with isRunning := false }

/-- The engine as it is made, with everything started. -/
def init (e : TradingEngine) (decoder : AlpacaMsgpackDecoder) : State F where
  decoder := decoder
  engine := e

/-! ### Events and orders -/

end Feed

/-- The order that is made of an event: a trade is answered by a purchase of a hundred shares, a
hundred ticks below it, of the event's symbol, with the event's time of arrival. -/
structure Answers (event : MarketEvent) (order : Order) : Prop where
  trade : event.eventType = 2
  follows : FollowsConfig {} event order
  side : order.side = .buy
  arrivedAt : order.arrivedAt = event.arrivedAt

/-- Only a trade is answered, and only by a purchase. -/
theorem SimpleMarketMakingStrategy.onMarketEvent_trade {strategy : SimpleMarketMakingStrategy}
    {event : MarketEvent} {order : Order} (h : (strategy.onMarketEvent event).2 = some order) :
    event.eventType = 2 ∧ order.side = .buy := by
  simp only [onMarketEvent] at h
  split_ifs at h with htype hprice
  obtain rfl := Option.some_inj.1 h
  exact ⟨not_not.1 htype, rfl⟩

/-- The events of a message carry its time of arrival and its symbol. -/
theorem stamped_of_mem_output {d : Doubles F} {item : Item F} {arrivedAt : UInt64}
    {x : MarketEvent × List UInt8} (hx : x ∈ AlpacaVisitor.output d arrivedAt item) :
    x.1.arrivedAt = arrivedAt ∧ x.1.symbol = CharArray.ofBytes 8 x.2 := by
  refine ⟨AlpacaVisitor.arrivedAt_of_mem_output hx, ?_⟩
  simp only [AlpacaVisitor.output, AlpacaVisitor.emitItem, AlpacaVisitor.emit,
    AlpacaVisitor.create, apply_ite AlpacaVisitor.emitted, List.nil_append, ite_self] at hx
  repeat' split at hx
  all_goals first
    | exact absurd hx List.not_mem_nil
    | rw [List.mem_singleton.1 hx]

/-- **The events of a frame carry its time of arrival and their own symbol.** -/
theorem Frame.stamped_of_mem_events {d : Doubles F} {frame : Frame F}
    {x : MarketEvent × List UInt8} (hx : x ∈ frame.events d) :
    x.1.arrivedAt = frame.arrivedAt ∧ x.1.symbol = CharArray.ofBytes 8 x.2 := by
  obtain ⟨element, -, helement⟩ := List.mem_flatMap.1 hx
  cases element with
  | map pairs => exact stamped_of_mem_output helement
  | scalar x => exact absurd helement List.not_mem_nil
  | array items => exact absurd helement List.not_mem_nil

/-- What the decoder emits of a frame. -/
theorem Frame.events_eq (d : Doubles F) (decoder : AlpacaMsgpackDecoder) (frame : Frame F)
    (hdepth : frame.value.depth ≤ 2 ^ 32 + 1) :
    (decoder.decodeCalls d (frame.value.calls.take frame.cut) frame.arrivedAt).emitted =
      frame.events d := by
  rw [Frame.events]
  by_cases hv : ∀ items, frame.value ≠ .array items
  · rw [emitted_decodeCalls_of_not_array d decoder frame.arrivedAt hdepth hv]
    cases hvalue : frame.value with
    | array items => exact absurd hvalue (hv items)
    | scalar x => rfl
    | map pairs => rfl
  · obtain ⟨items, hvalue⟩ : ∃ items, frame.value = .array items := by simpa using hv
    rw [hvalue] at hdepth ⊢
    exact emitted_decodeCalls_array d decoder items frame.arrivedAt hdepth frame.cut

namespace TradingEngine

/-- Every order that was pushed answers its event. -/
structure AnswersTrades (e : TradingEngine) : Prop where
  usesDefaults : UsesDefaults e
  pushed : ∀ x ∈ e.pushed, Answers x.1 x.2

theorem pushed_create {config : AppConfig} {e : TradingEngine} (h : create config = .ok e) :
    e.pushed = [] := by
  cases hlaunch : launchConsumers config with
  | error _ => simp [create, hlaunch, Except.map] at h
  | ok consumers =>
      simp only [create, hlaunch, Except.map, Except.ok.injEq] at h
      rw [← h]

theorem answersTrades_create {config : AppConfig} {e : TradingEngine} (h : create config = .ok e) :
    AnswersTrades e := by
  refine ⟨usesDefaults_create h, fun x hx => ?_⟩
  rw [pushed_create h] at hx
  exact absurd hx List.not_mem_nil

theorem AnswersTrades.step {e e' : TradingEngine} {a : Action} (h : AnswersTrades e)
    (hstep : TradingEngine.step e a = some e') : AnswersTrades e' := by
  have huses := h.usesDefaults.step hstep
  refine ⟨huses, fun x hx => ?_⟩
  rcases step_cases hstep with ⟨consumer, -, event, -, hpushed⟩ | ⟨-, hp⟩
  · rcases hpushed x hx with hold | ⟨order, now, queuedAt, horder, -, rfl⟩
    · exact h.pushed x hold
    · obtain ⟨htype, hside⟩ := SimpleMarketMakingStrategy.onMarketEvent_trade horder
      exact ⟨htype, huses.pushed _ hx, hside, rfl⟩
  · exact h.pushed x (hp ▸ hx)

/-- What a delivery adds to the log of the orders. -/
theorem pushed_deliver {e e' : TradingEngine} {i : ℕ} {message : ZmqMessage}
    {now preQueueAt : UInt64} (h : step e (.deliver i message now preQueueAt) = some e') :
    e'.pushed =
      e.pushed ++
        (Feed.answer e i message now preQueueAt).toList.map (Prod.mk message.payload) := by
  cases hi : e.consumers[i]? with
  | none => simp [step, hi] at h
  | some consumer =>
      simp only [step, hi, Option.ite_none_right_eq_some, Option.some_inj] at h
      obtain ⟨-, rfl⟩ := h
      simp only [Feed.answer, hi, Option.bind_some]
      cases (consumer.onMessage e.riskManager e.risk message now preQueueAt).2.2 <;> rfl

end TradingEngine

namespace Feed

/-! ### What every step keeps -/

theorem wants_eq (e : TradingEngine) (i : ℕ) (message : ZmqMessage) :
    wants e i message =
      ((e.consumers.map MarketEventConsumer.subscription)[i]?).any
        fun subscription => subscription.isPrefixOf message.topic := by
  rw [List.getElem?_map]
  cases hi : e.consumers[i]? with
  | none => simp [wants, hi]
  | some consumer => simp [wants, hi, MarketEventConsumer.receives]

theorem wants_step {e e' : TradingEngine} {a : TradingEngine.Action}
    (h : TradingEngine.step e a = some e') : wants e' = wants e := by
  funext i message
  rw [wants_eq, wants_eq, TradingEngine.subscriptions_step h]

/-- The invariant: what is published, and what is still to be published, are the events of the
frames; the transport is faithful to the subscriptions; the orders are those of the engine, answer
their events, and those of a consumer are made of what it has received, in order. -/
structure Inv (d : Doubles F) (subscribed : ℕ → ZmqMessage → Bool) (s : State F) : Prop where
  fed : (∀ frame ∈ s.frames, frame.value.depth ≤ 2 ^ 32 + 1) →
    s.channel.published ++ s.toPublish.map messageOf =
      (s.frames.flatMap (Frame.events d)).map messageOf
  subscriptions : wants s.engine = subscribed
  channel : PubSub.Faithful subscribed s.channel
  logged : s.pushed.map Prod.snd = s.engine.pushed
  answers : s.engine.AnswersTrades
  ordered : ∀ i, ((Runs.entries s.pushed i).map Prod.fst).Sublist
    ((Runs.entries s.channel.received i).map ZmqMessage.payload)

variable {d : Doubles F} {subscribed : ℕ → ZmqMessage → Bool} {s t : State F}

theorem inv_init {config : AppConfig} {e : TradingEngine}
    (hcreate : TradingEngine.create config = .ok e) (decoder : AlpacaMsgpackDecoder) :
    Inv d (wants e) (init e decoder) where
  fed _ := rfl
  subscriptions := rfl
  channel := PubSub.faithful_empty
  logged := (TradingEngine.pushed_create hcreate).symm
  answers := TradingEngine.answersTrades_create hcreate
  ordered _ := List.Sublist.refl _

/-- The source's thread. -/
theorem Inv.onMessage (h : Inv d subscribed s) (hempty : s.toPublish = []) (now : UInt64)
    (message : SocketMessage F) : Inv d subscribed (onMessage d s now message) := by
  unfold Feed.onMessage
  split_ifs
  · cases message with
    | opened => exact ⟨h.fed, h.subscriptions, h.channel, h.logged, h.answers, h.ordered⟩
    | message value cut =>
        refine ⟨fun hdepth => ?_, h.subscriptions, h.channel, h.logged, h.answers, h.ordered⟩
        have hfed := h.fed fun frame hframe => hdepth frame (List.mem_append_left _ hframe)
        rw [hempty, List.map_nil, List.append_nil] at hfed
        have hevents := Frame.events_eq d s.decoder ⟨value, cut, now⟩ (hdepth _ (by simp))
        simp only [List.flatMap_append, List.map_append, List.flatMap_cons, List.flatMap_nil,
          List.append_nil, hfed, ← hevents]
    | other => exact h
  · exact h

/-- A call of `publish`. -/
theorem Inv.publish (h : Inv d subscribed s) {x : MarketEvent × List UInt8}
    {rest : List (MarketEvent × List UInt8)} (hrest : s.toPublish = x :: rest) (lost : ℕ → Bool) :
    Inv d subscribed
      { s with
        toPublish := rest
        channel := PubSub.publish (wants s.engine) s.channel (messageOf x) lost } := by
  refine ⟨fun hdepth => ?_, h.subscriptions, ?_, h.logged, h.answers, h.ordered⟩
  · have hfed := h.fed hdepth
    rw [hrest] at hfed
    simpa [PubSub.publish] using hfed
  · rw [h.subscriptions]
    exact h.channel.publish (messageOf x) lost

/-- A consumer's round with a message. -/
theorem Inv.receive (h : Inv d subscribed s) {i : ℕ} {message : ZmqMessage}
    {channel : PubSub.State ℕ ZmqMessage} (hreceive : PubSub.receive s.channel i =
      some (message, channel)) {now preQueueAt : UInt64} {engine : TradingEngine}
    (hengine : s.engine.step (.deliver i message now preQueueAt) = some engine)
    (polling : ℕ → Bool) :
    Inv d subscribed
      { s with
        channel := channel
        polling := polling
        engine := engine
        pushed := s.pushed ++ (answer s.engine i message now preQueueAt).toList.map fun order =>
          (i, message.payload, order) } := by
  obtain ⟨hpublished, -, hreceived, -⟩ := PubSub.receive_eq_some hreceive
  refine ⟨fun hdepth => ?_, ?_, h.channel.receive hreceive, ?_, h.answers.step hengine, fun j => ?_⟩
  · rw [hpublished]
    exact h.fed hdepth
  · exact (wants_step hengine).trans h.subscriptions
  · simp only [TradingEngine.pushed_deliver hengine, ← h.logged, List.map_append, List.map_map]
    rfl
  · have hj := h.ordered j
    simp only [hreceived]
    cases answer s.engine i message now preQueueAt with
    | none =>
        simp only [Option.toList_none, List.map_nil, List.append_nil]
        by_cases hji : j = i
        · subst hji
          rw [Runs.entries_concat_self, List.map_append]
          exact hj.trans (List.sublist_append_left _ _)
        · rw [Runs.entries_concat_of_ne hji]
          exact hj
    | some order =>
        simp only [Option.toList_some, List.map_cons, List.map_nil]
        by_cases hji : j = i
        · subst hji
          rw [Runs.entries_concat_self, Runs.entries_concat_self, List.map_append, List.map_append]
          exact hj.append (List.Sublist.refl _)
        · rw [Runs.entries_concat_of_ne hji, Runs.entries_concat_of_ne hji]
          exact hj

/-- A step of another thread on the counters. -/
theorem Inv.engine (h : Inv d subscribed s) {a : TradingEngine.Action} {engine : TradingEngine}
    (hengine : s.engine.step a = some engine) (hpushed : engine.pushed = s.engine.pushed) :
    Inv d subscribed { s with engine := engine } :=
  ⟨h.fed, (wants_step hengine).trans h.subscriptions, h.channel, h.logged.trans hpushed.symm,
    h.answers.step hengine, h.ordered⟩

/-- **Every step keeps the invariant.** -/
theorem Inv.step (h : Inv d subscribed s) {a : Action F} (hstep : step d s a = some t) :
    Inv d subscribed t := by
  cases a with
  | socket now message =>
      simp only [Feed.step, Option.ite_none_right_eq_some, Option.some_inj] at hstep
      obtain ⟨hempty, rfl⟩ := hstep
      exact h.onMessage hempty now message
  | publish lost =>
      simp only [Feed.step] at hstep
      split at hstep
      · cases hstep
      · next x rest hrest =>
          obtain rfl := Option.some_inj.1 hstep
          exact h.publish hrest lost
  | check i =>
      simp only [Feed.step, Option.ite_none_right_eq_some, Option.some_inj] at hstep
      obtain ⟨-, rfl⟩ := hstep
      exact ⟨h.fed, h.subscriptions, h.channel, h.logged, h.answers, h.ordered⟩
  | timeout i =>
      simp only [Feed.step, Option.ite_none_right_eq_some, Option.some_inj] at hstep
      obtain ⟨-, rfl⟩ := hstep
      exact ⟨h.fed, h.subscriptions, h.channel, h.logged, h.answers, h.ordered⟩
  | receive i now preQueueAt =>
      simp only [Feed.step, Option.ite_none_right_eq_some, Option.bind_eq_bind,
        Option.bind_eq_some_iff, Option.some_inj] at hstep
      obtain ⟨-, ⟨message, channel⟩, hreceive, engine, hengine, rfl⟩ := hstep
      exact h.receive hreceive hengine _
  | fill fill =>
      simp only [Feed.step, Option.map_eq_some_iff] at hstep
      obtain ⟨engine, hengine, rfl⟩ := hstep
      exact h.engine hengine (by rw [← Option.some_inj.1 hengine])
  | cancelled order =>
      simp only [Feed.step, Option.map_eq_some_iff] at hstep
      obtain ⟨engine, hengine, rfl⟩ := hstep
      exact h.engine hengine (by rw [← Option.some_inj.1 hengine])
  | stop =>
      obtain rfl := Option.some_inj.1 hstep
      exact ⟨h.fed, h.subscriptions, h.channel, h.logged, h.answers, h.ordered⟩

end Feed

/-- The events that a subscription lets through. -/
def eventsFor (symbol : List UInt8) (events : List (MarketEvent × List UInt8)) :
    List (MarketEvent × List UInt8) :=
  events.filter fun x => symbol.isPrefixOf (x.2.take 8)

theorem wants_create {config : AppConfig} {e : TradingEngine}
    (hcreate : TradingEngine.create config = .ok e) {i : ℕ} {symbol : List UInt8}
    (hi : config.trading.symbols[i]? = some symbol) (x : MarketEvent × List UInt8) :
    Feed.wants e i (messageOf x) = symbol.isPrefixOf (x.2.take 8) := by
  cases hlaunch : launchConsumers config with
  | error _ => simp [TradingEngine.create, hlaunch, Except.map] at hcreate
  | ok consumers =>
      simp only [TradingEngine.create, hlaunch, Except.map, Except.ok.injEq] at hcreate
      subst hcreate
      rw [launchConsumers_ok (length_le_of_mapM_create hlaunch)] at hlaunch
      obtain rfl := Except.ok.inj hlaunch
      simp [Feed.wants, hi, MarketEventConsumer.receives, messageOf,
        ZmqMarketEventSink.publish_topic]

/-- The messages for a consumer. -/
theorem filter_wants {config : AppConfig} {e : TradingEngine}
    (hcreate : TradingEngine.create config = .ok e) {i : ℕ} {symbol : List UInt8}
    (hi : config.trading.symbols[i]? = some symbol) (events : List (MarketEvent × List UInt8)) :
    (events.map messageOf).filter (Feed.wants e i) = (eventsFor symbol events).map messageOf := by
  rw [List.filter_map, eventsFor]
  exact congrArg _ (List.filter_congr fun x _ => wants_create hcreate hi x)

/-- **Orders come from trades.**  Whatever arrives on the socket, whole or cut, whatever the
transport drops, in whatever order the threads take their steps and whenever the engine is told to
stop: what is published are the events of the frames in their order, each with its frame's time of
arrival; what reaches a consumer is a part of the events that its symbol is a prefix of, in the same
order, and the rest of them was dropped; and its orders answer a part of these events, in the same
order and each at most once, and only trades, each by a purchase of the trade's symbol below the
trade's price.  The containers of a frame are nested `2 ^ 32 + 1` deep at most, which the counters
of the visitor can hold. -/
theorem orders_come_from_trades (d : Doubles F) (config : AppConfig) (e : TradingEngine)
    (hcreate : TradingEngine.create config = .ok e) (decoder : AlpacaMsgpackDecoder)
    (as : List (Feed.Action F)) (s : Feed.State F)
    (hrun : Runs.exec (Feed.step d) (Feed.init e decoder) as = some s)
    (hdepth : ∀ frame ∈ s.frames, frame.value.depth ≤ 2 ^ 32 + 1) :
    let events := s.frames.flatMap (Frame.events d)
    s.channel.published ++ s.toPublish.map messageOf = events.map messageOf ∧
      (∀ frame ∈ s.frames, ∀ x ∈ frame.events d,
        x.1.arrivedAt = frame.arrivedAt ∧ x.1.symbol = CharArray.ofBytes 8 x.2) ∧
      s.pushed.map Prod.snd = s.engine.pushed ∧
      ∀ i symbol, config.trading.symbols[i]? = some symbol →
        let reached := (s.channel.reached i).map ZmqMessage.payload
        let answered := (Runs.entries s.pushed i).map Prod.fst
        reached.Sublist ((eventsFor symbol events).map Prod.fst) ∧
          (s.toPublish = [] →
            reached.length + s.channel.dropped i = (eventsFor symbol events).length) ∧
          answered.Sublist reached ∧
          ∀ x ∈ Runs.entries s.pushed i, Answers x.1 x.2 := by
  intro events
  have hinv : Feed.Inv d (Feed.wants e) s :=
    Runs.exec_inv (fun _ _ _ h hst => h.step hst) (Feed.inv_init hcreate decoder) hrun
  have hfed := hinv.fed hdepth
  refine ⟨hfed, fun frame _ x hx => Frame.stamped_of_mem_events hx, hinv.logged, ?_⟩
  intro i symbol hi reached answered
  have hpayload : (eventsFor symbol events).map Prod.fst =
      ((eventsFor symbol events).map messageOf).map ZmqMessage.payload := by
    rw [List.map_map]
    rfl
  refine ⟨?_, fun hempty => ?_, ?_, fun x hx => ?_⟩
  · have hpublished : s.channel.published.Sublist (events.map messageOf) := by
      rw [← hfed]
      exact List.sublist_append_left _ _
    rw [hpayload, ← filter_wants hcreate hi]
    exact ((hinv.channel.sublist i).trans (hpublished.filter _)).map _
  · rw [hempty, List.map_nil, List.append_nil] at hfed
    have hcount := hinv.channel.count i
    rw [hfed, filter_wants hcreate hi, List.length_map] at hcount
    rw [List.length_map]
    exact hcount
  · refine (hinv.ordered i).trans ?_
    exact (List.sublist_append_left _ _).map _
  · have hmem : x ∈ s.engine.pushed := by
      obtain ⟨y, hy, rfl⟩ := List.mem_map.1 hx
      rw [← hinv.logged]
      exact List.mem_map_of_mem (List.mem_of_mem_filter hy)
    exact hinv.answers.pushed x hmem

/-- Two frames with a trade each, the second one cut in its second trade; the first event is dropped
and the second one leads to an order. -/
def lossyFeed : List (Feed.Action ℕ) :=
  [.socket 7 (.message (.array [.map tradePairs]) 100), .publish fun _ => true,
    .socket 8 (.message (.array [.map tradePairs, .map tradePairs]) 70), .publish fun _ => false,
    .check 0, .receive 0 200000000 200000001]

theorem orders_come_from_trades_for_a_lossy_feed :
    ∃ e s, TradingEngine.create {} = .ok e ∧
      Runs.exec (Feed.step wholeDoubles) (Feed.init e newDecoder) lossyFeed = some s ∧
      s.channel.dropped 0 = 1 ∧ (s.channel.reached 0).length = 1 ∧
      (Runs.entries s.pushed 0).length = 1 ∧
      ∀ x ∈ Runs.entries s.pushed 0, Answers x.1 x.2 ∧ x.2.arrivedAt = 8 := by
  obtain ⟨e, s, hcreate, hrun, hs⟩ := TradingEngine.exists_of_create {}
    (fun e => Runs.exec (Feed.step wholeDoubles) (Feed.init e newDecoder) lossyFeed)
    (fun s => decide (s.channel.dropped 0 = 1 ∧ (Runs.entries s.pushed 0).length = 1 ∧
      (∀ x ∈ Runs.entries s.pushed 0, x.2.arrivedAt = 8) ∧ s.toPublish = [] ∧
      (eventsFor [65, 65, 80, 76] (s.frames.flatMap (Frame.events wholeDoubles))).length = 2 ∧
      ∀ frame ∈ s.frames, frame.value.depth ≤ 2 ^ 32 + 1))
    (by decide +kernel)
  obtain ⟨hdropped, hpushed, htime, hempty, hcount, hdepth⟩ := of_decide_eq_true hs
  obtain ⟨-, -, -, hconsumers⟩ :=
    orders_come_from_trades wholeDoubles {} e hcreate newDecoder lossyFeed s hrun hdepth
  obtain ⟨-, hreached, -, hanswers⟩ := hconsumers 0 [65, 65, 80, 76] rfl
  have hlength := hreached hempty
  rw [List.length_map] at hlength
  exact ⟨e, s, hcreate, hrun, hdropped, by omega, hpushed, fun x hx => ⟨hanswers x hx, htime x hx⟩⟩

end Trading
