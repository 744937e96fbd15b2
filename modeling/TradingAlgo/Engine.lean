/-
**The engine: configuration, strategy and consumers.**

`src/AppConfig.cpp` checks a configuration, `src/TradingEngine.cpp` builds the components from it
and starts one `MarketEventConsumer` for each symbol.  A consumer subscribes to the topic of its
symbol, passes every event it receives to its own strategy, asks the risk manager about the order
that the strategy makes of it, and pushes what is approved into the order queue.

ZeroMQ is outside: a message reaches a subscriber when the subscribed bytes are a prefix of its
topic.  The sockets' errors and timeouts are rounds of `run` in which nothing is received.

Main definitions:

* `Trading.AppConfig`, `Trading.validateConfig` — the configuration and its check;
* `Trading.MarketEvent`, `Trading.SimpleMarketMakingStrategy` — an event, and the order it leads to;
* `Trading.ZmqMarketEventSink.publish` — the topic of a message;
* `Trading.MarketEventConsumer` — the constructor and a round of `run`;
* `Trading.TradingEngine` — the components, `launchConsumers`, and the machine of the consumers;
* `Trading.TradingEngine.Handles` — a consumer passes a published event to its strategy.

Main results:

* `Trading.validateConfig_ok_iff` — what an accepted configuration is known to satisfy;
* `Trading.launchConsumers_ok` — the consumers of symbols that fit;
* `Trading.TradingEngine.step_cases` — everything that a step of the engine can do;
* `Trading.TradingEngine.handles_iff_receives` — `run` passes on whatever the socket receives.
-/

import TradingAlgo.CxxLibrary
import TradingAlgo.RiskManager
import TradingAlgo.Runs

set_option relaxedAutoImplicit false
set_option autoImplicit false

namespace Trading

/-! ### The configuration -/

/-- `struct TradingConfig`. -/
structure TradingConfig where
  symbols : List (List UInt8) := [[65, 65, 80, 76], [71, 79, 79, 71, 76], [65, 77, 90, 78]]
  orderCooldownNs : UInt64 := 100000000
  deriving DecidableEq, Repr

/-- `struct RiskConfig`. -/
structure RiskConfig where
  maxPositionPerSymbol : ℤ := 1000
  maxOrderValue : ℚ := 10000
  deriving DecidableEq, Repr

/-- `struct StrategyConfig`. -/
structure StrategyConfig where
  spreadOffsetTicks : UInt64 := 100
  orderQuantity : ℤ := 100
  deriving DecidableEq, Repr

/-- `struct AppConfig`, without the addresses and the cores. -/
structure AppConfig where
  trading : TradingConfig := {}
  risk : RiskConfig := {}
  strategy : StrategyConfig := {}
  deriving DecidableEq, Repr

/-- `validateConfig`; the error is the text of the `std::runtime_error`. -/
def validateConfig (config : AppConfig) : Except String Unit :=
  if config.risk.maxPositionPerSymbol ≤ 0 then
    .error "Config: risk.max_position_per_symbol must be positive"
  else if config.risk.maxOrderValue ≤ 0 then
    .error "Config: risk.max_order_value must be positive"
  else if config.strategy.orderQuantity ≤ 0 then
    .error "Config: strategy.order_quantity must be positive"
  else if config.strategy.spreadOffsetTicks = 0 then
    .error "Config: strategy.spread_offset_ticks must be non-zero"
  else if Cxx.adjacentFind (Cxx.sort config.trading.symbols) then
    .error "Config: trading.symbols contains duplicates"
  else .ok ()

/-- **What an accepted configuration satisfies.**  Of the symbols it is only that they differ. -/
theorem validateConfig_ok_iff (config : AppConfig) :
    validateConfig config = .ok () ↔
      0 < config.risk.maxPositionPerSymbol ∧ 0 < config.risk.maxOrderValue ∧
        0 < config.strategy.orderQuantity ∧ config.strategy.spreadOffsetTicks ≠ 0 ∧
        config.trading.symbols.Nodup := by
  rw [← Cxx.adjacentFind_sort]
  unfold validateConfig
  split_ifs with h₁ h₂ h₃ h₄ h₅
  · simp [not_lt.2 h₁]
  · simp [not_lt.2 h₂]
  · simp [not_lt.2 h₃]
  · simp [h₄]
  · simp [h₅]
  · simp [not_le.1 h₁, not_le.1 h₂, not_le.1 h₃, h₄, h₅]

/-! ### Events and the strategy -/

/-- `struct MarketEvent`. -/
structure MarketEvent where
  eventType : UInt64
  symbol : CharArray 8
  timestamp : UInt64
  p1 : UInt64
  s1 : UInt64
  p2 : UInt64
  s2 : UInt64
  arrivedAt : UInt64
  deriving DecidableEq, Repr

/-- `SimpleMarketMakingStrategy`, with the defaults of its constructor. -/
structure SimpleMarketMakingStrategy where
  lastTradePrice : UInt64 := 0
  spreadOffsetTicks : UInt64 := 100
  orderQuantity : ℤ := 100
  deriving DecidableEq, Repr

/-- `onMarketEvent`: a trade is answered by a purchase below its price. -/
def SimpleMarketMakingStrategy.onMarketEvent (strategy : SimpleMarketMakingStrategy)
    (event : MarketEvent) : SimpleMarketMakingStrategy × Option Order :=
  if event.eventType ≠ 2 then (strategy, none)
  else
    let strategy := { strategy with lastTradePrice := event.p1 }
    if strategy.lastTradePrice < strategy.spreadOffsetTicks then (strategy, none)
    else
      (strategy, some
        { symbol := event.symbol
          side := .buy
          type := .limit
          quantity := strategy.orderQuantity
          price := strategy.lastTradePrice - strategy.spreadOffsetTicks })

/-- The parameters of a strategy do not change. -/
theorem SimpleMarketMakingStrategy.onMarketEvent_parameters (strategy : SimpleMarketMakingStrategy)
    (event : MarketEvent) :
    (strategy.onMarketEvent event).1.spreadOffsetTicks = strategy.spreadOffsetTicks ∧
      (strategy.onMarketEvent event).1.orderQuantity = strategy.orderQuantity := by
  simp only [onMarketEvent]
  split_ifs <;> exact ⟨rfl, rfl⟩

/-- The order of a strategy: the guard keeps the subtraction from wrapping around. -/
theorem SimpleMarketMakingStrategy.onMarketEvent_some {strategy : SimpleMarketMakingStrategy}
    {event : MarketEvent} {order : Order} (h : (strategy.onMarketEvent event).2 = some order) :
    order.quantity = strategy.orderQuantity ∧ order.type = .limit ∧ order.symbol = event.symbol ∧
      order.price.toNat + strategy.spreadOffsetTicks.toNat = event.p1.toNat := by
  simp only [onMarketEvent] at h
  split_ifs at h with htype hprice
  obtain rfl := Option.some_inj.1 h
  refine ⟨rfl, rfl, rfl, ?_⟩
  have hle : strategy.spreadOffsetTicks ≤ event.p1 := UInt64.not_lt.1 hprice
  rw [UInt64.toNat_sub_of_le _ _ hle]
  exact Nat.sub_add_cancel (UInt64.le_iff_toNat_le.1 hle)

/-! ### Publishing and receiving -/

/-- A message on the market data socket. -/
structure ZmqMessage where
  topic : List UInt8
  payload : MarketEvent
  deriving DecidableEq, Repr

/-- `ZmqMarketEventSink::publish`: at most eight bytes of the symbol are the topic. -/
def ZmqMarketEventSink.publish (event : MarketEvent) (symbol : List UInt8) : ZmqMessage where
  topic := symbol.take (min symbol.length 8)
  payload := event

theorem ZmqMarketEventSink.publish_topic (event : MarketEvent) (symbol : List UInt8) :
    (ZmqMarketEventSink.publish event symbol).topic = symbol.take 8 := by
  unfold publish
  rcases Nat.le_total symbol.length 8 with h | h
  · rw [Nat.min_eq_left h, List.take_length, List.take_of_length_le h]
  · rw [Nat.min_eq_right h]

/-- `MarketEventConsumer`: its strategy, and the bytes that its socket is subscribed to. -/
structure MarketEventConsumer where
  strategy : SimpleMarketMakingStrategy
  subscription : List UInt8
  deriving DecidableEq, Repr

namespace MarketEventConsumer

/-- The constructor: the strategy is made with its default arguments, and a symbol that does not
fit is an error. -/
def create (symbol : List UInt8) : Except String MarketEventConsumer :=
  if 8 < symbol.length then .error "MarketEventConsumer symbol must be <= 8 bytes"
  else
    .ok
      { strategy := {}
        subscription := (CharArray.ofBytes 9 symbol).bytes.take symbol.length }

/-- What ZeroMQ delivers to the socket. -/
def receives (consumer : MarketEventConsumer) (message : ZmqMessage) : Bool :=
  consumer.subscription.isPrefixOf message.topic

/-- A round of `run` with a message: the strategy gets its event, whatever the event's symbol is;
what it makes of it goes to the risk manager, and what is approved to the queue.  `now` is the
clock of the cooldown, `preQueueAt` the one before the push. -/
def onMessage (rm : RiskManager) (consumer : MarketEventConsumer) (risk : RiskState)
    (message : ZmqMessage) (now preQueueAt : UInt64) :
    MarketEventConsumer × RiskState × Option Order :=
  let event := message.payload
  let r := consumer.strategy.onMarketEvent event
  let consumer := { consumer with strategy := r.1 }
  match r.2 with
  | none => (consumer, risk, none)
  | some order =>
      let d := rm.onNewOrder risk order now
      (consumer, d.2,
        if d.1 then some { order with arrivedAt := event.arrivedAt, queuedAt := preQueueAt }
        else none)

/-- The strategy sees the event and nothing else. -/
theorem onMessage_consumer (rm : RiskManager) (consumer : MarketEventConsumer) (risk : RiskState)
    (message : ZmqMessage) (now preQueueAt : UInt64) :
    (consumer.onMessage rm risk message now preQueueAt).1 =
      { consumer with strategy := (consumer.strategy.onMarketEvent message.payload).1 } := by
  simp only [onMessage]
  cases (consumer.strategy.onMarketEvent message.payload).2 <;> rfl

/-- What is pushed is the order of the strategy, approved and stamped with the two times. -/
theorem onMessage_pushed {rm : RiskManager} {consumer : MarketEventConsumer} {risk : RiskState}
    {message : ZmqMessage} {now preQueueAt : UInt64} {pushed : Order}
    (h : (consumer.onMessage rm risk message now preQueueAt).2.2 = some pushed) :
    ∃ order, (consumer.strategy.onMarketEvent message.payload).2 = some order ∧
      (rm.onNewOrder risk order now).1 = true ∧
      pushed =
        { order with arrivedAt := message.payload.arrivedAt, queuedAt := preQueueAt } := by
  simp only [onMessage] at h
  cases horder : (consumer.strategy.onMarketEvent message.payload).2 with
  | none => simp [horder] at h
  | some order =>
      simp only [horder, Option.ite_none_right_eq_some, Option.some_inj] at h
      exact ⟨order, rfl, h.1, h.2.symm⟩

theorem create_ok {symbol : List UInt8} (h : symbol.length ≤ 8) :
    create symbol = .ok { strategy := {}, subscription := symbol } := by
  have htake : (CharArray.ofBytes 9 symbol).bytes.take symbol.length = symbol := by
    rw [CharArray.bytes_ofBytes, List.take_of_length_le (by omega : symbol.length ≤ 9),
      List.take_left]
  rw [create, if_neg (by omega), htake]

theorem create_eq_ok_iff (symbol : List UInt8) :
    (∃ consumer, create symbol = .ok consumer) ↔ symbol.length ≤ 8 := by
  constructor
  · rintro ⟨consumer, h⟩
    by_contra hlen
    simp [create, not_le.1 hlen] at h
  · exact fun h => ⟨_, create_ok h⟩

end MarketEventConsumer

/-! ### The engine -/

/-- `launch_consumers`: one consumer for each symbol, in order; the first error ends it. -/
def launchConsumers (config : AppConfig) : Except String (List MarketEventConsumer) :=
  config.trading.symbols.mapM MarketEventConsumer.create

theorem mapM_create_ok {symbols : List (List UInt8)} (h : ∀ s ∈ symbols, s.length ≤ 8) :
    symbols.mapM MarketEventConsumer.create =
      .ok (symbols.map fun s => { strategy := {}, subscription := s }) := by
  induction symbols with
  | nil => rfl
  | cons s symbols ih =>
      rw [List.mapM_cons, MarketEventConsumer.create_ok (h s (by simp)),
        ih fun t ht => h t (List.mem_cons_of_mem s ht)]
      rfl

/-- **The consumers of symbols that fit.** -/
theorem launchConsumers_ok {config : AppConfig}
    (h : ∀ s ∈ config.trading.symbols, s.length ≤ 8) :
    launchConsumers config =
      .ok (config.trading.symbols.map fun s => { strategy := {}, subscription := s }) :=
  mapM_create_ok h

/-- Only symbols that fit can be launched. -/
theorem length_le_of_mapM_create {symbols : List (List UInt8)}
    {consumers : List MarketEventConsumer}
    (h : symbols.mapM MarketEventConsumer.create = .ok consumers) :
    ∀ s ∈ symbols, s.length ≤ 8 := by
  induction symbols generalizing consumers with
  | nil => simp
  | cons s symbols ih =>
      rw [List.mapM_cons] at h
      cases hs : MarketEventConsumer.create s with
      | error e => simp [hs, bind, Except.bind] at h
      | ok consumer =>
          cases hrest : symbols.mapM MarketEventConsumer.create with
          | error e => simp [hs, hrest, bind, Except.bind] at h
          | ok rest =>
              intro t ht
              rcases List.mem_cons.1 ht with rfl | ht
              · exact (MarketEventConsumer.create_eq_ok_iff t).1 ⟨consumer, hs⟩
              · exact ih hrest t ht

/-- The engine as the consumers see it.  `pushed` are the orders that went into the queue, each
with the event that led to it. -/
structure TradingEngine where
  riskManager : RiskManager
  risk : RiskState
  consumers : List MarketEventConsumer
  pushed : List (MarketEvent × Order) := []

namespace TradingEngine

/-- The constructor followed by `launch_consumers`. -/
def create (config : AppConfig) : Except String TradingEngine :=
  (launchConsumers config).map fun consumers =>
    { riskManager :=
        { maxPositionPerSymbol := config.risk.maxPositionPerSymbol
          maxOrderValue := config.risk.maxOrderValue }
      risk := RiskState.wire config.trading.symbols config.trading.orderCooldownNs
      consumers := consumers }

/-- The steps: a message is delivered to a consumer, or another thread reports a fill or releases
an order. -/
inductive Action
  | deliver (i : ℕ) (message : ZmqMessage) (now preQueueAt : UInt64)
  | fill (fill : Fill)
  | cancelled (order : Order)
  deriving DecidableEq, Repr

/-- The step function. -/
def step (e : TradingEngine) : Action → Option TradingEngine
  | .deliver i message now preQueueAt =>
      match e.consumers[i]? with
      | none => none
      | some consumer =>
          if consumer.receives message then
            let r := consumer.onMessage e.riskManager e.risk message now preQueueAt
            some { e with
              risk := r.2.1
              consumers := e.consumers.set i r.1
              pushed := e.pushed ++ (r.2.2.map (Prod.mk message.payload)).toList }
          else none
  | .fill fill => some { e with risk := e.risk.call e.riskManager (.fill fill) }
  | .cancelled order => some { e with risk := e.risk.call e.riskManager (.cancelled order) }

/-- **Everything that a step can do** to the strategies and the queue. -/
theorem step_cases {e e' : TradingEngine} {a : Action} (h : step e a = some e') :
    (∃ consumer ∈ e.consumers, ∃ event : MarketEvent,
      (∀ c ∈ e'.consumers, c ∈ e.consumers ∨
        c = { consumer with strategy := (consumer.strategy.onMarketEvent event).1 }) ∧
      ∀ x ∈ e'.pushed, x ∈ e.pushed ∨
        ∃ order now queuedAt, (consumer.strategy.onMarketEvent event).2 = some order ∧
          (e.riskManager.onNewOrder e.risk order now).1 = true ∧
          x = (event, { order with arrivedAt := event.arrivedAt, queuedAt := queuedAt })) ∨
    (e'.consumers = e.consumers ∧ e'.pushed = e.pushed) := by
  cases a with
  | deliver i message now preQueueAt =>
      left
      cases hi : e.consumers[i]? with
      | none => simp [step, hi] at h
      | some consumer =>
          simp only [step, hi, Option.ite_none_right_eq_some, Option.some_inj] at h
          obtain ⟨-, rfl⟩ := h
          refine ⟨consumer, List.mem_of_getElem? hi, message.payload, fun c hc => ?_,
            fun x hx => ?_⟩
          · rw [MarketEventConsumer.onMessage_consumer] at hc
            exact List.mem_or_eq_of_mem_set hc
          · refine (List.mem_append.1 hx).imp_right fun hnew => ?_
            rw [Option.mem_toList, Option.map_eq_some_iff] at hnew
            obtain ⟨pushed, hpushed, rfl⟩ := hnew
            obtain ⟨order, horder, happroved, rfl⟩ :=
              MarketEventConsumer.onMessage_pushed hpushed
            exact ⟨order, now, preQueueAt, horder, happroved, rfl⟩
  | fill fill =>
      right
      obtain rfl := Option.some_inj.1 h
      exact ⟨rfl, rfl⟩
  | cancelled order =>
      right
      obtain rfl := Option.some_inj.1 h
      exact ⟨rfl, rfl⟩

/-- The subscriptions stay as they were made. -/
theorem subscriptions_step {e e' : TradingEngine} {a : Action} (h : step e a = some e') :
    e'.consumers.map MarketEventConsumer.subscription =
      e.consumers.map MarketEventConsumer.subscription := by
  cases a with
  | deliver i message now preQueueAt =>
      cases hi : e.consumers[i]? with
      | none => simp [step, hi] at h
      | some consumer =>
          simp only [step, hi, Option.ite_none_right_eq_some, Option.some_inj] at h
          obtain ⟨-, rfl⟩ := h
          rw [MarketEventConsumer.onMessage_consumer, List.map_set]
          refine List.ext_getElem? fun j => ?_
          rw [List.getElem?_set]
          split_ifs with hj hlt
          · rw [← hj, List.getElem?_map, hi]
            rfl
          · rw [← hj, List.getElem?_eq_none (not_lt.1 hlt)]
          · rfl
  | fill fill =>
      obtain rfl := Option.some_inj.1 h
      rfl
  | cancelled order =>
      obtain rfl := Option.some_inj.1 h
      rfl

/-- Symbols that fit make an engine. -/
theorem exists_create {config : AppConfig} (h : ∀ s ∈ config.trading.symbols, s.length ≤ 8) :
    ∃ e, create config = .ok e :=
  ⟨_, by rw [create, launchConsumers_ok h]; rfl⟩

/-- Something that is run from the construction of the engine on, evaluated. -/
theorem exists_of_create {σ : Type*} (config : AppConfig) (run : TradingEngine → Option σ)
    (p : σ → Bool) (h : ((create config).toOption.bind run).any p = true) :
    ∃ e s, create config = .ok e ∧ run e = some s ∧ p s = true := by
  obtain ⟨s, hs, hp⟩ := (Option.any_eq_true _ _).1 h
  obtain ⟨e, he, hrun⟩ := Option.bind_eq_some_iff.1 hs
  refine ⟨e, s, ?_, hrun, hp⟩
  cases hcreate : create config with
  | error _ => simp [hcreate, Except.toOption] at he
  | ok e₀ => simpa [hcreate, Except.toOption] using he

/-- A new engine has one consumer for each symbol, subscribed to it. -/
theorem subscriptions_create {config : AppConfig} {e : TradingEngine}
    (h : create config = .ok e) :
    e.consumers.map MarketEventConsumer.subscription = config.trading.symbols := by
  cases hlaunch : launchConsumers config with
  | error _ => simp [create, hlaunch, Except.map] at h
  | ok consumers =>
      simp only [create, hlaunch, Except.map, Except.ok.injEq] at h
      subst h
      have hlength := length_le_of_mapM_create hlaunch
      obtain rfl := Except.ok.inj ((launchConsumers_ok hlength).symm.trans hlaunch)
      simp [Function.comp_def]

/-- The `i`-th consumer passes a published event to its strategy: `run` can make a round with the
message, and after it the strategy is the one that has seen the event. -/
def Handles (e : TradingEngine) (i : ℕ) (event : MarketEvent) (symbol : List UInt8) : Prop :=
  ∃ consumer now preQueueAt e', e.consumers[i]? = some consumer ∧
    step e (.deliver i (ZmqMarketEventSink.publish event symbol) now preQueueAt) = some e' ∧
    e'.consumers[i]? =
      some { consumer with strategy := (consumer.strategy.onMarketEvent event).1 }

/-- Whatever the socket receives is passed on: `run` asks for no symbol. -/
theorem handles_iff_receives (e : TradingEngine) (i : ℕ) (event : MarketEvent)
    (symbol : List UInt8) :
    Handles e i event symbol ↔ ∃ consumer, e.consumers[i]? = some consumer ∧
      consumer.receives (ZmqMarketEventSink.publish event symbol) = true := by
  constructor
  · rintro ⟨consumer, now, preQueueAt, e', hi, hstep, -⟩
    simp only [step, hi, Option.ite_none_right_eq_some] at hstep
    exact ⟨consumer, hi, hstep.1⟩
  · rintro ⟨consumer, hi, hreceives⟩
    obtain ⟨hlt, -⟩ := List.getElem?_eq_some_iff.1 hi
    refine ⟨consumer, 0, 0, _, hi, by simp only [step, hi, if_pos hreceives]; rfl, ?_⟩
    rw [MarketEventConsumer.onMessage_consumer]
    exact List.getElem?_set_self hlt

end TradingEngine

end Trading
