/-
**What the consumers do with their events.**

Two results about the consumers that the engine starts.  The first is about who gets an event: the
topics are matched by prefix and `run` does not look at the symbol of what it receives, so a
consumer also gets the events of every symbol that its own one is a prefix of.  The second is about
what is made of an event: the constructor of a consumer makes its strategy without arguments, so
all orders carry the strategy's own defaults, whatever the configuration says.

Main definitions:

* `Trading.OneConsumer` — an event is handled by the consumer of its symbol only;
* `Trading.FollowsConfig` — an order is the one that the configuration asks for;
* `Trading.TradingEngine.UsesDefaults` — what holds of every order instead.

Main results:

* `Trading.one_consumer_iff` — an event has one consumer exactly when no configured symbol is a
  proper prefix of its symbol;
* `Trading.follows_config_iff` — an order follows the configuration exactly when that repeats the
  defaults.
-/

import TradingAlgo.Engine

set_option relaxedAutoImplicit false
set_option autoImplicit false

namespace Trading

/-! ### Who gets an event -/

/-- Of the consumers that are started, only the one whose symbol is the event's passes the event to
its strategy, at any time; and all events of a configured symbol are handled by a single thread.
The symbol of an event is what is published of it, eight bytes at most. -/
def OneConsumer (config : AppConfig) (event : MarketEvent) (symbol : List UInt8) : Prop :=
  ∀ e, TradingEngine.create config = .ok e →
    (∀ as e', Runs.exec TradingEngine.step e as = some e' → ∀ i, e'.Handles i event symbol →
      config.trading.symbols[i]? = some (symbol.take 8)) ∧
    (symbol.take 8 ∈ config.trading.symbols →
      ∀ as e₁, Runs.exec TradingEngine.step e as = some e₁ →
      ∀ as' e₂, Runs.exec TradingEngine.step e as' = some e₂ →
      ∀ (event' : MarketEvent) (i j : ℕ),
        e₁.Handles i event symbol → e₂.Handles j event' symbol → i = j)

/-- A started consumer receives what its symbol is a prefix of. -/
theorem receives_iff {config : AppConfig} {consumers : List MarketEventConsumer}
    (hlength : ∀ s ∈ config.trading.symbols, s.length ≤ 8)
    (hlaunch : launchConsumers config = .ok consumers) (i : ℕ) (event : MarketEvent)
    (symbol : List UInt8) :
    (∃ consumer, consumers[i]? = some consumer ∧
      consumer.receives (ZmqMarketEventSink.publish event symbol) = true) ↔
      ∃ s, config.trading.symbols[i]? = some s ∧ s <+: symbol.take 8 := by
  obtain rfl : _ = consumers := Except.ok.inj ((launchConsumers_ok hlength).symm.trans hlaunch)
  simp [MarketEventConsumer.receives, ZmqMarketEventSink.publish_topic, List.getElem?_map]

/-- Throughout a run, the consumers whose symbol is a prefix of the published one get the event. -/
theorem handles_iff {config : AppConfig} {e : TradingEngine}
    (hcreate : TradingEngine.create config = .ok e) {as : List TradingEngine.Action}
    {e' : TradingEngine} (hrun : Runs.exec TradingEngine.step e as = some e') (i : ℕ)
    (event : MarketEvent) (symbol : List UInt8) :
    e'.Handles i event symbol ↔
      ∃ s, config.trading.symbols[i]? = some s ∧ s <+: symbol.take 8 := by
  have hsubscriptions :
      e'.consumers.map MarketEventConsumer.subscription = config.trading.symbols :=
    Runs.exec_inv (fun _ _ _ h hstep => (TradingEngine.subscriptions_step hstep).trans h)
      (TradingEngine.subscriptions_create hcreate) hrun
  rw [TradingEngine.handles_iff_receives, ← hsubscriptions]
  simp [MarketEventConsumer.receives, ZmqMarketEventSink.publish_topic, List.getElem?_map]

/-- **One consumer per event, exactly when no configured symbol is a proper prefix** of the event's
symbol. -/
theorem one_consumer_iff (config : AppConfig) (hvalid : validateConfig config = .ok ())
    (hlength : ∀ s ∈ config.trading.symbols, s.length ≤ 8) (event : MarketEvent)
    (symbol : List UInt8) :
    OneConsumer config event symbol ↔
      ∀ s ∈ config.trading.symbols, s <+: symbol.take 8 → s = symbol.take 8 := by
  have hnodup := ((validateConfig_ok_iff config).1 hvalid).2.2.2.2
  constructor
  · intro hone s hs hprefix
    obtain ⟨e, hcreate⟩ := TradingEngine.exists_create hlength
    obtain ⟨i, hi⟩ := List.mem_iff_getElem?.1 hs
    have hhandles := (handles_iff hcreate (Runs.exec_nil _ e) i event symbol).2 ⟨s, hi, hprefix⟩
    have honly := (hone e hcreate).1 [] e rfl i hhandles
    exact Option.some_inj.1 (hi.symm.trans honly)
  · intro hprefix e hcreate
    -- who is passed an event of the symbol is configured for just that symbol
    have honly : ∀ as e', Runs.exec TradingEngine.step e as = some e' →
        ∀ (event' : MarketEvent) (i : ℕ), e'.Handles i event' symbol →
        config.trading.symbols[i]? = some (symbol.take 8) := by
      intro as e' hrun event' i hhandles
      obtain ⟨s, hs, hpre⟩ := (handles_iff hcreate hrun i event' symbol).1 hhandles
      rw [hs, hprefix s (List.mem_of_getElem? hs) hpre]
    refine ⟨fun as e' hrun => honly as e' hrun event, ?_⟩
    intro _ as e₁ hrun₁ as' e₂ hrun₂ event' i j hi hj
    have hsi := honly as e₁ hrun₁ event i hi
    have hsj := honly as' e₂ hrun₂ event' j hj
    obtain ⟨hlt, -⟩ := List.getElem?_eq_some_iff.1 hsi
    exact (List.getElem?_inj hlt hnodup).1 (hsi.trans hsj.symm)

/-- The tickers `AAPL` and `MSFT`: an event of the first has one consumer. -/
theorem one_consumer_of_two_tickers :
    let config : AppConfig :=
      { trading := { symbols := [[65, 65, 80, 76], [77, 83, 70, 84]] } }
    let event : MarketEvent := ⟨2, CharArray.ofBytes 8 [65, 65, 80, 76], 0, 1000000, 1, 0, 0, 0⟩
    validateConfig config = .ok () ∧ OneConsumer config event [65, 65, 80, 76] := by
  intro config event
  have hvalid : validateConfig config = .ok () :=
    (validateConfig_ok_iff config).2 (by decide +kernel)
  exact ⟨hvalid, (one_consumer_iff config hvalid (by decide) event _).2 (by decide +kernel)⟩

/-- The tickers `A` and `AAPL`, both real ones: the consumer of the first also gets the events of
the second. -/
theorem one_consumer_fails :
    let config : AppConfig := { trading := { symbols := [[65], [65, 65, 80, 76]] } }
    let event : MarketEvent := ⟨2, CharArray.ofBytes 8 [65, 65, 80, 76], 0, 1000000, 1, 0, 0, 0⟩
    validateConfig config = .ok () ∧
      (∀ s ∈ config.trading.symbols, s ≠ [] ∧ s.length ≤ 8) ∧
      ¬ OneConsumer config event [65, 65, 80, 76] := by
  intro config event
  refine ⟨(validateConfig_ok_iff config).2 (by decide +kernel), by decide, fun hone => ?_⟩
  have hlength : ∀ s ∈ config.trading.symbols, s.length ≤ 8 := by decide
  obtain ⟨e, hcreate⟩ := TradingEngine.exists_create hlength
  have hhandles : e.Handles 0 event [65, 65, 80, 76] :=
    (handles_iff hcreate (Runs.exec_nil _ e) 0 event _).2 ⟨[65], rfl, by decide⟩
  have honly := (hone e hcreate).1 [] e rfl 0 hhandles
  exact absurd honly (by decide)

/-! ### What is made of an event -/

/-- The order that the configuration asks for: its quantity and offset, a limit order, for the
symbol of the trade; the price is the trade's without wrapping around. -/
def FollowsConfig (config : AppConfig) (event : MarketEvent) (order : Order) : Prop :=
  order.quantity = config.strategy.orderQuantity ∧ order.type = .limit ∧
    order.symbol = event.symbol ∧
    order.price.toNat + config.strategy.spreadOffsetTicks.toNat = event.p1.toNat

namespace TradingEngine

/-- All strategies have their default parameters, and so do the orders that were pushed. -/
structure UsesDefaults (e : TradingEngine) : Prop where
  strategies : ∀ c ∈ e.consumers,
    c.strategy.spreadOffsetTicks = 100 ∧ c.strategy.orderQuantity = 100
  pushed : ∀ x ∈ e.pushed, FollowsConfig {} x.1 x.2

theorem mapM_create_strategy {symbols : List (List UInt8)} {consumers : List MarketEventConsumer}
    (h : symbols.mapM MarketEventConsumer.create = .ok consumers) :
    ∀ c ∈ consumers, c.strategy = {} := by
  rw [mapM_create_ok (length_le_of_mapM_create h)] at h
  obtain rfl := Except.ok.inj h
  simp

theorem usesDefaults_create {config : AppConfig} {e : TradingEngine}
    (h : create config = .ok e) : UsesDefaults e := by
  cases hlaunch : launchConsumers config with
  | error _ => simp [create, hlaunch, Except.map] at h
  | ok consumers =>
      simp only [create, hlaunch, Except.map, Except.ok.injEq] at h
      subst h
      refine ⟨fun c hc => ?_, by simp⟩
      rw [mapM_create_strategy hlaunch c hc]
      exact ⟨rfl, rfl⟩

/-- **Every step keeps the defaults.** -/
theorem UsesDefaults.step {e e' : TradingEngine} {a : Action} (h : UsesDefaults e)
    (hstep : TradingEngine.step e a = some e') : UsesDefaults e' := by
  rcases step_cases hstep with ⟨consumer, hconsumer, event, hconsumers, hpushed⟩ | ⟨hc, hp⟩
  · obtain ⟨hspread, hquantity⟩ := h.strategies consumer hconsumer
    refine ⟨fun c hc => ?_, fun x hx => ?_⟩
    · rcases hconsumers c hc with hold | rfl
      · exact h.strategies c hold
      · obtain ⟨h₁, h₂⟩ := consumer.strategy.onMarketEvent_parameters event
        exact ⟨h₁.trans hspread, h₂.trans hquantity⟩
    · rcases hpushed x hx with hold | ⟨order, now, queuedAt, horder, -, rfl⟩
      · exact h.pushed x hold
      · obtain ⟨hq, htype, hsymbol, hprice⟩ :=
          SimpleMarketMakingStrategy.onMarketEvent_some horder
        rw [hspread] at hprice
        exact ⟨hq.trans hquantity, htype, hsymbol, hprice⟩
  · exact ⟨by rw [hc]; exact h.strategies, by rw [hp]; exact h.pushed⟩

end TradingEngine

/-- **An order follows the configuration exactly when that repeats the defaults**, for every order
that any run of the engine pushes. -/
theorem follows_config_iff (config : AppConfig) (e : TradingEngine)
    (hcreate : TradingEngine.create config = .ok e) (as : List TradingEngine.Action)
    (e' : TradingEngine) (hrun : Runs.exec TradingEngine.step e as = some e')
    (event : MarketEvent) (order : Order) (hpushed : (event, order) ∈ e'.pushed) :
    FollowsConfig config event order ↔
      config.strategy.orderQuantity = 100 ∧ config.strategy.spreadOffsetTicks = 100 := by
  have huses : TradingEngine.UsesDefaults e' :=
    Runs.exec_inv (fun _ _ _ h hst => h.step hst) (TradingEngine.usesDefaults_create hcreate) hrun
  obtain ⟨hquantity, htype, hsymbol, hprice⟩ := huses.pushed _ hpushed
  constructor
  · rintro ⟨hquantity', -, -, hprice'⟩
    refine ⟨hquantity'.symm.trans hquantity, UInt64.toNat_inj.1 ?_⟩
    exact Nat.add_left_cancel (hprice'.trans hprice.symm)
  · rintro ⟨hq, hspread⟩
    refine ⟨hquantity.trans hq.symm, htype, hsymbol, ?_⟩
    rw [hspread]
    exact hprice

/-- The default configuration: one trade leads to an order, and it is the configured one. -/
theorem follows_config_of_defaults :
    let event : MarketEvent := ⟨2, CharArray.ofBytes 8 [65, 65, 80, 76], 0, 500000, 1, 0, 0, 7⟩
    let order : Order :=
      { symbol := event.symbol, quantity := 100, price := 499900, side := .buy, type := .limit
        arrivedAt := 7, queuedAt := 200000001 }
    let as : List TradingEngine.Action :=
      [.deliver 0 (ZmqMarketEventSink.publish event [65, 65, 80, 76]) 200000000 200000001]
    ∃ e e', TradingEngine.create {} = .ok e ∧ Runs.exec TradingEngine.step e as = some e' ∧
      (event, order) ∈ e'.pushed ∧ FollowsConfig {} event order := by
  intro event order as
  obtain ⟨e, e', hcreate, hrun, hmem⟩ := TradingEngine.exists_of_create {}
    (fun e => Runs.exec TradingEngine.step e as) (fun e => (event, order) ∈ e.pushed)
    (by decide +kernel)
  have hpushed := of_decide_eq_true hmem
  exact ⟨e, e', hcreate, hrun, hpushed,
    (follows_config_iff {} e hcreate as e' hrun event order hpushed).2 ⟨rfl, rfl⟩⟩

/-- Ten shares, fifty ticks below the trade, are configured; a hundred shares go out, a hundred
ticks below it. -/
theorem follows_config_fails :
    let config : AppConfig := { strategy := { spreadOffsetTicks := 50, orderQuantity := 10 } }
    let event : MarketEvent := ⟨2, CharArray.ofBytes 8 [65, 65, 80, 76], 0, 500000, 1, 0, 0, 7⟩
    let order : Order :=
      { symbol := event.symbol, quantity := 100, price := 499900, side := .buy, type := .limit
        arrivedAt := 7, queuedAt := 200000001 }
    let as : List TradingEngine.Action :=
      [.deliver 0 (ZmqMarketEventSink.publish event [65, 65, 80, 76]) 200000000 200000001]
    validateConfig config = .ok () ∧
      ∃ e e', TradingEngine.create config = .ok e ∧ Runs.exec TradingEngine.step e as = some e' ∧
        (event, order) ∈ e'.pushed ∧ ¬ FollowsConfig config event order := by
  intro config event order as
  refine ⟨(validateConfig_ok_iff config).2 (by decide +kernel), ?_⟩
  obtain ⟨e, e', hcreate, hrun, hmem⟩ := TradingEngine.exists_of_create config
    (fun e => Runs.exec TradingEngine.step e as) (fun e => (event, order) ∈ e.pushed)
    (by decide +kernel)
  exact ⟨e, e', hcreate, hrun, of_decide_eq_true hmem, fun h => absurd h.1 (by decide)⟩

end Trading
