/-
**One machine for each symbol.**

All symbols of the engine share one position table, one cooldown and one queue, and their consumers
answer the events in whatever order these come.  None of that is visible for a single symbol: what
the engine keeps about a registered symbol, and what it pushes for it, is what a machine of its own
makes of the events, fills and releases of that symbol alone.  The machine has the time of its last
order, four counters and its orders; it knows nothing of tables, slots and other symbols.

The rounds of the consumers are taken one after the other here; what may go on between the accesses
of a round is the subject of `TradingAlgo/OrderPacing.lean` and `TradingAlgo/ExposureRace.lean`.

Main definitions:

* `Trading.SymbolMachine` — the machine of one symbol, its calls and its steps;
* `Trading.RiskState.Shows`, `Trading.TradingEngine.Shows` — the machine that is seen in a state.

Main results:

* `Trading.TradingEngine.Shows.step`, `Trading.TradingEngine.Shows.step_of_ne` — a step about the
  symbol is a step of the machine, and the others leave the machine alone;
* `Trading.engine_is_one_machine_per_symbol` — every run of the engine.
-/

import TradingAlgo.Lifecycle
import TradingAlgo.OrderPacing

set_option relaxedAutoImplicit false
set_option autoImplicit false

namespace Trading

/-! ### The machine of a symbol -/

/-- What there is to know about one symbol. -/
structure SymbolMachine where
  lastOrderTime : UInt64 := 0
  counters : Counters := 0
  pushed : List (MarketEvent × Order) := []
  deriving DecidableEq, Repr

namespace SymbolMachine

/-- A new order: the cooldown is over, which is noted in any case, and the limits admit it. -/
def newOrder (rm : RiskManager) (cooldownNs : UInt64) (m : SymbolMachine) (order : Order)
    (now : UInt64) : Bool × SymbolMachine :=
  if now - m.lastOrderTime < cooldownNs then (false, m)
  else if rm.Admits order (m.counters.filled + m.counters.pending) then
    (true, { m with lastOrderTime := now, counters := order.sent m.counters })
  else (false, { m with lastOrderTime := now })

/-- The orders are pushed after the check. -/
theorem pushed_newOrder (rm : RiskManager) (cooldownNs : UInt64) (m : SymbolMachine) (order : Order)
    (now : UInt64) : (m.newOrder rm cooldownNs order now).2.pushed = m.pushed := by
  simp only [newOrder]
  split_ifs <;> rfl

/-- An event: every trade that is not too cheap is answered, as if it were the first one. -/
def onEvent (rm : RiskManager) (cooldownNs : UInt64) (m : SymbolMachine) (event : MarketEvent)
    (now queuedAt : UInt64) : SymbolMachine :=
  match (SimpleMarketMakingStrategy.onMarketEvent {} event).2 with
  | none => m
  | some order =>
      let r := m.newOrder rm cooldownNs order now
      if r.1 then
        let pushed := { order with arrivedAt := event.arrivedAt, queuedAt := queuedAt }
        { r.2 with pushed := m.pushed ++ [(event, pushed)] }
      else r.2

/-- The steps of the engine that are about the symbol. -/
def step (rm : RiskManager) (cooldownNs : UInt64) (m : SymbolMachine) :
    TradingEngine.Action → SymbolMachine
  | .deliver _ message now preQueueAt => m.onEvent rm cooldownNs message.payload now preQueueAt
  | .fill fill => { m with counters := fill.apply m.counters }
  | .cancelled order => { m with counters := order.cancelled m.counters }

end SymbolMachine

/-- The symbol that an action is about. -/
def TradingEngine.Action.symbol : TradingEngine.Action → CharArray 8
  | .deliver _ message _ _ => message.payload.symbol
  | .fill f => f.symbol
  | .cancelled order => order.symbol

/-! ### The components show the machine -/

namespace RiskState

/-- The two components of a wired engine hold, among everything else, the machine of the symbol `k`.
-/
structure Shows (cooldownNs : UInt64) (k : CharArray 8) (m : SymbolMachine) (s : RiskState)
    (pm : PositionManager) (b : Book) (c : OrderCooldown) : Prop where
  wired : Wired s pm b c
  cooldownNs_eq : c.cooldownNs = cooldownNs
  counters : b.counters (symbolBufferToKey k) = m.counters
  lastOrderTime : c.lastOrderTime k = some m.lastOrderTime

namespace Shows

variable {cooldownNs : UInt64} {k : CharArray 8} {m : SymbolMachine} {s : RiskState}
  {pm : PositionManager} {b : Book} {c : OrderCooldown}

/-- The symbol is registered. -/
theorem mem_slots (h : Shows cooldownNs k m s pm b c) : k ∈ c.slots.map CooldownSlot.symbol := by
  have htime := h.lastOrderTime
  rw [OrderCooldown.lastOrderTime, OrderCooldown.timeIn, Option.map_eq_some_iff] at htime
  obtain ⟨slot, hslot, -⟩ := htime
  have hsymbol : slot.symbol = k := by simpa using List.find?_some hslot
  exact List.mem_map.2 ⟨slot, List.mem_of_find?_eq_some hslot, hsymbol⟩

theorem mem_keys (h : Shows cooldownNs k m s pm b c) (hk : k ≠ reservedSymbol) :
    symbolBufferToKey k ∈ b.keys :=
  h.wired.booked k h.mem_slots (symbolBufferToKey_ne_kEmptySlot hk)

/-- The exposure that `onNewOrder` reads is the machine's. -/
theorem getTotalExposure (h : Shows cooldownNs k m s pm b c) :
    pm.getTotalExposure k.view = m.counters.filled + m.counters.pending := by
  rw [h.wired.refines.getTotalExposure, symbolToKey_eq, h.wired.padded k h.mem_slots, h.counters]

/-- Other positions. -/
theorem positions (h : Shows cooldownNs k m s pm b c) {pm' : PositionManager} {b' : Book}
    (href : pm'.Refines b') (hsub : b.keys ⊆ b'.keys) {counters : Counters}
    (hcounters : b'.counters (symbolBufferToKey k) = counters) :
    Shows cooldownNs k { m with counters := counters } { s with positionManager := some pm' }
      pm' b' c where
  wired := h.wired.of_refines rfl h.wired.orderCooldown rfl href hsub
  cooldownNs_eq := h.cooldownNs_eq
  counters := hcounters
  lastOrderTime := h.lastOrderTime

/-- What the cooldown test makes of a state: the time is noted under the symbol that passes. -/
theorem checkCooldown (h : Shows cooldownNs k m s pm b c) (order : Order) (now : UInt64) :
    let r := RiskManager.checkCooldown s order now
    ∃ c', Shows cooldownNs k
      { m with lastOrderTime := if k = order.symbol ∧ r.1 = true then now else m.lastOrderTime }
      r.2 pm b c' := by
  have hr : RiskManager.checkCooldown s order now =
      ((c.checkAndUpdate order.symbol now).1,
        { s with orderCooldown := some (c.checkAndUpdate order.symbol now).2 }) := by
    simp [RiskManager.checkCooldown, h.wired.orderCooldown]
  simp only [hr]
  refine ⟨(c.checkAndUpdate order.symbol now).2, ?_, h.cooldownNs_eq, h.counters, ?_⟩
  · exact h.wired.of_refines h.wired.positionManager rfl (OrderCooldown.checkSlots_symbols ..)
      h.wired.refines (Finset.Subset.refl _)
  · rw [OrderCooldown.lastOrderTime_step, h.lastOrderTime]
    split_ifs <;> rfl

/-- The test passes for the symbol when its cooldown is over. -/
theorem checkCooldown_passes (h : Shows cooldownNs k m s pm b c) {order : Order}
    (horder : order.symbol = k) (now : UInt64) :
    (RiskManager.checkCooldown s order now).1 = true ↔ ¬ now - m.lastOrderTime < cooldownNs := by
  have hr : (RiskManager.checkCooldown s order now).1 = (c.checkAndUpdate order.symbol now).1 := by
    simp [RiskManager.checkCooldown, h.wired.orderCooldown]
  rw [hr, OrderCooldown.checkAndUpdate_passes, horder, h.lastOrderTime, h.cooldownNs_eq]
  simp

/-! ### Calls -/

/-- **A new order of the symbol is a new order of the machine**: the same answer, and the state
shows what the machine has become. -/
theorem newOrder (h : Shows cooldownNs k m s pm b c) (hk : k ≠ reservedSymbol) (rm : RiskManager)
    {order : Order} (horder : order.symbol = k) (now : UInt64) :
    (rm.onNewOrder s order now).1 = (m.newOrder rm cooldownNs order now).1 ∧
      ∃ pm' b' c', Shows cooldownNs k (m.newOrder rm cooldownNs order now).2
        (rm.onNewOrder s order now).2 pm' b' c' := by
  obtain ⟨c', hcheck⟩ := h.checkCooldown order now
  have hpasses := h.checkCooldown_passes horder now
  by_cases hearly : now - m.lastOrderTime < cooldownNs
  · have hfails : (RiskManager.checkCooldown s order now).1 = false := by
      rw [Bool.eq_false_iff, ne_eq, hpasses, not_not]
      exact hearly
    have hnew : rm.onNewOrder s order now = (false, (RiskManager.checkCooldown s order now).2) := by
      simp [RiskManager.onNewOrder, hfails]
    have hsmall : m.newOrder rm cooldownNs order now = (false, m) := if_pos hearly
    rw [hnew, hsmall]
    refine ⟨rfl, pm, b, c', ?_⟩
    simpa [hfails] using hcheck
  · have hpass := hpasses.2 hearly
    rw [if_pos ⟨horder.symm, hpass⟩] at hcheck
    have hpm := hcheck.wired.positionManager
    have hexposure : pm.getTotalExposure order.symbol.view =
        m.counters.filled + m.counters.pending := horder ▸ h.getTotalExposure
    by_cases hadmits : rm.Admits order (m.counters.filled + m.counters.pending)
    · have hnew : rm.onNewOrder s order now =
          (true, { (RiskManager.checkCooldown s order now).2 with
            positionManager := some (pm.onOrderSent order) }) := by
        simp only [RiskManager.onNewOrder, hpass, if_true, hpm, hexposure, if_pos hadmits]
      have hsmall : m.newOrder rm cooldownNs order now =
          (true, { m with lastOrderTime := now, counters := order.sent m.counters }) := by
        rw [SymbolMachine.newOrder, if_neg hearly, if_pos hadmits]
      rw [hnew, hsmall]
      have hkey : symbolBufferToKey order.symbol = symbolBufferToKey k := congrArg _ horder
      have hmem : symbolBufferToKey order.symbol ∈ b.keys := hkey ▸ h.mem_keys hk
      refine ⟨rfl, _, _, c', hcheck.positions
        (hcheck.wired.refines.onOrderSent order ?_) (b.keys_subset_touch _ _) ?_⟩
      · exact hkey ▸ symbolBufferToKey_ne_kEmptySlot hk
      · rw [Book.onOrderSent, (Book.touch_of_takes (Or.inl hmem) _).2, hkey,
          Function.update_self, h.counters]
    · have hnew : rm.onNewOrder s order now =
          (false, (RiskManager.checkCooldown s order now).2) := by
        simp only [RiskManager.onNewOrder, hpass, if_true, hpm, hexposure, if_neg hadmits]
      have hsmall :
          m.newOrder rm cooldownNs order now = (false, { m with lastOrderTime := now }) := by
        rw [SymbolMachine.newOrder, if_neg hearly, if_neg hadmits]
      rw [hnew, hsmall]
      exact ⟨rfl, pm, b, c', hcheck⟩

/-- **A new order of another symbol leaves the machine alone.** -/
theorem newOrder_of_ne (h : Shows cooldownNs k m s pm b c) (rm : RiskManager) {order : Order}
    (horder : order.symbol ≠ k) (hreserved : order.symbol ≠ reservedSymbol) (now : UInt64) :
    ∃ pm' b' c', Shows cooldownNs k m (rm.onNewOrder s order now).2 pm' b' c' := by
  obtain ⟨c', hcheck⟩ := h.checkCooldown order now
  rw [if_neg fun hboth => horder hboth.1.symm] at hcheck
  rcases rm.onNewOrder_cases s order now with ⟨pm₀, hpm₀, -, -, heq⟩ | heq
  · obtain rfl : pm = pm₀ := Option.some_inj.1 (h.wired.positionManager.symm.trans hpm₀)
    rw [heq]
    refine ⟨_, _, c', hcheck.positions
      (hcheck.wired.refines.onOrderSent order (symbolBufferToKey_ne_kEmptySlot hreserved))
      (b.keys_subset_touch _ _) ?_⟩
    rw [Book.onOrderSent, b.touch_counters_of_ne _ fun hkey =>
      horder (symbolBufferToKey_injective hkey).symm, h.counters]
  · rw [heq]
    exact ⟨pm, b, c', hcheck⟩

/-- A fill changes the counters of its own symbol. -/
theorem fill (h : Shows cooldownNs k m s pm b c) (rm : RiskManager) {f : Fill}
    (hf : f.symbol ≠ reservedSymbol) :
    ∃ pm' b' c', Shows cooldownNs k
      { m with counters := if f.symbol = k then f.apply m.counters else m.counters }
      (s.call rm (.fill f)) pm' b' c' := by
  have hcall : s.call rm (.fill f) = { s with positionManager := some (pm.onFill f) } := by
    simp [RiskState.call, h.wired.positionManager]
  rw [hcall]
  refine ⟨_, _, c, h.positions (h.wired.refines.onFill f (symbolBufferToKey_ne_kEmptySlot hf))
    (b.keys_subset_touch _ _) ?_⟩
  rw [Book.onFill]
  split_ifs with hsymbol
  · have hmem : symbolBufferToKey f.symbol ∈ b.keys := hsymbol.symm ▸ h.mem_keys (hsymbol ▸ hf)
    rw [(Book.touch_of_takes (Or.inl hmem) _).2, hsymbol, Function.update_self, h.counters]
  · rw [b.touch_counters_of_ne _ fun hkey => hsymbol (symbolBufferToKey_injective hkey).symm,
      h.counters]

/-- And so does a release. -/
theorem cancelled (h : Shows cooldownNs k m s pm b c) (rm : RiskManager) {order : Order}
    (horder : order.symbol ≠ reservedSymbol) :
    ∃ pm' b' c', Shows cooldownNs k
      { m with counters := if order.symbol = k then order.cancelled m.counters else m.counters }
      (s.call rm (.cancelled order)) pm' b' c' := by
  have hcall : s.call rm (.cancelled order) =
      { s with positionManager := some (pm.onOrderCancelled order) } := by
    simp [RiskState.call, h.wired.positionManager]
  rw [hcall]
  refine ⟨_, _, c, h.positions
    (h.wired.refines.onOrderCancelled order (symbolBufferToKey_ne_kEmptySlot horder))
    (b.keys_amend _ _).ge ?_⟩
  rw [Book.onOrderCancelled]
  split_ifs with hsymbol
  · have hmem : symbolBufferToKey order.symbol ∈ b.keys :=
      hsymbol.symm ▸ h.mem_keys (hsymbol ▸ horder)
    rw [(Book.amend_of_mem hmem _).2, hsymbol, Function.update_self, h.counters]
  · rw [b.amend_counters_of_ne _ fun hkey => hsymbol (symbolBufferToKey_injective hkey).symm,
      h.counters]

end Shows

end RiskState

/-! ### The engine shows the machine -/

/-- Strategies with the same parameters answer an event alike: the last price is never read before
it is written. -/
theorem SimpleMarketMakingStrategy.onMarketEvent_congr
    {strategy strategy' : SimpleMarketMakingStrategy}
    (hspread : strategy.spreadOffsetTicks = strategy'.spreadOffsetTicks)
    (hquantity : strategy.orderQuantity = strategy'.orderQuantity) (event : MarketEvent) :
    (strategy.onMarketEvent event).2 = (strategy'.onMarketEvent event).2 := by
  simp only [onMarketEvent, hspread, hquantity]
  split_ifs <;> rfl

namespace TradingEngine

/-- What a delivered message does to the components and to the queue, whichever consumer gets it. -/
theorem step_deliver {e e' : TradingEngine} {i : ℕ} {message : ZmqMessage} {now queuedAt : UInt64}
    (hdefaults : UsesDefaults e) (h : step e (.deliver i message now queuedAt) = some e') :
    e'.riskManager = e.riskManager ∧
      (((SimpleMarketMakingStrategy.onMarketEvent {} message.payload).2 = none ∧
          e'.risk = e.risk ∧ e'.pushed = e.pushed) ∨
        ∃ order, (SimpleMarketMakingStrategy.onMarketEvent {} message.payload).2 = some order ∧
          e'.risk = (e.riskManager.onNewOrder e.risk order now).2 ∧
          e'.pushed = e.pushed ++
            if (e.riskManager.onNewOrder e.risk order now).1 then
              [(message.payload,
                { order with arrivedAt := message.payload.arrivedAt, queuedAt := queuedAt })]
            else []) := by
  cases hi : e.consumers[i]? with
  | none => simp [step, hi] at h
  | some consumer =>
      simp only [step, hi, Option.ite_none_right_eq_some, Option.some_inj] at h
      obtain ⟨-, rfl⟩ := h
      obtain ⟨hspread, hquantity⟩ := hdefaults.strategies consumer (List.mem_of_getElem? hi)
      have hstrategy : (consumer.strategy.onMarketEvent message.payload).2 =
          (SimpleMarketMakingStrategy.onMarketEvent {} message.payload).2 :=
        SimpleMarketMakingStrategy.onMarketEvent_congr hspread hquantity message.payload
      refine ⟨rfl, ?_⟩
      cases horder : (SimpleMarketMakingStrategy.onMarketEvent {} message.payload).2 with
      | none =>
          left
          simp [MarketEventConsumer.onMessage, hstrategy, horder]
      | some order =>
          right
          refine ⟨order, rfl, ?_⟩
          simp only [MarketEventConsumer.onMessage, hstrategy, horder]
          refine ⟨trivial, ?_⟩
          split_ifs <;> rfl

/-- The engine holds the machine of the symbol `k`, and the queue its orders. -/
structure Shows (rm : RiskManager) (cooldownNs : UInt64) (k : CharArray 8) (e : TradingEngine)
    (m : SymbolMachine) : Prop where
  riskManager : e.riskManager = rm
  defaults : UsesDefaults e
  risk : ∃ pm b c, RiskState.Shows cooldownNs k m e.risk pm b c
  pushed : e.pushed.filter (fun x => x.2.symbol = k) = m.pushed

variable {rm : RiskManager} {cooldownNs : UInt64} {k : CharArray 8} {e e' : TradingEngine}
  {m : SymbolMachine} {a : Action}

/-- **A step about the symbol is a step of its machine.** -/
theorem Shows.step (h : Shows rm cooldownNs k e m) (ha : a.symbol ≠ reservedSymbol)
    (habout : a.symbol = k) (hstep : TradingEngine.step e a = some e') :
    Shows rm cooldownNs k e' (m.step rm cooldownNs a) := by
  have hdefaults := h.defaults.step hstep
  obtain ⟨pm, b, c, hrisk⟩ := h.risk
  cases a with
  | deliver i message now queuedAt =>
      obtain ⟨hrm, hcases⟩ := step_deliver h.defaults hstep
      rcases hcases with ⟨hnone, hsame, hpushed⟩ | ⟨order, horder, hnext, hpushed⟩
      · have hm : m.step rm cooldownNs (.deliver i message now queuedAt) = m := by
          simp only [SymbolMachine.step, SymbolMachine.onEvent, hnone]
        rw [hm]
        refine ⟨hrm.trans h.riskManager, hdefaults, ⟨pm, b, c, ?_⟩, ?_⟩
        · rw [hsame]
          exact hrisk
        · rw [hpushed]
          exact h.pushed
      · rw [h.riskManager] at hnext hpushed
        obtain ⟨-, -, hsymbol, -⟩ := SimpleMarketMakingStrategy.onMarketEvent_some horder
        have hk : order.symbol = k := hsymbol.trans habout
        obtain ⟨hanswer, pm', b', c', hshows⟩ := hrisk.newOrder (habout ▸ ha) rm hk now
        rw [hanswer] at hpushed
        rw [← hnext] at hshows
        simp only [SymbolMachine.step, SymbolMachine.onEvent, horder]
        cases happroved : (m.newOrder rm cooldownNs order now).1 with
        | true =>
            refine ⟨hrm.trans h.riskManager, hdefaults, ⟨pm', b', c', hshows.wired,
              hshows.cooldownNs_eq, hshows.counters, hshows.lastOrderTime⟩, ?_⟩
            simp [hpushed, happroved, h.pushed, hk]
        | false =>
            refine ⟨hrm.trans h.riskManager, hdefaults, ⟨pm', b', c', hshows⟩, ?_⟩
            simp [hpushed, happroved, h.pushed, m.pushed_newOrder]
  | fill f =>
      obtain rfl := Option.some_inj.1 hstep
      obtain ⟨pm', b', c', hshows⟩ := hrisk.fill e.riskManager ha
      have hf : f.symbol = k := habout
      rw [if_pos hf] at hshows
      exact ⟨h.riskManager, hdefaults, ⟨pm', b', c', hshows⟩, h.pushed⟩
  | cancelled order =>
      obtain rfl := Option.some_inj.1 hstep
      obtain ⟨pm', b', c', hshows⟩ := hrisk.cancelled e.riskManager ha
      have hk : order.symbol = k := habout
      rw [if_pos hk] at hshows
      exact ⟨h.riskManager, hdefaults, ⟨pm', b', c', hshows⟩, h.pushed⟩

/-- **A step about another symbol leaves the machine alone.** -/
theorem Shows.step_of_ne (h : Shows rm cooldownNs k e m) (ha : a.symbol ≠ reservedSymbol)
    (habout : a.symbol ≠ k) (hstep : TradingEngine.step e a = some e') :
    Shows rm cooldownNs k e' m := by
  have hdefaults := h.defaults.step hstep
  obtain ⟨pm, b, c, hrisk⟩ := h.risk
  cases a with
  | deliver i message now queuedAt =>
      obtain ⟨hrm, hcases⟩ := step_deliver h.defaults hstep
      rcases hcases with ⟨-, hsame, hpushed⟩ | ⟨order, horder, hnext, hpushed⟩
      · refine ⟨hrm.trans h.riskManager, hdefaults, ⟨pm, b, c, ?_⟩, ?_⟩
        · rw [hsame]
          exact hrisk
        · rw [hpushed]
          exact h.pushed
      · obtain ⟨-, -, hsymbol, -⟩ := SimpleMarketMakingStrategy.onMarketEvent_some horder
        have hk : order.symbol ≠ k := fun heq => habout (hsymbol.symm.trans heq)
        have hreserved : order.symbol ≠ reservedSymbol := fun heq => ha (hsymbol.symm.trans heq)
        have hshows := hrisk.newOrder_of_ne e.riskManager hk hreserved now
        refine ⟨hrm.trans h.riskManager, hdefaults, hnext ▸ hshows, ?_⟩
        rw [hpushed, List.filter_append, h.pushed]
        split_ifs <;> simp [hk]
  | fill f =>
      obtain rfl := Option.some_inj.1 hstep
      obtain ⟨pm', b', c', hshows⟩ := hrisk.fill e.riskManager ha
      have hf : f.symbol ≠ k := habout
      rw [if_neg hf] at hshows
      exact ⟨h.riskManager, hdefaults, ⟨pm', b', c', hshows⟩, h.pushed⟩
  | cancelled order =>
      obtain rfl := Option.some_inj.1 hstep
      obtain ⟨pm', b', c', hshows⟩ := hrisk.cancelled e.riskManager ha
      have hk : order.symbol ≠ k := habout
      rw [if_neg hk] at hshows
      exact ⟨h.riskManager, hdefaults, ⟨pm', b', c', hshows⟩, h.pushed⟩

/-! ### Every run -/

/-- A registered symbol starts with the time zero. -/
theorem lastOrderTime_of_mem {config : AppConfig} {symbol : List UInt8}
    (h : symbol ∈ config.trading.symbols.take 64) :
    (registeredCooldown config).lastOrderTime (CharArray.ofBytes 8 symbol) = some 0 := by
  have hmem : CharArray.ofBytes 8 symbol ∈
      (registeredCooldown config).slots.map CooldownSlot.symbol := by
    rw [registeredCooldown_symbols]
    exact List.mem_map_of_mem h
  obtain ⟨slot, hslot, hsymbol⟩ := List.mem_map.1 hmem
  cases htime : (registeredCooldown config).lastOrderTime (CharArray.ofBytes 8 symbol) with
  | none =>
      rw [OrderCooldown.lastOrderTime, OrderCooldown.timeIn, Option.map_eq_none_iff,
        List.find?_eq_none] at htime
      exact absurd (decide_eq_true hsymbol) (htime slot hslot)
  | some last => rw [lastOrderTime_registeredCooldown htime]

/-- The components as the constructor leaves them show a new machine for each registered symbol. -/
theorem shows_wire {config : AppConfig} (hnul : ∀ s ∈ config.trading.symbols, (0 : UInt8) ∉ s)
    {symbol : List UInt8} (h : symbol ∈ config.trading.symbols.take 64) :
    ∃ pm b c, RiskState.Shows config.trading.orderCooldownNs (CharArray.ofBytes 8 symbol) {}
      (RiskState.wire config.trading.symbols config.trading.orderCooldownNs) pm b c := by
  obtain ⟨pm, b, c, hwired⟩ := RiskState.wired_wire hnul config.trading.orderCooldownNs
  obtain rfl : registeredCooldown config = c := Option.some_inj.1 hwired.orderCooldown
  obtain rfl : registeredPositions config = pm := Option.some_inj.1 hwired.positionManager
  obtain ⟨b', hb', hcounters, -⟩ := Lifecycle.refines_registered
    config.trading.symbols PositionManager.refines_empty
  refine ⟨_, b, _, hwired, OrderCooldown.registered_cooldownNs config.trading.symbols _, ?_,
    lastOrderTime_of_mem h⟩
  -- both books are those of the same table
  have hread := (hwired.refines.countersOf symbol).symm.trans (hb'.countersOf symbol)
  rw [hcounters] at hread
  exact hread

/-- A new engine. -/
theorem shows_create {config : AppConfig} {e : TradingEngine} (hcreate : create config = .ok e)
    (hnul : ∀ s ∈ config.trading.symbols, (0 : UInt8) ∉ s) {symbol : List UInt8}
    (h : symbol ∈ config.trading.symbols.take 64) :
    Shows ⟨config.risk.maxPositionPerSymbol, config.risk.maxOrderValue⟩
      config.trading.orderCooldownNs (CharArray.ofBytes 8 symbol) e {} := by
  have hdefaults := usesDefaults_create hcreate
  cases hlaunch : launchConsumers config with
  | error _ => simp [create, hlaunch, Except.map] at hcreate
  | ok consumers =>
      simp only [create, hlaunch, Except.map, Except.ok.injEq] at hcreate
      subst hcreate
      exact ⟨rfl, hdefaults, shows_wire hnul h, rfl⟩

/-- Only registered symbols are traded: the slots keep their symbols, and what is pushed has passed
one of them. -/
structure OnlyRegistered (config : AppConfig) (e : TradingEngine) : Prop where
  slots : ∃ c, e.risk.orderCooldown = some c ∧ c.slots.map CooldownSlot.symbol =
    (config.trading.symbols.take 64).map (CharArray.ofBytes 8)
  pushed : ∀ x ∈ e.pushed, x.2.symbol ∈ (config.trading.symbols.take 64).map (CharArray.ofBytes 8)

theorem onlyRegistered_create {config : AppConfig} {e : TradingEngine}
    (hcreate : create config = .ok e) : OnlyRegistered config e := by
  cases hlaunch : launchConsumers config with
  | error _ => simp [create, hlaunch, Except.map] at hcreate
  | ok consumers =>
      simp only [create, hlaunch, Except.map, Except.ok.injEq] at hcreate
      subst hcreate
      exact ⟨⟨registeredCooldown config, rfl, registeredCooldown_symbols config⟩, by simp⟩

theorem OnlyRegistered.step {config : AppConfig} (h : OnlyRegistered config e)
    (hdefaults : UsesDefaults e) (hstep : TradingEngine.step e a = some e') :
    OnlyRegistered config e' := by
  obtain ⟨c, hc, hslots⟩ := h.slots
  cases a with
  | deliver i message now queuedAt =>
      obtain ⟨-, ⟨-, hsame, hpushed⟩ | ⟨order, -, hnext, hpushed⟩⟩ := step_deliver hdefaults hstep
      · exact ⟨⟨c, by rw [hsame, hc], hslots⟩, by rw [hpushed]; exact h.pushed⟩
      · have hcheck : RiskManager.checkCooldown e.risk order now =
            ((c.checkAndUpdate order.symbol now).1,
              { e.risk with orderCooldown := some (c.checkAndUpdate order.symbol now).2 }) := by
          simp [RiskManager.checkCooldown, hc]
        have hsymbols : (c.checkAndUpdate order.symbol now).2.slots.map CooldownSlot.symbol =
            c.slots.map CooldownSlot.symbol := OrderCooldown.checkSlots_symbols ..
        rcases e.riskManager.onNewOrder_cases e.risk order now with ⟨pm, -, hpass, -, heq⟩ | heq
        · rw [hcheck] at heq hpass
          rw [heq] at hnext hpushed
          refine ⟨⟨_, by rw [hnext], hsymbols.trans hslots⟩, fun x hx => ?_⟩
          rw [hpushed, if_pos rfl, List.mem_append, List.mem_singleton] at hx
          rcases hx with hx | rfl
          · exact h.pushed x hx
          · exact hslots ▸ OrderCooldown.checkSlots_true hpass
        · rw [hcheck] at heq
          rw [heq] at hnext hpushed
          refine ⟨⟨_, by rw [hnext], hsymbols.trans hslots⟩, fun x hx => ?_⟩
          rw [hpushed, if_neg Bool.false_ne_true, List.append_nil] at hx
          exact h.pushed x hx
  | fill f =>
      obtain rfl := Option.some_inj.1 hstep
      exact ⟨⟨c, hc, hslots⟩, h.pushed⟩
  | cancelled order =>
      obtain rfl := Option.some_inj.1 hstep
      exact ⟨⟨c, hc, hslots⟩, h.pushed⟩

end TradingEngine

/-- **The engine is one machine for each symbol.**  In every run, in which the events, fills and
releases of all symbols follow each other in any order and reach any of the consumers: the orders of
a registered symbol in the queue, its counters in the position table and the time in its cooldown
slot are what the machine of that symbol makes of the actions about the symbol; and there are no
orders for symbols that are not registered.  The configured symbols have no NULs in them, which the
table would not keep apart from the padding. -/
theorem engine_is_one_machine_per_symbol (config : AppConfig) (e : TradingEngine)
    (hcreate : TradingEngine.create config = .ok e)
    (hnul : ∀ s ∈ config.trading.symbols, (0 : UInt8) ∉ s) (as : List TradingEngine.Action)
    (hreserved : ∀ a ∈ as, a.symbol ≠ reservedSymbol) (e' : TradingEngine)
    (hrun : Runs.exec TradingEngine.step e as = some e') :
    let rm : RiskManager := ⟨config.risk.maxPositionPerSymbol, config.risk.maxOrderValue⟩
    (∀ symbol ∈ config.trading.symbols.take 64,
      let k := CharArray.ofBytes 8 symbol
      let m := (as.filter fun a => a.symbol = k).foldl
        (SymbolMachine.step rm config.trading.orderCooldownNs) {}
      e'.pushed.filter (fun x => x.2.symbol = k) = m.pushed ∧
        ∃ positions cooldown, e'.risk = ⟨some positions, some cooldown⟩ ∧
          positions.countersOf symbol = m.counters ∧
          cooldown.lastOrderTime k = some m.lastOrderTime) ∧
    ∀ x ∈ e'.pushed, ∃ symbol ∈ config.trading.symbols.take 64,
      x.2.symbol = CharArray.ofBytes 8 symbol := by
  intro rm
  refine ⟨fun symbol hsymbol => ?_, fun x hx => ?_⟩
  · intro k m
    have hshows : TradingEngine.Shows rm config.trading.orderCooldownNs k e' m := by
      refine Runs.exec_projection ?_ ?_ (TradingEngine.shows_create hcreate hnul hsymbol)
        hreserved hrun
      · intro s a t m ha habout h hstep
        exact h.step ha (of_decide_eq_true habout) hstep
      · intro s a t m ha habout h hstep
        exact h.step_of_ne ha (of_decide_eq_false habout) hstep
    obtain ⟨positions, b, cooldown, hrisk⟩ := hshows.risk
    refine ⟨hshows.pushed, positions, cooldown, ?_, ?_, hrisk.lastOrderTime⟩
    · have hpm := hrisk.wired.positionManager
      have hc := hrisk.wired.orderCooldown
      cases hstate : e'.risk with
      | mk pm c => simpa [hstate] using And.intro hpm hc
    · exact (hrisk.wired.refines.countersOf symbol).trans hrisk.counters
  · have hkept : ∀ s a t, TradingEngine.UsesDefaults s ∧ TradingEngine.OnlyRegistered config s →
        TradingEngine.step s a = some t →
        TradingEngine.UsesDefaults t ∧ TradingEngine.OnlyRegistered config t :=
      fun s a t h hstep => ⟨h.1.step hstep, h.2.step h.1 hstep⟩
    obtain ⟨-, honly⟩ := Runs.exec_inv hkept ⟨TradingEngine.usesDefaults_create hcreate,
      TradingEngine.onlyRegistered_create hcreate⟩ hrun
    obtain ⟨symbol, hsymbol, heq⟩ := List.mem_map.1 (honly.pushed x hx)
    exact ⟨symbol, hsymbol, heq.symm⟩

/-- The default configuration: a trade of `AAPL`, one of `GOOGL`, a partial fill of the first order
and a trade of `AAPL` that comes too early.  The machine of `AAPL` sees three of these actions. -/
theorem engine_is_one_machine_per_symbol_of_two_tickers :
    let trade : List UInt8 → ZmqMessage := fun symbol =>
      ZmqMarketEventSink.publish ⟨2, CharArray.ofBytes 8 symbol, 0, 500000, 1, 0, 0, 7⟩ symbol
    let as : List TradingEngine.Action :=
      [.deliver 0 (trade [65, 65, 80, 76]) 200000000 200000001,
        .deliver 1 (trade [71, 79, 79, 71, 76]) 200000002 200000003,
        .fill ⟨CharArray.ofBytes 8 [65, 65, 80, 76], .buy, 40, 49⟩,
        .deliver 0 (trade [65, 65, 80, 76]) 200000004 200000005]
    let m := (as.filter fun a => a.symbol = CharArray.ofBytes 8 [65, 65, 80, 76]).foldl
      (SymbolMachine.step {} 100000000) {}
    (as.filter fun a => a.symbol = CharArray.ofBytes 8 [65, 65, 80, 76]).length = 3 ∧
      m.lastOrderTime = 200000000 ∧ m.counters = ⟨40, 60, 19600000, 0⟩ ∧ m.pushed.length = 1 ∧
      ∃ e e', TradingEngine.create {} = .ok e ∧ Runs.exec TradingEngine.step e as = some e' ∧
        e'.pushed.filter (fun x => x.2.symbol = CharArray.ofBytes 8 [65, 65, 80, 76]) =
          m.pushed := by
  intro trade as m
  refine ⟨by decide +kernel, by decide +kernel, by decide +kernel, by decide +kernel, ?_⟩
  obtain ⟨e, e', hcreate, hrun, -⟩ := TradingEngine.exists_of_create {}
    (fun e => Runs.exec TradingEngine.step e as) (fun _ => true) (by decide +kernel)
  have hsymbols := engine_is_one_machine_per_symbol {} e hcreate (by decide) as (by decide +kernel)
    e' hrun
  exact ⟨e, e', hcreate, hrun, (hsymbols.1 [65, 65, 80, 76] (by decide)).1⟩

end Trading
