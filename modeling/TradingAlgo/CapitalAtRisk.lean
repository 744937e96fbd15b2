/-
**What the engine can have at stake.**

The limits of the risk manager are checked order by order, and against the sum of the filled and the
pending position only.  That is not enough for a strategy that buys and sells, but the engine's own
strategy only buys, a hundred at a time.  With a broker that keeps to the orders it has been given
(it fills no more than is left of an order and not above its limit, and what it does not fill it
gives back) the checks then bound everything there is about a symbol: the position, what is still
open, and the money that the position has cost.

Each round of a consumer, each fill and each release is one step here, as in
`TradingAlgo/SymbolMachines.lean`, whose machine of a single symbol the argument is about.

Main definitions:

* `Trading.Brokered.State`, `Trading.Brokered.step` — the engine with the orders at its broker;
* `Trading.Brokered.openQuantity` — what is left of the orders of a symbol;
* `Trading.Brokered.Bounded`, `Trading.Brokered.Secured` — the invariant.

Main results:

* `Trading.Brokered.Secured.step` — every step keeps the invariant;
* `Trading.capital_at_risk` — the bounds, in every state of every run.
-/

import TradingAlgo.SymbolMachines

set_option relaxedAutoImplicit false
set_option autoImplicit false

namespace Trading

/-! ### The engine and its broker -/

namespace Brokered

/-- An order that the engine has pushed, and what is left of it. -/
structure OpenOrder where
  order : Order
  left : ℤ
  deriving DecidableEq, Repr

/-- The engine, and the orders it has pushed. -/
structure State where
  engine : TradingEngine
  orders : List OpenOrder := []

/-- The steps: a message is delivered to a consumer; the broker fills some of an order, or what is
left of an order is given back, by the gateway that could not place it or by the broker. -/
inductive Action
  | deliver (i : ℕ) (message : ZmqMessage) (now preQueueAt : UInt64)
  | fill (j : ℕ) (quantity : ℤ) (price : ℚ)
  | release (j : ℕ)
  deriving DecidableEq, Repr

/-- The step function.  A limit order is not filled above its limit. -/
def step (s : State) : Action → Option State
  | .deliver i message now preQueueAt =>
      (s.engine.step (.deliver i message now preQueueAt)).map fun e =>
        { engine := e
          orders := s.orders ++
            (e.pushed.drop s.engine.pushed.length).map fun x => ⟨x.2, x.2.quantity⟩ }
  | .fill j quantity price =>
      match s.orders[j]? with
      | none => none
      | some x =>
          if 0 < quantity ∧ quantity ≤ x.left ∧ 0 ≤ price ∧
              price * SCALING_FACTOR ≤ x.order.price.toNat then
            (s.engine.step (.fill ⟨x.order.symbol, x.order.side, quantity, price⟩)).map fun e =>
              { engine := e, orders := s.orders.set j { x with left := x.left - quantity } }
          else none
  | .release j =>
      match s.orders[j]? with
      | none => none
      | some x =>
          (s.engine.step (.cancelled { x.order with quantity := x.left })).map fun e =>
            { engine := e, orders := s.orders.set j { x with left := 0 } }

/-- What is left of the orders of a symbol. -/
def openQuantity (k : CharArray 8) (orders : List OpenOrder) : ℤ :=
  (orders.map fun x => if x.order.symbol = k then x.left else 0).sum

theorem openQuantity_concat (k : CharArray 8) (orders : List OpenOrder) (x : OpenOrder) :
    openQuantity k (orders ++ [x]) =
      openQuantity k orders + if x.order.symbol = k then x.left else 0 := by
  simp [openQuantity]

theorem openQuantity_nonneg {orders : List OpenOrder} (h : ∀ x ∈ orders, 0 ≤ x.left)
    (k : CharArray 8) : 0 ≤ openQuantity k orders := by
  refine List.sum_nonneg fun y hy => ?_
  obtain ⟨x, hx, rfl⟩ := List.mem_map.1 hy
  split_ifs
  · exact h x hx
  · exact le_rfl

/-- An order of which something goes. -/
theorem openQuantity_set {orders : List OpenOrder} {j : ℕ} {x : OpenOrder}
    (hx : orders[j]? = some x) (k : CharArray 8) (left : ℤ) :
    openQuantity k (orders.set j { x with left := left }) =
      openQuantity k orders + if x.order.symbol = k then left - x.left else 0 := by
  obtain ⟨hj, hget⟩ := List.getElem?_eq_some_iff.1 hx
  rw [openQuantity, List.map_set, List.sum_set', dif_pos (by simpa using hj), List.getElem_map,
    hget]
  simp only [openQuantity]
  split_ifs <;> ring

/-! ### The invariant of a symbol -/

/-- The order's notional is within the limit, for the quantity that the strategy asks for. -/
def Priced (rm : RiskManager) (order : Order) : Prop :=
  (order.price.toNat : ℚ) * 100 ≤ rm.maxOrderValue * SCALING_FACTOR

/-- The counters of a symbol with `left` open: the limits hold for the position with what is open,
and for the average cost. -/
structure Bounded (rm : RiskManager) (n : Counters) (left : ℤ) : Prop where
  pending : n.pending = left
  filled_nonneg : 0 ≤ n.filled
  exposure_le : n.filled + n.pending ≤ rm.maxPositionPerSymbol
  cost_nonneg : 0 ≤ n.costBasisTotal
  cost_le : (n.costBasisTotal : ℚ) * 100 ≤ n.filled * (rm.maxOrderValue * SCALING_FACTOR)
  realized : n.realizedPnl = 0

variable {rm : RiskManager} {n : Counters} {left : ℤ}

/-- An approved purchase. -/
theorem Bounded.sent (h : Bounded rm n left) (hrm : rm.Valid) {order : Order}
    (hside : order.side = .buy) (hadmits : rm.Admits order (n.filled + n.pending)) :
    Bounded rm (order.sent n) (left + order.quantity) := by
  have hlimit := le_of_abs_le (hadmits.abs_le hrm)
  refine ⟨?_, h.filled_nonneg, ?_, h.cost_nonneg, h.cost_le, h.realized⟩
  · simp [Order.sent, hside, h.pending]
  · simp only [Order.sent, hside, OrderSide.signed] at hlimit ⊢
    linarith

/-- A release. -/
theorem Bounded.cancelled (h : Bounded rm n left) {order : Order} (hside : order.side = .buy)
    (hquantity : 0 ≤ order.quantity) :
    Bounded rm (order.cancelled n) (left - order.quantity) := by
  have hle := h.exposure_le
  refine ⟨?_, h.filled_nonneg, ?_, h.cost_nonneg, h.cost_le, h.realized⟩
  · simp [Order.cancelled, hside, h.pending]
  · simp only [Order.cancelled, hside, OrderSide.signed]
    linarith

/-- A price that is not above a whole number of ticks is not rounded above it. -/
theorem llround_le {q : ℚ} {p : ℤ} (h₀ : 0 ≤ q) (h : q ≤ p) : 0 ≤ llround q ∧ llround q ≤ p := by
  rw [llround, if_pos h₀]
  refine ⟨Int.floor_nonneg.2 (by linarith), ?_⟩
  rw [← Int.lt_add_one_iff, Int.floor_lt]
  push_cast
  linarith

/-- A fill that keeps to the limit of its order. -/
theorem Bounded.fill (h : Bounded rm n left) {order : Order} (hpriced : Priced rm order)
    {f : Fill} (hside : f.side = .buy) (hquantity : 0 < f.quantity) (hprice : 0 ≤ f.price)
    (hlimit : f.price * SCALING_FACTOR ≤ order.price.toNat) :
    Bounded rm (f.apply n) (left - f.quantity) := by
  have hscaled : 0 ≤ f.priceScaled ∧ f.priceScaled ≤ order.price.toNat :=
    llround_le (mul_nonneg hprice (by norm_num [SCALING_FACTOR])) (by exact_mod_cast hlimit)
  have happly : f.apply n =
      { filled := n.filled + f.quantity
        pending := n.pending - f.quantity
        costBasisTotal := n.costBasisTotal + f.priceScaled * f.quantity
        realizedPnl := n.realizedPnl } := by
    simp [Fill.apply, hside, applyBuyFill, not_lt.2 h.filled_nonneg]
  have hcost := h.cost_le
  have hticks : (f.priceScaled : ℚ) * 100 ≤ rm.maxOrderValue * SCALING_FACTOR := by
    refine le_trans ?_ hpriced
    have : (f.priceScaled : ℚ) ≤ order.price.toNat := by exact_mod_cast hscaled.2
    linarith
  rw [happly]
  refine ⟨?_, ?_, ?_, ?_, ?_, h.realized⟩
  · simp [h.pending]
  · exact add_nonneg h.filled_nonneg hquantity.le
  · have hle := h.exposure_le
    linarith
  · exact add_nonneg h.cost_nonneg (mul_nonneg hscaled.1 hquantity.le)
  · have hq : (0 : ℚ) ≤ f.quantity := by exact_mod_cast hquantity.le
    have hmore := mul_le_mul_of_nonneg_right hticks hq
    push_cast
    linarith

/-! ### Every step -/

/-- The orders of the strategy are purchases. -/
theorem side_of_onMarketEvent {strategy : SimpleMarketMakingStrategy} {event : MarketEvent}
    {order : Order} (h : (strategy.onMarketEvent event).2 = some order) : order.side = .buy := by
  simp only [SimpleMarketMakingStrategy.onMarketEvent] at h
  split_ifs at h
  exact (Option.some_inj.1 h) ▸ rfl

/-- What an event makes of the counters of its machine. -/
theorem counters_onEvent (rm : RiskManager) (cooldownNs : UInt64) (m : SymbolMachine)
    {event : MarketEvent} {order : Order}
    (horder : (SimpleMarketMakingStrategy.onMarketEvent {} event).2 = some order)
    (now queuedAt : UInt64) :
    (m.onEvent rm cooldownNs event now queuedAt).counters =
      if (m.newOrder rm cooldownNs order now).1 then order.sent m.counters else m.counters := by
  have hnew : (m.newOrder rm cooldownNs order now).2.counters =
      if (m.newOrder rm cooldownNs order now).1 then order.sent m.counters else m.counters := by
    by_cases hearly : now - m.lastOrderTime < cooldownNs
    · simp [SymbolMachine.newOrder, hearly]
    · by_cases hadmits : rm.Admits order (m.counters.filled + m.counters.pending) <;>
        simp [SymbolMachine.newOrder, hearly, hadmits]
  rw [← hnew]
  simp only [SymbolMachine.onEvent, horder]
  split_ifs <;> rfl

/-- An order as the broker may have it. -/
structure OpenOrder.Sound (rm : RiskManager) (x : OpenOrder) : Prop where
  side : x.order.side = .buy
  symbol_ne : x.order.symbol ≠ reservedSymbol
  left_nonneg : 0 ≤ x.left
  priced : Priced rm x.order

/-- The invariant, as far as the symbol `k` is concerned. -/
structure Secured (rm : RiskManager) (cooldownNs : UInt64) (k : CharArray 8) (s : State) :
    Prop where
  machine : ∃ m, TradingEngine.Shows rm cooldownNs k s.engine m ∧
    Bounded rm m.counters (openQuantity k s.orders)
  orders : ∀ x ∈ s.orders, x.Sound rm
  pushed : s.orders.map OpenOrder.order = s.engine.pushed.map Prod.snd

variable {cooldownNs : UInt64} {k : CharArray 8} {s t : State}

/-- A step of the engine moves the machine of its own symbol and no other one. -/
theorem Secured.machine_step (h : Secured rm cooldownNs k s) {a : TradingEngine.Action}
    {e : TradingEngine} (he : s.engine.step a = some e) (ha : a.symbol ≠ reservedSymbol) {left : ℤ}
    (hown : a.symbol = k → ∀ m, TradingEngine.Shows rm cooldownNs k s.engine m →
      Bounded rm m.counters (openQuantity k s.orders) →
      Bounded rm (m.step rm cooldownNs a).counters left)
    (hother : a.symbol ≠ k → left = openQuantity k s.orders) :
    ∃ m, TradingEngine.Shows rm cooldownNs k e m ∧ Bounded rm m.counters left := by
  obtain ⟨m, hshows, hbounded⟩ := h.machine
  by_cases hk : a.symbol = k
  · exact ⟨_, hshows.step ha hk he, hown hk m hshows hbounded⟩
  · exact ⟨m, hshows.step_of_ne ha hk he, hother hk ▸ hbounded⟩

/-- A message that leads to no order leaves the counters alone. -/
theorem Secured.quiet (h : Secured rm cooldownNs k s) {e : TradingEngine} {i : ℕ}
    {message : ZmqMessage} {now queuedAt : UInt64}
    (hreserved : message.payload.symbol ≠ reservedSymbol)
    (hstep : s.engine.step (.deliver i message now queuedAt) = some e)
    (hpushed : e.pushed = s.engine.pushed)
    (hquiet : ∀ m, TradingEngine.Shows rm cooldownNs k s.engine m → message.payload.symbol = k →
      (m.onEvent rm cooldownNs message.payload now queuedAt).counters = m.counters) :
    Secured rm cooldownNs k { engine := e, orders := s.orders } := by
  refine ⟨?_, h.orders, by rw [hpushed]; exact h.pushed⟩
  refine h.machine_step hstep hreserved (fun hk m hshows hbounded => ?_) fun _ => rfl
  rw [SymbolMachine.step, hquiet m hshows hk]
  exact hbounded

/-- A message is delivered. -/
theorem Secured.deliver (h : Secured rm cooldownNs k s) (hrm : rm.Valid) {i : ℕ}
    {message : ZmqMessage} {now queuedAt : UInt64}
    (hreserved : message.payload.symbol ≠ reservedSymbol)
    (hstep : Brokered.step s (.deliver i message now queuedAt) = some t) :
    Secured rm cooldownNs k t := by
  obtain ⟨e, he, rfl⟩ := Option.map_eq_some_iff.1 hstep
  obtain ⟨m, hshows, -⟩ := h.machine
  obtain ⟨-, hcases⟩ := TradingEngine.step_deliver hshows.defaults he
  rw [hshows.riskManager] at hcases
  rcases hcases with ⟨hnone, -, hpushed⟩ | ⟨order, horder, -, hpushed⟩
  · have hquiet := h.quiet hreserved he hpushed fun m _ _ => by
      simp only [SymbolMachine.onEvent, hnone]
    rw [hpushed, List.drop_length, List.map_nil, List.append_nil]
    exact hquiet
  · obtain ⟨hquantity, -, hsymbol, -⟩ := SimpleMarketMakingStrategy.onMarketEvent_some horder
    have hhundred : order.quantity = 100 := hquantity
    have hside := side_of_onMarketEvent horder
    -- what the machine of the order's symbol answers is what the risk manager answers
    have hanswer : ∀ m, TradingEngine.Shows rm cooldownNs k s.engine m →
        message.payload.symbol = k →
        (rm.onNewOrder s.engine.risk order now).1 = (m.newOrder rm cooldownNs order now).1 := by
      intro m hm hk
      obtain ⟨pm, b, c, hrisk⟩ := hm.risk
      exact (hrisk.newOrder (hk ▸ hreserved) rm (hsymbol.trans hk) now).1
    rcases rm.onNewOrder_cases s.engine.risk order now with ⟨pm, hpm, -, hadmits, heq⟩ | heq
    · rw [heq, if_pos rfl] at hpushed
      have hpriced : Priced rm order := by
        have hnotional := hadmits.notional_le hrm
        rw [hhundred] at hnotional
        simpa [Priced] using hnotional
      rw [hpushed, List.drop_left, List.map_singleton]
      refine ⟨?_, fun x hx => ?_, by rw [hpushed]; simp [h.pushed]⟩
      · rw [openQuantity_concat]
        refine h.machine_step he hreserved (fun hk m hshows hbounded => ?_) fun hk => ?_
        · have hown : message.payload.symbol = k := hk
          have hnew := hanswer m hshows hown
          rw [heq] at hnew
          rw [if_pos (hsymbol.trans hown), SymbolMachine.step, counters_onEvent _ _ _ horder,
            if_pos hnew.symm]
          obtain ⟨pm', b, c, hrisk⟩ := hshows.risk
          obtain rfl : pm' = pm :=
            Option.some_inj.1 (hrisk.wired.positionManager.symm.trans hpm)
          rw [hsymbol.trans hown, hrisk.getTotalExposure] at hadmits
          exact hbounded.sent hrm hside hadmits
        · rw [if_neg fun heq' => hk (hsymbol.symm.trans heq'), add_zero]
      · rcases List.mem_append.1 hx with hx | hx
        · exact h.orders x hx
        · obtain rfl := List.mem_singleton.1 hx
          exact ⟨hside, hsymbol.symm ▸ hreserved, le_of_le_of_eq (by decide) hhundred.symm, hpriced⟩
    · rw [heq, if_neg Bool.false_ne_true, List.append_nil] at hpushed
      have hquiet := h.quiet hreserved he hpushed fun m hm hk => by
        rw [counters_onEvent _ _ _ horder, ← hanswer m hm hk, heq, if_neg Bool.false_ne_true]
      rw [hpushed, List.drop_length, List.map_nil, List.append_nil]
      exact hquiet

theorem Secured.pushed_set (h : Secured rm cooldownNs k s) {j : ℕ} {x : OpenOrder}
    (hx : s.orders[j]? = some x) (left : ℤ) :
    (s.orders.set j { x with left := left }).map OpenOrder.order =
      s.engine.pushed.map Prod.snd := by
  obtain ⟨hj, hget⟩ := List.getElem?_eq_some_iff.1 hx
  have hsame : (s.orders.map OpenOrder.order).set j x.order = s.orders.map OpenOrder.order := by
    rw [← hget, ← List.map_set, List.set_getElem_self]
  rw [List.map_set, hsame, h.pushed]

/-- What is left of an order changes, with a step of the engine about its symbol. -/
theorem Secured.set (h : Secured rm cooldownNs k s) {j : ℕ} {x : OpenOrder}
    (hx : s.orders[j]? = some x) {a : TradingEngine.Action} (ha : a.symbol = x.order.symbol)
    {e : TradingEngine} (he : s.engine.step a = some e) (hpushed : e.pushed = s.engine.pushed)
    {left : ℤ} (hleft : 0 ≤ left)
    (hown : ∀ m : SymbolMachine, Bounded rm m.counters (openQuantity k s.orders) →
      Bounded rm (m.step rm cooldownNs a).counters
        (openQuantity k s.orders + (left - x.left))) :
    Secured rm cooldownNs k { engine := e, orders := s.orders.set j { x with left := left } } := by
  have hsound := h.orders x (List.mem_of_getElem? hx)
  refine ⟨?_, fun y hy => ?_, ?_⟩
  · rw [openQuantity_set hx, ← ha]
    refine h.machine_step he (ha ▸ hsound.symbol_ne) (fun hk m _ hbounded => ?_) fun hk => ?_
    · rw [if_pos hk]
      exact hown m hbounded
    · rw [if_neg hk, add_zero]
  · rcases List.mem_or_eq_of_mem_set hy with hy | rfl
    · exact h.orders y hy
    · exact ⟨hsound.side, hsound.symbol_ne, hleft, hsound.priced⟩
  · exact (h.pushed_set hx left).trans (by rw [hpushed])

/-- The broker fills some of an order. -/
theorem Secured.fill (h : Secured rm cooldownNs k s) {j : ℕ} {quantity : ℤ} {price : ℚ}
    (hstep : Brokered.step s (.fill j quantity price) = some t) : Secured rm cooldownNs k t := by
  cases hx : s.orders[j]? with
  | none => simp [Brokered.step, hx] at hstep
  | some x =>
      simp only [Brokered.step, hx, Option.ite_none_right_eq_some, Option.map_eq_some_iff] at hstep
      obtain ⟨⟨hpos, hle, hprice, hlimit⟩, e, he, rfl⟩ := hstep
      have hsound := h.orders x (List.mem_of_getElem? hx)
      have hpushed : e.pushed = s.engine.pushed := by rw [← Option.some_inj.1 he]
      refine h.set hx rfl he hpushed (sub_nonneg.2 hle) fun m hbounded => ?_
      rw [sub_sub_cancel_left, ← sub_eq_add_neg]
      exact hbounded.fill hsound.priced hsound.side hpos hprice hlimit

/-- What is left of an order is given back. -/
theorem Secured.release (h : Secured rm cooldownNs k s) {j : ℕ}
    (hstep : Brokered.step s (.release j) = some t) : Secured rm cooldownNs k t := by
  cases hx : s.orders[j]? with
  | none => simp [Brokered.step, hx] at hstep
  | some x =>
      simp only [Brokered.step, hx, Option.map_eq_some_iff] at hstep
      obtain ⟨e, he, rfl⟩ := hstep
      have hsound := h.orders x (List.mem_of_getElem? hx)
      have hpushed : e.pushed = s.engine.pushed := by rw [← Option.some_inj.1 he]
      refine h.set hx rfl he hpushed le_rfl fun m hbounded => ?_
      rw [zero_sub, ← sub_eq_add_neg]
      have hback : Bounded rm (Order.cancelled { x.order with quantity := x.left } m.counters)
          (openQuantity k s.orders - x.left) := hbounded.cancelled hsound.side hsound.left_nonneg
      exact hback

/-- The messages are not about the reserved symbol. -/
def Action.Regular : Action → Prop
  | .deliver _ message _ _ => message.payload.symbol ≠ reservedSymbol
  | .fill _ _ _ => True
  | .release _ => True

instance : DecidablePred Action.Regular := fun a =>
  match a with
  | .deliver _ message _ _ => inferInstanceAs (Decidable (message.payload.symbol ≠ reservedSymbol))
  | .fill _ _ _ => isTrue trivial
  | .release _ => isTrue trivial

/-- **Every step keeps the invariant.** -/
theorem Secured.step (h : Secured rm cooldownNs k s) (hrm : rm.Valid) {a : Action}
    (ha : a.Regular) (hstep : Brokered.step s a = some t) : Secured rm cooldownNs k t := by
  cases a with
  | deliver i message now preQueueAt => exact h.deliver hrm ha hstep
  | fill j quantity price => exact h.fill hstep
  | release j => exact h.release hstep

/-- A new engine has no orders. -/
theorem secured_create {config : AppConfig} {e : TradingEngine}
    (hcreate : TradingEngine.create config = .ok e)
    (hnul : ∀ s ∈ config.trading.symbols, (0 : UInt8) ∉ s) {symbol : List UInt8}
    (hsymbol : symbol ∈ config.trading.symbols.take 64)
    (hrm : 0 < config.risk.maxPositionPerSymbol) :
    Secured ⟨config.risk.maxPositionPerSymbol, config.risk.maxOrderValue⟩
      config.trading.orderCooldownNs (CharArray.ofBytes 8 symbol) { engine := e } := by
  refine ⟨⟨{}, TradingEngine.shows_create hcreate hnul hsymbol, ?_⟩, by simp, ?_⟩
  · exact ⟨rfl, le_rfl, hrm.le, le_rfl, by simp, rfl⟩
  · cases hlaunch : launchConsumers config with
    | error _ => simp [TradingEngine.create, hlaunch, Except.map] at hcreate
    | ok consumers =>
        simp only [TradingEngine.create, hlaunch, Except.map, Except.ok.injEq] at hcreate
        subst hcreate
        rfl

end Brokered

/-- **What the engine can have at stake.**  For a validated configuration and a broker that keeps to
its orders, in every state of every run and for every registered symbol: the pending position is
what is left of the orders in the queue and at the broker; the position is never negative, and with
what is pending never above the limit; and it has cost at most the limit of an order's value for
every hundred shares of it, with nothing realized. -/
theorem capital_at_risk (config : AppConfig) (hvalid : validateConfig config = .ok ())
    (hint64 : config.risk.maxPositionPerSymbol < 2 ^ 63)
    (hnul : ∀ s ∈ config.trading.symbols, (0 : UInt8) ∉ s) (e : TradingEngine)
    (hcreate : TradingEngine.create config = .ok e) (as : List Brokered.Action)
    (hregular : ∀ a ∈ as, a.Regular) (s : Brokered.State)
    (hrun : Runs.exec Brokered.step { engine := e } as = some s) (symbol : List UInt8)
    (hsymbol : symbol ∈ config.trading.symbols.take 64) :
    s.orders.map Brokered.OpenOrder.order = s.engine.pushed.map Prod.snd ∧
    ∃ positions, s.engine.risk.positionManager = some positions ∧
      let n := positions.countersOf symbol
      n.pending = Brokered.openQuantity (CharArray.ofBytes 8 symbol) s.orders ∧ 0 ≤ n.pending ∧
        0 ≤ n.filled ∧ n.filled + n.pending ≤ config.risk.maxPositionPerSymbol ∧
        0 ≤ n.costBasisTotal ∧
        (n.costBasisTotal : ℚ) * 100 ≤ n.filled * (config.risk.maxOrderValue * SCALING_FACTOR) ∧
        n.realizedPnl = 0 := by
  obtain ⟨hposition, hvalue, -⟩ := (validateConfig_ok_iff config).1 hvalid
  have hsecured := Runs.exec_inv_of_allSteps
    (fun _ _ _ h ha hstep => Brokered.Secured.step h ⟨hposition, hint64, hvalue⟩ ha hstep)
    (Brokered.secured_create hcreate hnul hsymbol hposition)
    (Runs.allSteps_of_forall _ hregular) hrun
  obtain ⟨m, hshows, hbounded⟩ := hsecured.machine
  obtain ⟨positions, b, c, hrisk⟩ := hshows.risk
  have hcounters : positions.countersOf symbol = m.counters :=
    (hrisk.wired.refines.countersOf symbol).trans hrisk.counters
  refine ⟨hsecured.pushed, positions, hrisk.wired.positionManager, ?_⟩
  rw [hcounters]
  refine ⟨hbounded.pending, ?_, hbounded.filled_nonneg, hbounded.exposure_le,
    hbounded.cost_nonneg, hbounded.cost_le, hbounded.realized⟩
  rw [hbounded.pending]
  exact Brokered.openQuantity_nonneg (fun x hx => (hsecured.orders x hx).left_nonneg) _

/-- The default configuration: an order of 100 shares at 49.99, of which 40 are filled a cent below
the limit and the rest is given back. -/
theorem capital_at_risk_of_one_order :
    let trade : MarketEvent := ⟨2, CharArray.ofBytes 8 [65, 65, 80, 76], 0, 500000, 1, 0, 0, 7⟩
    let as : List Brokered.Action :=
      [.deliver 0 (ZmqMarketEventSink.publish trade [65, 65, 80, 76]) 200000000 200000001,
        .fill 0 40 (4998 / 100), .release 0]
    ∃ e s positions, TradingEngine.create {} = .ok e ∧
      Runs.exec Brokered.step { engine := e } as = some s ∧
      s.engine.risk.positionManager = some positions ∧
      positions.countersOf [65, 65, 80, 76] = ⟨40, 0, 19992000, 0⟩ ∧
      ((positions.countersOf [65, 65, 80, 76]).costBasisTotal : ℚ) * 100 ≤
        (positions.countersOf [65, 65, 80, 76]).filled * (10000 * SCALING_FACTOR) := by
  intro trade as
  obtain ⟨e, s, hcreate, hrun, hs⟩ := TradingEngine.exists_of_create {}
    (fun e => Runs.exec Brokered.step { engine := e } as)
    (fun s => s.engine.risk.positionManager.any fun positions =>
      positions.countersOf [65, 65, 80, 76] = ⟨40, 0, 19992000, 0⟩) (by decide +kernel)
  have hvalid : validateConfig {} = .ok () := (validateConfig_ok_iff {}).2 (by decide +kernel)
  obtain ⟨-, positions, hpositions, -, -, -, -, -, hcost, -⟩ :=
    capital_at_risk {} hvalid (by decide) (by decide) e hcreate as (by decide) s hrun
      [65, 65, 80, 76] (by decide)
  rw [hpositions] at hs
  exact ⟨e, s, positions, hcreate, hrun, hpositions, of_decide_eq_true hs, hcost⟩

end Trading
