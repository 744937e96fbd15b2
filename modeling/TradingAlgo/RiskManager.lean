/-
**The order cooldown and the risk manager.**

`src/OrderCooldown.cpp` and `src/RiskManager.cpp`, one call at a time.  The clock reading of a call
is an argument.  The guards of the risk manager cast signed limits to `uint64_t`, and the model
casts where the source does; the notional, a `long double` in the source, is compared exactly.

Main definitions:

* `Trading.OrderCooldown.registerSymbol`, `Trading.OrderCooldown.checkAndUpdate` — the cooldown;
* `Trading.RiskManager.onNewOrder` — the decision on an order, and the reservation it makes;
* `Trading.RiskState.wire` — the two components as the engine builds them;
* `Trading.RiskState.call` — the later calls on them.

Main results:

* `Trading.RiskManager.onNewOrder_cases` — everything an approval did;
* `Trading.RiskState.Wired` and `Trading.RiskState.wired_foldl` — only symbols that are padded with
  NUL bytes and already have an entry pass the cooldown, in any state of a wired engine;
* `Trading.approval_is_exact` — an approval reserves exactly the order and nothing else, within the
  limits; a rejection reserves nothing.
-/

import TradingAlgo.PositionBook

set_option relaxedAutoImplicit false
set_option autoImplicit false

namespace Trading

/-! ### The cooldown -/

/-- `OrderCooldown::CooldownSlot`. -/
structure CooldownSlot where
  symbol : CharArray 8
  lastOrderTime : UInt64 := 0
  deriving DecidableEq, Repr

/-- `OrderCooldown`: the first `num_symbols_` slots, and the cooldown. -/
structure OrderCooldown where
  slots : List CooldownSlot := []
  cooldownNs : UInt64 := 100000000
  deriving DecidableEq, Repr

namespace OrderCooldown

/-- `OrderCooldown::kMaxSymbols`. -/
def kMaxSymbols : ℕ := 64

/-- `registerSymbol`: a new slot while there is room, even for a symbol that has one. -/
def registerSymbol (c : OrderCooldown) (symbol : List UInt8) : OrderCooldown :=
  if kMaxSymbols ≤ c.slots.length then c
  else { c with slots := c.slots ++ [{ symbol := CharArray.ofBytes 8 symbol }] }

/-- The loop of `checkAndUpdate` over the slots. -/
def checkSlots (cooldownNs : UInt64) (symbol : CharArray 8) (now : UInt64) :
    List CooldownSlot → Bool × List CooldownSlot
  | [] => (false, [])
  | slot :: rest =>
      if slot.symbol = symbol then
        -- an unsigned difference: it wraps when the clock is behind the stored time
        if now - slot.lastOrderTime < cooldownNs then (false, slot :: rest)
        else (true, { slot with lastOrderTime := now } :: rest)
      else
        let r := checkSlots cooldownNs symbol now rest
        (r.1, slot :: r.2)

/-- `checkAndUpdate`, at the clock reading `now`. -/
def checkAndUpdate (c : OrderCooldown) (symbol : CharArray 8) (now : UInt64) :
    Bool × OrderCooldown :=
  let r := checkSlots c.cooldownNs symbol now c.slots
  (r.1, { c with slots := r.2 })

/-- The symbols of the slots do not change. -/
theorem checkSlots_symbols (cd : UInt64) (symbol : CharArray 8) (now : UInt64)
    (slots : List CooldownSlot) :
    (checkSlots cd symbol now slots).2.map CooldownSlot.symbol =
      slots.map CooldownSlot.symbol := by
  induction slots with
  | nil => rfl
  | cons slot rest ih =>
      simp only [checkSlots]
      split_ifs with h₁ h₂
      · rfl
      · rfl
      · simp [ih]

/-- Only a registered symbol passes. -/
theorem checkSlots_true {cd : UInt64} {symbol : CharArray 8} {now : UInt64}
    {slots : List CooldownSlot} (h : (checkSlots cd symbol now slots).1 = true) :
    symbol ∈ slots.map CooldownSlot.symbol := by
  induction slots with
  | nil => simp [checkSlots] at h
  | cons slot rest ih =>
      simp only [checkSlots] at h
      split_ifs at h with h₁ h₂
      · simp [h₁]
      · rw [List.map_cons]
        exact List.mem_cons_of_mem _ (ih h)

end OrderCooldown

/-! ### The risk manager -/

/-- `static_cast<uint64_t>` of a signed value. -/
def asUInt64 (v : ℤ) : ℕ := (v % 2 ^ 64).toNat

theorem asUInt64_of_nonneg {v : ℤ} (h₀ : 0 ≤ v) (h₁ : v < 2 ^ 63) : (asUInt64 v : ℤ) = v := by
  unfold asUInt64
  rw [Int.emod_eq_of_lt h₀ (by omega), Int.toNat_of_nonneg h₀]

/-- `safeAbs`: the absolute value of any `int64_t`, `INT64_MIN` included, as a `uint64_t`. -/
def safeAbs (v : ℤ) : ℕ := v.natAbs

/-- The limits of a `RiskManager`. -/
structure RiskManager where
  maxPositionPerSymbol : ℤ := 1000
  maxOrderValue : ℚ := 10000
  deriving DecidableEq, Repr

/-- The limits that `validateConfig` accepts: positive ones, the first of them an `int64_t`. -/
structure RiskManager.Valid (rm : RiskManager) : Prop where
  position_pos : 0 < rm.maxPositionPerSymbol
  position_lt : rm.maxPositionPerSymbol < 2 ^ 63
  value_pos : 0 < rm.maxOrderValue

/-- The two components the risk manager points to; either pointer may be null. -/
structure RiskState where
  positionManager : Option PositionManager
  orderCooldown : Option OrderCooldown

namespace RiskManager

/-- The quantity is within the limit by itself. -/
def quantityOk (rm : RiskManager) (order : Order) : Prop :=
  safeAbs order.quantity ≤ asUInt64 rm.maxPositionPerSymbol

/-- `new_exposure`. -/
def newExposure (order : Order) (totalExposure : ℤ) : ℤ :=
  match order.side with
  | .buy => totalExposure + order.quantity
  | .sell => totalExposure - order.quantity

/-- The exposure with the order is within the limit. -/
def exposureOk (rm : RiskManager) (order : Order) (totalExposure : ℤ) : Prop :=
  safeAbs (newExposure order totalExposure) ≤ asUInt64 rm.maxPositionPerSymbol

/-- The notional is within the limit; an order without a price or a quantity is not checked. -/
def notionalOk (rm : RiskManager) (order : Order) : Prop :=
  ¬ (0 < order.price ∧ order.quantity ≠ 0 ∧
    rm.maxOrderValue * SCALING_FACTOR < (order.price.toNat * safeAbs order.quantity : ℕ))

/-- The checks of `onNewOrder` after the cooldown, for an exposure read from the manager. -/
def Admits (rm : RiskManager) (order : Order) (totalExposure : ℤ) : Prop :=
  rm.quantityOk order ∧ rm.exposureOk order totalExposure ∧ rm.notionalOk order

instance (rm : RiskManager) (order : Order) : Decidable (rm.quantityOk order) :=
  inferInstanceAs (Decidable (_ ≤ _))

instance (rm : RiskManager) (order : Order) (e : ℤ) : Decidable (rm.exposureOk order e) :=
  inferInstanceAs (Decidable (_ ≤ _))

instance (rm : RiskManager) (order : Order) : Decidable (rm.notionalOk order) :=
  inferInstanceAs (Decidable (¬ (_ ∧ _ ∧ _ < _)))

instance (rm : RiskManager) (order : Order) (e : ℤ) : Decidable (rm.Admits order e) :=
  inferInstanceAs (Decidable (_ ∧ _ ∧ _))

theorem newExposure_eq (order : Order) (e : ℤ) :
    newExposure order e = e + order.side.signed order.quantity := by
  cases h : order.side <;> simp [newExposure, h, sub_eq_add_neg]

/-- With valid limits, an admitted order leaves the exposure it was checked against within the
position limit. -/
theorem Admits.abs_le {rm : RiskManager} (hrm : rm.Valid) {order : Order} {e : ℤ}
    (h : rm.Admits order e) :
    |e + order.side.signed order.quantity| ≤ rm.maxPositionPerSymbol := by
  have hexp := h.2.1
  rw [exposureOk, safeAbs, newExposure_eq] at hexp
  rw [Int.abs_eq_natAbs, ← asUInt64_of_nonneg hrm.position_pos.le hrm.position_lt]
  exact_mod_cast hexp

theorem Admits.notional_le {rm : RiskManager} (hrm : rm.Valid) {order : Order} {e : ℤ}
    (h : rm.Admits order e) :
    (order.price.toNat * order.quantity.natAbs : ℕ) ≤ rm.maxOrderValue * SCALING_FACTOR := by
  have hlim : 0 ≤ rm.maxOrderValue * SCALING_FACTOR :=
    mul_nonneg hrm.value_pos.le (by norm_num [SCALING_FACTOR])
  by_cases hp : 0 < order.price
  · by_cases hq : order.quantity = 0
    · simpa [hq] using hlim
    · exact not_lt.1 fun hlt => h.2.2 ⟨hp, hq, hlt⟩
  · -- a market order has no price, and its notional counts as zero
    have h₀ : order.price = 0 := by simpa using hp
    simpa [h₀] using hlim

/-- The cooldown test of `onNewOrder`; a null cooldown lets every order pass. -/
def checkCooldown (s : RiskState) (order : Order) (now : UInt64) : Bool × RiskState :=
  match s.orderCooldown with
  | none => (true, s)
  | some c =>
      let r := c.checkAndUpdate order.symbol now
      (r.1, { s with orderCooldown := some r.2 })

/-- `onNewOrder`, at the clock reading `now`.  The exposure is read under the symbol up to its first
NUL, the reservation is made under all eight bytes. -/
def onNewOrder (rm : RiskManager) (s : RiskState) (order : Order) (now : UInt64) :
    Bool × RiskState :=
  let symbol := order.symbol.view
  let r := checkCooldown s order now
  if r.1 then
    match r.2.positionManager with
    | none => (false, r.2)
    | some pm =>
        if rm.Admits order (pm.getTotalExposure symbol) then
          (true, { r.2 with positionManager := some (pm.onOrderSent order) })
        else (false, r.2)
  else (false, r.2)

@[simp] theorem checkCooldown_positionManager (s : RiskState) (order : Order) (now : UInt64) :
    (checkCooldown s order now).2.positionManager = s.positionManager := by
  unfold checkCooldown
  cases s.orderCooldown <;> rfl

/-- **Everything `onNewOrder` does**: it approves, and then the cooldown passed, the checks held
and the order is reserved; or it rejects, and then the position manager is as before. -/
theorem onNewOrder_cases (rm : RiskManager) (s : RiskState) (order : Order) (now : UInt64) :
    (∃ pm, s.positionManager = some pm ∧ (checkCooldown s order now).1 = true ∧
      rm.Admits order (pm.getTotalExposure order.symbol.view) ∧
      rm.onNewOrder s order now =
        (true, { (checkCooldown s order now).2 with
          positionManager := some (pm.onOrderSent order) })) ∨
    rm.onNewOrder s order now = (false, (checkCooldown s order now).2) := by
  by_cases hc : (checkCooldown s order now).1 = true
  · cases hpm : s.positionManager with
    | none =>
        right
        simp [onNewOrder, hc, hpm]
    | some pm =>
        by_cases ha : rm.Admits order (pm.getTotalExposure order.symbol.view)
        · left
          refine ⟨pm, rfl, hc, ha, ?_⟩
          simp [onNewOrder, hc, hpm, ha]
        · right
          simp [onNewOrder, hc, hpm, ha]
  · right
    simp [onNewOrder, hc]

end RiskManager

/-! ### As the engine wires them -/

namespace RiskState

/-- The constructor of `TradingEngine`: the same symbols registered in both components. -/
def wire (symbols : List (List UInt8)) (cooldownNs : UInt64) : RiskState where
  positionManager := some (symbols.foldl PositionManager.registerSymbol {})
  orderCooldown := some (symbols.foldl OrderCooldown.registerSymbol { cooldownNs := cooldownNs })

/-- The calls made on the two components later, by any thread. -/
inductive Call
  | newOrder (order : Order) (now : UInt64)
  | fill (fill : Fill)
  | cancelled (order : Order)
  deriving DecidableEq, Repr

/-- The symbol buffer a call passes. -/
def Call.symbol : Call → CharArray 8
  | .newOrder order _ => order.symbol
  | .fill f => f.symbol
  | .cancelled order => order.symbol

/-- One call. -/
def call (rm : RiskManager) (s : RiskState) : Call → RiskState
  | .newOrder order now => (rm.onNewOrder s order now).2
  | .fill f => { s with positionManager := s.positionManager.map (·.onFill f) }
  | .cancelled order =>
      { s with positionManager := s.positionManager.map (·.onOrderCancelled order) }

/-- The invariant of a wired engine: the table follows a book, and every symbol of the cooldown is
padded with NUL bytes and has its entry, unless it is the reserved one. -/
structure Wired (s : RiskState) (pm : PositionManager) (b : Book) (c : OrderCooldown) : Prop where
  positionManager : s.positionManager = some pm
  orderCooldown : s.orderCooldown = some c
  refines : pm.Refines b
  padded : ∀ symbol ∈ c.slots.map CooldownSlot.symbol, CharArray.ofBytes 8 symbol.view = symbol
  booked : ∀ symbol ∈ c.slots.map CooldownSlot.symbol,
    symbolBufferToKey symbol ≠ kEmptySlot → symbolBufferToKey symbol ∈ b.keys

/-! ### Registration -/

/-- The slots of the cooldown after registration: the first 64 symbols. -/
theorem foldl_registerSymbol_slots (symbols : List (List UInt8)) (c : OrderCooldown)
    (hc : c.slots.length ≤ OrderCooldown.kMaxSymbols) :
    (symbols.foldl OrderCooldown.registerSymbol c).slots =
      c.slots ++ (symbols.take (OrderCooldown.kMaxSymbols - c.slots.length)).map
        fun s => { symbol := CharArray.ofBytes 8 s } := by
  induction symbols generalizing c with
  | nil => simp
  | cons s symbols ih =>
      rw [List.foldl_cons]
      by_cases hfull : OrderCooldown.kMaxSymbols ≤ c.slots.length
      · have hsame : c.registerSymbol s = c := by simp [OrderCooldown.registerSymbol, hfull]
        have h₀ : OrderCooldown.kMaxSymbols - c.slots.length = 0 := by omega
        rw [hsame, ih c hc, h₀]
        simp
      · have hnext : (c.registerSymbol s).slots =
            c.slots ++ [{ symbol := CharArray.ofBytes 8 s }] := by
          simp [OrderCooldown.registerSymbol, hfull]
        have hroom : OrderCooldown.kMaxSymbols - c.slots.length =
            (OrderCooldown.kMaxSymbols - (c.slots.length + 1)) + 1 := by omega
        rw [ih _ (by rw [hnext]; simp; omega), hnext, hroom]
        simp

/-- While there is room for them, registration makes an entry for each of the first `n` symbols;
the entries of the later ones do not displace them. -/
theorem exists_book_of_registered (symbols : List (List UInt8)) :
    ∀ (n : ℕ) {pm : PositionManager} {b : Book}, pm.Refines b → b.keys.card + n ≤ kMaxSymbols →
      ∃ b', (symbols.foldl PositionManager.registerSymbol pm).Refines b' ∧ b.keys ⊆ b'.keys ∧
        ∀ s ∈ symbols.take n, symbolToKey s ≠ kEmptySlot → symbolToKey s ∈ b'.keys := by
  induction symbols with
  | nil => intro n pm b h _; exact ⟨b, h, Finset.Subset.refl _, by simp⟩
  | cons s symbols ih =>
      intro n pm b h hroom
      by_cases hk : symbolToKey s = kEmptySlot
      · -- the reserved symbol takes no room
        obtain ⟨b', hb', hsub, hall⟩ := ih (n - 1) h (by omega)
        rw [List.foldl_cons, pm.registerSymbol_of_reserved hk]
        refine ⟨b', hb', hsub, ?_⟩
        intro s' hs' hk'
        cases n with
        | zero => simp at hs'
        | succ n =>
            rw [List.take_succ_cons, List.mem_cons] at hs'
            rcases hs' with rfl | hs'
            · exact absurd hk hk'
            · exact hall s' hs' hk'
      · have hstep := h.registerSymbol hk
        cases n with
        | zero =>
            obtain ⟨b', hb', hsub, -⟩ := ih 0 hstep (b.registerSymbol s).card_le
            exact ⟨b', hb', (b.keys_subset_touch _ _).trans hsub, by simp⟩
        | succ n =>
            have htakes : b.Takes (symbolToKey s) := Or.inr (by omega)
            have hkeys : (b.registerSymbol s).keys = insert (symbolToKey s) b.keys :=
              (Book.touch_of_takes htakes id).1
            have hcard : (b.registerSymbol s).keys.card + n ≤ kMaxSymbols := by
              rw [hkeys]
              have := Finset.card_insert_le (symbolToKey s) b.keys
              omega
            obtain ⟨b', hb', hsub, hall⟩ := ih n hstep hcard
            rw [hkeys] at hsub
            refine ⟨b', hb', (Finset.subset_insert _ _).trans hsub, ?_⟩
            intro s' hs' hk'
            rw [List.take_succ_cons, List.mem_cons] at hs'
            rcases hs' with rfl | hs'
            · exact hsub (Finset.mem_insert_self _ _)
            · exact hall s' hs' hk'

/-- The engine's constructor establishes the invariant. -/
theorem wired_wire {symbols : List (List UInt8)} (hnul : ∀ s ∈ symbols, (0 : UInt8) ∉ s)
    (cooldownNs : UInt64) : ∃ pm b c, Wired (wire symbols cooldownNs) pm b c := by
  obtain ⟨b, hb, -, hall⟩ := exists_book_of_registered symbols OrderCooldown.kMaxSymbols
    PositionManager.refines_empty (by decide)
  have hslots := foldl_registerSymbol_slots symbols { cooldownNs := cooldownNs } (Nat.zero_le _)
  have hsymbols : ∀ symbol ∈
      (symbols.foldl OrderCooldown.registerSymbol { cooldownNs := cooldownNs }).slots.map
        CooldownSlot.symbol,
      ∃ s ∈ symbols.take OrderCooldown.kMaxSymbols, symbol = CharArray.ofBytes 8 s := by
    intro symbol hmem
    rw [hslots] at hmem
    simp only [List.nil_append, List.length_nil, Nat.sub_zero, List.map_map, List.mem_map,
      Function.comp_apply] at hmem
    obtain ⟨s, hs, rfl⟩ := hmem
    exact ⟨s, hs, rfl⟩
  refine ⟨_, b, _, rfl, rfl, hb, ?_, ?_⟩
  · intro symbol hmem
    obtain ⟨s, hs, rfl⟩ := hsymbols symbol hmem
    exact CharArray.ofBytes_view_ofBytes (hnul s (List.mem_of_mem_take hs))
  · intro symbol hmem hk
    obtain ⟨s, hs, rfl⟩ := hsymbols symbol hmem
    exact hall s hs hk

/-! ### Later calls -/

/-- A step of the table that keeps every entry keeps the invariant. -/
theorem Wired.of_refines {s s' : RiskState} {pm pm' : PositionManager} {b b' : Book}
    {c c' : OrderCooldown} (h : Wired s pm b c) (hpm : s'.positionManager = some pm')
    (hc : s'.orderCooldown = some c')
    (hslots : c'.slots.map CooldownSlot.symbol = c.slots.map CooldownSlot.symbol)
    (href : pm'.Refines b') (hsub : b.keys ⊆ b'.keys) : Wired s' pm' b' c' where
  positionManager := hpm
  orderCooldown := hc
  refines := href
  padded := by rw [hslots]; exact h.padded
  booked := by
    rw [hslots]
    exact fun symbol hmem hk => hsub (h.booked symbol hmem hk)

/-- The cooldown test keeps the symbols of the cooldown. -/
theorem Wired.checkCooldown {s : RiskState} {pm : PositionManager} {b : Book} {c : OrderCooldown}
    (h : Wired s pm b c) (order : Order) (now : UInt64) :
    ∃ c', (RiskManager.checkCooldown s order now).2.orderCooldown = some c' ∧
      c'.slots.map CooldownSlot.symbol = c.slots.map CooldownSlot.symbol := by
  refine ⟨(c.checkAndUpdate order.symbol now).2, ?_, OrderCooldown.checkSlots_symbols ..⟩
  simp [RiskManager.checkCooldown, h.orderCooldown]

/-- One call with a symbol other than the reserved one keeps the invariant. -/
theorem Wired.call {s : RiskState} {pm : PositionManager} {b : Book} {c : OrderCooldown}
    (h : Wired s pm b c) (rm : RiskManager) {a : Call}
    (ha : symbolBufferToKey a.symbol ≠ kEmptySlot) :
    ∃ pm' b' c', Wired (s.call rm a) pm' b' c' := by
  cases a with
  | newOrder order now =>
      obtain ⟨c', hc', hslots⟩ := h.checkCooldown order now
      rcases rm.onNewOrder_cases s order now with ⟨pm₀, hpm₀, -, -, heq⟩ | heq
      · obtain rfl : pm = pm₀ := Option.some_inj.1 (h.positionManager.symm.trans hpm₀)
        refine ⟨_, _, c', h.of_refines ?_ ?_ hslots (h.refines.onOrderSent order ha)
          (b.keys_subset_touch _ _)⟩ <;> simp [RiskState.call, heq, hc']
      · refine ⟨pm, b, c', h.of_refines ?_ ?_ hslots h.refines (Finset.Subset.refl _)⟩ <;>
          simp [RiskState.call, heq, hc', h.positionManager]
  | fill f =>
      refine ⟨_, _, c, h.of_refines ?_ ?_ rfl (h.refines.onFill f ha) (b.keys_subset_touch _ _)⟩ <;>
        simp [RiskState.call, h.positionManager, h.orderCooldown]
  | cancelled order =>
      refine ⟨_, _, c, h.of_refines ?_ ?_ rfl (h.refines.onOrderCancelled order ha) ?_⟩
      · simp [RiskState.call, h.positionManager]
      · simp [RiskState.call, h.orderCooldown]
      · rw [Book.onOrderCancelled, Book.keys_amend]

/-- **Every state of a wired engine has the invariant.** -/
theorem wired_foldl {symbols : List (List UInt8)} (hnul : ∀ s ∈ symbols, (0 : UInt8) ∉ s)
    (cooldownNs : UInt64) (rm : RiskManager) {calls : List Call}
    (hcalls : ∀ a ∈ calls, symbolBufferToKey a.symbol ≠ kEmptySlot) :
    ∃ pm b c, Wired (calls.foldl (call rm) (wire symbols cooldownNs)) pm b c := by
  induction calls using List.reverseRecOn with
  | nil => exact wired_wire hnul cooldownNs
  | append_singleton calls a ih =>
      obtain ⟨pm, b, c, h⟩ := ih fun x hx => hcalls x (List.mem_append_left _ hx)
      rw [List.foldl_append]
      exact h.call rm (hcalls a (by simp))

/-- A symbol that passes the cooldown of a wired engine is padded and has its entry. -/
theorem Wired.passed {s : RiskState} {pm : PositionManager} {b : Book} {c : OrderCooldown}
    (h : Wired s pm b c) {order : Order} {now : UInt64}
    (hk : symbolBufferToKey order.symbol ≠ kEmptySlot)
    (hpass : (RiskManager.checkCooldown s order now).1 = true) :
    symbolToKey order.symbol.view = symbolBufferToKey order.symbol ∧
      symbolBufferToKey order.symbol ∈ b.keys := by
  have hmem : order.symbol ∈ c.slots.map CooldownSlot.symbol := by
    have hslots : (OrderCooldown.checkSlots c.cooldownNs order.symbol now c.slots).1 = true := by
      simpa [RiskManager.checkCooldown, h.orderCooldown, OrderCooldown.checkAndUpdate] using hpass
    exact OrderCooldown.checkSlots_true hslots
  refine ⟨?_, h.booked _ hmem hk⟩
  rw [symbolToKey_eq, h.padded _ hmem]

end RiskState

/-- **Risk approval is exact under the engine's wiring.**  In every state that any calls of
`onNewOrder`, `onFill` and `onOrderCancelled` lead to, an approved order adds exactly its signed
quantity to the exposure of its symbol, which stays within the position limit, its notional is
within the value limit and no other symbol is affected; a rejected order changes nothing. -/
theorem approval_is_exact (rm : RiskManager) (hrm : rm.Valid) (symbols : List (List UInt8))
    (hnul : ∀ s ∈ symbols, (0 : UInt8) ∉ s) (cooldownNs : UInt64) (calls : List RiskState.Call)
    (hcalls : ∀ a ∈ calls, a.symbol ≠ reservedSymbol) (order : Order)
    (horder : order.symbol ≠ reservedSymbol) (now : UInt64) :
    let s := calls.foldl (RiskState.call rm) (RiskState.wire symbols cooldownNs)
    let r := rm.onNewOrder s order now
    let symbol := order.symbol.view
    (r.1 = true → ∃ pm pm', s.positionManager = some pm ∧ r.2.positionManager = some pm' ∧
      pm'.getTotalExposure symbol =
        pm.getTotalExposure symbol + order.side.signed order.quantity ∧
      |pm'.getTotalExposure symbol| ≤ rm.maxPositionPerSymbol ∧
      (order.price.toNat * order.quantity.natAbs : ℕ) ≤ rm.maxOrderValue * SCALING_FACTOR ∧
      ∀ other, symbolToKey other ≠ symbolBufferToKey order.symbol →
        pm'.countersOf other = pm.countersOf other) ∧
    (r.1 = false → r.2.positionManager = s.positionManager) := by
  intro s r symbol
  have hk := symbolBufferToKey_ne_kEmptySlot horder
  obtain ⟨pm, b, c, hw⟩ := RiskState.wired_foldl hnul cooldownNs rm
    fun a ha => symbolBufferToKey_ne_kEmptySlot (hcalls a ha)
  rcases rm.onNewOrder_cases s order now with ⟨pm₀, hpm₀, hpass, hadm, heq⟩ | heq
  · obtain rfl : pm = pm₀ := Option.some_inj.1 (hw.positionManager.symm.trans hpm₀)
    obtain ⟨hkey, hmem⟩ := hw.passed hk hpass
    have href := hw.refines.onOrderSent order hk
    have hcnt : (b.onOrderSent order).counters =
        Function.update b.counters (symbolBufferToKey order.symbol)
          (order.sent (b.counters (symbolBufferToKey order.symbol))) :=
      (Book.touch_of_takes (Or.inl hmem) order.sent).2
    have hexp : (pm.onOrderSent order).getTotalExposure symbol =
        pm.getTotalExposure symbol + order.side.signed order.quantity := by
      rw [href.getTotalExposure, hw.refines.getTotalExposure, hkey, hcnt, Function.update_self]
      simp only [Order.sent]
      ring
    refine ⟨fun _ => ⟨pm, pm.onOrderSent order, hpm₀, ?_, hexp, ?_, hadm.notional_le hrm, ?_⟩, ?_⟩
    · simp [r, heq]
    · rw [hexp]
      exact hadm.abs_le hrm
    · intro other hother
      rw [href.countersOf, hw.refines.countersOf, hcnt, Function.update_of_ne hother]
    · intro hfalse
      simp [r, heq] at hfalse
  · refine ⟨fun htrue => ?_, fun _ => ?_⟩
    · simp [r, heq] at htrue
    · simp [r, heq]

/-- An engine with one symbol, after one fill of it, approves a purchase that fits. -/
theorem approval_of_a_purchase :
    let aapl : CharArray 8 := CharArray.ofBytes 8 [65, 65, 80, 76]
    let order : Order := { symbol := aapl, quantity := 40, price := 2500000, side := .buy }
    let s := [RiskState.Call.fill ⟨aapl, .sell, 30, 250⟩].foldl (RiskState.call {})
      (RiskState.wire [[65, 65, 80, 76]] 100000000)
    let r := ({} : RiskManager).onNewOrder s order 200000000
    r.1 = true ∧
      ∃ pm pm' : PositionManager, s.positionManager = some pm ∧ r.2.positionManager = some pm' ∧
        pm'.getTotalExposure order.symbol.view =
          pm.getTotalExposure order.symbol.view + order.side.signed order.quantity := by
  intro aapl order s r
  have htrue : r.1 = true := by decide +kernel
  refine ⟨htrue, ?_⟩
  obtain ⟨pm, pm', hpm, hpm', hexp, -⟩ := (approval_is_exact {} ⟨by decide, by decide, by norm_num⟩
    [[65, 65, 80, 76]] (by decide) 100000000 [RiskState.Call.fill ⟨aapl, .sell, 30, 250⟩]
    (by decide +kernel) order (by decide +kernel) 200000000).1 htrue
  exact ⟨pm, pm', hpm, hpm', hexp⟩

end Trading
