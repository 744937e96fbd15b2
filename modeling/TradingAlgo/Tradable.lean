/-
**Which configurations can be traded.**

The list of symbols of a configuration goes through four components with limits of their own: a
consumer rejects a symbol of more than eight bytes, position manager and cooldown keep eight bytes
of it, the cooldown has 64 slots and the position manager 256, one key of which is reserved.
`validateConfig` asks of the list only that its members differ.

Main definitions:

* `Trading.OrderCooldown.slotOf` — the slot at which the loop of `checkAndUpdate` stops;
* `Trading.Tradable` — all components have taken all symbols, and keep them apart.

Main results:

* `Trading.OrderCooldown.checkAndUpdate_eq` — what `checkAndUpdate` does, by that slot;
* `Trading.tradable_iff` — an accepted configuration is tradable exactly when its symbols have at
  most eight bytes, none of them is the reserved one, and there are at most 64 of them.
-/

import TradingAlgo.Engine

set_option relaxedAutoImplicit false
set_option autoImplicit false

namespace Trading

/-! ### The slots of the cooldown -/

namespace OrderCooldown

/-- The slot at which the loop of `checkAndUpdate` stops, `none` when it runs to the end and the
order is rejected because its symbol is not registered. -/
def slotOf (c : OrderCooldown) (symbol : CharArray 8) : Option ℕ :=
  c.slots.findIdx? fun slot => slot.symbol = symbol

theorem slotOf_eq (c : OrderCooldown) (symbol : CharArray 8) :
    c.slotOf symbol = (c.slots.map CooldownSlot.symbol).findIdx? fun s => s = symbol := by
  rw [slotOf, List.findIdx?_map]
  rfl

theorem checkSlots_eq (cooldownNs : UInt64) (symbol : CharArray 8) (now : UInt64)
    (slots : List CooldownSlot) :
    (checkSlots cooldownNs symbol now slots).1 =
      match slots.findIdx? fun slot => slot.symbol = symbol with
      | none => false
      | some i => slots[i]?.any fun slot => ¬ now - slot.lastOrderTime < cooldownNs := by
  induction slots with
  | nil => rfl
  | cons slot rest ih =>
      by_cases hsym : slot.symbol = symbol
      · by_cases hnow : now - slot.lastOrderTime < cooldownNs
        · simp [checkSlots, List.findIdx?_cons, hsym, hnow]
        · simpa [checkSlots, List.findIdx?_cons, hsym, hnow] using UInt64.not_lt.1 hnow
      · simp only [checkSlots, hsym, if_false, ih, List.findIdx?_cons]
        cases rest.findIdx? fun slot => decide (slot.symbol = symbol) <;> simp

/-- **What `checkAndUpdate` decides**: only a symbol without a slot is rejected whatever the time
is. -/
theorem checkAndUpdate_eq (c : OrderCooldown) (symbol : CharArray 8) (now : UInt64) :
    (c.checkAndUpdate symbol now).1 =
      match c.slotOf symbol with
      | none => false
      | some i => c.slots[i]?.any fun slot => ¬ now - slot.lastOrderTime < c.cooldownNs :=
  checkSlots_eq c.cooldownNs symbol now c.slots

/-- The calls of `checkAndUpdate` by all threads, in their order. -/
def check (c : OrderCooldown) (calls : List (CharArray 8 × UInt64)) : OrderCooldown :=
  calls.foldl (fun c x => (c.checkAndUpdate x.1 x.2).2) c

/-- The calls leave every symbol its slot. -/
theorem slotOf_check (c : OrderCooldown) (calls : List (CharArray 8 × UInt64))
    (symbol : CharArray 8) : (c.check calls).slotOf symbol = c.slotOf symbol := by
  induction calls generalizing c with
  | nil => rfl
  | cons x calls ih =>
      rw [check, List.foldl_cons]
      refine (ih _).trans ?_
      rw [slotOf_eq, slotOf_eq]
      exact congrArg _ (checkSlots_symbols c.cooldownNs x.1 x.2 c.slots)

end OrderCooldown

/-! ### Tradable configurations -/

/-- The position manager after the constructor's loop. -/
def registeredPositions (config : AppConfig) : PositionManager :=
  config.trading.symbols.foldl PositionManager.registerSymbol {}

/-- The cooldown after the constructor's loop. -/
def registeredCooldown (config : AppConfig) : OrderCooldown :=
  config.trading.symbols.foldl OrderCooldown.registerSymbol
    { cooldownNs := config.trading.orderCooldownNs }

/-- They are the components that the risk manager is given. -/
theorem wire_eq (config : AppConfig) :
    RiskState.wire config.trading.symbols config.trading.orderCooldownNs =
      ⟨some (registeredPositions config), some (registeredCooldown config)⟩ := rfl

/-- All components have taken all symbols: the consumers can be launched, distinct symbols have
distinct entries and distinct slots, and whatever orders are checked, no symbol is taken for one
that is not registered. -/
structure Tradable (config : AppConfig) : Prop where
  launched : ∃ consumers, launchConsumers config = .ok consumers
  entry : ∀ s ∈ config.trading.symbols, ∃ j,
    (registeredPositions config).find (symbolToKey s) = some j ∧
      (registeredPositions config).keys j ≠ kEmptySlot
  entry_ne : ∀ s ∈ config.trading.symbols, ∀ t ∈ config.trading.symbols, s ≠ t →
    (registeredPositions config).find (symbolToKey s) ≠
      (registeredPositions config).find (symbolToKey t)
  slot_ne : ∀ s ∈ config.trading.symbols, ∀ t ∈ config.trading.symbols, s ≠ t →
    (registeredCooldown config).slotOf (CharArray.ofBytes 8 s) ≠
      (registeredCooldown config).slotOf (CharArray.ofBytes 8 t)
  registered : ∀ s ∈ config.trading.symbols, ∀ calls,
    (((registeredCooldown config).check calls).slotOf (CharArray.ofBytes 8 s)).isSome

section Registered

variable {config : AppConfig}

/-- The symbols of the slots: the first 64 of the configuration. -/
theorem registeredCooldown_symbols (config : AppConfig) :
    (registeredCooldown config).slots.map CooldownSlot.symbol =
      (config.trading.symbols.take 64).map (CharArray.ofBytes 8) := by
  have h := RiskState.foldl_registerSymbol_slots config.trading.symbols
    { cooldownNs := config.trading.orderCooldownNs } (Nat.zero_le _)
  rw [registeredCooldown, h]
  simp [OrderCooldown.kMaxSymbols, Function.comp_def]

/-- Symbols that fit are told apart by their eight bytes. -/
theorem ofBytes_inj {s t : List UInt8} (hs : (0 : UInt8) ∉ s) (ht : (0 : UInt8) ∉ t)
    (hs8 : s.length ≤ 8) (ht8 : t.length ≤ 8)
    (h : CharArray.ofBytes 8 s = CharArray.ofBytes 8 t) : s = t := by
  rw [← CharArray.view_ofBytes hs hs8, h, CharArray.view_ofBytes ht ht8]

/-- A symbol that fits has the reserved key only if it is the reserved symbol. -/
theorem symbolToKey_ne_kEmptySlot {s : List UInt8} (hs : (0 : UInt8) ∉ s) (hs8 : s.length ≤ 8)
    (hne : s ≠ List.replicate 8 0xFF) : symbolToKey s ≠ kEmptySlot := by
  rw [symbolToKey_eq]
  refine symbolBufferToKey_ne_kEmptySlot fun heq => hne ?_
  rw [← CharArray.view_ofBytes hs hs8, heq]
  decide +kernel

/-- Every symbol has a slot only when there are at most 64 of them. -/
theorem Tradable.symbols_length_le (h : Tradable config) (hnodup : config.trading.symbols.Nodup)
    (hnul : ∀ s ∈ config.trading.symbols, (0 : UInt8) ∉ s) :
    config.trading.symbols.length ≤ 64 := by
  obtain ⟨consumers, hlaunch⟩ := h.launched
  have hlength := length_le_of_mapM_create hlaunch
  have hsub : config.trading.symbols ⊆ config.trading.symbols.take 64 := by
    intro s hs
    have hslot := h.registered s hs []
    rw [OrderCooldown.slotOf_check, OrderCooldown.slotOf_eq, registeredCooldown_symbols,
      List.findIdx?_isSome, List.any_map, List.any_eq_true] at hslot
    obtain ⟨t, ht, heq⟩ := hslot
    have htmem := List.mem_of_mem_take ht
    have hts : t = s := ofBytes_inj (hnul t htmem) (hnul s hs) (hlength t htmem) (hlength s hs)
      (by simpa using heq)
    exact hts ▸ ht
  have hle := (hnodup.subperm hsub).length_le
  exact hle.trans (by simp)

/-- Up to 64 symbols that fit are taken by all components. -/
theorem tradable_of_fits
    (hnul : ∀ s ∈ config.trading.symbols, (0 : UInt8) ∉ s)
    (hfits : ∀ s ∈ config.trading.symbols, s.length ≤ 8 ∧ s ≠ List.replicate 8 0xFF)
    (hcount : config.trading.symbols.length ≤ 64) : Tradable config := by
  have hinj : ∀ s ∈ config.trading.symbols, ∀ t ∈ config.trading.symbols,
      CharArray.ofBytes 8 s = CharArray.ofBytes 8 t → s = t := by
    intro s hs t ht
    exact ofBytes_inj (hnul s hs) (hnul t ht) (hfits s hs).1 (hfits t ht).1
  have hkey : ∀ s ∈ config.trading.symbols, symbolToKey s ≠ kEmptySlot := by
    intro s hs
    exact symbolToKey_ne_kEmptySlot (hnul s hs) (hfits s hs).1 (hfits s hs).2
  -- the book has an entry for each of them
  obtain ⟨b, hb, -, hall⟩ := RiskState.exists_book_of_registered config.trading.symbols
    config.trading.symbols.length PositionManager.refines_empty
    (by simp only [Book.empty, Finset.card_empty, kMaxSymbols]; omega)
  have hentry : ∀ s ∈ config.trading.symbols, ∃ j,
      (registeredPositions config).find (symbolToKey s) = some j ∧
        (registeredPositions config).keys j = symbolToKey s := by
    intro s hs
    exact hb.find_of_mem (hall s (by rwa [List.take_length]) (hkey s hs))
  have hslot : ∀ s ∈ config.trading.symbols, ∃ i,
      (registeredCooldown config).slotOf (CharArray.ofBytes 8 s) = some i ∧
        config.trading.symbols[i]? = some s := by
    intro s hs
    rw [OrderCooldown.slotOf_eq, registeredCooldown_symbols, List.take_of_length_le hcount]
    have hsome : ((config.trading.symbols.map (CharArray.ofBytes 8)).findIdx?
        fun t => t = CharArray.ofBytes 8 s).isSome = true := by
      rw [List.findIdx?_isSome, List.any_eq_true]
      exact ⟨_, List.mem_map_of_mem hs, by simp⟩
    obtain ⟨i, hi⟩ := Option.isSome_iff_exists.1 hsome
    refine ⟨i, hi, ?_⟩
    obtain ⟨hlt, hstop, -⟩ := List.findIdx?_eq_some_iff_getElem.1 hi
    rw [List.length_map] at hlt
    rw [List.getElem?_eq_getElem hlt]
    refine congrArg some (hinj _ (List.getElem_mem hlt) s hs ?_)
    simpa using hstop
  refine ⟨⟨_, launchConsumers_ok fun s hs => (hfits s hs).1⟩, ?_, ?_, ?_, ?_⟩
  · intro s hs
    obtain ⟨j, hfind, hj⟩ := hentry s hs
    exact ⟨j, hfind, hj ▸ hkey s hs⟩
  · intro s hs t ht hne heq
    obtain ⟨j, hfind, hj⟩ := hentry s hs
    obtain ⟨j', hfind', hj'⟩ := hentry t ht
    obtain rfl : j = j' := Option.some_inj.1 (hfind.symm.trans (heq.trans hfind'))
    exact hne (hinj s hs t ht (symbolBufferToKey_injective (hj.symm.trans hj')))
  · intro s hs t ht hne heq
    obtain ⟨i, hi, hsi⟩ := hslot s hs
    obtain ⟨i', hi', hti⟩ := hslot t ht
    obtain rfl : i = i' := Option.some_inj.1 (hi.symm.trans (heq.trans hi'))
    exact hne (Option.some_inj.1 (hsi.symm.trans hti))
  · intro s hs calls
    obtain ⟨i, hi, -⟩ := hslot s hs
    rw [OrderCooldown.slotOf_check, hi]
    rfl

end Registered

/-- **An accepted configuration is tradable exactly when its symbols fit**: each has at most eight
bytes and is not the reserved one, and there are at most 64 of them. -/
theorem tradable_iff (config : AppConfig) (hvalid : validateConfig config = .ok ())
    (hnul : ∀ s ∈ config.trading.symbols, (0 : UInt8) ∉ s) :
    Tradable config ↔
      (∀ s ∈ config.trading.symbols, s.length ≤ 8 ∧ s ≠ List.replicate 8 0xFF) ∧
        config.trading.symbols.length ≤ 64 := by
  have hnodup := ((validateConfig_ok_iff config).1 hvalid).2.2.2.2
  constructor
  · intro h
    obtain ⟨consumers, hlaunch⟩ := h.launched
    refine ⟨fun s hs => ⟨length_le_of_mapM_create hlaunch s hs, ?_⟩,
      h.symbols_length_le hnodup hnul⟩
    rintro rfl
    obtain ⟨j, hfind, hj⟩ := h.entry _ hs
    rw [PositionManager.find_some hfind] at hj
    exact hj symbolBufferToKey_reservedSymbol
  · rintro ⟨hfits, hcount⟩
    exact tradable_of_fits hnul hfits hcount

/-- The default configuration is tradable. -/
theorem tradable_of_defaults : validateConfig {} = .ok () ∧ Tradable {} := by
  have hvalid : validateConfig {} = .ok () := (validateConfig_ok_iff {}).2 (by decide +kernel)
  exact ⟨hvalid, (tradable_iff {} hvalid (by decide)).2 (by decide)⟩

/-- A symbol of nine bytes is accepted, and the constructor of its consumer throws; 65 symbols are
accepted, and the last one has no slot. -/
theorem tradable_fails :
    let long : AppConfig := { trading := { symbols := [[65, 66, 67, 68, 69, 70, 71, 72, 73]] } }
    let many : AppConfig :=
      { trading := { symbols := (List.range 65).map fun i => [65, UInt8.ofNat (i + 33)] } }
    (validateConfig long = .ok () ∧ ¬ Tradable long) ∧
      (validateConfig many = .ok () ∧ ¬ Tradable many) := by
  intro long many
  refine ⟨⟨(validateConfig_ok_iff long).2 (by decide +kernel), fun h => ?_⟩,
    ⟨(validateConfig_ok_iff many).2 (by decide +kernel), fun h => ?_⟩⟩
  · obtain ⟨consumers, hlaunch⟩ := h.launched
    exact absurd (length_le_of_mapM_create hlaunch _ List.mem_cons_self) (by decide)
  · have hle := h.symbols_length_le (by decide +kernel) (by decide +kernel)
    simp [many] at hle

end Trading
