/-
**The pace of the orders.**

`checkAndUpdate` reads the clock, loads the time of the last order, compares and stores, in four
accesses and without a lock; between any two of them the other consumers, the listener and the
gateway go on, and so does the clock.  A difference of unsigned numbers is taken of a reading and a
stored time that may be newer than it.

What keeps the distance between two orders of a symbol is that the events of a symbol go to one
consumer.  Then the stored time is the consumer's own, and the clock has only moved on since it was
stored, whatever the other threads do (`Trading.orders_are_paced`).  When one configured symbol is a
prefix of another, two consumers check the longer one, and both may pass at the same time
(`Trading.orders_not_paced_with_two_consumers`).

Main definitions:

* `Trading.Floor` — what the threads share;
* `Trading.checkAndUpdateScript`, `Trading.onNewOrderScript`, `Trading.consumerScript` — the
  accesses of a consumer;
* `Trading.Job` — the calls of the other threads, and the clock.

Main results:

* `Trading.run_roundScript` — a round that nobody interrupts is `MarketEventConsumer.onMessage`;
* `Trading.outline_consumerScript` — the proof outline of a consumer;
* `Trading.orders_are_paced` — the distances, and how many orders there are in a window.
-/

import TradingAlgo.Consumers
import TradingAlgo.Cooldown
import TradingAlgo.RelyGuarantee
import TradingAlgo.Spacing

set_option relaxedAutoImplicit false
set_option autoImplicit false

namespace Trading

open Interleaving (Script Stable Outline)
open Spacing (Spaced)

/-! ### What the threads share -/

namespace OrderCooldown

/-- `slots_[i].last_order_time.load()`. -/
def loadTime (c : OrderCooldown) (i : ℕ) : UInt64 :=
  (c.slots[i]?.map CooldownSlot.lastOrderTime).getD 0

/-- `slots_[i].last_order_time.store(now)`. -/
def storeTime (c : OrderCooldown) (i : ℕ) (now : UInt64) : OrderCooldown :=
  { c with slots := c.slots.modify i fun slot => { slot with lastOrderTime := now } }

/-- What does not change once the symbols are registered. -/
def layout (c : OrderCooldown) : List (CharArray 8) × UInt64 :=
  (c.slots.map CooldownSlot.symbol, c.cooldownNs)

theorem slotOf_of_layout {c c' : OrderCooldown} (h : c'.layout = c.layout) (symbol : CharArray 8) :
    c'.slotOf symbol = c.slotOf symbol := by
  rw [slotOf_eq, slotOf_eq, (Prod.mk.inj h).1]

@[simp] theorem layout_storeTime (c : OrderCooldown) (i : ℕ) (now : UInt64) :
    (c.storeTime i now).layout = c.layout := by
  simp only [layout, storeTime, Prod.mk.injEq, and_true]
  refine List.ext_getElem? fun j => ?_
  rw [List.getElem?_map, List.getElem?_map, List.getElem?_modify]
  cases c.slots[j]? with
  | none => rfl
  | some slot =>
      by_cases hij : i = j
      · simp [hij]
      · simp [hij]

/-- Where the slot of a symbol is. -/
theorem slot_cons_cases {slot : CooldownSlot} {rest : List CooldownSlot} {symbol : CharArray 8}
    {i : ℕ} (h : ((slot :: rest).findIdx? fun x => x.symbol = symbol) = some i) :
    (slot.symbol = symbol ∧ i = 0) ∨
      (slot.symbol ≠ symbol ∧ ∃ j, (rest.findIdx? fun x => x.symbol = symbol) = some j ∧
        i = j + 1) := by
  by_cases hsym : slot.symbol = symbol
  · left
    refine ⟨hsym, ?_⟩
    have hzero : 0 = i := by simpa [List.findIdx?_cons, hsym] using h
    exact hzero.symm
  · right
    simp only [List.findIdx?_cons, hsym, decide_false, Bool.false_eq_true, if_false,
      Option.map_eq_some_iff] at h
    obtain ⟨j, hj, rfl⟩ := h
    exact ⟨hsym, j, hj, rfl⟩

/-- The slot of a symbol holds its time. -/
theorem lastOrderTime_of_slotOf {c : OrderCooldown} {symbol : CharArray 8} {i : ℕ}
    (h : c.slotOf symbol = some i) : c.lastOrderTime symbol = some (c.loadTime i) := by
  obtain ⟨slots, cooldownNs⟩ := c
  simp only [slotOf] at h
  simp only [lastOrderTime, loadTime]
  induction slots generalizing i with
  | nil => simp at h
  | cons slot rest ih =>
      rcases slot_cons_cases h with ⟨hsym, rfl⟩ | ⟨hsym, j, hj, rfl⟩
      · rw [timeIn_cons_self hsym]
        simp
      · rw [timeIn_cons_of_ne hsym]
        simpa using ih hj

/-- A store into the slot of a symbol is seen under this symbol, and under no other. -/
theorem lastOrderTime_storeTime {c : OrderCooldown} {symbol : CharArray 8} {i : ℕ}
    (h : c.slotOf symbol = some i) (now : UInt64) (s : CharArray 8) :
    (c.storeTime i now).lastOrderTime s = if s = symbol then some now else c.lastOrderTime s := by
  obtain ⟨slots, cooldownNs⟩ := c
  simp only [slotOf] at h
  simp only [lastOrderTime, storeTime]
  induction slots generalizing i with
  | nil => simp at h
  | cons slot rest ih =>
      rcases slot_cons_cases h with ⟨rfl, rfl⟩ | ⟨hsym, j, hj, rfl⟩
      · rw [List.modify_zero_cons]
        by_cases hs : s = slot.symbol
        · subst hs
          rw [if_pos rfl]
          exact timeIn_cons_self rfl rest
        · simp [timeIn, hs, Ne.symm hs]
      · rw [List.modify_succ_cons]
        by_cases hs : slot.symbol = s
        · have hne : s ≠ symbol := fun heq => hsym (hs.trans heq)
          rw [timeIn_cons_self hs, timeIn_cons_self hs, if_neg hne]
        · rw [timeIn_cons_of_ne hs, timeIn_cons_of_ne hs, ih hj]

/-- In one piece the load, the comparison and the store are `checkAndUpdate`. -/
theorem checkAndUpdate_of_slotOf {c : OrderCooldown} {symbol : CharArray 8} {i : ℕ}
    (h : c.slotOf symbol = some i) (now : UInt64) :
    c.checkAndUpdate symbol now =
      if now - c.loadTime i < c.cooldownNs then (false, c) else (true, c.storeTime i now) := by
  obtain ⟨slots, cooldownNs⟩ := c
  simp only [slotOf] at h
  have hslots : checkSlots cooldownNs symbol now slots =
      if now - (slots[i]?.map CooldownSlot.lastOrderTime).getD 0 < cooldownNs then (false, slots)
      else (true, slots.modify i fun slot => { slot with lastOrderTime := now }) := by
    induction slots generalizing i with
    | nil => simp at h
    | cons slot rest ih =>
        rcases slot_cons_cases h with ⟨hsym, rfl⟩ | ⟨hsym, j, hj, rfl⟩
        · simp [checkSlots, hsym]
        · simp only [checkSlots, hsym, if_false, ih hj, List.getElem?_cons_succ]
          split <;> simp
  by_cases hsoon : now - (slots[i]?.map CooldownSlot.lastOrderTime).getD 0 < cooldownNs
  · simp only [checkAndUpdate, hslots, loadTime, hsoon, if_true]
  · simp only [checkAndUpdate, hslots, loadTime, storeTime, hsoon, if_false]

/-- A symbol without a slot is rejected. -/
theorem checkAndUpdate_of_slotOf_none {c : OrderCooldown} {symbol : CharArray 8}
    (h : c.slotOf symbol = none) (now : UInt64) : c.checkAndUpdate symbol now = (false, c) := by
  obtain ⟨slots, cooldownNs⟩ := c
  simp only [slotOf] at h
  have hslots : checkSlots cooldownNs symbol now slots = (false, slots) := by
    induction slots with
    | nil => rfl
    | cons slot rest ih =>
        by_cases hsym : slot.symbol = symbol
        · simp [List.findIdx?_cons, hsym] at h
        · simp only [List.findIdx?_cons, hsym, decide_false, Bool.false_eq_true,
            if_false, Option.map_eq_none_iff] at h
          simp [checkSlots, hsym, ih h]
  simp [checkAndUpdate, hslots]

/-- A call that is rejected stores nothing. -/
theorem checkAndUpdate_of_rejected {c : OrderCooldown} {symbol : CharArray 8} {now : UInt64}
    (h : (c.checkAndUpdate symbol now).1 ≠ true) : (c.checkAndUpdate symbol now).2 = c := by
  cases hslot : c.slotOf symbol with
  | none => rw [checkAndUpdate_of_slotOf_none hslot]
  | some i =>
      rw [checkAndUpdate_of_slotOf hslot] at h ⊢
      split at h
      · next hsoon => rw [if_pos hsoon]
      · exact absurd rfl h

end OrderCooldown

/-- What the consumers, the listener and the gateway share.  An order is queued with the reading of
the clock that its `checkAndUpdate` made. -/
structure Floor where
  clock : UInt64
  cooldown : OrderCooldown
  positions : PositionManager
  pushed : List (UInt64 × Order) := []

namespace Floor

def storeTime (i : ℕ) (now : UInt64) (s : Floor) : Floor :=
  { s with cooldown := s.cooldown.storeTime i now }

def onOrderSent (order : Order) (s : Floor) : Floor :=
  { s with positions := s.positions.onOrderSent order }

def push (now : UInt64) (order : Order) (s : Floor) : Floor :=
  { s with pushed := s.pushed ++ [(now, order)] }

end Floor

/-! ### The accesses of a consumer -/

/-- `checkAndUpdate`, and what follows it.  The symbols of the slots are not written after the
registration, so that the scan is one access. -/
def checkAndUpdateScript (symbol : CharArray 8) (reject : Script Floor)
    (pass : UInt64 → Script Floor) : Script Floor :=
  .load fun s =>
    match s.cooldown.slotOf symbol with
    | none => reject
    | some i =>
        .load fun s =>
          let now := s.clock
          .load fun s =>
            let last := s.cooldown.loadTime i
            if now - last < s.cooldown.cooldownNs then reject
            else .update (Floor.storeTime i now) (pass now)

/-- `onNewOrder`, and what follows it. -/
def onNewOrderScript (rm : RiskManager) (order : Order) (reject : Script Floor)
    (approve : UInt64 → Script Floor) : Script Floor :=
  checkAndUpdateScript order.symbol reject fun now =>
    if rm.quantityOk order then
      .load fun s =>
        let filled := s.positions.getFilledPosition order.symbol.view
        .load fun s =>
          let pending := s.positions.getPendingPosition order.symbol.view
          if rm.exposureOk order (filled + pending) ∧ rm.notionalOk order then
            .update (Floor.onOrderSent order) (approve now)
          else reject
    else reject

/-- A round of `run` with an event.  The samples of the latency tracker are left out. -/
def roundScript (rm : RiskManager) (strategy : SimpleMarketMakingStrategy) (event : MarketEvent) :
    Script Floor :=
  match (strategy.onMarketEvent event).2 with
  | none => .done
  | some order =>
      onNewOrderScript rm order .done fun now =>
        .load fun s =>
          let preQueueAt := s.clock
          .update (Floor.push now
            { order with arrivedAt := event.arrivedAt, queuedAt := preQueueAt }) .done

/-- `run`, on the messages that its socket delivers. -/
def consumerScript (rm : RiskManager) : SimpleMarketMakingStrategy → List ZmqMessage → Script Floor
  | _, [] => .done
  | strategy, message :: messages =>
      (roundScript rm strategy message.payload).andThen
        (consumerScript rm (strategy.onMarketEvent message.payload).1 messages)

/-- What the other threads do: the listener reports fills, the gateway gives orders back, and time
goes by. -/
inductive Job
  | fill (fill : Fill)
  | cancelled (order : Order)
  /-- The clock does not run backwards. -/
  | advance (reading : UInt64)
  deriving DecidableEq, Repr

def Job.script : Job → Script Floor
  | .fill f => .update (fun s => { s with positions := s.positions.onFill f }) .done
  | .cancelled order =>
      .update (fun s => { s with positions := s.positions.onOrderCancelled order }) .done
  | .advance reading =>
      .update (fun s => if s.clock ≤ reading then { s with clock := reading } else s) .done

/-! ### A round in one piece -/

/-- The components as the risk manager has them. -/
def Floor.risk (s : Floor) : RiskState := ⟨some s.positions, some s.cooldown⟩

theorem run_checkAndUpdateScript (symbol : CharArray 8) (reject : Script Floor)
    (pass : UInt64 → Script Floor) (s : Floor) :
    (checkAndUpdateScript symbol reject pass).run s =
      if (s.cooldown.checkAndUpdate symbol s.clock).1 then
        (pass s.clock).run { s with cooldown := (s.cooldown.checkAndUpdate symbol s.clock).2 }
      else reject.run s := by
  simp only [checkAndUpdateScript, Script.run_load]
  cases hslot : s.cooldown.slotOf symbol with
  | none => simp [OrderCooldown.checkAndUpdate_of_slotOf_none hslot]
  | some i =>
      rw [OrderCooldown.checkAndUpdate_of_slotOf hslot]
      by_cases hsoon : s.clock - s.cooldown.loadTime i < s.cooldown.cooldownNs
      · simp [hsoon]
      · simp [hsoon, Floor.storeTime]

/-- **A round that nobody interrupts** is `MarketEventConsumer.onMessage`: the order that it pushes,
and what it leaves in the two components. -/
theorem run_roundScript (rm : RiskManager) (consumer : MarketEventConsumer) (message : ZmqMessage)
    (s : Floor) :
    let r := consumer.onMessage rm s.risk message s.clock s.clock
    let s' := (roundScript rm consumer.strategy message.payload).run s
    s'.risk = r.2.1 ∧ s'.pushed = s.pushed ++ r.2.2.toList.map (Prod.mk s.clock) ∧
      s'.clock = s.clock := by
  simp only [MarketEventConsumer.onMessage, roundScript]
  cases horder : (consumer.strategy.onMarketEvent message.payload).2 with
  | none => simp
  | some order =>
      have hexposure : s.positions.getFilledPosition order.symbol.view +
          s.positions.getPendingPosition order.symbol.view =
            s.positions.getTotalExposure order.symbol.view := by
        simp only [PositionManager.getFilledPosition, PositionManager.getPendingPosition,
          PositionManager.getTotalExposure, PositionManager.read]
        cases s.positions.find (symbolToKey order.symbol.view) <;> simp
      simp only [onNewOrderScript, run_checkAndUpdateScript, RiskManager.onNewOrder,
        RiskManager.checkCooldown, Floor.risk]
      by_cases hpass : (s.cooldown.checkAndUpdate order.symbol s.clock).1 = true
      · by_cases hq : rm.quantityOk order
        · by_cases hrest : rm.exposureOk order (s.positions.getTotalExposure order.symbol.view) ∧
              rm.notionalOk order
          · simp [hpass, hq, hexposure, hrest, RiskManager.Admits, Floor.onOrderSent, Floor.push]
          · simp [hpass, hq, hexposure, hrest, RiskManager.Admits]
        · simp [hpass, hq, RiskManager.Admits]
      · simp [hpass, OrderCooldown.checkAndUpdate_of_rejected hpass]

/-! ### The outline of a consumer -/

section Pace

variable (k : CharArray 8) (cooldownNs : UInt64)

/-- The readings of the clock with which the orders of a symbol have passed, in the order of the
queue. -/
def timesOf (pushed : List (UInt64 × Order)) : List ℕ :=
  (pushed.filter fun x => x.2.symbol = k).map fun x => x.1.toNat

/-- The invariant for a symbol: its orders keep the distance, the stored time is not before any of
them, and the clock is not before the stored time. -/
structure Paced (s : Floor) : Prop where
  cooldown : s.cooldown.cooldownNs = cooldownNs
  spaced : Spaced cooldownNs.toNat (timesOf k s.pushed)
  le_last : ∀ t ∈ timesOf k s.pushed, ∀ last, s.cooldown.lastOrderTime k = some last →
    t ≤ last.toNat
  last_le : ∀ last, s.cooldown.lastOrderTime k = some last → last ≤ s.clock

/-- What every thread keeps. -/
structure Common (s s' : Floor) : Prop where
  layout : s'.cooldown.layout = s.cooldown.layout
  clock : s.clock ≤ s'.clock

/-- What the threads keep that do not check the symbol. -/
structure Private (s s' : Floor) : Prop where
  last : s'.cooldown.lastOrderTime k = s.cooldown.lastOrderTime k
  times : timesOf k s'.pushed = timesOf k s.pushed

/-- What a thread relies on, and what it guarantees. -/
def Rely (checks : Prop) (s s' : Floor) : Prop := Common s s' ∧ (checks → Private k s s')

def Guarantee (checks : Prop) (s s' : Floor) : Prop := Common s s' ∧ (¬ checks → Private k s s')

/-- What a consumer knows once it has found the slot of an order's symbol. -/
def Found (symbol : CharArray 8) (i : ℕ) (s : Floor) : Prop := s.cooldown.slotOf symbol = some i

/-- What it knows of the clock reading for an order of the symbol. -/
structure Read (symbol : CharArray 8) (i : ℕ) (now : UInt64) (s : Floor) : Prop where
  found : Found symbol i s
  le_clock : now ≤ s.clock
  last_le : symbol = k → ∀ last, s.cooldown.lastOrderTime k = some last → last ≤ now

/-- What it knows once the time is stored. -/
structure Stored (symbol : CharArray 8) (now : UInt64) (s : Floor) : Prop where
  last_eq : symbol = k → s.cooldown.lastOrderTime k = some now
  times : symbol = k → ∀ t ∈ timesOf k s.pushed, t + cooldownNs.toNat ≤ now.toNat

variable {k cooldownNs} {checks : Prop}

theorem Common.refl (s : Floor) : Common s s := ⟨rfl, UInt64.le_refl _⟩

theorem guarantee_refl (s : Floor) : Guarantee k checks s s :=
  ⟨Common.refl s, fun _ => ⟨rfl, rfl⟩⟩

theorem stable_found (symbol : CharArray 8) (i : ℕ) :
    Stable (Paced k cooldownNs) (Rely k checks) (Found symbol i) := by
  intro s s' _ _ hrely hfound
  exact (OrderCooldown.slotOf_of_layout hrely.1.layout symbol).trans hfound

theorem stable_read {symbol : CharArray 8} (hchecks : symbol = k → checks) (i : ℕ) (now : UInt64) :
    Stable (Paced k cooldownNs) (Rely k checks) (Read k symbol i now) := by
  intro s s' hI hI' hrely hread
  refine ⟨stable_found symbol i s s' hI hI' hrely hread.found,
    UInt64.le_trans hread.le_clock hrely.1.clock, fun hsym last hlast => ?_⟩
  rw [(hrely.2 (hchecks hsym)).last] at hlast
  exact hread.last_le hsym last hlast

theorem stable_stored {symbol : CharArray 8} (hchecks : symbol = k → checks) (now : UInt64) :
    Stable (Paced k cooldownNs) (Rely k checks) (Stored k cooldownNs symbol now) := by
  intro s s' _ _ hrely hstored
  refine ⟨fun hsym => ?_, fun hsym => ?_⟩
  · rw [(hrely.2 (hchecks hsym)).last]
    exact hstored.last_eq hsym
  · rw [(hrely.2 (hchecks hsym)).times]
    exact hstored.times hsym

/-- The store of a reading that is late enough. -/
theorem Paced.storeTime {symbol : CharArray 8} (hchecks : symbol = k → checks) {i : ℕ}
    {now : UInt64} {s : Floor} (h : Paced k cooldownNs s) (hread : Read k symbol i now s)
    (hlate : symbol = k → ∀ last, s.cooldown.lastOrderTime k = some last →
      cooldownNs ≤ now - last) :
    Paced k cooldownNs (s.storeTime i now) ∧ Guarantee k checks s (s.storeTime i now) ∧
      Stored k cooldownNs symbol now (s.storeTime i now) := by
  have hlast : (s.storeTime i now).cooldown.lastOrderTime k =
      if k = symbol then some now else s.cooldown.lastOrderTime k :=
    OrderCooldown.lastOrderTime_storeTime hread.found now k
  have hlayout : (s.storeTime i now).cooldown.layout = s.cooldown.layout :=
    s.cooldown.layout_storeTime i now
  by_cases hsym : symbol = k
  · subst hsym
    rw [if_pos rfl] at hlast
    -- the orders so far are not after the old time, and the new one is late enough after it
    have hold : ∃ last, s.cooldown.lastOrderTime symbol = some last :=
      ⟨_, OrderCooldown.lastOrderTime_of_slotOf hread.found⟩
    obtain ⟨last, hold⟩ := hold
    have hgap := (OrderCooldown.le_sub_iff_of_le (hread.last_le rfl last hold)).1
      (hlate rfl last hold)
    have htimes : ∀ t ∈ timesOf symbol s.pushed, t + cooldownNs.toNat ≤ now.toNat := by
      intro t ht
      have := h.le_last t ht last hold
      omega
    refine ⟨⟨h.cooldown, h.spaced, fun t ht last' hlast' => ?_, fun last' hlast' => ?_⟩,
      ⟨⟨hlayout, UInt64.le_refl _⟩, fun hnot => absurd (hchecks rfl) hnot⟩, fun _ => hlast,
      fun _ => htimes⟩
    · obtain rfl := Option.some_inj.1 (hlast.symm.trans hlast')
      exact le_trans (Nat.le_add_right _ _) (htimes t ht)
    · obtain rfl := Option.some_inj.1 (hlast.symm.trans hlast')
      exact hread.le_clock
  · rw [if_neg (Ne.symm hsym)] at hlast
    refine ⟨⟨h.cooldown, h.spaced, fun t ht last' hlast' => ?_, fun last' hlast' => ?_⟩,
      ⟨⟨hlayout, UInt64.le_refl _⟩, fun _ => ⟨hlast, rfl⟩⟩, fun h' => absurd h' hsym,
      fun h' => absurd h' hsym⟩
    · exact h.le_last t ht last' (hlast.symm.trans hlast')
    · exact h.last_le last' (hlast.symm.trans hlast')

theorem timesOf_concat (pushed : List (UInt64 × Order)) (now : UInt64) (order : Order) :
    timesOf k (pushed ++ [(now, order)]) =
      timesOf k pushed ++ if order.symbol = k then [now.toNat] else [] := by
  by_cases hsym : order.symbol = k
  · simp [timesOf, hsym]
  · simp [timesOf, hsym]

/-- The push of an order whose time is stored. -/
theorem Paced.push {order : Order} (hchecks : order.symbol = k → checks) {now : UInt64} {s : Floor}
    (h : Paced k cooldownNs s) (hstored : Stored k cooldownNs order.symbol now s) :
    Paced k cooldownNs (s.push now order) ∧ Guarantee k checks s (s.push now order) := by
  have htimes := timesOf_concat (k := k) s.pushed now order
  by_cases hsym : order.symbol = k
  · rw [if_pos hsym] at htimes
    refine ⟨⟨h.cooldown, ?_, fun t ht last hlast => ?_, h.last_le⟩, ⟨⟨rfl, UInt64.le_refl _⟩,
      fun hnot => absurd (hchecks hsym) hnot⟩⟩
    · rw [Floor.push, htimes]
      exact h.spaced.concat (hstored.times hsym)
    · rw [Floor.push, htimes] at ht
      rcases List.mem_append.1 ht with ht | ht
      · exact h.le_last t ht last hlast
      · obtain rfl := List.mem_singleton.1 ht
        obtain rfl := Option.some_inj.1 ((hstored.last_eq hsym).symm.trans hlast)
        exact le_refl _
  · rw [if_neg hsym, List.append_nil] at htimes
    refine ⟨⟨h.cooldown, ?_, fun t ht => ?_, h.last_le⟩,
      ⟨⟨rfl, UInt64.le_refl _⟩, fun _ => ⟨rfl, htimes⟩⟩⟩
    · rw [Floor.push, htimes]
      exact h.spaced
    · rw [Floor.push, htimes] at ht
      exact h.le_last t ht

/-- A read of what does not matter for the symbol. -/
theorem outline_load {K : Floor → Prop} {next : Floor → Script Floor}
    (hstable : Stable (Paced k cooldownNs) (Rely k checks) K)
    (h : ∀ s, Outline (Paced k cooldownNs) (Rely k checks) (Guarantee k checks) K (next s)
      fun _ => True) :
    Outline (Paced k cooldownNs) (Rely k checks) (Guarantee k checks) K (Script.load next)
      fun _ => True :=
  .load (fun s _ => guarantee_refl s) (fun _ => K) (fun _ _ _ => hstable) (fun _ _ hs => hs)
    fun s _ _ => h s

/-- The outline of `checkAndUpdate`: it passes with a reading whose time is stored. -/
theorem outline_checkAndUpdateScript {symbol : CharArray 8} (hchecks : symbol = k → checks)
    {pass : UInt64 → Script Floor}
    (hpass : ∀ now, Outline (Paced k cooldownNs) (Rely k checks) (Guarantee k checks)
      (Stored k cooldownNs symbol now) (pass now) fun _ => True) :
    Outline (Paced k cooldownNs) (Rely k checks) (Guarantee k checks) (fun _ => True)
      (checkAndUpdateScript symbol .done pass) fun _ => True := by
  have hdone : ∀ K : Floor → Prop, Outline (Paced k cooldownNs) (Rely k checks)
      (Guarantee k checks) K .done fun _ => True := fun K => .done fun _ _ _ => trivial
  refine .load (fun s _ => guarantee_refl s)
    (fun s₀ s => ∀ i, s₀.cooldown.slotOf symbol = some i → Found symbol i s) ?_ ?_ ?_
  · intro s₀ _ _ s s' hI hI' hrely h i hi
    exact stable_found symbol i s s' hI hI' hrely (h i hi)
  · exact fun s₀ _ _ i hi => hi
  · intro s₀ _ _
    cases hslot : s₀.cooldown.slotOf symbol with
    | none => exact hdone _
    | some i =>
        -- the clock
        refine .load (fun s _ => guarantee_refl s) (fun s₁ => Read k symbol i s₁.clock) ?_ ?_ ?_
        · exact fun s₁ _ _ => stable_read hchecks i s₁.clock
        · exact fun s₁ hI hfound =>
            ⟨hfound i rfl, UInt64.le_refl _, fun _ last hlast => hI.last_le last hlast⟩
        · intro s₁ _ _
          -- the stored time, which for the symbol nobody else writes
          refine .load (fun s _ => guarantee_refl s)
            (fun s₂ s => Read k symbol i s₁.clock s ∧
              (symbol = k → s.cooldown.lastOrderTime k = some (s₂.cooldown.loadTime i))) ?_ ?_ ?_
          · intro s₂ _ _ s s' hI hI' hrely hs
            refine ⟨stable_read hchecks i s₁.clock s s' hI hI' hrely hs.1, fun hsym => ?_⟩
            rw [(hrely.2 (hchecks hsym)).last]
            exact hs.2 hsym
          · intro s₂ _ hread
            refine ⟨hread, fun hsym => ?_⟩
            rw [← hsym]
            exact OrderCooldown.lastOrderTime_of_slotOf hread.found
          · intro s₂ hI₂ _
            by_cases hsoon : s₁.clock - s₂.cooldown.loadTime i < s₂.cooldown.cooldownNs
            · simp only [hsoon, if_true]
              exact hdone _
            · simp only [hsoon, if_false]
              have hstore : ∀ s, Paced k cooldownNs s → (Read k symbol i s₁.clock s ∧
                  (symbol = k → s.cooldown.lastOrderTime k = some (s₂.cooldown.loadTime i))) →
                  Paced k cooldownNs (s.storeTime i s₁.clock) ∧
                    Guarantee k checks s (s.storeTime i s₁.clock) ∧
                    Stored k cooldownNs symbol s₁.clock (s.storeTime i s₁.clock) := by
                intro s hI hs
                refine hI.storeTime hchecks hs.1 fun hsym last hlast => ?_
                obtain rfl := Option.some_inj.1 ((hs.2 hsym).symm.trans hlast)
                rw [← hI₂.cooldown]
                exact UInt64.not_lt.1 hsoon
              exact .update (fun s hI hs => ⟨(hstore s hI hs).1, (hstore s hI hs).2.1⟩)
                (Stored k cooldownNs symbol s₁.clock) (stable_stored hchecks s₁.clock)
                (fun s hI hs => (hstore s hI hs).2.2) (hpass s₁.clock)

/-- The outline of a round: a consumer that makes orders of the symbol is one that checks it. -/
theorem outline_roundScript (rm : RiskManager) {strategy : SimpleMarketMakingStrategy}
    {event : MarketEvent} (hchecks : event.symbol = k → checks) :
    Outline (Paced k cooldownNs) (Rely k checks) (Guarantee k checks) (fun _ => True)
      (roundScript rm strategy event) fun _ => True := by
  unfold roundScript
  cases horder : (strategy.onMarketEvent event).2 with
  | none => exact .done fun _ _ _ => trivial
  | some order =>
      have hsymbol : order.symbol = event.symbol :=
        (SimpleMarketMakingStrategy.onMarketEvent_some horder).2.2.1
      have hchecks' : order.symbol = k → checks := fun h => hchecks (hsymbol.symm.trans h)
      refine outline_checkAndUpdateScript hchecks' fun now => ?_
      have hstable : Stable (Paced k cooldownNs) (Rely k checks)
          (Stored k cooldownNs order.symbol now) := stable_stored hchecks' now
      by_cases hq : rm.quantityOk order
      · simp only [hq, if_true]
        refine outline_load hstable fun s₁ => outline_load hstable fun s₂ => ?_
        split
        · refine .update (fun s hI _ => ⟨⟨hI.cooldown, hI.spaced, hI.le_last, hI.last_le⟩,
            ⟨⟨rfl, UInt64.le_refl _⟩, fun _ => ⟨rfl, rfl⟩⟩⟩) _ hstable
            (fun s _ hs => ⟨hs.last_eq, hs.times⟩) (outline_load hstable fun s₃ => ?_)
          refine .update (fun s hI hs => ?_) (fun _ => True) (fun _ _ _ _ _ _ => trivial)
            (fun _ _ _ => trivial) (.done fun _ _ _ => trivial)
          refine hI.push ?_ ?_
          · exact hchecks'
          · exact ⟨hs.last_eq, hs.times⟩
        · exact .done fun _ _ _ => trivial
      · simp only [hq, if_false]
        exact .done fun _ _ _ => trivial

/-- **The outline of a consumer.** -/
theorem outline_consumerScript (rm : RiskManager) (strategy : SimpleMarketMakingStrategy)
    {messages : List ZmqMessage}
    (hchecks : ∀ message ∈ messages, message.payload.symbol = k → checks) :
    Outline (Paced k cooldownNs) (Rely k checks) (Guarantee k checks) (fun _ => True)
      (consumerScript rm strategy messages) fun _ => True := by
  induction messages generalizing strategy with
  | nil => exact .done fun _ _ _ => trivial
  | cons message messages ih =>
      refine .andThen (outline_roundScript rm (hchecks message List.mem_cons_self)) (ih _ ?_)
      exact fun message' h => hchecks message' (List.mem_cons_of_mem message h)

/-- The other threads do not check, and the clock only moves on. -/
theorem outline_job (job : Job) :
    Outline (Paced k cooldownNs) (Rely k checks) (Guarantee k checks) (fun _ => True)
      job.script fun _ => True := by
  cases job with
  | fill f =>
      exact .update (fun s hI _ => ⟨⟨hI.cooldown, hI.spaced, hI.le_last, hI.last_le⟩,
        ⟨⟨rfl, UInt64.le_refl _⟩, fun _ => ⟨rfl, rfl⟩⟩⟩) (fun _ => True)
        (fun _ _ _ _ _ _ => trivial) (fun _ _ _ => trivial) (.done fun _ _ _ => trivial)
  | cancelled order =>
      exact .update (fun s hI _ => ⟨⟨hI.cooldown, hI.spaced, hI.le_last, hI.last_le⟩,
        ⟨⟨rfl, UInt64.le_refl _⟩, fun _ => ⟨rfl, rfl⟩⟩⟩) (fun _ => True)
        (fun _ _ _ _ _ _ => trivial) (fun _ _ _ => trivial) (.done fun _ _ _ => trivial)
  | advance reading =>
      refine .update (fun s hI _ => ?_) (fun _ => True) (fun _ _ _ _ _ _ => trivial)
        (fun _ _ _ => trivial) (.done fun _ _ _ => trivial)
      by_cases hlater : s.clock ≤ reading
      · simp only [hlater, if_true]
        refine ⟨⟨hI.cooldown, hI.spaced, hI.le_last, fun last hlast => ?_⟩, ⟨rfl, hlater⟩,
          fun _ => ⟨rfl, rfl⟩⟩
        exact UInt64.le_trans (hI.last_le last hlast) hlater
      · simp only [hlater, if_false]
        exact ⟨hI, guarantee_refl s⟩

end Pace

/-! ### The engine -/

/-- A message as it is published: the topic and the event are of the same symbol. -/
def ZmqMessage.Published (message : ZmqMessage) : Prop :=
  ∃ event symbol, message = ZmqMarketEventSink.publish event symbol ∧
    event.symbol = CharArray.ofBytes 8 symbol

/-- A prefix without a NUL of what is stored is a prefix of the symbol. -/
theorem prefix_of_ofBytes_eq {t symbol s : List UInt8} (ht : (0 : UInt8) ∉ t)
    (heq : CharArray.ofBytes 8 symbol = CharArray.ofBytes 8 s) (hpre : t <+: symbol.take 8) :
    t <+: s.take 8 := by
  have hbytes : t <+: (CharArray.ofBytes 8 s).bytes := by
    rw [← heq, CharArray.bytes_ofBytes]
    exact hpre.trans (List.prefix_append _ _)
  rw [CharArray.bytes_ofBytes] at hbytes
  rcases List.prefix_or_prefix_of_prefix hbytes (List.prefix_append _ _) with h | ⟨u, rfl⟩
  · exact h
  · -- what goes beyond the symbol would be a NUL
    have hu := (List.prefix_append_right_inj _).1 hbytes
    cases u with
    | nil => simp
    | cons b u =>
        have hb : b = 0 := List.eq_of_mem_replicate (hu.subset List.mem_cons_self)
        exact absurd (by simp [hb]) ht

/-- Who receives an event of a symbol that no other configured one is a prefix of. -/
theorem symbol_of_receives {config : AppConfig}
    (hnul : ∀ s ∈ config.trading.symbols, (0 : UInt8) ∉ s)
    {consumers : List MarketEventConsumer} (hlaunch : launchConsumers config = .ok consumers)
    {symbol : List UInt8}
    (hone : ∀ s ∈ config.trading.symbols, s <+: symbol.take 8 → s = symbol.take 8)
    {i : Fin consumers.length} {message : ZmqMessage} (hpublished : message.Published)
    (hreceives : (consumers.get i).receives message = true)
    (hsymbol : message.payload.symbol = CharArray.ofBytes 8 symbol) :
    config.trading.symbols[i.val]? = some (symbol.take 8) := by
  obtain ⟨event, topic, rfl, hevent⟩ := hpublished
  have hlength := length_le_of_mapM_create hlaunch
  obtain ⟨s, hs, hpre⟩ := (receives_iff hlength hlaunch i.val event topic).1
    ⟨consumers.get i, by simp, hreceives⟩
  have hmem := List.mem_of_getElem? hs
  have heq : CharArray.ofBytes 8 topic = CharArray.ofBytes 8 symbol := hevent.symm.trans hsymbol
  rw [hs, hone s hmem (prefix_of_ofBytes_eq (hnul s hmem) heq hpre)]

variable {ι : Type*} [DecidableEq ι]

/-- The threads of an engine whose consumers are started, with the messages that each of them
will receive. -/
def tradingFloor (config : AppConfig) (rm : RiskManager) (consumers : List MarketEventConsumer)
    (clock : UInt64) (messages : Fin consumers.length → List ZmqMessage) (jobs : ι → List Job) :
    Interleaving.State (Fin consumers.length ⊕ ι) Floor where
  shared :=
    { clock := clock
      cooldown := registeredCooldown config
      positions := registeredPositions config }
  threads
    | .inl i => consumerScript rm (consumers.get i).strategy (messages i)
    | .inr j => Script.sequence Job.script (jobs j)

/-- A new cooldown has no times but zero. -/
theorem lastOrderTime_registeredCooldown {config : AppConfig} {symbol : CharArray 8} {last : UInt64}
    (h : (registeredCooldown config).lastOrderTime symbol = some last) : last = 0 := by
  have hslots := RiskState.foldl_registerSymbol_slots config.trading.symbols
    { cooldownNs := config.trading.orderCooldownNs } (Nat.zero_le _)
  rw [registeredCooldown, OrderCooldown.lastOrderTime, hslots] at h
  simp only [OrderCooldown.timeIn, Option.map_eq_some_iff] at h
  obtain ⟨slot, hslot, rfl⟩ := h
  have hmem := List.mem_of_find?_eq_some hslot
  simp only [List.nil_append, List.mem_map] at hmem
  obtain ⟨s, -, rfl⟩ := hmem
  rfl

/-- **The orders of a symbol keep the cooldown's distance**, in every state that any interleaving of
the consumers, the other threads and the clock leads to: for a validated configuration whose symbols
have no NULs in them, and a symbol that no other configured one is a prefix of, any two orders of
the symbol in the queue have passed the check at readings of the clock that are at least the
cooldown apart, and so at most one order, and one more for every whole cooldown in it, has passed in
any window. -/
theorem orders_are_paced (config : AppConfig) (hvalid : validateConfig config = .ok ())
    (hnul : ∀ s ∈ config.trading.symbols, (0 : UInt8) ∉ s) (consumers : List MarketEventConsumer)
    (hlaunch : launchConsumers config = .ok consumers) (rm : RiskManager) (clock : UInt64)
    (messages : Fin consumers.length → List ZmqMessage) (jobs : ι → List Job)
    (hdelivered : ∀ i, ∀ message ∈ messages i,
      message.Published ∧ (consumers.get i).receives message = true)
    (symbol : List UInt8)
    (hone : ∀ s ∈ config.trading.symbols, s <+: symbol.take 8 → s = symbol.take 8)
    (is : List (Fin consumers.length ⊕ ι))
    (t : Interleaving.State (Fin consumers.length ⊕ ι) Floor)
    (hrun : Runs.exec Interleaving.step (tradingFloor config rm consumers clock messages jobs) is =
      some t) :
    let times := timesOf (CharArray.ofBytes 8 symbol) t.shared.pushed
    let cooldown := config.trading.orderCooldownNs.toNat
    Spaced cooldown times ∧
      (0 < cooldown → ∀ start width,
        (times.filter fun x => start ≤ x ∧ x ≤ start + width).length ≤ width / cooldown + 1) := by
  intro times cooldown
  have hnodup := ((validateConfig_ok_iff config).1 hvalid).2.2.2.2
  let k := CharArray.ofBytes 8 symbol
  -- the one thread that checks the symbol
  let checks : Fin consumers.length ⊕ ι → Prop :=
    Sum.elim (fun i => ∃ message ∈ messages i, message.payload.symbol = k) fun _ => False
  have hunique : ∀ i j, i ≠ j → checks j → ¬ checks i := by
    intro i j hij hj hi
    cases i with
    | inr i => exact hi
    | inl i =>
        cases j with
        | inr j => exact hj
        | inl j =>
            obtain ⟨mi, hmi, hsi⟩ := hi
            obtain ⟨mj, hmj, hsj⟩ := hj
            have hi' := symbol_of_receives hnul hlaunch hone (hdelivered i mi hmi).1
              (hdelivered i mi hmi).2 hsi
            have hj' := symbol_of_receives hnul hlaunch hone (hdelivered j mj hmj).1
              (hdelivered j mj hmj).2 hsj
            obtain ⟨hlt, -⟩ := List.getElem?_eq_some_iff.1 hi'
            have hval := (List.getElem?_inj hlt hnodup).1 (hi'.trans hj'.symm)
            exact hij (congrArg Sum.inl (Fin.ext hval))
  have hcompat : ∀ i j, i ≠ j → ∀ s s', Guarantee k (checks i) s s' → Rely k (checks j) s s' :=
    fun i j hij s s' h => ⟨h.1, fun hj => h.2 (hunique i j hij hj)⟩
  have hinit : Interleaving.Outlined (Paced k config.trading.orderCooldownNs)
      (fun i => Rely k (checks i)) (fun i => Guarantee k (checks i)) (fun _ _ => True)
      (tradingFloor config rm consumers clock messages jobs) := by
    refine ⟨⟨?_, Spacing.spaced_nil, fun x hx => ?_, fun last hlast => ?_⟩, fun i => ?_⟩
    · exact OrderCooldown.registered_cooldownNs config.trading.symbols _
    · exact absurd hx List.not_mem_nil
    · rw [lastOrderTime_registeredCooldown hlast]
      exact UInt64.zero_le
    · refine ⟨fun _ => True, fun _ _ _ _ _ _ => trivial, trivial, ?_⟩
      cases i with
      | inl i =>
          exact outline_consumerScript rm _ fun message hmem hsym => ⟨message, hmem, hsym⟩
      | inr j => exact .sequence fun job _ => outline_job job
  obtain ⟨hinv, -⟩ := Interleaving.invariant_of_outlines hcompat hinit hrun
  exact ⟨hinv.spaced, fun hpos start width => hinv.spaced.length_filter_le hpos start width⟩

/-- A trade of `AAPL` as it is published. -/
def aaplTrade : ZmqMessage :=
  ZmqMarketEventSink.publish ⟨2, CharArray.ofBytes 8 [65, 65, 80, 76], 0, 1000000, 1, 0, 0, 0⟩
    [65, 65, 80, 76]

/-- Three trades of `AAPL` while the clock goes from one second to 1.05 and to 1.2: the second comes
too soon after the first. -/
theorem orders_are_paced_for_three_trades :
    let config : AppConfig := { trading := { symbols := [[65, 65, 80, 76], [77, 83, 70, 84]] } }
    let consumers : List MarketEventConsumer :=
      config.trading.symbols.map fun s => { strategy := {}, subscription := s }
    let start : Interleaving.State (Fin 2 ⊕ Unit) Floor :=
      tradingFloor config {} consumers 1000000000
        (fun i => if i.val = 0 then [aaplTrade, aaplTrade, aaplTrade] else [])
      fun _ => [.advance 1050000000, .advance 1200000000]
    let is : List (Fin 2 ⊕ Unit) := List.replicate 9 (.inl 0) ++ [.inr ()] ++
      List.replicate 3 (.inl 0) ++ [.inr ()] ++ List.replicate 9 (.inl 0)
    ∃ t, Runs.exec Interleaving.step start is = some t ∧
      timesOf (CharArray.ofBytes 8 [65, 65, 80, 76]) t.shared.pushed = [1000000000, 1200000000] ∧
      Spaced 100000000 (timesOf (CharArray.ofBytes 8 [65, 65, 80, 76]) t.shared.pushed) := by
  intro config consumers start is
  have hrun : (Runs.exec Interleaving.step start is).any (fun t =>
      timesOf (CharArray.ofBytes 8 [65, 65, 80, 76]) t.shared.pushed = [1000000000, 1200000000]) =
        true := by
    decide +kernel
  obtain ⟨t, ht, htimes⟩ := (Option.any_eq_true _ _).1 hrun
  have hvalid : validateConfig config = .ok () :=
    (validateConfig_ok_iff config).2 (by decide +kernel)
  have hdelivered : ∀ i : Fin consumers.length,
      ∀ message ∈ (if i.val = 0 then [aaplTrade, aaplTrade, aaplTrade] else []),
        message.Published ∧ (consumers.get i).receives message = true := by
    intro i message hmem
    by_cases hi : i.val = 0
    · obtain rfl : i = ⟨0, by decide⟩ := Fin.ext hi
      obtain rfl : message = aaplTrade := by simpa using hmem
      exact ⟨⟨_, _, rfl, rfl⟩, by decide +kernel⟩
    · simp [hi] at hmem
  refine ⟨t, ht, of_decide_eq_true htimes, ?_⟩
  exact (orders_are_paced config hvalid (by decide) consumers rfl {} 1000000000 _ _ hdelivered
    [65, 65, 80, 76] (by decide +kernel) is t ht).1

/-- With `A` configured as well, two consumers check `AAPL`.  Both find the time of the last order
before either stores its own, and two orders pass at the same reading of the clock. -/
theorem orders_not_paced_with_two_consumers :
    let config : AppConfig := { trading := { symbols := [[65], [65, 65, 80, 76]] } }
    let consumers : List MarketEventConsumer :=
      config.trading.symbols.map fun s => { strategy := {}, subscription := s }
    let start : Interleaving.State (Fin 2 ⊕ Empty) Floor :=
      tradingFloor config {} consumers 1000000000
        (fun _ => [aaplTrade]) fun j => j.elim
    let is : List (Fin 2 ⊕ Empty) :=
      List.replicate 3 (.inl 0) ++ List.replicate 9 (.inl 1) ++ List.replicate 6 (.inl 0)
    launchConsumers config = .ok consumers ∧ (∀ i, (consumers.get i).receives aaplTrade = true) ∧
      ∃ t, Runs.exec Interleaving.step start is = some t ∧
        timesOf (CharArray.ofBytes 8 [65, 65, 80, 76]) t.shared.pushed =
          [1000000000, 1000000000] := by
  intro config consumers start is
  have hrun : (Runs.exec Interleaving.step start is).any (fun t =>
      timesOf (CharArray.ofBytes 8 [65, 65, 80, 76]) t.shared.pushed = [1000000000, 1000000000]) =
        true := by
    decide +kernel
  obtain ⟨t, ht, htimes⟩ := (Option.any_eq_true _ _).1 hrun
  exact ⟨rfl, by decide +kernel, t, ht, of_decide_eq_true htimes⟩

end Trading
