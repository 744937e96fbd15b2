/-
**The exposure check while fills arrive.**

`getTotalExposure` reads the filled and the pending position by two separate atomic loads, and
`applyBuyFill` moves a quantity from one to the other by two separate atomic updates, the filled
position first.  This module takes the calls of one symbol apart into these atomic operations: the
consumer thread checks purchases and reserves them, the listener thread books executions, and
orders are cancelled in between.

A fill that performs both of its updates after the load of the filled position and before the load
of the pending one is in neither of the two values, so the check passes although it should not
(`Trading.exposure_check_misses_fill`).  Without such a fill the exposure never exceeds the limit,
in any interleaving (`Trading.exposure_limit_holds`).

Main definitions:

* `Trading.Race.State`, `Trading.Race.step` — the two atomics, the orders, and where the two
  threads stand between their operations;
* `Trading.Race.Undisturbed` — the condition on a step;
* `Trading.Race.Inv` — the invariant: the exposure without the fill under way is within the limit,
  and what the consumer has read is not less than that exposure.

Main results:

* `Trading.Race.exec_of_step` — the atomic calls of `Trading.Limit.step` are the uninterrupted
  runs of these operations;
* `Trading.exposure_limit_holds` — the limit, in every run that meets the condition.
-/

import TradingAlgo.PositionLimit

set_option relaxedAutoImplicit false
set_option autoImplicit false

namespace Trading

namespace Race

open Limit (Progress)

variable {n : ℕ}

/-- Where the consumer stands in `onNewOrder`: the order it checks, and what it has read.  The
operands of the sum in `getTotalExposure` may be evaluated in either order. -/
inductive Consumer (n : ℕ)
  | idle
  | loadedFilled (i : Fin n) (filled : ℤ)
  | loadedPending (i : Fin n) (pending : ℤ)
  | approved (i : Fin n)
  deriving DecidableEq, Repr

/-- Where the listener stands in `applyBuyFill`: idle, or between its two updates. -/
inductive Listener
  | idle
  | added (qty : ℤ)
  deriving DecidableEq, Repr

/-- The quantity that is in the filled position and still in the pending one. -/
def Listener.underway : Listener → ℤ
  | .idle => 0
  | .added qty => qty

/-- The two atomics of the symbol's entry, the orders, and the two threads. -/
structure State (n : ℕ) where
  filled : ℤ := 0
  pending : ℤ := 0
  progress : Fin n → Progress := fun _ => .waiting
  consumer : Consumer n := .idle
  listener : Listener := .idle

/-- The atomic operations. -/
inductive Action (n : ℕ)
  /-- `entry->filled.load()` in `getTotalExposure`, for the check of an order. -/
  | loadFilled (i : Fin n)
  /-- `entry->pending.load()` in `getTotalExposure`. -/
  | loadPending (i : Fin n)
  /-- `entry->pending.fetch_add(delta)` in `onOrderSent`. -/
  | reserve
  /-- `entry.filled.fetch_add(qty)` in `applyBuyFill`, for an execution of a live order. -/
  | addFilled (i : Fin n) (qty : ℤ)
  /-- `entry.pending.fetch_sub(qty)` in `applyBuyFill`. -/
  | subPending
  /-- `entry->pending.fetch_sub(delta)` in `onOrderCancelled`, for what is left of an order. -/
  | cancel (i : Fin n)
  deriving DecidableEq, Repr

/-- The consumer after both loads: the checks of `onNewOrder` on their sum. -/
def decided (rm : RiskManager) (orders : Fin n → Order) (i : Fin n) (totalExposure : ℤ) :
    Consumer n :=
  if rm.Admits (orders i) totalExposure then .approved i else .idle

/-- The step function. -/
def step (rm : RiskManager) (orders : Fin n → Order) (s : State n) : Action n → Option (State n)
  | .loadFilled i =>
      match s.consumer with
      | .idle =>
          if s.progress i = .waiting then some { s with consumer := .loadedFilled i s.filled }
          else none
      | .loadedPending j pending =>
          if i = j then some { s with consumer := decided rm orders i (s.filled + pending) }
          else none
      | _ => none
  | .loadPending i =>
      match s.consumer with
      | .idle =>
          if s.progress i = .waiting then some { s with consumer := .loadedPending i s.pending }
          else none
      | .loadedFilled j filled =>
          -- `filled` may be older than `s.pending`
          if i = j then some { s with consumer := decided rm orders i (filled + s.pending) }
          else none
      | _ => none
  | .reserve =>
      match s.consumer with
      | .approved i =>
          some
            { s with
              pending := s.pending + (orders i).side.signed (orders i).quantity
              progress := Function.update s.progress i (.live 0)
              consumer := .idle }
      | _ => none
  | .addFilled i qty =>
      match s.listener, s.progress i with
      | .idle, .live executed =>
          if 0 < qty ∧ executed + qty ≤ (orders i).quantity then
            some
              { s with
                filled := s.filled + qty
                progress := Function.update s.progress i (.live (executed + qty))
                listener := .added qty }
          else none
      | _, _ => none
  | .subPending =>
      match s.listener with
      | .added qty => some { s with pending := s.pending - qty, listener := .idle }
      | .idle => none
  | .cancel i =>
      match s.progress i with
      | .live executed =>
          some
            { s with
              pending :=
                s.pending - (orders i).side.signed ((orders i).quantity - executed)
              progress := Function.update s.progress i .cancelled }
      | _ => none

/-- The condition on a step: a fill does not perform its second update while the consumer, about to
load the pending position, holds a filled position from before the fill's first update. -/
def Undisturbed (s : State n) : Action n → Prop
  | .subPending =>
      match s.consumer with
      | .loadedFilled _ filled => filled = s.filled
      | _ => True
  | _ => True

instance (s : State n) (a : Action n) : Decidable (Undisturbed s a) :=
  match a with
  | .subPending =>
      match h : s.consumer with
      | .loadedFilled _ filled =>
          decidable_of_iff (filled = s.filled) (by simp [Undisturbed, h])
      | .idle => isTrue (by simp [Undisturbed, h])
      | .loadedPending .. => isTrue (by simp [Undisturbed, h])
      | .approved .. => isTrue (by simp [Undisturbed, h])
  | .loadFilled .. => isTrue trivial
  | .loadPending .. => isTrue trivial
  | .reserve => isTrue trivial
  | .addFilled .. => isTrue trivial
  | .cancel .. => isTrue trivial

/-! ### The invariant -/

/-- The exposure without the fill under way: a fill in the middle is counted once. -/
def exposure (s : State n) : ℤ := s.filled + s.pending - s.listener.underway

/-- What the consumer has read is at least what it will need. -/
def Reads (rm : RiskManager) (orders : Fin n → Order) (s : State n) : Prop :=
  match s.consumer with
  | .idle => True
  | .loadedFilled _ filled => s.filled ≤ filled + s.listener.underway
  | .loadedPending _ pending => s.pending ≤ pending
  | .approved i => exposure s + (orders i).quantity ≤ rm.maxPositionPerSymbol

/-- The invariant. -/
structure Inv (rm : RiskManager) (orders : Fin n → Order) (s : State n) : Prop where
  limit : exposure s ≤ rm.maxPositionPerSymbol
  reads : Reads rm orders s
  underway : 0 ≤ s.listener.underway
  executed : ∀ i e, s.progress i = .live e → e ≤ (orders i).quantity

theorem Inv.within {rm : RiskManager} {orders : Fin n → Order} {s : State n}
    (h : Inv rm orders s) (hidle : s.listener = .idle) :
    s.filled + s.pending ≤ rm.maxPositionPerSymbol := by
  have hlimit := h.limit
  simpa [exposure, hidle, Listener.underway] using hlimit

/-- One order moves: no order is filled beyond its quantity. -/
theorem Inv.executed_update {rm : RiskManager} {orders : Fin n → Order} {s : State n}
    (h : Inv rm orders s) {i : Fin n} {x : Progress}
    (hx : ∀ e, x = .live e → e ≤ (orders i).quantity) (j : Fin n) (e : ℤ)
    (hj : Function.update s.progress i x j = .live e) : e ≤ (orders j).quantity :=
  (Function.forall_update_iff _ fun j (y : Progress) =>
    ∀ e, y = .live e → e ≤ (orders j).quantity).2 ⟨hx, fun j _ => h.executed j⟩ j e hj

/-- An order that the sum admits fits in with any smaller exposure. -/
theorem reads_decided {rm : RiskManager} (hrm : rm.Valid) {orders : Fin n → Order} {i : Fin n}
    (hbuy : (orders i).side = .buy) {s : State n} {sum : ℤ} (hle : exposure s ≤ sum) :
    Reads rm orders { s with consumer := decided rm orders i sum } := by
  unfold decided
  split_ifs with hadm
  · have hlimit := (abs_le.1 (hadm.abs_le hrm)).2
    rw [hbuy, OrderSide.signed_buy] at hlimit
    show exposure s + (orders i).quantity ≤ rm.maxPositionPerSymbol
    omega
  · trivial

section Steps

variable {rm : RiskManager} (hrm : rm.Valid) {orders : Fin n → Order}
  (hbuy : ∀ i, (orders i).side = .buy) (hq : ∀ i, 0 < (orders i).quantity)

include hrm in
theorem inv_init : Inv rm orders ({} : State n) where
  limit := by simpa [exposure, Listener.underway] using hrm.position_pos.le
  reads := trivial
  underway := le_rfl
  executed := by
    intro i e hi
    cases hi

include hrm hbuy in
/-- The loads: the first one reads the atomic itself, the second one completes a sum that is not
less than the exposure. -/
theorem Inv.load {s t : State n} (h : Inv rm orders s) {i : Fin n}
    (hstep : Race.step rm orders s (.loadFilled i) = some t ∨
      Race.step rm orders s (.loadPending i) = some t) : Inv rm orders t := by
  have hreads := h.reads
  have hunderway := h.underway
  suffices hcase : ∃ c, t = { s with consumer := c } ∧ Reads rm orders { s with consumer := c } by
    obtain ⟨c, rfl, hc⟩ := hcase
    exact ⟨h.limit, hc, h.underway, h.executed⟩
  rcases hstep with hstep | hstep
  · cases hcons : s.consumer with
    | idle =>
        simp only [Race.step, hcons, Option.ite_none_right_eq_some, Option.some_inj] at hstep
        refine ⟨_, hstep.2.symm, ?_⟩
        simpa [Reads] using hunderway
    | loadedPending j pending =>
        simp only [Race.step, hcons, Option.ite_none_right_eq_some, Option.some_inj] at hstep
        refine ⟨_, hstep.2.symm, reads_decided hrm (hbuy i) ?_⟩
        simp only [Reads, hcons] at hreads
        unfold exposure
        omega
    | _ => simp [Race.step, hcons] at hstep
  · cases hcons : s.consumer with
    | idle =>
        simp only [Race.step, hcons, Option.ite_none_right_eq_some, Option.some_inj] at hstep
        exact ⟨_, hstep.2.symm, le_rfl⟩
    | loadedFilled j filled =>
        simp only [Race.step, hcons, Option.ite_none_right_eq_some, Option.some_inj] at hstep
        refine ⟨_, hstep.2.symm, reads_decided hrm (hbuy i) ?_⟩
        simp only [Reads, hcons] at hreads
        unfold exposure
        omega
    | _ => simp [Race.step, hcons] at hstep

include hbuy hq in
/-- The reservation uses up the room that the check left. -/
theorem Inv.reserve {s t : State n} (h : Inv rm orders s)
    (hstep : Race.step rm orders s .reserve = some t) : Inv rm orders t := by
  have hreads := h.reads
  cases hcons : s.consumer with
  | approved i =>
      simp only [Race.step, hcons, Option.some_inj] at hstep
      subst hstep
      simp only [Reads, hcons] at hreads
      refine ⟨?_, trivial, h.underway, ?_⟩
      · simp only [exposure, hbuy i, OrderSide.signed_buy] at hreads ⊢
        omega
      · refine h.executed_update ?_
        rintro e ⟨⟩
        exact (hq i).le
  | _ => simp [Race.step, hcons] at hstep

/-- The first update of a fill leaves the exposure as it was. -/
theorem Inv.addFilled {s t : State n} (h : Inv rm orders s) {i : Fin n} {qty : ℤ}
    (hstep : Race.step rm orders s (.addFilled i qty) = some t) : Inv rm orders t := by
  have hreads := h.reads
  have hlimit := h.limit
  cases hl : s.listener with
  | added qty' => simp [Race.step, hl] at hstep
  | idle =>
      cases hp : s.progress i with
      | live e =>
          simp only [Race.step, hl, hp, Option.ite_none_right_eq_some, Option.some_inj] at hstep
          obtain ⟨⟨hpos, hle⟩, rfl⟩ := hstep
          simp only [exposure, hl, Listener.underway] at hlimit
          refine ⟨?_, ?_, hpos.le, ?_⟩
          · simp only [exposure, Listener.underway]
            omega
          · -- a filled position read before is short of just what is under way now
            cases hcons : s.consumer <;>
              simp only [Reads, hcons, exposure, hl, Listener.underway] at hreads ⊢ <;> omega
          · refine h.executed_update ?_
            rintro e' ⟨⟩
            exact hle
      | _ => simp [Race.step, hl, hp] at hstep

/-- So does the second; a consumer that is between its loads has read the filled position with the
fill in it. -/
theorem Inv.subPending {s t : State n} (h : Inv rm orders s) (hok : Undisturbed s .subPending)
    (hstep : Race.step rm orders s .subPending = some t) : Inv rm orders t := by
  have hreads := h.reads
  have hlimit := h.limit
  have hunderway := h.underway
  cases hl : s.listener with
  | idle => simp [Race.step, hl] at hstep
  | added qty =>
      simp only [Race.step, hl, Option.some_inj] at hstep
      subst hstep
      simp only [exposure, hl, Listener.underway] at hlimit hunderway
      refine ⟨?_, ?_, le_rfl, h.executed⟩
      · simp only [exposure, Listener.underway]
        omega
      · -- the condition is needed here: nothing is under way any more
        cases hcons : s.consumer <;>
          simp only [Reads, Undisturbed, hcons, exposure, hl, Listener.underway] at hreads hok ⊢ <;>
          omega

include hbuy in
/-- A cancellation only lowers the exposure. -/
theorem Inv.cancel {s t : State n} (h : Inv rm orders s) {i : Fin n}
    (hstep : Race.step rm orders s (.cancel i) = some t) : Inv rm orders t := by
  have hreads := h.reads
  have hlimit := h.limit
  cases hp : s.progress i with
  | live e =>
      simp only [Race.step, hp, Option.some_inj, hbuy i, OrderSide.signed_buy] at hstep
      subst hstep
      have hle := h.executed i e hp
      simp only [exposure] at hlimit
      refine ⟨?_, ?_, h.underway, ?_⟩
      · simp only [exposure]
        omega
      · cases hcons : s.consumer <;> simp only [Reads, hcons, exposure] at hreads ⊢ <;> omega
      · refine h.executed_update ?_
        rintro e' ⟨⟩
  | _ => simp [Race.step, hp] at hstep

include hrm hbuy hq in
/-- **Every step that meets the condition keeps the invariant.** -/
theorem Inv.step {s t : State n} {a : Action n} (h : Inv rm orders s) (hok : Undisturbed s a)
    (hstep : Race.step rm orders s a = some t) : Inv rm orders t := by
  cases a with
  | loadFilled i => exact h.load hrm hbuy (Or.inl hstep)
  | loadPending i => exact h.load hrm hbuy (Or.inr hstep)
  | reserve => exact h.reserve hbuy hq hstep
  | addFilled i qty => exact h.addFilled hstep
  | subPending => exact h.subPending hok hstep
  | cancel i => exact h.cancel hbuy hstep

end Steps

/-! ### The calls in one piece -/

/-- The atomics hold the counters of the symbol's entry, and both threads are between calls. -/
structure Holds (orders : Fin n → Order) (symbol : List UInt8) (s : Limit.State n) (u : State n)
    (pm : PositionManager) (b : Book) : Prop where
  accounts : Limit.Accounts orders symbol s pm b
  filled : u.filled = (b.counters (symbolToKey symbol)).filled
  pending : u.pending = (b.counters (symbolToKey symbol)).pending
  progress : u.progress = s.progress
  consumer : u.consumer = .idle
  listener : u.listener = .idle

section Calls

variable {rm : RiskManager} {orders : Fin n → Order} {symbol : List UInt8}
  (hk : symbolToKey symbol ≠ kEmptySlot) (hnul : (0 : UInt8) ∉ symbol)
  (hsym : ∀ i, (orders i).symbol = CharArray.ofBytes 8 symbol)
  (hbuy : ∀ i, (orders i).side = .buy) (hq : ∀ i, 0 < (orders i).quantity)

include hnul hsym in
/-- The sum of the two atomics is what `getTotalExposure` returns. -/
theorem Holds.getTotalExposure {s : Limit.State n} {u : State n} {pm : PositionManager} {b : Book}
    (h : Holds orders symbol s u pm b) (i : Fin n) :
    pm.getTotalExposure (orders i).symbol.view = u.filled + u.pending := by
  have hkey : symbolToKey (orders i).symbol.view = symbolToKey symbol := by
    rw [hsym i, symbolToKey_eq, CharArray.ofBytes_view_ofBytes hnul, symbolToKey_eq]
  rw [h.accounts.refines.getTotalExposure, hkey, h.filled, h.pending]

/-- The pending position after one order moved. -/
theorem Holds.pending_of_update {s t : Limit.State n} {u : State n} {pm pm' : PositionManager}
    {b b' : Book} (h : Holds orders symbol s u pm b) (hacc : Limit.Accounts orders symbol t pm' b')
    {i : Fin n} {x : Progress} (hprog : t.progress = Function.update s.progress i x)
    (hbuy : (orders i).side = .buy) :
    (b'.counters (symbolToKey symbol)).pending =
      u.pending + (x.remaining (orders i) - (s.progress i).remaining (orders i)) := by
  rw [hacc.pending, hprog, Limit.openOn_update, Limit.openOn_update, h.pending,
    h.accounts.pending, hbuy]
  simp only [if_true, reduceCtorEq, if_false]
  ring

include hk hnul hsym hbuy hq in
/-- **A call in one piece is an uninterrupted run of its atomic operations.** -/
theorem exec_of_step {s t : Limit.State n} {u : State n} {pm : PositionManager} {b : Book}
    (h : Holds orders symbol s u pm b) {a : Limit.Action n}
    (hstep : Limit.step rm orders s a = some t) :
    ∃ as v pm' b', Runs.exec (Race.step rm orders) u as = some v ∧
      Holds orders symbol t v pm' b' := by
  rcases Limit.step_cases h.accounts.positionManager hstep with
    ⟨i, now, rfl, hi, hpasses, hpm, hprog⟩ | ⟨i, now, rfl, hpm, hprog⟩ |
    ⟨i, qty, price, e, rfl, hi, hpos, hle, hpm, hprog⟩ | ⟨i, e, rfl, hi, hpm, hprog⟩
  · obtain ⟨pm', b', hacc, hfilled⟩ := h.accounts.approved hk hsym hq hi hpm hprog
    have hpending := h.pending_of_update hacc hprog (hbuy i)
    have hadm := hpasses.admits h.accounts.positionManager
    rw [h.getTotalExposure hnul hsym] at hadm
    refine ⟨[.loadFilled i, .loadPending i, .reserve],
      { u with
        pending := u.pending + (orders i).side.signed (orders i).quantity
        progress := Function.update u.progress i (.live 0)
        consumer := .idle }, pm', b', ?_, ⟨hacc, ?_, ?_, ?_, rfl, h.listener⟩⟩
    · simp [Race.step, h.consumer, h.progress, hi, decided, hadm]
    · exact h.filled.trans hfilled.symm
    · simp [hpending, hi, Progress.remaining, hbuy i]
    · simp [h.progress, hprog]
  · exact ⟨[], u, pm, b, rfl, ⟨⟨hpm, h.accounts.refines, h.accounts.mem,
      hprog ▸ h.accounts.executed, hprog ▸ h.accounts.pending⟩, h.filled,
      h.pending, h.progress.trans hprog.symm, h.consumer,
      h.listener⟩⟩
  · obtain ⟨pm', b', hacc, hfilled⟩ := h.accounts.fill hk hsym hi hpos hle hpm hprog
    have hpending := h.pending_of_update hacc hprog (hbuy i)
    refine ⟨[.addFilled i qty, .subPending],
      { u with
        filled := u.filled + qty
        pending := u.pending - qty
        progress := Function.update u.progress i (.live (e + qty))
        listener := .idle }, pm', b', ?_, ⟨hacc, ?_, ?_, ?_, h.consumer, rfl⟩⟩
    · simp [Race.step, h.listener, h.progress, hi, hpos, hle]
    · simp [hfilled, h.filled, hbuy i]
    · simp [hpending, hi, Progress.remaining]
      ring
    · simp [h.progress, hprog]
  · obtain ⟨pm', b', hacc, hfilled⟩ := h.accounts.cancel hk hsym hi hpm hprog
    have hpending := h.pending_of_update hacc hprog (hbuy i)
    refine ⟨[.cancel i],
      { u with
        pending := u.pending - (orders i).side.signed ((orders i).quantity - e)
        progress := Function.update u.progress i .cancelled },
      pm', b', ?_, ⟨hacc, ?_, ?_, ?_, h.consumer, h.listener⟩⟩
    · simp [Race.step, h.progress, hi]
    · exact h.filled.trans hfilled.symm
    · simp [hpending, hi, Progress.remaining, hbuy i]
      ring
    · simp [h.progress, hprog]

end Calls

end Race

/-- **The exposure stays within the limit while fills arrive.**  In every interleaving of the
atomic operations in which no fill performs both of its updates between the consumer's load of the
filled position and its load of the pending one, filled plus pending is within the limit whenever
no fill is between its two updates. -/
theorem exposure_limit_holds (rm : RiskManager) (hrm : rm.Valid) {n : ℕ} (orders : Fin n → Order)
    (hbuy : ∀ i, (orders i).side = .buy) (hq : ∀ i, 0 < (orders i).quantity)
    (as : List (Race.Action n)) (s : Race.State n)
    (hrun : Runs.exec (Race.step rm orders) {} as = some s)
    (hok : Runs.AllSteps (Race.step rm orders) Race.Undisturbed {} as) :
    s.listener = .idle → s.filled + s.pending ≤ rm.maxPositionPerSymbol :=
  (Runs.exec_inv_of_allSteps
    (fun _ _ _ h hoka hst => Race.Inv.step hrm hbuy hq h hoka hst) (Race.inv_init hrm)
    hok hrun).within

/-- A fill between the two loads that performs only its first update there does no harm: the second
purchase is rejected. -/
theorem exposure_limit_holds_with_fill_under_way :
    let order : Order :=
      { symbol := CharArray.ofBytes 8 [65, 65, 80, 76], quantity := 1000, side := .buy }
    let as : List (Race.Action 2) :=
      [.loadFilled 0, .loadPending 0, .reserve, .loadFilled 1, .addFilled 0 1000, .loadPending 1,
        .subPending]
    ∃ s, Runs.exec (Race.step {} fun _ => order) {} as = some s ∧ s.listener = .idle ∧
      s.filled + s.pending ≤ 1000 := by
  intro order as
  have hrun : (Runs.exec (Race.step {} fun _ => order) {} as).any
      (fun s => s.listener = .idle) = true := by
    decide +kernel
  obtain ⟨s, hs, hidle⟩ := (Option.any_eq_true _ _).1 hrun
  refine ⟨s, hs, of_decide_eq_true hidle, ?_⟩
  exact exposure_limit_holds {} ⟨by decide, by decide, by norm_num⟩ (fun _ => order)
    (fun _ => rfl) (fun _ => by decide) as s hs (by decide +kernel) (of_decide_eq_true hidle)

/-- **The check misses a fill that falls between its two loads.**  With the limit at 1000 and 1000
pending, the consumer loads the filled position, the fill moves its 1000 shares, and the consumer
loads the pending position: both values are 0, and another 1000 are approved. -/
theorem exposure_check_misses_fill :
    let order : Order :=
      { symbol := CharArray.ofBytes 8 [65, 65, 80, 76], quantity := 1000, side := .buy }
    let as : List (Race.Action 2) :=
      [.loadFilled 0, .loadPending 0, .reserve, .loadFilled 1, .addFilled 0 1000, .subPending,
        .loadPending 1, .reserve]
    ∃ s, Runs.exec (Race.step {} fun _ => order) {} as = some s ∧ s.listener = .idle ∧
      s.filled = 1000 ∧ s.pending = 1000 ∧ ¬ s.filled + s.pending ≤ 1000 := by
  intro order as
  have hrun : (Runs.exec (Race.step {} fun _ => order) {} as).any
      (fun s => s.listener = .idle ∧ s.filled = 1000 ∧ s.pending = 1000 ∧
        ¬ s.filled + s.pending ≤ 1000) = true := by
    decide +kernel
  obtain ⟨s, hs, hbad⟩ := (Option.any_eq_true _ _).1 hrun
  exact ⟨s, hs, of_decide_eq_true hbad⟩

end Trading
