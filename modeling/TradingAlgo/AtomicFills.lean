/-
**The counters of a symbol while several threads call.**

The counters of an entry are atomics that `src/PositionManager.cpp` accesses one by one: a fill
loads the filled position, perhaps the cost basis, and then makes up to five updates, and the
consumers and the gateway add to the pending position in between.  This module takes the calls apart
into these accesses and lets any number of threads make them in any order.

Every update is a `fetch_add` or a `fetch_sub`, and the amounts of a fill cancel out between the
cost basis and the profit whatever it has loaded.  So what is conserved is conserved under any race,
also between two fills (`Trading.counters_conserved`).  The split between cost basis and profit is
another matter: it goes by the loaded values, and is the sequential one because one thread, the
listener, makes all fills (`Trading.counters_as_if_sequential`).

The counters are integers here and do not wrap around at 64 bits.

Main definitions:

* `Trading.CounterCall` — the calls on the counters, with what they do in one piece;
* `Trading.buyScript`, `Trading.sellScript`, `Trading.CounterCall.script` — their atomic accesses.

Main results:

* `Trading.CounterCall.run_script` — in one piece a call is its accesses without interruption;
* `Trading.counters_conserved` — what no race can change;
* `Trading.counters_as_if_sequential` — with fills from one thread, all counters are as if the calls
  had been made one after the other.
-/

import TradingAlgo.Interleaving
import TradingAlgo.PositionManager

set_option relaxedAutoImplicit false
set_option autoImplicit false

namespace Trading

open Interleaving (Script)

/-! ### The calls -/

/-- The calls that change the counters of an entry, after the lookup. -/
inductive CounterCall
  | fill (fill : Fill)
  | sent (order : Order)
  | cancelled (order : Order)
  deriving DecidableEq, Repr

namespace CounterCall

/-- A call in one piece. -/
def apply : CounterCall → Counters → Counters
  | .fill f => f.apply
  | .sent order => order.sent
  | .cancelled order => order.cancelled

/-- What a call adds to the filled position. -/
def filledBy : CounterCall → ℤ
  | .fill f => f.side.signed f.quantity
  | _ => 0

/-- What a call adds to the pending position. -/
def pendingBy : CounterCall → ℤ
  | .fill f => -f.side.signed f.quantity
  | .sent order => order.side.signed order.quantity
  | .cancelled order => -order.side.signed order.quantity

/-- The cash that a call pays or brings in, in ten-thousandths. -/
def cashBy : CounterCall → ℤ
  | .fill f => -f.side.signed (f.priceScaled * f.quantity)
  | _ => 0

end CounterCall

/-! ### Their atomic accesses -/

/-- `filled.fetch_add`. -/
def addFilled (delta : ℤ) (entry : Counters) : Counters :=
  { entry with filled := entry.filled + delta }

/-- `pending.fetch_add`. -/
def addPending (delta : ℤ) (entry : Counters) : Counters :=
  { entry with pending := entry.pending + delta }

/-- `cost_basis_total.fetch_add`. -/
def addCostBasis (delta : ℤ) (entry : Counters) : Counters :=
  { entry with costBasisTotal := entry.costBasisTotal + delta }

/-- `realized_pnl.fetch_add`. -/
def addRealizedPnl (delta : ℤ) (entry : Counters) : Counters :=
  { entry with realizedPnl := entry.realizedPnl + delta }

/-- The last two updates of a fill, the filled position first. -/
def moveScript (delta : ℤ) : Script Counters :=
  .update (addFilled delta) (.update (addPending (-delta)) .done)

/-- The accesses of `applyBuyFill`. -/
def buyScript (priceScaled qty currentFilled : ℤ) : Script Counters :=
  if currentFilled < 0 then
    let shortQty := -currentFilled
    let coverQty := min qty shortQty
    let openQty := qty - coverQty
    let opening :=
      if 0 < openQty then .update (addCostBasis (priceScaled * openQty)) (moveScript qty)
      else moveScript qty
    if 0 < coverQty then
      .load fun entry =>
        let costRemoved := (entry.costBasisTotal * coverQty).tdiv currentFilled
        let pnl := costRemoved - priceScaled * coverQty
        .update (addRealizedPnl pnl) (.update (addCostBasis costRemoved) opening)
    else opening
  else .update (addCostBasis (priceScaled * qty)) (moveScript qty)

/-- The accesses of `applySellFill`. -/
def sellScript (priceScaled qty currentFilled : ℤ) : Script Counters :=
  if 0 < currentFilled then
    let sellQty := min qty currentFilled
    let shortQty := qty - sellQty
    let opening :=
      if 0 < shortQty then .update (addCostBasis (-(priceScaled * shortQty))) (moveScript (-qty))
      else moveScript (-qty)
    if 0 < sellQty then
      .load fun entry =>
        let costRemoved := (entry.costBasisTotal * sellQty).tdiv currentFilled
        let pnl := priceScaled * sellQty - costRemoved
        .update (addRealizedPnl pnl) (.update (addCostBasis (-costRemoved)) opening)
    else opening
  else .update (addCostBasis (-(priceScaled * qty))) (moveScript (-qty))

/-- The accesses of a call.  `onFill` loads the filled position before anything else. -/
def CounterCall.script : CounterCall → Script Counters
  | .fill f =>
      .load fun entry =>
        match f.side with
        | .buy => buyScript f.priceScaled f.quantity entry.filled
        | .sell => sellScript f.priceScaled f.quantity entry.filled
  | .sent order => .update (addPending (order.side.signed order.quantity)) .done
  | .cancelled order => .update (addPending (-order.side.signed order.quantity)) .done

theorem run_buyScript (priceScaled qty currentFilled : ℤ) (entry : Counters) :
    (buyScript priceScaled qty currentFilled).run entry =
      applyBuyFill priceScaled qty currentFilled entry := by
  unfold buyScript applyBuyFill
  dsimp only
  split_ifs <;>
    simp [moveScript, addFilled, addPending, addCostBasis, addRealizedPnl, sub_eq_add_neg]

theorem run_sellScript (priceScaled qty currentFilled : ℤ) (entry : Counters) :
    (sellScript priceScaled qty currentFilled).run entry =
      applySellFill priceScaled qty currentFilled entry := by
  unfold sellScript applySellFill
  dsimp only
  split_ifs <;>
    simp [moveScript, addFilled, addPending, addCostBasis, addRealizedPnl, sub_eq_add_neg]

/-- **A call in one piece is its accesses without interruption.** -/
theorem CounterCall.run_script (call : CounterCall) (entry : Counters) :
    call.script.run entry = call.apply entry := by
  cases call with
  | fill f =>
      simp only [script, apply, Fill.apply, Script.run_load]
      cases f.side with
      | buy => exact run_buyScript ..
      | sell => exact run_sellScript ..
  | sent order => rfl
  | cancelled order => simp [script, apply, Order.cancelled, addPending, sub_eq_add_neg]

/-! ### What no race can change -/

/-- The filled and the pending position, and the profit without the cost basis. -/
def conserved (entry : Counters) : ℤ × ℤ × ℤ :=
  (entry.filled, entry.pending, entry.realizedPnl - entry.costBasisTotal)

theorem conserved_addFilled (delta : ℤ) (entry : Counters) :
    conserved (addFilled delta entry) = conserved entry + (delta, 0, 0) := by
  simp [conserved, addFilled]

theorem conserved_addPending (delta : ℤ) (entry : Counters) :
    conserved (addPending delta entry) = conserved entry + (0, delta, 0) := by
  simp [conserved, addPending]

theorem conserved_addCostBasis (delta : ℤ) (entry : Counters) :
    conserved (addCostBasis delta entry) = conserved entry + (0, 0, -delta) := by
  simp [conserved, addCostBasis]
  ring

theorem conserved_addRealizedPnl (delta : ℤ) (entry : Counters) :
    conserved (addRealizedPnl delta entry) = conserved entry + (0, 0, delta) := by
  simp [conserved, addRealizedPnl]
  ring

theorem adds_moveScript (delta : ℤ) :
    (moveScript delta).Adds conserved (delta, -delta, 0) := by
  have h := Script.Adds.update (conserved_addFilled delta)
    (Script.Adds.update (conserved_addPending (-delta)) (Script.adds_done conserved))
  simpa [moveScript] using h

/-- A change of the cost basis, and then the last two updates. -/
theorem adds_addCostBasis_moveScript (cost delta : ℤ) :
    (Script.update (addCostBasis cost) (moveScript delta)).Adds conserved
      (delta, -delta, -cost) := by
  simpa using Script.Adds.update (conserved_addCostBasis cost) (adds_moveScript delta)

/-- A leg that closes a part of the position: what it adds to the cost basis it adds to the profit
too, whatever the cost basis was when it was loaded. -/
theorem adds_closing (removed : Counters → ℤ) (cash : ℤ) {filled pending rest : ℤ}
    {opening : Script Counters} (hopening : opening.Adds conserved (filled, pending, rest)) :
    (Script.load fun entry =>
      .update (addRealizedPnl (removed entry + cash))
        (.update (addCostBasis (removed entry)) opening)).Adds conserved
      (filled, pending, cash + rest) := by
  refine Script.Adds.load fun entry => ?_
  have h := Script.Adds.update (conserved_addRealizedPnl (removed entry + cash))
    (Script.Adds.update (conserved_addCostBasis (removed entry)) hopening)
  have hsum : ((0, 0, removed entry + cash) : ℤ × ℤ × ℤ) +
      ((0, 0, -removed entry) + (filled, pending, rest)) = (filled, pending, cash + rest) := by
    simp
    ring
  rwa [hsum] at h

/-- A leg that opens a position, if there is one. -/
theorem adds_opening (delta cost : ℤ) {openQty : ℤ} (hnone : ¬ 0 < openQty → cost = 0) :
    (if 0 < openQty then Script.update (addCostBasis cost) (moveScript delta)
      else moveScript delta).Adds conserved (delta, -delta, -cost) := by
  split_ifs with hopen
  · exact adds_addCostBasis_moveScript cost delta
  · rw [hnone hopen, neg_zero]
    exact adds_moveScript delta

theorem adds_buyScript (priceScaled currentFilled : ℤ) {qty : ℤ} (hqty : 0 < qty) :
    (buyScript priceScaled qty currentFilled).Adds conserved
      (qty, -qty, -(priceScaled * qty)) := by
  unfold buyScript
  split_ifs with hshort
  · dsimp only
    set coverQty := min qty (-currentFilled) with hcoverQty
    have hcover : 0 < coverQty := lt_min hqty (by omega)
    have hopening : (if 0 < qty - coverQty then
        Script.update (addCostBasis (priceScaled * (qty - coverQty))) (moveScript qty)
        else moveScript qty).Adds conserved (qty, -qty, -(priceScaled * (qty - coverQty))) := by
      refine adds_opening qty _ fun hnone => ?_
      have hall : qty - coverQty = 0 := by omega
      rw [hall, mul_zero]
    rw [if_pos hcover]
    have hclosing := adds_closing
      (fun entry => (entry.costBasisTotal * coverQty).tdiv currentFilled)
      (-(priceScaled * coverQty)) hopening
    have hcash : -(priceScaled * coverQty) + -(priceScaled * (qty - coverQty)) =
        -(priceScaled * qty) := by ring
    rw [hcash] at hclosing
    exact hclosing
  · exact adds_addCostBasis_moveScript (priceScaled * qty) qty

theorem adds_sellScript (priceScaled currentFilled : ℤ) {qty : ℤ} (hqty : 0 < qty) :
    (sellScript priceScaled qty currentFilled).Adds conserved
      (-qty, qty, priceScaled * qty) := by
  unfold sellScript
  split_ifs with hlong
  · dsimp only
    set sellQty := min qty currentFilled with hsellQty
    have hsell : 0 < sellQty := lt_min hqty hlong
    have hopening : (if 0 < qty - sellQty then
        Script.update (addCostBasis (-(priceScaled * (qty - sellQty)))) (moveScript (-qty))
        else moveScript (-qty)).Adds conserved
          (-qty, - -qty, - -(priceScaled * (qty - sellQty))) := by
      refine adds_opening (-qty) _ fun hnone => ?_
      have hall : qty - sellQty = 0 := by omega
      rw [hall, mul_zero, neg_zero]
    rw [if_pos hsell]
    have hclosing := adds_closing
      (fun entry => -(entry.costBasisTotal * sellQty).tdiv currentFilled)
      (priceScaled * sellQty) hopening
    have hcash : priceScaled * sellQty + - -(priceScaled * (qty - sellQty)) =
        priceScaled * qty := by ring
    rw [hcash, neg_neg] at hclosing
    simpa only [sub_eq_neg_add] using hclosing
  · simpa using adds_addCostBasis_moveScript (-(priceScaled * qty)) (-qty)

namespace CounterCall

/-- The fills have positive quantities. -/
def Positive : CounterCall → Prop
  | .fill f => 0 < f.quantity
  | _ => True

instance : DecidablePred Positive
  | .fill f => inferInstanceAs (Decidable (0 < f.quantity))
  | .sent _ => isTrue trivial
  | .cancelled _ => isTrue trivial

/-- **What a call adds, whatever the other threads do meanwhile.** -/
theorem adds_script {call : CounterCall} (h : call.Positive) :
    call.script.Adds conserved (call.filledBy, call.pendingBy, call.cashBy) := by
  cases call with
  | fill f =>
      refine Script.Adds.load fun entry => ?_
      cases hside : f.side with
      | buy => simpa [filledBy, pendingBy, cashBy, hside] using adds_buyScript _ _ h
      | sell => simpa [filledBy, pendingBy, cashBy, hside] using adds_sellScript _ _ h
  | sent order =>
      simpa [filledBy, pendingBy, cashBy, script] using
        Script.Adds.update (conserved_addPending (order.side.signed order.quantity))
          (Script.adds_done conserved)
  | cancelled order =>
      simpa [filledBy, pendingBy, cashBy, script] using
        Script.Adds.update (conserved_addPending (-order.side.signed order.quantity))
          (Script.adds_done conserved)

theorem sum_amounts (calls : List CounterCall) :
    (calls.map fun c => (c.filledBy, c.pendingBy, c.cashBy)).sum =
      ((calls.map filledBy).sum, (calls.map pendingBy).sum, (calls.map cashBy).sum) := by
  induction calls with
  | nil => rfl
  | cons c calls ih => rw [List.map_cons, List.sum_cons, ih]; rfl

end CounterCall

section Threads

variable {ι : Type} [DecidableEq ι] [Fintype ι]

/-- An amount over all calls of all threads. -/
def total (amount : CounterCall → ℤ) (calls : ι → List CounterCall) : ℤ :=
  ∑ i, ((calls i).map amount).sum

/-- The threads before their first access. -/
def threadsOf (entry : Counters) (calls : ι → List CounterCall) :
    Interleaving.State ι Counters :=
  Interleaving.ofCalls CounterCall.script entry calls

/-- **What no race can change.**  Any number of threads make any calls on the counters of a symbol,
their atomic accesses interleaved in any way.  Once all calls have returned, the filled and the
pending position have moved by what the calls ask for, and the profit without the cost basis by the
cash that was paid and brought in; also when fills have raced with each other. -/
theorem counters_conserved (entry : Counters) (calls : ι → List CounterCall)
    (hpositive : ∀ i, ∀ call ∈ calls i, call.Positive) (is : List ι)
    (t : Interleaving.State ι Counters)
    (hrun : Runs.exec Interleaving.step (threadsOf entry calls) is = some t)
    (hdone : t.Quiescent) :
    t.shared.filled = entry.filled + total CounterCall.filledBy calls ∧
      t.shared.pending = entry.pending + total CounterCall.pendingBy calls ∧
      t.shared.realizedPnl - t.shared.costBasisTotal =
        entry.realizedPnl - entry.costBasisTotal + total CounterCall.cashBy calls := by
  have hadds : ∀ i, ((threadsOf entry calls).threads i).Adds conserved
      (((calls i).map CounterCall.filledBy).sum, ((calls i).map CounterCall.pendingBy).sum,
        ((calls i).map CounterCall.cashBy).sum) := by
    intro i
    rw [← CounterCall.sum_amounts]
    exact Script.Adds.sequence fun call hcall => CounterCall.adds_script (hpositive i call hcall)
  have hshared := Interleaving.shared_of_adds hadds hrun hdone
  have hfilled := congrArg Prod.fst hshared
  have hpending := congrArg (fun x => x.2.1) hshared
  have hprofit := congrArg (fun x => x.2.2) hshared
  simp only [conserved, Prod.fst_add, Prod.snd_add, Prod.fst_sum, Prod.snd_sum]
    at hfilled hpending hprofit
  exact ⟨hfilled, hpending, hprofit⟩

end Threads

/-- A purchase of ten and a sale of four race: both load the filled position before either moves
it. -/
theorem counters_conserved_of_racing_fills :
    let buy : CounterCall := .fill ⟨CharArray.ofBytes 8 [65], .buy, 10, 1⟩
    let sell : CounterCall := .fill ⟨CharArray.ofBytes 8 [65], .sell, 4, 2⟩
    ∃ t, Runs.exec Interleaving.step (threadsOf {} fun i : Fin 2 => [![buy, sell] i])
        [0, 1, 0, 1, 0, 1, 0, 1] = some t ∧
      t.shared.filled = 6 ∧ t.shared.pending = -6 ∧
      t.shared.realizedPnl - t.shared.costBasisTotal = -20000 := by
  intro buy sell
  obtain ⟨t, hrun, hdone⟩ := Interleaving.exists_quiescent
    (threadsOf {} fun i : Fin 2 => [![buy, sell] i]) [0, 1, 0, 1, 0, 1, 0, 1] (by decide +kernel)
  obtain ⟨hfilled, hpending, hprofit⟩ :=
    counters_conserved {} (fun i : Fin 2 => [![buy, sell] i]) (by decide) _ t hrun hdone
  refine ⟨t, hrun, ?_, ?_, ?_⟩
  · rw [hfilled]
    decide
  · rw [hpending]
    decide
  · rw [hprofit]
    decide +kernel

/-! ### Fills from one thread -/

/-- What only the fills change. -/
def booked (entry : Counters) : ℤ × ℤ × ℤ :=
  (entry.filled, entry.costBasisTotal, entry.realizedPnl)

theorem booked_eq_iff {entry entry' : Counters} :
    booked entry = booked entry' ↔ entry.filled = entry'.filled ∧
      entry.costBasisTotal = entry'.costBasisTotal ∧ entry.realizedPnl = entry'.realizedPnl := by
  simp [booked]

theorem booked_addPending (delta : ℤ) (entry : Counters) :
    booked (addPending delta entry) = booked entry := rfl

/-- The updates of a fill go by what the fills change. -/
theorem booked_congr {effect : Counters → Counters}
    (h : (∃ delta, effect = addFilled delta) ∨ (∃ delta, effect = addPending delta) ∨
      (∃ delta, effect = addCostBasis delta) ∨ ∃ delta, effect = addRealizedPnl delta)
    (entry entry' : Counters) (heq : booked entry = booked entry') :
    booked (effect entry) = booked (effect entry') := by
  obtain ⟨hfilled, hcost, hpnl⟩ := booked_eq_iff.1 heq
  rcases h with ⟨delta, rfl⟩ | ⟨delta, rfl⟩ | ⟨delta, rfl⟩ | ⟨delta, rfl⟩
  · simp [booked, addFilled, hfilled, hcost, hpnl]
  · exact heq
  · simp [booked, addCostBasis, hfilled, hcost, hpnl]
  · simp [booked, addRealizedPnl, hfilled, hcost, hpnl]

/-- The accesses of a fill that moves `delta`: it may load the cost basis, changes the cost basis
and the profit, and moves the quantity last. -/
inductive FillShape (delta : ℤ) : Script Counters → Prop
  | move : FillShape delta (moveScript delta)
  | costBasis (cost : ℤ) {next : Script Counters} (h : FillShape delta next) :
      FillShape delta (.update (addCostBasis cost) next)
  | realizedPnl (pnl : ℤ) {next : Script Counters} (h : FillShape delta next) :
      FillShape delta (.update (addRealizedPnl pnl) next)
  | load (next : ℤ → Script Counters) (h : ∀ cost, FillShape delta (next cost)) :
      FillShape delta (.load fun entry => next entry.costBasisTotal)

/-- The leg that opens a position, if there is one. -/
theorem fillShape_opening (delta cost openQty : ℤ) :
    FillShape delta
      (if 0 < openQty then .update (addCostBasis cost) (moveScript delta)
      else moveScript delta) := by
  split_ifs
  · exact .costBasis cost .move
  · exact .move

theorem fillShape_buyScript (priceScaled qty currentFilled : ℤ) :
    FillShape qty (buyScript priceScaled qty currentFilled) := by
  unfold buyScript
  dsimp only
  set coverQty := min qty (-currentFilled)
  have hopening :=
    fillShape_opening qty (priceScaled * (qty - coverQty)) (qty - coverQty)
  by_cases hshort : currentFilled < 0
  · rw [if_pos hshort]
    by_cases hcover : 0 < coverQty
    · rw [if_pos hcover]
      exact .load
        (fun cost =>
          .update (addRealizedPnl ((cost * coverQty).tdiv currentFilled - priceScaled * coverQty))
            (.update (addCostBasis ((cost * coverQty).tdiv currentFilled)) _))
        fun cost => .realizedPnl _ (.costBasis _ hopening)
    · rw [if_neg hcover]
      exact hopening
  · rw [if_neg hshort]
    exact .costBasis _ .move

theorem fillShape_sellScript (priceScaled qty currentFilled : ℤ) :
    FillShape (-qty) (sellScript priceScaled qty currentFilled) := by
  unfold sellScript
  dsimp only
  set sellQty := min qty currentFilled
  have hopening :=
    fillShape_opening (-qty) (-(priceScaled * (qty - sellQty))) (qty - sellQty)
  by_cases hlong : 0 < currentFilled
  · rw [if_pos hlong]
    by_cases hsell : 0 < sellQty
    · rw [if_pos hsell]
      exact .load
        (fun cost =>
          .update (addRealizedPnl (priceScaled * sellQty - (cost * sellQty).tdiv currentFilled))
            (.update (addCostBasis (-(cost * sellQty).tdiv currentFilled)) _))
        fun cost => .realizedPnl _ (.costBasis _ hopening)
    · rw [if_neg hsell]
      exact hopening
  · rw [if_neg hlong]
    exact .costBasis _ .move

/-- The updates of a fill go by what fills change. -/
theorem FillShape.follows {delta : ℤ} {p : Script Counters} (h : FillShape delta p) :
    p.Follows booked := by
  induction h with
  | move =>
      exact .update (booked_congr (.inl ⟨delta, rfl⟩))
        (.update (booked_congr (.inr (.inl ⟨-delta, rfl⟩))) trivial)
  | costBasis cost _ ih => exact .update (booked_congr (.inr (.inr (.inl ⟨cost, rfl⟩)))) ih
  | realizedPnl pnl _ ih => exact .update (booked_congr (.inr (.inr (.inr ⟨pnl, rfl⟩)))) ih
  | load next _ ih =>
      refine Script.Follows.load (fun entry entry' heq => ?_) fun entry => ih _
      rw [(booked_eq_iff.1 heq).2.1]

/-- An update of the pending position by itself. -/
theorem adds_pending_addPending (delta : ℤ) :
    (Script.update (addPending delta) .done).Adds Counters.pending delta := by
  have h : (Script.update (addPending delta) .done).Adds Counters.pending (delta + 0) :=
    .update (fun _ => rfl) (Script.adds_done _)
  rwa [add_zero] at h

/-- An update of another counter adds nothing to the pending position. -/
theorem adds_pending_update {effect : Counters → Counters}
    (heffect : ∀ entry, (effect entry).pending = entry.pending + 0) {next : Script Counters}
    {delta : ℤ} (h : next.Adds Counters.pending delta) :
    (Script.update effect next).Adds Counters.pending delta := by
  simpa using Script.Adds.update heffect h

/-- A fill takes what it moves from the pending position, whatever it has loaded. -/
theorem FillShape.adds_pending {delta : ℤ} {p : Script Counters} (h : FillShape delta p) :
    p.Adds Counters.pending (-delta) := by
  induction h with
  | move => exact adds_pending_update (fun _ => (add_zero _).symm) (adds_pending_addPending _)
  | costBasis cost _ ih => exact adds_pending_update (fun _ => (add_zero _).symm) ih
  | realizedPnl pnl _ ih => exact adds_pending_update (fun _ => (add_zero _).symm) ih
  | load next _ ih => exact .load fun entry => ih _

namespace CounterCall

/-- Whether a call is a fill. -/
def isFill : CounterCall → Bool
  | .fill _ => true
  | _ => false

/-- **A fill goes by what fills change only**, and the other calls by nothing. -/
theorem follows_script (call : CounterCall) : call.script.Follows booked := by
  cases call with
  | fill f =>
      refine Script.Follows.load (fun entry entry' heq => ?_) fun entry => ?_
      · rw [(booked_eq_iff.1 heq).1]
      · cases f.side with
        | buy => exact (fillShape_buyScript ..).follows
        | sell => exact (fillShape_sellScript ..).follows
  | sent order => exact .update (booked_congr (.inr (.inl ⟨_, rfl⟩))) trivial
  | cancelled order => exact .update (booked_congr (.inr (.inl ⟨_, rfl⟩))) trivial

/-- The other calls leave alone what fills change. -/
theorem keeps_script {call : CounterCall} (h : call.isFill = false) :
    call.script.Keeps booked := by
  cases call with
  | fill f => cases h
  | sent order => exact .update (booked_addPending _) trivial
  | cancelled order => exact .update (booked_addPending _) trivial

/-- What a call adds to the pending position, for quantities of any sign. -/
theorem adds_pending_script (call : CounterCall) :
    call.script.Adds Counters.pending call.pendingBy := by
  cases call with
  | fill f =>
      refine Script.Adds.load fun entry => ?_
      cases hside : f.side with
      | buy => simpa [pendingBy, hside] using (fillShape_buyScript ..).adds_pending
      | sell => simpa [pendingBy, hside] using (fillShape_sellScript ..).adds_pending
  | sent order => exact adds_pending_addPending _
  | cancelled order => exact adds_pending_addPending _

end CounterCall

section Threads

variable {ι : Type} [DecidableEq ι] [Fintype ι]

/-- With fills from one thread, all runs that come to their end come to the same counters. -/
theorem shared_unique {entry : Counters} {calls : ι → List CounterCall} {w : ι}
    (hfills : ∀ i ≠ w, ∀ call ∈ calls i, call.isFill = false) {is is' : List ι}
    {t t' : Interleaving.State ι Counters}
    (hrun : Runs.exec Interleaving.step (threadsOf entry calls) is = some t)
    (hdone : t.Quiescent)
    (hrun' : Runs.exec Interleaving.step (threadsOf entry calls) is' = some t')
    (hdone' : t'.Quiescent) : t.shared = t'.shared := by
  have hwriter : ((threadsOf entry calls).threads w).Follows booked :=
    Script.Follows.sequence fun call _ => call.follows_script
  have hothers : ∀ i ≠ w, ((threadsOf entry calls).threads i).Keeps booked := fun i hi =>
    Script.Keeps.sequence fun call hcall => CounterCall.keeps_script (hfills i hi call hcall)
  have hbooked : booked t.shared = booked t'.shared :=
    (Interleaving.part_of_follows hwriter hothers hrun (hdone w)).trans
      (Interleaving.part_of_follows hwriter hothers hrun' (hdone' w)).symm
  have hadds : ∀ i, ((threadsOf entry calls).threads i).Adds Counters.pending
      ((calls i).map CounterCall.pendingBy).sum := fun i =>
    Script.Adds.sequence fun call _ => call.adds_pending_script
  have hpending : t.shared.pending = t'.shared.pending :=
    (Interleaving.shared_of_adds hadds hrun hdone).trans
      (Interleaving.shared_of_adds hadds hrun' hdone').symm
  obtain ⟨hfilled, hcost, hpnl⟩ := booked_eq_iff.1 hbooked
  exact Counters.ext hfilled hpending hcost hpnl

/-- **With fills from one thread, all counters are as if the calls had been made one after the
other**, in any order that has the calls of each thread in their own order. -/
theorem counters_as_if_sequential (entry : Counters) (order : List (ι × CounterCall)) (w : ι)
    (hfills : ∀ x ∈ order, x.2.isFill = true → x.1 = w) (is : List ι)
    (t : Interleaving.State ι Counters)
    (hrun : Runs.exec Interleaving.step (threadsOf entry (Runs.entries order)) is = some t)
    (hdone : t.Quiescent) :
    t.shared = order.foldl (fun entry x => x.2.apply entry) entry := by
  have hothers : ∀ i ≠ w, ∀ call ∈ Runs.entries order i, call.isFill = false := by
    intro i hi call hcall
    obtain ⟨x, hx, rfl⟩ := List.mem_map.1 hcall
    obtain ⟨hmem, hparty⟩ := List.mem_filter.1 hx
    rw [← Bool.not_eq_true]
    intro hfill
    exact hi ((of_decide_eq_true hparty).symm.trans (hfills x hmem hfill))
  obtain ⟨is', t', hrun', hdone', hshared⟩ :=
    Interleaving.exec_of_order CounterCall.script order entry
  rw [shared_unique hothers hrun hdone hrun' hdone', hshared]
  simp only [CounterCall.run_script]

end Threads

/-- The listener books a fill while the gateway releases an order: after the interleaved run the
counters are those of the two calls in turn. -/
theorem counters_as_if_sequential_for_a_fill_and_a_release :
    let buy : CounterCall := .fill ⟨CharArray.ofBytes 8 [65], .buy, 10, 1⟩
    let release : CounterCall :=
      .cancelled { symbol := CharArray.ofBytes 8 [65], quantity := 5, side := .buy }
    let order : List (Fin 2 × CounterCall) := [(0, buy), (1, release)]
    ∃ t, Runs.exec Interleaving.step (threadsOf { pending := 15 } (Runs.entries order))
        [0, 0, 1, 0, 0] = some t ∧
      t.shared = { filled := 10, pending := 0, costBasisTotal := 100000 } := by
  intro buy release order
  obtain ⟨t, hrun, hdone⟩ := Interleaving.exists_quiescent
    (threadsOf { pending := 15 } (Runs.entries order)) [0, 0, 1, 0, 0] (by decide +kernel)
  refine ⟨t, hrun, ?_⟩
  rw [counters_as_if_sequential { pending := 15 } order 0 (by decide) _ t hrun hdone]
  decide +kernel

end Trading
