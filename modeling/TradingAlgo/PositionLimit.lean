/-
**The position limit, and what it takes to hold it.**

`RiskManager::onNewOrder` compares the limit with one number, the filled position plus the *net* of
what is pending.  Purchases and sales that are open at the same time cancel out in that number, but
they are filled and cancelled one by one: once the purchases are cancelled, or the sales filled
first, the position is what the sales alone make of it.  So the limit is exceeded by orders that
were all approved (`Trading.position_limit_exceeded`).

What the check does guarantee is the limit for runs in which no approval rests on open orders of the
other side: an order that passes the checks would also pass with those left out.  Nothing is asked
of an order that the checks reject.  For such runs this module proves the limit in every reachable
state.  For any other approval there is a continuation that breaks it
(`Trading.Limit.netted_approval_breaks_limit`), so the condition is the exact one.

Main definitions:

* `Trading.Limit.State`, `Trading.Limit.step` — the life of a family of orders of one symbol:
  submitted to the risk manager, filled in parts, the rest cancelled;
* `Trading.Limit.openOn` — what is open on one side;
* `Trading.Limit.Passes` — an order passes the cooldown and the checks of the risk manager;
* `Trading.Limit.Standalone` — the condition on a submission.

Main results:

* `Trading.Limit.Inv.step` — a step that meets the condition keeps both worst cases within the
  limit;
* `Trading.position_limit_holds` — so does every run.
-/

import TradingAlgo.ProfitLoss
import TradingAlgo.RiskManager
import TradingAlgo.Runs

set_option relaxedAutoImplicit false
set_option autoImplicit false

namespace Trading

namespace Limit

/-- Where an order is: not approved yet, approved and filled in part, or cancelled. -/
inductive Progress
  | waiting
  | live (executed : ℤ)
  | cancelled
  deriving DecidableEq, Repr

/-- What is left of an order that is live. -/
def Progress.remaining (order : Order) : Progress → ℤ
  | .live executed => order.quantity - executed
  | _ => 0

/-- The components and the orders of one symbol. -/
structure State (n : ℕ) where
  risk : RiskState
  progress : Fin n → Progress

/-- One atomic step: an order is submitted, a live one is filled in part, or its rest is
cancelled. -/
inductive Action (n : ℕ)
  | submit (i : Fin n) (now : UInt64)
  | fill (i : Fin n) (qty : ℤ) (price : ℚ)
  | cancel (i : Fin n)
  deriving DecidableEq, Repr

variable {n : ℕ}

/-- The step function.  An order is sent only when `onNewOrder` approves it. -/
def step (rm : RiskManager) (orders : Fin n → Order) (s : State n) : Action n → Option (State n)
  | .submit i now =>
      if s.progress i = .waiting then
        let r := rm.onNewOrder s.risk (orders i) now
        some
          { risk := r.2
            progress := if r.1 then Function.update s.progress i (.live 0) else s.progress }
      else none
  | .fill i qty price =>
      match s.progress i with
      | .live executed =>
          if 0 < qty ∧ executed + qty ≤ (orders i).quantity then
            some
              { risk := s.risk.call rm (.fill ⟨(orders i).symbol, (orders i).side, qty, price⟩)
                progress := Function.update s.progress i (.live (executed + qty)) }
          else none
      | _ => none
  | .cancel i =>
      match s.progress i with
      | .live executed =>
          some
            { risk := s.risk.call rm
                (.cancelled { orders i with quantity := (orders i).quantity - executed })
              progress := Function.update s.progress i .cancelled }
      | _ => none

/-- One registered symbol, with any cooldown or none. -/
def init (symbol : List UInt8) (cooldown : Option OrderCooldown) : State n where
  risk := ⟨some (({} : PositionManager).registerSymbol symbol), cooldown⟩
  progress := fun _ => .waiting

/-- The filled position and the exposure of the symbol are within the limit. -/
def Within (rm : RiskManager) (symbol : List UInt8) (s : State n) : Prop :=
  match s.risk.positionManager with
  | none => False
  | some pm =>
      |pm.getFilledPosition symbol| ≤ rm.maxPositionPerSymbol ∧
        |pm.getTotalExposure symbol| ≤ rm.maxPositionPerSymbol

instance (rm : RiskManager) (symbol : List UInt8) (s : State n) :
    Decidable (Within rm symbol s) :=
  match h : s.risk.positionManager with
  | none => isFalse (by simp [Within, h])
  | some pm =>
      decidable_of_iff
        (|pm.getFilledPosition symbol| ≤ rm.maxPositionPerSymbol ∧
          |pm.getTotalExposure symbol| ≤ rm.maxPositionPerSymbol) (by simp [Within, h])

/-- The filled position of the symbol. -/
def filled (symbol : List UInt8) (s : State n) : ℤ :=
  match s.risk.positionManager with
  | none => 0
  | some pm => pm.getFilledPosition symbol

/-- What is open on one side: the rest of the live orders of that side. -/
def openOn (orders : Fin n → Order) (side : OrderSide) (progress : Fin n → Progress) : ℤ :=
  ∑ i, if (orders i).side = side then (progress i).remaining (orders i) else 0

/-- The order passes the cooldown, and its checks for the exposure that `onNewOrder` reads. -/
def Passes (rm : RiskManager) (s : State n) (order : Order) (now : UInt64) : Prop :=
  (RiskManager.checkCooldown s.risk order now).1 = true ∧
    ∃ pm ∈ s.risk.positionManager, rm.Admits order (pm.getTotalExposure order.symbol.view)

theorem Passes.admits {rm : RiskManager} {s : State n} {order : Order} {now : UInt64}
    {pm : PositionManager} (h : Passes rm s order now) (hpm : s.risk.positionManager = some pm) :
    rm.Admits order (pm.getTotalExposure order.symbol.view) := by
  obtain ⟨-, pm', hpm', hadmits⟩ := h
  obtain rfl := Option.some_inj.1 (hpm.symm.trans hpm')
  exact hadmits

instance (rm : RiskManager) (s : State n) (order : Order) (now : UInt64) :
    Decidable (Passes rm s order now) :=
  inferInstanceAs (Decidable (_ = true ∧ ∃ pm ∈ s.risk.positionManager, rm.Admits order _))

/-- The condition on a submission: an order that passes the checks of the risk manager passes the
one of the exposure also when the open orders of the other side are left out. -/
def Standalone (rm : RiskManager) (orders : Fin n → Order) (symbol : List UInt8) (s : State n) :
    Action n → Prop
  | .submit i now =>
      Passes rm s (orders i) now →
        rm.exposureOk (orders i)
          (filled symbol s +
            (orders i).side.signed (openOn orders (orders i).side s.progress))
  | _ => True

instance (rm : RiskManager) (orders : Fin n → Order) (symbol : List UInt8) (s : State n)
    (a : Action n) : Decidable (Standalone rm orders symbol s a) :=
  match a with
  | .submit i now => inferInstanceAs (Decidable (Passes rm s (orders i) now → rm.exposureOk _ _))
  | .fill .. => isTrue trivial
  | .cancel .. => isTrue trivial

/-! ### What is open -/

theorem openOn_update (orders : Fin n → Order) (side : OrderSide) (progress : Fin n → Progress)
    (i : Fin n) (x : Progress) :
    openOn orders side (Function.update progress i x) =
      openOn orders side progress +
        if (orders i).side = side then
          x.remaining (orders i) - (progress i).remaining (orders i)
        else 0 := by
  rw [openOn, openOn, Runs.sum_update
    (fun j (y : Progress) => if (orders j).side = side then y.remaining (orders j) else 0)]
  split_ifs <;> ring

theorem openOn_waiting (orders : Fin n → Order) (side : OrderSide) :
    openOn orders side (fun _ => .waiting) = 0 := by
  simp [openOn, Progress.remaining]

/-! ### Accounts -/

/-- The books are in order: the pending position is what is open, purchases less sales. -/
structure Accounts (orders : Fin n → Order) (symbol : List UInt8) (s : State n)
    (pm : PositionManager) (b : Book) : Prop where
  positionManager : s.risk.positionManager = some pm
  refines : pm.Refines b
  mem : symbolToKey symbol ∈ b.keys
  executed : ∀ i e, s.progress i = .live e → 0 ≤ e ∧ e ≤ (orders i).quantity
  pending : (b.counters (symbolToKey symbol)).pending =
    openOn orders .buy s.progress - openOn orders .sell s.progress

theorem Accounts.filled_eq {orders : Fin n → Order} {symbol : List UInt8} {s : State n}
    {pm : PositionManager} {b : Book} (h : Accounts orders symbol s pm b) :
    filled symbol s = (b.counters (symbolToKey symbol)).filled := by
  simp only [filled, h.positionManager]
  exact h.refines.getFilledPosition symbol

theorem Accounts.openOn_nonneg {orders : Fin n → Order} {symbol : List UInt8} {s : State n}
    {pm : PositionManager} {b : Book} (h : Accounts orders symbol s pm b) (side : OrderSide) :
    0 ≤ openOn orders side s.progress := by
  refine Finset.sum_nonneg fun i _ => ?_
  split_ifs
  · cases hi : s.progress i with
    | live e => simpa [Progress.remaining] using (h.executed i e hi).2
    | _ => simp [Progress.remaining]
  · rfl

/-- One order moves, and the pending position moves with what is left of it. -/
theorem Accounts.advance {orders : Fin n → Order} {symbol : List UInt8} {s t : State n}
    {pm pm' : PositionManager} {b b' : Book} (h : Accounts orders symbol s pm b)
    (hpm : t.risk.positionManager = some pm') (href : pm'.Refines b')
    (hmem : symbolToKey symbol ∈ b'.keys) {i : Fin n} {x : Progress}
    (hprog : t.progress = Function.update s.progress i x)
    (hx : ∀ e, x = .live e → 0 ≤ e ∧ e ≤ (orders i).quantity)
    (hpending : (b'.counters (symbolToKey symbol)).pending =
      (b.counters (symbolToKey symbol)).pending + (orders i).side.signed
        (x.remaining (orders i) - (s.progress i).remaining (orders i))) :
    Accounts orders symbol t pm' b' where
  positionManager := hpm
  refines := href
  mem := hmem
  executed := by
    rw [hprog, Function.forall_update_iff s.progress fun j (y : Progress) =>
      ∀ e, y = .live e → 0 ≤ e ∧ e ≤ (orders j).quantity]
    exact ⟨hx, fun j _ => h.executed j⟩
  pending := by
    rw [hpending, h.pending, hprog, openOn_update, openOn_update]
    cases (orders i).side with
    | buy => simp; ring
    | sell => simp; ring

section Steps

variable {orders : Fin n → Order} {symbol : List UInt8}
  (hk : symbolToKey symbol ≠ kEmptySlot)
  (hsym : ∀ i, (orders i).symbol = CharArray.ofBytes 8 symbol)
  (hq : ∀ i, 0 < (orders i).quantity)
  {s t : State n} {pm : PositionManager} {b : Book}

include hsym in
theorem key_eq (i : Fin n) : symbolBufferToKey (orders i).symbol = symbolToKey symbol := by
  rw [hsym i, symbolToKey_eq]

include hk hsym hq in
/-- An approved order is reserved. -/
theorem Accounts.approved (h : Accounts orders symbol s pm b) {i : Fin n}
    (hi : s.progress i = .waiting)
    (hpm : t.risk.positionManager = some (pm.onOrderSent (orders i)))
    (hprog : t.progress = Function.update s.progress i (.live 0)) :
    ∃ pm' b', Accounts orders symbol t pm' b' ∧
      (b'.counters (symbolToKey symbol)).filled = (b.counters (symbolToKey symbol)).filled := by
  have hkey := key_eq hsym i
  have hcnt : (b.onOrderSent (orders i)).counters (symbolToKey symbol) =
      (orders i).sent (b.counters (symbolToKey symbol)) := by
    show (b.touch (symbolBufferToKey (orders i).symbol) (orders i).sent).counters _ = _
    rw [hkey, (Book.touch_of_takes (Or.inl h.mem) _).2, Function.update_self]
  refine ⟨_, _, h.advance hpm (h.refines.onOrderSent _ (hkey ▸ hk))
    (b.keys_subset_touch _ _ h.mem) hprog ?_ ?_, by rw [hcnt]; rfl⟩
  · rintro e ⟨⟩
    exact ⟨le_rfl, (hq i).le⟩
  · simp [hcnt, Order.sent, hi, Progress.remaining]

include hk hsym in
/-- A fill moves its quantity from what is open to what is filled. -/
theorem Accounts.fill (h : Accounts orders symbol s pm b) {i : Fin n} {e qty : ℤ} {price : ℚ}
    (hi : s.progress i = .live e) (hpos : 0 < qty) (hle : e + qty ≤ (orders i).quantity)
    (hpm : t.risk.positionManager =
      some (pm.onFill ⟨(orders i).symbol, (orders i).side, qty, price⟩))
    (hprog : t.progress = Function.update s.progress i (.live (e + qty))) :
    ∃ pm' b', Accounts orders symbol t pm' b' ∧
      (b'.counters (symbolToKey symbol)).filled =
        (b.counters (symbolToKey symbol)).filled + (orders i).side.signed qty := by
  have hkey := key_eq hsym i
  obtain ⟨he, -⟩ := h.executed i e hi
  let f : Fill := ⟨(orders i).symbol, (orders i).side, qty, price⟩
  have hcnt : (b.onFill f).counters (symbolToKey symbol) =
      f.apply (b.counters (symbolToKey symbol)) := by
    show (b.touch (symbolBufferToKey (orders i).symbol) f.apply).counters _ = _
    rw [hkey, (Book.touch_of_takes (Or.inl h.mem) _).2, Function.update_self]
  refine ⟨_, _, h.advance hpm (h.refines.onFill f (hkey ▸ hk))
    (b.keys_subset_touch _ _ h.mem) hprog ?_ ?_, by rw [hcnt, Fill.apply_filled]⟩
  · rintro e' ⟨⟩
    exact ⟨by omega, hle⟩
  · -- the pending position falls by the fill, and so does what is left of the order
    rw [hcnt, Fill.apply_pending, hi]
    cases hside : (orders i).side with
    | buy => simp [f, hside, Progress.remaining]; ring
    | sell => simp [f, hside, Progress.remaining]

include hk hsym in
/-- A cancellation releases what is left. -/
theorem Accounts.cancel (h : Accounts orders symbol s pm b) {i : Fin n} {e : ℤ}
    (hi : s.progress i = .live e)
    (hpm : t.risk.positionManager = some
      (pm.onOrderCancelled { orders i with quantity := (orders i).quantity - e }))
    (hprog : t.progress = Function.update s.progress i .cancelled) :
    ∃ pm' b', Accounts orders symbol t pm' b' ∧
      (b'.counters (symbolToKey symbol)).filled = (b.counters (symbolToKey symbol)).filled := by
  have hkey := key_eq hsym i
  let o : Order := { orders i with quantity := (orders i).quantity - e }
  have hcnt : (b.onOrderCancelled o).counters (symbolToKey symbol) =
      o.cancelled (b.counters (symbolToKey symbol)) := by
    show (b.amend (symbolBufferToKey (orders i).symbol) o.cancelled).counters _ = _
    rw [hkey, (Book.amend_of_mem h.mem _).2, Function.update_self]
  refine ⟨_, _, h.advance hpm (h.refines.onOrderCancelled o (hkey ▸ hk))
    (by rw [Book.onOrderCancelled, Book.keys_amend]; exact h.mem) hprog ?_ ?_,
    by rw [hcnt]; rfl⟩
  · rintro e' ⟨⟩
  · rw [hcnt, hi]
    cases hside : (orders i).side with
    | buy => simp [o, Order.cancelled, hside, Progress.remaining]; ring
    | sell => simp [o, Order.cancelled, hside, Progress.remaining]; ring

end Steps

/-- **What a step can do**, with its effect on the position manager. -/
theorem step_cases {rm : RiskManager} {orders : Fin n → Order} {s t : State n} {a : Action n}
    {pm : PositionManager} (hpm : s.risk.positionManager = some pm)
    (h : step rm orders s a = some t) :
    (∃ i now, a = .submit i now ∧ s.progress i = .waiting ∧ Passes rm s (orders i) now ∧
      t.risk.positionManager = some (pm.onOrderSent (orders i)) ∧
      t.progress = Function.update s.progress i (.live 0)) ∨
    (∃ i now, a = .submit i now ∧ t.risk.positionManager = some pm ∧
      t.progress = s.progress) ∨
    (∃ i qty price e, a = .fill i qty price ∧ s.progress i = .live e ∧ 0 < qty ∧
      e + qty ≤ (orders i).quantity ∧
      t.risk.positionManager =
        some (pm.onFill ⟨(orders i).symbol, (orders i).side, qty, price⟩) ∧
      t.progress = Function.update s.progress i (.live (e + qty))) ∨
    (∃ i e, a = .cancel i ∧ s.progress i = .live e ∧
      t.risk.positionManager = some
        (pm.onOrderCancelled { orders i with quantity := (orders i).quantity - e }) ∧
      t.progress = Function.update s.progress i .cancelled) := by
  cases a with
  | submit i now =>
      by_cases hw : s.progress i = .waiting
      · rw [step, if_pos hw, Option.some_inj] at h
        subst h
        rcases rm.onNewOrder_cases s.risk (orders i) now with ⟨pm₀, hpm₀, hcool, hadm, heq⟩ | heq
        · obtain rfl : pm = pm₀ := Option.some_inj.1 (hpm.symm.trans hpm₀)
          exact Or.inl ⟨i, now, rfl, hw, ⟨hcool, pm, hpm, hadm⟩, by simp [heq], by simp [heq]⟩
        · exact Or.inr (Or.inl ⟨i, now, rfl, by simp [heq, hpm], by simp [heq]⟩)
      · simp [step, hw] at h
  | fill i qty price =>
      cases hp : s.progress i with
      | live e =>
          by_cases hg : 0 < qty ∧ e + qty ≤ (orders i).quantity
          · simp only [step, hp, if_pos hg, Option.some_inj] at h
            subst h
            refine Or.inr (Or.inr (Or.inl ⟨i, qty, price, e, rfl, hp, hg.1, hg.2, ?_, rfl⟩))
            simp [RiskState.call, hpm]
          · simp [step, hp, hg] at h
      | _ => simp [step, hp] at h
  | cancel i =>
      cases hp : s.progress i with
      | live e =>
          simp only [step, hp, Option.some_inj] at h
          subst h
          refine Or.inr (Or.inr (Or.inr ⟨i, e, rfl, hp, ?_, rfl⟩))
          simp [RiskState.call, hpm]
      | _ => simp [step, hp] at h

/-! ### The invariant -/

/-- Both worst cases — every open purchase filled and every open sale cancelled, or the other way
round — are within the limit. -/
structure Inv (rm : RiskManager) (orders : Fin n → Order) (symbol : List UInt8) (s : State n)
    (pm : PositionManager) (b : Book) : Prop extends Accounts orders symbol s pm b where
  upper : (b.counters (symbolToKey symbol)).filled + openOn orders .buy s.progress ≤
    rm.maxPositionPerSymbol
  lower : -rm.maxPositionPerSymbol ≤
    (b.counters (symbolToKey symbol)).filled - openOn orders .sell s.progress

theorem Inv.within {rm : RiskManager} {orders : Fin n → Order} {symbol : List UInt8} {s : State n}
    {pm : PositionManager} {b : Book} (h : Inv rm orders symbol s pm b) : Within rm symbol s := by
  have hbuy := h.openOn_nonneg .buy
  have hsell := h.openOn_nonneg .sell
  have hupper := h.upper
  have hlower := h.lower
  simp only [Within, h.positionManager]
  rw [h.refines.getFilledPosition, h.refines.getTotalExposure, h.pending, abs_le, abs_le]
  omega

section Run

variable {rm : RiskManager} (hrm : rm.Valid) {orders : Fin n → Order} {symbol : List UInt8}
  (hk : symbolToKey symbol ≠ kEmptySlot)
  (hsym : ∀ i, (orders i).symbol = CharArray.ofBytes 8 symbol)
  (hq : ∀ i, 0 < (orders i).quantity)

include hrm hk in
/-- Nothing is open at first. -/
theorem inv_init (cooldown : Option OrderCooldown) :
    ∃ pm b, Inv rm orders symbol (init symbol cooldown) pm b := by
  have href := PositionManager.refines_empty.registerSymbol hk
  have htakes : Book.empty.Takes (symbolToKey symbol) := Or.inr (by decide)
  obtain ⟨hkeys, hcnt⟩ := Book.touch_of_takes htakes id
  have hzero : (Book.empty.registerSymbol symbol).counters (symbolToKey symbol) = 0 := by
    show (Book.empty.touch (symbolToKey symbol) id).counters _ = 0
    rw [hcnt, Function.update_self]
    rfl
  have hpos := hrm.position_pos
  refine ⟨_, _, ⟨rfl, href, ?_, ?_, ?_⟩, ?_, ?_⟩
  · show _ ∈ (Book.empty.touch (symbolToKey symbol) id).keys
    rw [hkeys]
    exact Finset.mem_insert_self _ _
  · intro i e hi
    simp [init] at hi
  · simp [hzero, init, openOn_waiting]
  · simpa [hzero, init, openOn_waiting] using hpos.le
  · simpa [hzero, init, openOn_waiting] using hpos.le

include hrm hk hsym hq in
/-- **A step that meets the condition keeps the invariant.** -/
theorem Inv.step {s t : State n} {a : Action n} {pm : PositionManager} {b : Book}
    (h : Inv rm orders symbol s pm b) (hok : Standalone rm orders symbol s a)
    (hstep : Limit.step rm orders s a = some t) : ∃ pm' b', Inv rm orders symbol t pm' b' := by
  have hupper := h.upper
  have hlower := h.lower
  rcases step_cases h.positionManager hstep with
    ⟨i, now, rfl, hi, hpasses, hpm, hprog⟩ | ⟨i, now, rfl, hpm, hprog⟩ |
    ⟨i, qty, price, e, rfl, hi, hpos, hle, hpm, hprog⟩ | ⟨i, e, rfl, hi, hpm, hprog⟩
  · -- approved: the condition bounds the worst case of the order's own side
    obtain ⟨pm', b', hacc, hfilled⟩ := h.approved hk hsym hq hi hpm hprog
    have hlimit : |filled symbol s + (orders i).side.signed
        (openOn orders (orders i).side s.progress) +
          (orders i).side.signed (orders i).quantity| ≤ rm.maxPositionPerSymbol := by
      have hexposure := hok hpasses
      rw [RiskManager.exposureOk, safeAbs, RiskManager.newExposure_eq] at hexposure
      rw [Int.abs_eq_natAbs, ← asUInt64_of_nonneg hrm.position_pos.le hrm.position_lt]
      exact_mod_cast hexposure
    rw [h.filled_eq, abs_le] at hlimit
    refine ⟨pm', b', hacc, ?_, ?_⟩
    all_goals
      rw [hfilled, hprog, openOn_update]
      cases hside : (orders i).side <;> simp [hside, hi, Progress.remaining] at hlimit ⊢
      all_goals omega
  · exact ⟨pm, b, ⟨hpm, h.refines, h.mem, hprog ▸ h.executed, hprog ▸ h.pending⟩,
      hprog ▸ hupper, hprog ▸ hlower⟩
  · obtain ⟨pm', b', hacc, hfilled⟩ := h.fill hk hsym hi hpos hle hpm hprog
    refine ⟨pm', b', hacc, ?_, ?_⟩
    all_goals
      rw [hfilled, hprog, openOn_update]
      cases hside : (orders i).side <;> simp [hi, Progress.remaining]
      all_goals omega
  · obtain ⟨pm', b', hacc, hfilled⟩ := h.cancel hk hsym hi hpm hprog
    have he := (h.executed i e hi).2
    refine ⟨pm', b', hacc, ?_, ?_⟩
    all_goals
      rw [hfilled, hprog, openOn_update]
      cases hside : (orders i).side <;> simp [hi, Progress.remaining]
      all_goals omega

include hsym in
/-- Cancelling the live orders of one side, those of the list `js`, one after the other. -/
theorem exists_run_cancelling (rm : RiskManager) (hk : symbolToKey symbol ≠ kEmptySlot)
    (side : OrderSide) (js : List (Fin n)) :
    ∀ {s : State n} {pm : PositionManager} {b : Book}, Accounts orders symbol s pm b →
      ∃ as s' pm' b', Runs.exec (Limit.step rm orders) s as = some s' ∧
        Accounts orders symbol s' pm' b' ∧
        (b'.counters (symbolToKey symbol)).filled = (b.counters (symbolToKey symbol)).filled ∧
        (∀ j, (orders j).side ≠ side → s'.progress j = s.progress j) ∧
        (∀ j, (orders j).side = side → (∀ e, s.progress j ≠ .live e) ∨ j ∈ js →
          ∀ e, s'.progress j ≠ .live e) := by
  induction js with
  | nil =>
      intro s pm b h
      refine ⟨[], s, pm, b, rfl, h, rfl, fun _ _ => rfl, ?_⟩
      rintro j - (hj | hj)
      · exact hj
      · simp at hj
  | cons i js ih =>
      intro s pm b h
      by_cases hlive : (orders i).side = side ∧ ∃ e, s.progress i = .live e
      · obtain ⟨hside, e, hi⟩ := hlive
        obtain ⟨t, ht⟩ : ∃ t, Limit.step rm orders s (.cancel i) = some t := by
          simp [Limit.step, hi]
        rcases step_cases h.positionManager ht with
          ⟨i', now, ha, -⟩ | ⟨i', now, ha, -⟩ | ⟨i', qty, price, e', ha, -⟩ |
          ⟨i', e', ha, hi', hpm, hprog⟩
        iterate 3 cases ha
        cases ha
        obtain ⟨pm₁, b₁, hacc, hfilled⟩ := h.cancel hk hsym hi' hpm hprog
        obtain ⟨as, s', pm', b', hrun, hacc', hfilled', hother, hgone⟩ := ih hacc
        refine ⟨.cancel i :: as, s', pm', b', ?_, hacc', hfilled'.trans hfilled, ?_, ?_⟩
        · rw [Runs.exec_cons, ht]
          exact hrun
        · intro j hj
          have hij : j ≠ i := fun hij => hj (hij ▸ hside)
          rw [hother j hj, hprog, Function.update_of_ne hij]
        · intro j hj hcase
          refine hgone j hj ?_
          by_cases hij : j = i
          · left
            rw [hij, hprog, Function.update_self]
            simp
          · rcases hcase with hcase | hcase
            · left
              rwa [hprog, Function.update_of_ne hij]
            · right
              exact (List.mem_cons.1 hcase).resolve_left hij
      · -- nothing to cancel here
        obtain ⟨as, s', pm', b', hrun, hacc', hfilled', hother, hgone⟩ := ih h
        refine ⟨as, s', pm', b', hrun, hacc', hfilled', hother, ?_⟩
        intro j hj hcase
        refine hgone j hj ?_
        by_cases hij : j = i
        · left
          intro e he
          exact hlive ⟨hij ▸ hj, e, hij ▸ he⟩
        · exact hcase.imp_right fun hmem => (List.mem_cons.1 hmem).resolve_left hij

include hrm hk hsym hq in
/-- **The condition is the exact one.**  After an approval that rests on open orders of the other
side there is a continuation that exceeds the limit: those orders are cancelled. -/
theorem netted_approval_breaks_limit {s t : State n} {pm : PositionManager} {b : Book}
    (h : Accounts orders symbol s pm b) {i : Fin n} {now : UInt64}
    (hstep : Limit.step rm orders s (.submit i now) = some t)
    (happroved : t.progress i = .live 0) (hnot : ¬ Standalone rm orders symbol s (.submit i now)) :
    ∃ as s', Runs.exec (Limit.step rm orders) t as = some s' ∧ ¬ Within rm symbol s' := by
  rcases step_cases h.positionManager hstep with
    ⟨i', now', ha, hi, -, hpm, hprog⟩ | ⟨i', now', ha, hpm, hprog⟩ | ⟨_, _, _, _, ha, -⟩ |
    ⟨_, _, ha, -⟩
  · cases ha
    obtain ⟨pm₁, b₁, hacc, hfilled⟩ := h.approved hk hsym hq hi hpm hprog
    obtain ⟨as, s', pm', b', hrun, hacc', hfilled', hown, hgone⟩ :=
      exists_run_cancelling hsym rm hk (orders i).side.other (List.finRange n) hacc
    refine ⟨as, s', hrun, fun hwithin => hnot fun _ => ?_⟩
    -- the other side is closed, the own side is what it was with the new order
    have hclosed : openOn orders (orders i).side.other s'.progress = 0 := by
      refine Finset.sum_eq_zero fun j _ => ?_
      split_ifs with hj
      · have hj' := hgone j hj (Or.inr (List.mem_finRange j))
        cases hp : s'.progress j with
        | live e => exact absurd hp (hj' e)
        | _ => rfl
      · rfl
    have hsame : openOn orders (orders i).side s'.progress =
        openOn orders (orders i).side s.progress + (orders i).quantity := by
      have heq : openOn orders (orders i).side s'.progress =
          openOn orders (orders i).side t.progress := by
        refine Finset.sum_congr rfl fun j _ => ?_
        split_ifs with hj
        · rw [hown j (hj ▸ OrderSide.ne_other _)]
        · rfl
      rw [heq, hprog, openOn_update]
      simp [hi, Progress.remaining]
    simp only [Within, hacc'.positionManager] at hwithin
    have hexp := hwithin.2
    rw [hacc'.refines.getTotalExposure, hacc'.pending, hfilled', hfilled] at hexp
    rw [RiskManager.exposureOk, safeAbs, RiskManager.newExposure_eq, h.filled_eq]
    have hcast : ((b.counters (symbolToKey symbol)).filled +
        (orders i).side.signed (openOn orders (orders i).side s.progress) +
        (orders i).side.signed (orders i).quantity).natAbs ≤
          (asUInt64 rm.maxPositionPerSymbol : ℤ) := by
      rw [asUInt64_of_nonneg hrm.position_pos.le hrm.position_lt, ← Int.abs_eq_natAbs]
      refine le_trans (le_of_eq ?_) hexp
      congr 1
      cases hside : (orders i).side <;>
        simp [OrderSide.other, hside] at hclosed hsame ⊢ <;> omega
    exact_mod_cast hcast
  · cases ha
    -- a rejected order is not live
    rw [hprog] at happroved
    simp [Limit.step, happroved] at hstep
  · cases ha
  · cases ha

end Run

end Limit

/-- **The position limit holds in every run without netted approvals.**  In every state reached by
steps that meet the condition, whatever is submitted besides and rejected, the filled position and
the exposure are within the limit; and the condition is exact: after an approval that does not meet
it, a continuation exceeds the limit. -/
theorem position_limit_holds (rm : RiskManager) (hrm : rm.Valid) (symbol : List UInt8)
    (hres : CharArray.ofBytes 8 symbol ≠ reservedSymbol) (cooldown : Option OrderCooldown) {n : ℕ}
    (orders : Fin n → Order) (hsym : ∀ i, (orders i).symbol = CharArray.ofBytes 8 symbol)
    (hq : ∀ i, 0 < (orders i).quantity) (as : List (Limit.Action n)) (s : Limit.State n)
    (hrun : Runs.exec (Limit.step rm orders) (Limit.init symbol cooldown) as = some s)
    (hok : Runs.AllSteps (Limit.step rm orders) (Limit.Standalone rm orders symbol)
      (Limit.init symbol cooldown) as) :
    Limit.Within rm symbol s ∧
      ∀ i now t, Limit.step rm orders s (.submit i now) = some t → t.progress i = .live 0 →
        ¬ Limit.Standalone rm orders symbol s (.submit i now) →
        ∃ bs u, Runs.exec (Limit.step rm orders) t bs = some u ∧ ¬ Limit.Within rm symbol u := by
  have hk : symbolToKey symbol ≠ kEmptySlot := symbolBufferToKey_ne_kEmptySlot hres
  obtain ⟨pm, b, hinv⟩ := Runs.exec_inv_of_allSteps
    (I := fun s => ∃ pm b, Limit.Inv rm orders symbol s pm b)
    (fun s a t h hoka hst => h.elim fun _ h => h.elim fun _ h => h.step hrm hk hsym hq hoka hst)
    (Limit.inv_init hrm hk cooldown) hok hrun
  refine ⟨hinv.within, ?_⟩
  intro i now t hstep happroved hnot
  exact Limit.netted_approval_breaks_limit hrm hk hsym hq hinv.toAccounts hstep happroved hnot

/-- A purchase and a sale of the whole limit, one after the other, meet the condition when the
purchase is filled first.  So do a purchase of twice the limit and one that comes on top of the
first: both are rejected. -/
theorem position_limit_holds_for_two_orders :
    let aapl : List UInt8 := [65, 65, 80, 76]
    let order : OrderSide → ℤ → Order := fun side quantity =>
      { symbol := CharArray.ofBytes 8 aapl, quantity := quantity, side := side }
    let orders : Fin 4 → Order :=
      ![order .buy 1000, order .sell 1000, order .buy 2000, order .buy 600]
    let as : List (Limit.Action 4) :=
      [.submit 2 0, .submit 0 0, .submit 3 0, .fill 0 1000 10, .submit 1 0, .cancel 1]
    ∃ s, Runs.exec (Limit.step {} orders) (Limit.init aapl none) as = some s ∧
      (s.progress 2 = .waiting ∧ s.progress 3 = .waiting) ∧ Limit.Within {} aapl s := by
  intro aapl order orders as
  have hrun : (Runs.exec (Limit.step {} orders) (Limit.init aapl none) as).any
      (fun s => s.progress 2 = .waiting ∧ s.progress 3 = .waiting) = true := by
    decide +kernel
  obtain ⟨s, hs, hwaiting⟩ := (Option.any_eq_true _ _).1 hrun
  refine ⟨s, hs, of_decide_eq_true hwaiting, ?_⟩
  exact (position_limit_holds {} ⟨by decide, by decide, by norm_num⟩ aapl (by decide +kernel) none
    orders (by decide +kernel) (by decide +kernel) as s hs (by decide +kernel)).1

/-- **The limit is exceeded by approved orders.**  With the limit at 1000, a purchase of 1000 and
two sales of 1000 are all approved; both sales are filled before the purchase, and the position
is 2000 short. -/
theorem position_limit_exceeded :
    let aapl : List UInt8 := [65, 65, 80, 76]
    let order : OrderSide → Order := fun side =>
      { symbol := CharArray.ofBytes 8 aapl, quantity := 1000, side := side }
    let orders : Fin 3 → Order := ![order .buy, order .sell, order .sell]
    let as : List (Limit.Action 3) :=
      [.submit 0 0, .submit 1 0, .submit 2 0, .fill 1 1000 10, .fill 2 1000 10]
    ∃ s, Runs.exec (Limit.step {} orders) (Limit.init aapl none) as = some s ∧
      Limit.filled aapl s = -2000 ∧ ¬ Limit.Within {} aapl s := by
  intro aapl order orders as
  have hrun : (Runs.exec (Limit.step {} orders) (Limit.init aapl none) as).any
      (fun s => Limit.filled aapl s = -2000 ∧ ¬ Limit.Within {} aapl s) = true := by
    decide +kernel
  obtain ⟨s, hs, hbad⟩ := (Option.any_eq_true _ _).1 hrun
  exact ⟨s, hs, of_decide_eq_true hbad⟩

end Trading
