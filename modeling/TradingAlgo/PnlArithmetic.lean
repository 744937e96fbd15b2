/-
**The profit and loss arithmetic in 64 bits.**

The model of the fills computes with integers, the source with `int64_t`: there a product, quotient,
negation or difference that is out of range is undefined behaviour, and the atomic counters wrap.
This module follows the two functions operation by operation, and says for which positions and
prices nothing of this happens.  What counts is the product `cost_basis * quantity`: the cost of a
position of `L` shares is at most `L * P`, so that the product is at most `L * L * P`.

Main definitions:

* `Trading.applyBuyFill64`, `Trading.applySellFill64` — the two functions in 64 bits;
* `Trading.PositionManager.onFill64` — `onFill` with them;
* `Trading.SafeFill` — a call of `onFill` within the bounds.

Main results:

* `Trading.applyBuyFill64_eq`, `Trading.applySellFill64_eq` — within the bounds, they compute what
  the functions on the integers compute;
* `Trading.pnl_arithmetic_stays_in_range` — no run within the bounds leaves the range.
-/

import TradingAlgo.CostBasis
import TradingAlgo.CxxLibrary
import TradingAlgo.Runs

set_option relaxedAutoImplicit false
set_option autoImplicit false

namespace Trading

open Cxx

/-! ### The two functions -/

/-- `applyBuyFill` in 64 bits: `none` when a signed operation overflows or divides by zero, and also
when `cost_basis_total` would wrap.  The other three counters wrap. -/
def applyBuyFill64 (priceScaled qty currentFilled : ℤ) (entry : Counters) : Option Counters := do
  let entry ←
    if currentFilled < 0 then do
      let shortQty ← exact64 (-currentFilled)
      let coverQty := min qty shortQty
      let entry ←
        if 0 < coverQty then do
          let product ← exact64 (entry.costBasisTotal * coverQty)
          let costRemoved ← quot64 product currentFilled
          let paid ← exact64 (priceScaled * coverQty)
          let pnl ← exact64 (costRemoved - paid)
          let costBasis ← exact64 (entry.costBasisTotal + costRemoved)
          pure { entry with
            realizedPnl := wrap64 (entry.realizedPnl + pnl)
            costBasisTotal := costBasis }
        else pure entry
      let openQty ← exact64 (qty - coverQty)
      if 0 < openQty then do
        let opened ← exact64 (priceScaled * openQty)
        let costBasis ← exact64 (entry.costBasisTotal + opened)
        pure { entry with costBasisTotal := costBasis }
      else pure entry
    else do
      let opened ← exact64 (priceScaled * qty)
      let costBasis ← exact64 (entry.costBasisTotal + opened)
      pure { entry with costBasisTotal := costBasis }
  pure { entry with filled := wrap64 (entry.filled + qty), pending := wrap64 (entry.pending - qty) }

/-- `applySellFill` in 64 bits. -/
def applySellFill64 (priceScaled qty currentFilled : ℤ) (entry : Counters) : Option Counters := do
  let entry ←
    if 0 < currentFilled then do
      let sellQty := min qty currentFilled
      let entry ←
        if 0 < sellQty then do
          let product ← exact64 (entry.costBasisTotal * sellQty)
          let costRemoved ← quot64 product currentFilled
          let received ← exact64 (priceScaled * sellQty)
          let pnl ← exact64 (received - costRemoved)
          let costBasis ← exact64 (entry.costBasisTotal - costRemoved)
          pure { entry with
            realizedPnl := wrap64 (entry.realizedPnl + pnl)
            costBasisTotal := costBasis }
        else pure entry
      let shortQty ← exact64 (qty - sellQty)
      if 0 < shortQty then do
        let opened ← exact64 (priceScaled * shortQty)
        let costBasis ← exact64 (entry.costBasisTotal - opened)
        pure { entry with costBasisTotal := costBasis }
      else pure entry
    else do
      let opened ← exact64 (priceScaled * qty)
      let costBasis ← exact64 (entry.costBasisTotal - opened)
      pure { entry with costBasisTotal := costBasis }
  pure { entry with filled := wrap64 (entry.filled - qty), pending := wrap64 (entry.pending + qty) }

/-- The effect of a fill on the counters of its symbol, in 64 bits. -/
def Fill.apply64 (fill : Fill) (entry : Counters) : Option Counters :=
  match fill.side with
  | .buy => applyBuyFill64 fill.priceScaled fill.quantity entry.filled entry
  | .sell => applySellFill64 fill.priceScaled fill.quantity entry.filled entry

/-- `onFill` in 64 bits. -/
def PositionManager.onFill64 (pm : PositionManager) (fill : Fill) : Option PositionManager :=
  let r := pm.findOrInsert (symbolBufferToKey fill.symbol)
  match r.2 with
  | none => some r.1
  | some j => (fill.apply64 (r.1.table j).counters).map fun c => r.1.modify j fun _ => c

/-- The counters of which only the cost basis is exact. -/
def Counters.wrapped (c : Counters) : Counters :=
  ⟨wrap64 c.filled, wrap64 c.pending, c.costBasisTotal, wrap64 c.realizedPnl⟩

/-! ### Within the bounds -/

/-- The bounds on a position of `f` shares that a fill changes by `d`, at prices up to `P`. -/
structure Bounds (P f d : ℤ) : Prop where
  position : |f| < 2 ^ 63
  before : P * |f| < 2 ^ 63
  product : P * |f| * |f| < 2 ^ 63
  after : P * |f + d| < 2 ^ 63

/-- What is computed when `part` of `shares` shares is closed: everything is in range, and the cost
that stays is not negative. -/
structure Closing (p total shares part : ℤ) : Prop where
  product : |total * part| < 2 ^ 63
  removed : |total * part / shares| < 2 ^ 63
  value : |p * part| < 2 ^ 63
  pnl : |total * part / shares - p * part| < 2 ^ 63
  rest : 0 ≤ total - total * part / shares
  rest_lt : total - total * part / shares < 2 ^ 63

/-- A position that costs at most `P` a share is closed within the range. -/
theorem closing {P p total shares part : ℤ} (hp : 0 ≤ p ∧ p ≤ P) (hshares : 0 < shares)
    (hpart : 0 ≤ part) (hle : part ≤ shares) (h₀ : 0 ≤ total) (h₁ : total ≤ P * shares)
    (hcost : P * shares < 2 ^ 63) (hprod : P * shares * shares < 2 ^ 63) :
    Closing p total shares part := by
  have hP : 0 ≤ P := hp.1.trans hp.2
  have hmul₀ : 0 ≤ total * part := mul_nonneg h₀ hpart
  have hmul₁ : total * part ≤ P * shares * shares := mul_le_mul h₁ hle hpart (h₀.trans h₁)
  have hdiv₀ : 0 ≤ total * part / shares := Int.ediv_nonneg hmul₀ hshares.le
  have hdiv₁ : total * part / shares ≤ total :=
    Int.ediv_le_of_le_mul hshares (mul_le_mul_of_nonneg_left hle h₀)
  have hval₀ : 0 ≤ p * part := mul_nonneg hp.1 hpart
  have hval₁ : p * part ≤ P * shares := mul_le_mul hp.2 hle hpart hP
  refine ⟨?_, ?_, ?_, ?_, by linarith, by linarith⟩
  · rw [abs_of_nonneg hmul₀]
    linarith
  · rw [abs_of_nonneg hdiv₀]
    linarith
  · rw [abs_of_nonneg hval₀]
    linarith
  · rw [abs_lt]
    constructor <;> linarith

section OneFill

variable {P p q : ℤ} {c : Counters}

theorem exact64_of_abs_lt {v : ℤ} (h : |v| < 2 ^ 63) : exact64 v = some v :=
  exact64_of_isInt64 (isInt64_of_abs_lt h)

/-- The cost of what a fill opens is in range. -/
theorem opened_bounds {n : ℤ} (hp : 0 ≤ p ∧ p ≤ P) (hn : 0 ≤ n) (h : P * n < 2 ^ 63) :
    0 ≤ p * n ∧ p * n < 2 ^ 63 :=
  ⟨mul_nonneg hp.1 hn, (mul_le_mul_of_nonneg_right hp.2 hn).trans_lt h⟩

/-- A purchase that adds to a long position. -/
theorem applyBuyFill64_of_nonneg (hq : 0 < q) (hp : 0 ≤ p ∧ p ≤ P)
    (hcost : WithinPrices 0 P c) (hpnl : IsInt64 c.realizedPnl) (hb : Bounds P c.filled q)
    (hfilled : 0 ≤ c.filled) :
    applyBuyFill64 p q c.filled c = some (applyBuyFill p q c.filled c).wrapped := by
  obtain ⟨h₀, h₁⟩ := hcost.long hfilled
  have hafter : P * (c.filled + q) < 2 ^ 63 := by
    simpa [abs_of_nonneg (show 0 ≤ c.filled + q by omega)] using hb.after
  have hPf : 0 ≤ P * c.filled := mul_nonneg (hp.1.trans hp.2) hfilled
  have hPq : p * q ≤ P * q := mul_le_mul_of_nonneg_right hp.2 hq.le
  obtain ⟨hopened, hopened'⟩ := opened_bounds hp hq.le (by linarith)
  have e₁ : exact64 (p * q) = some (p * q) :=
    exact64_of_isInt64 (isInt64_of_nonneg hopened hopened')
  have e₂ : exact64 (c.costBasisTotal + p * q) = some (c.costBasisTotal + p * q) :=
    exact64_of_isInt64 (isInt64_of_nonneg (by linarith) (by linarith))
  simp [applyBuyFill64, applyBuyFill, Counters.wrapped, not_lt.2 hfilled, e₁, e₂,
    wrap64_of_isInt64 hpnl]

/-- A purchase that covers a short position: everything is as for a long one of the same size. -/
theorem applyBuyFill64_of_neg (hq : 0 < q) (hq' : q < 2 ^ 63) (hp : 0 ≤ p ∧ p ≤ P)
    (hcost : WithinPrices 0 P c) (hb : Bounds P c.filled q) (hneg : c.filled < 0) :
    applyBuyFill64 p q c.filled c = some (applyBuyFill p q c.filled c).wrapped := by
  obtain ⟨h₀, h₁⟩ := hcost.short hneg.le
  rw [zero_mul] at h₀
  have habs : |c.filled| = -c.filled := abs_of_neg hneg
  have hcover : 0 < min q (-c.filled) := lt_min hq (by omega)
  have hclose : Closing p (-c.costBasisTotal) (-c.filled) (min q (-c.filled)) :=
    closing hp (by omega) hcover.le (min_le_right _ _) h₀ h₁ (habs ▸ hb.before)
      (habs ▸ hb.product)
  have hshare := tdiv_short c.filled hcover.le h₀
  have e₁ : exact64 (-c.filled) = some (-c.filled) :=
    exact64_of_isInt64 (isInt64_of_nonneg (by omega) (habs ▸ hb.position))
  have e₂ := exact64_of_abs_lt (v := c.costBasisTotal * min q (-c.filled))
    (by simpa only [neg_mul, abs_neg] using hclose.product)
  have e₃ : quot64 (c.costBasisTotal * min q (-c.filled)) c.filled =
      some (-c.costBasisTotal * min q (-c.filled) / -c.filled) := by
    rw [quot64_of_isInt64 hneg.ne, hshare]
    rw [hshare]
    exact isInt64_of_abs_lt hclose.removed
  have e₄ := exact64_of_abs_lt hclose.value
  have e₅ := exact64_of_abs_lt hclose.pnl
  have e₆ : exact64 (c.costBasisTotal + -c.costBasisTotal * min q (-c.filled) / -c.filled) =
      some (c.costBasisTotal + -c.costBasisTotal * min q (-c.filled) / -c.filled) := by
    refine exact64_of_isInt64 ⟨?_, ?_⟩ <;> linarith [hclose.rest, hclose.rest_lt]
  have e₇ : exact64 (q - min q (-c.filled)) = some (q - min q (-c.filled)) :=
    exact64_of_isInt64 (isInt64_of_nonneg (by omega) (by omega))
  by_cases hopen : 0 < q - min q (-c.filled)
  · -- more than the position was bought: a long one is opened
    have hrest : |c.filled + q| = q - min q (-c.filled) := by
      rw [abs_of_pos (by omega)]
      omega
    obtain ⟨hopened, hopened'⟩ := opened_bounds hp hopen.le (hrest ▸ hb.after)
    have e₈ : exact64 (p * (q - min q (-c.filled))) = some (p * (q - min q (-c.filled))) :=
      exact64_of_isInt64 (isInt64_of_nonneg hopened hopened')
    have e₉ : exact64 (c.costBasisTotal + -c.costBasisTotal * min q (-c.filled) / -c.filled +
          p * (q - min q (-c.filled))) =
        some (c.costBasisTotal + -c.costBasisTotal * min q (-c.filled) / -c.filled +
          p * (q - min q (-c.filled))) := by
      refine exact64_of_isInt64 ⟨?_, ?_⟩ <;> linarith [hclose.rest, hclose.rest_lt]
    simp only [applyBuyFill64, applyBuyFill, Counters.wrapped, hneg, hcover, hopen, if_true, e₁,
      e₂, e₃, e₄, e₅, e₆, e₇, e₈, e₉, hshare, bind, pure, Option.bind_some]
  · simp only [applyBuyFill64, applyBuyFill, Counters.wrapped, hneg, hcover, hopen, if_true,
      if_false, e₁, e₂, e₃, e₄, e₅, e₆, e₇, hshare, bind, pure, Option.bind_some]

/-- **Within the bounds a purchase is computed exactly.** -/
theorem applyBuyFill64_eq (hq : 0 < q) (hq' : q < 2 ^ 63) (hp : 0 ≤ p ∧ p ≤ P)
    (hcost : WithinPrices 0 P c) (hpnl : IsInt64 c.realizedPnl) (hb : Bounds P c.filled q) :
    applyBuyFill64 p q c.filled c = some (applyBuyFill p q c.filled c).wrapped := by
  rcases le_or_gt 0 c.filled with hfilled | hneg
  · exact applyBuyFill64_of_nonneg hq hp hcost hpnl hb hfilled
  · exact applyBuyFill64_of_neg hq hq' hp hcost hb hneg

/-- A sale that adds to a short position. -/
theorem applySellFill64_of_nonpos (hq : 0 < q) (hp : 0 ≤ p ∧ p ≤ P)
    (hcost : WithinPrices 0 P c) (hpnl : IsInt64 c.realizedPnl) (hb : Bounds P c.filled (-q))
    (hfilled : c.filled ≤ 0) :
    applySellFill64 p q c.filled c = some (applySellFill p q c.filled c).wrapped := by
  obtain ⟨h₀, h₁⟩ := hcost.short hfilled
  have hafter : P * (-c.filled + q) < 2 ^ 63 := by
    have habs : |c.filled + -q| = -c.filled + q := by
      rw [abs_of_neg (by omega)]
      omega
    exact habs ▸ hb.after
  have hPf : 0 ≤ P * -c.filled := mul_nonneg (hp.1.trans hp.2) (by omega)
  have hPq : p * q ≤ P * q := mul_le_mul_of_nonneg_right hp.2 hq.le
  obtain ⟨hopened, hopened'⟩ := opened_bounds hp hq.le (by linarith)
  have e₁ : exact64 (p * q) = some (p * q) :=
    exact64_of_isInt64 (isInt64_of_nonneg hopened hopened')
  have e₂ : exact64 (c.costBasisTotal - p * q) = some (c.costBasisTotal - p * q) := by
    refine exact64_of_isInt64 ⟨?_, ?_⟩ <;> linarith
  simp [applySellFill64, applySellFill, Counters.wrapped, not_lt.2 hfilled, e₁, e₂,
    wrap64_of_isInt64 hpnl]

/-- A sale that closes a long position. -/
theorem applySellFill64_of_pos (hq : 0 < q) (hq' : q < 2 ^ 63) (hp : 0 ≤ p ∧ p ≤ P)
    (hcost : WithinPrices 0 P c) (hb : Bounds P c.filled (-q)) (hpos : 0 < c.filled) :
    applySellFill64 p q c.filled c = some (applySellFill p q c.filled c).wrapped := by
  obtain ⟨h₀, h₁⟩ := hcost.long hpos.le
  rw [zero_mul] at h₀
  have habs : |c.filled| = c.filled := abs_of_pos hpos
  have hsell : 0 < min q c.filled := lt_min hq hpos
  have hclose : Closing p c.costBasisTotal c.filled (min q c.filled) :=
    closing hp hpos hsell.le (min_le_right _ _) h₀ h₁ (by simpa only [habs] using hb.before)
      (by simpa only [habs] using hb.product)
  have hshare : (c.costBasisTotal * min q c.filled).tdiv c.filled =
      c.costBasisTotal * min q c.filled / c.filled :=
    Int.tdiv_eq_ediv_of_nonneg (mul_nonneg h₀ hsell.le)
  have e₂ := exact64_of_abs_lt hclose.product
  have e₃ : quot64 (c.costBasisTotal * min q c.filled) c.filled =
      some (c.costBasisTotal * min q c.filled / c.filled) := by
    rw [quot64_of_isInt64 hpos.ne', hshare]
    rw [hshare]
    exact isInt64_of_abs_lt hclose.removed
  have e₄ := exact64_of_abs_lt hclose.value
  have e₅ := exact64_of_abs_lt (abs_sub_comm (p * min q c.filled) _ ▸ hclose.pnl)
  have e₆ := exact64_of_isInt64 (isInt64_of_nonneg hclose.rest hclose.rest_lt)
  have e₇ : exact64 (q - min q c.filled) = some (q - min q c.filled) :=
    exact64_of_isInt64 (isInt64_of_nonneg (by omega) (by omega))
  by_cases hopen : 0 < q - min q c.filled
  · -- more than the position was sold: a short one is opened
    have hrest : |c.filled + -q| = q - min q c.filled := by
      rw [abs_of_neg (by omega)]
      omega
    obtain ⟨hopened, hopened'⟩ := opened_bounds hp hopen.le (hrest ▸ hb.after)
    have e₈ : exact64 (p * (q - min q c.filled)) = some (p * (q - min q c.filled)) :=
      exact64_of_isInt64 (isInt64_of_nonneg hopened hopened')
    have e₉ : exact64 (c.costBasisTotal - c.costBasisTotal * min q c.filled / c.filled -
          p * (q - min q c.filled)) =
        some (c.costBasisTotal - c.costBasisTotal * min q c.filled / c.filled -
          p * (q - min q c.filled)) := by
      refine exact64_of_isInt64 ⟨?_, ?_⟩ <;> linarith [hclose.rest, hclose.rest_lt]
    simp only [applySellFill64, applySellFill, Counters.wrapped, hpos, hsell, hopen, if_true,
      e₂, e₃, e₄, e₅, e₆, e₇, e₈, e₉, hshare, bind, pure, Option.bind_some]
  · simp only [applySellFill64, applySellFill, Counters.wrapped, hpos, hsell, hopen, if_true,
      if_false, e₂, e₃, e₄, e₅, e₆, e₇, hshare, bind, pure, Option.bind_some]

/-- **Within the bounds a sale is computed exactly.** -/
theorem applySellFill64_eq (hq : 0 < q) (hq' : q < 2 ^ 63) (hp : 0 ≤ p ∧ p ≤ P)
    (hcost : WithinPrices 0 P c) (hpnl : IsInt64 c.realizedPnl) (hb : Bounds P c.filled (-q)) :
    applySellFill64 p q c.filled c = some (applySellFill p q c.filled c).wrapped := by
  rcases le_or_gt c.filled 0 with hfilled | hpos
  · exact applySellFill64_of_nonpos hq hp hcost hpnl hb hfilled
  · exact applySellFill64_of_pos hq hq' hp hcost hb hpos

end OneFill

/-- The counters that the arithmetic can go on from. -/
structure Safe (P : ℤ) (c : Counters) : Prop where
  withinPrices : WithinPrices 0 P c
  realizedPnl : IsInt64 c.realizedPnl

theorem safe_zero (P : ℤ) : Safe P 0 := ⟨withinPrices_zero 0 P, by decide⟩

/-- Where all prices are zero it does not matter that a position wraps. -/
theorem Safe.wrapped {P : ℤ} {c : Counters} (h : WithinPrices 0 P c)
    (hfilled : P = 0 ∨ wrap64 c.filled = c.filled) : Safe P c.wrapped := by
  refine ⟨?_, isInt64_wrap64 _⟩
  rcases hfilled with rfl | hsame
  · have hcost : c.costBasisTotal = 0 := by
      rcases le_total 0 c.filled with hc | hc
      · have := h.long hc
        omega
      · have := h.short hc
        omega
    exact ⟨fun _ => by simp [Counters.wrapped, hcost], fun _ => by simp [Counters.wrapped, hcost]⟩
  · exact ⟨fun hc => by simpa [Counters.wrapped, hsame] using h.long (by rwa [← hsame]),
      fun hc => by simpa [Counters.wrapped, hsame] using h.short (by rwa [← hsame])⟩

section Limits

variable {L P : ℤ}

/-- A position within `L` shares, before and after the fill, is within the bounds, and unless all
prices are zero it does not wrap. -/
theorem bounds_of_limits (hL : 0 ≤ L) (hL' : L < 2 ^ 63) (hP : 0 ≤ P) (hLP : L * L * P < 2 ^ 63)
    {f d : ℤ} (hd : |d| < 2 ^ 63) (hbefore : |f| ≤ L) (hafter : |wrap64 (f + d)| ≤ L) :
    Bounds P f d ∧ (P = 0 ∨ wrap64 (f + d) = f + d) := by
  have hcost : P * L < 2 ^ 63 := by
    rcases hL.eq_or_lt with rfl | hpos
    · simp
    · calc P * L = P * L * 1 := by ring
        _ ≤ P * L * L := mul_le_mul_of_nonneg_left hpos (mul_nonneg hP hL)
        _ = L * L * P := by ring
        _ < 2 ^ 63 := hLP
  have hwrap : P = 0 ∨ wrap64 (f + d) = f + d := by
    rcases hP.eq_or_lt with rfl | hpos
    · exact Or.inl rfl
    · -- the limit is far below the range, and the quantity is in it
      refine Or.inr ?_
      have hsq : L * L < 2 ^ 63 := by
        refine lt_of_le_of_lt ?_ hLP
        exact le_mul_of_one_le_right (mul_nonneg hL hL) hpos
      have hsmall : L < 2 ^ 32 := by
        by_contra hge
        have := mul_le_mul (not_lt.1 hge) (not_lt.1 hge) (by norm_num) hL
        norm_num at this hsq
        omega
      obtain ⟨hb₀, hb₁⟩ := abs_le.1 hbefore
      obtain ⟨ha₀, ha₁⟩ := abs_le.1 hafter
      obtain ⟨hd₀, hd₁⟩ := abs_lt.1 hd
      unfold wrap64 at ha₀ ha₁ ⊢
      omega
  refine ⟨⟨hbefore.trans_lt hL', ?_, ?_, ?_⟩, hwrap⟩
  · exact (mul_le_mul_of_nonneg_left hbefore hP).trans_lt hcost
  · calc P * |f| * |f| ≤ P * L * L :=
          mul_le_mul (mul_le_mul_of_nonneg_left hbefore hP) hbefore (abs_nonneg f)
            (mul_nonneg hP hL)
      _ = L * L * P := by ring
      _ < 2 ^ 63 := hLP
  · rcases hwrap with rfl | hsame
    · simp
    · rw [hsame] at hafter
      exact (mul_le_mul_of_nonneg_left hafter hP).trans_lt hcost

/-- **A fill within the limits** is computed, and the counters are again such that the arithmetic
can go on. -/
theorem Fill.apply64_safe (hL : 0 ≤ L) (hL' : L < 2 ^ 63) (hP : 0 ≤ P) (hLP : L * L * P < 2 ^ 63)
    {fill : Fill} (hq : 0 < fill.quantity) (hq' : fill.quantity < 2 ^ 63)
    (hp : 0 ≤ fill.priceScaled ∧ fill.priceScaled ≤ P) {c : Counters} (hc : Safe P c)
    (hbefore : |c.filled| ≤ L)
    (hafter : |wrap64 (c.filled + fill.side.signed fill.quantity)| ≤ L) :
    ∃ c', fill.apply64 c = some c' ∧ Safe P c' := by
  have hd : |fill.side.signed fill.quantity| < 2 ^ 63 := by
    cases fill.side <;> simp [abs_of_pos hq] <;> omega
  obtain ⟨hb, hwrap⟩ := bounds_of_limits hL hL' hP hLP hd hbefore hafter
  have hstep := Fill.apply_withinPrices hq le_rfl hp hc.withinPrices
  refine ⟨(fill.apply c).wrapped, ?_, Safe.wrapped hstep ?_⟩
  · cases hside : fill.side with
    | buy =>
        simp only [Fill.apply64, Fill.apply, hside]
        rw [hside] at hb
        exact applyBuyFill64_eq hq hq' hp hc.withinPrices hc.realizedPnl hb
    | sell =>
        simp only [Fill.apply64, Fill.apply, hside]
        rw [hside] at hb
        exact applySellFill64_eq hq hq' hp hc.withinPrices hc.realizedPnl hb
  · rwa [Fill.apply_filled]

end Limits

/-! ### Through the table -/

/-- A call of `onFill` with a positive quantity and a price up to `P`, for which the position of the
symbol is at most `L` in either direction, before the call and after it. -/
def SafeFill (L P : ℤ) (pm : PositionManager) (fill : Fill) : Prop :=
  (0 < fill.quantity ∧ fill.quantity < 2 ^ 63) ∧
    (0 ≤ fill.priceScaled ∧ fill.priceScaled ≤ P) ∧
    ∀ j ∈ (pm.findOrInsert (symbolBufferToKey fill.symbol)).2,
      |(pm.table j).counters.filled| ≤ L ∧
        |wrap64 ((pm.table j).counters.filled + fill.side.signed fill.quantity)| ≤ L

instance (L P : ℤ) (pm : PositionManager) (fill : Fill) : Decidable (SafeFill L P pm fill) :=
  inferInstanceAs (Decidable ((_ ∧ _) ∧ (_ ∧ _) ∧ ∀ j ∈ _, _ ∧ _))

/-- Looking a key up changes no counters. -/
theorem PositionManager.counters_findOrInsert (pm : PositionManager) (k : UInt64)
    (i : Fin kMaxSymbols) : ((pm.findOrInsert k).1.table i).counters = (pm.table i).counters := by
  rw [PositionManager.findOrInsert_eq]
  split
  · rfl
  · split
    · rfl
    · exact counters_claim pm _ i k

/-- **A call within the limits** goes through, and leaves a table on which the arithmetic can go
on. -/
theorem PositionManager.onFill64_safe {L P : ℤ} (hL : 0 ≤ L) (hL' : L < 2 ^ 63) (hP : 0 ≤ P)
    (hLP : L * L * P < 2 ^ 63) (pm : PositionManager) (fill : Fill)
    (hpm : ∀ i, Safe P (pm.table i).counters) (hfill : SafeFill L P pm fill) :
    ∃ pm', pm.onFill64 fill = some pm' ∧ ∀ i, Safe P (pm'.table i).counters := by
  obtain ⟨⟨hq, hq'⟩, hp, hposition⟩ := hfill
  have hfound : ∀ i, Safe P
      ((pm.findOrInsert (symbolBufferToKey fill.symbol)).1.table i).counters := by
    intro i
    rw [pm.counters_findOrInsert]
    exact hpm i
  cases hslot : (pm.findOrInsert (symbolBufferToKey fill.symbol)).2 with
  | none =>
      -- the table is full
      refine ⟨_, ?_, hfound⟩
      simp only [onFill64, hslot]
  | some j =>
      obtain ⟨hbefore, hafter⟩ := hposition j (by rw [hslot]; exact Option.mem_some_self j)
      rw [← pm.counters_findOrInsert (symbolBufferToKey fill.symbol)] at hbefore hafter
      obtain ⟨c, hc, hsafe⟩ :=
        Fill.apply64_safe hL hL' hP hLP hq hq' hp (hfound j) hbefore hafter
      refine ⟨(pm.findOrInsert (symbolBufferToKey fill.symbol)).1.modify j fun _ => c, ?_, ?_⟩
      · simp only [onFill64, hslot, hc, Option.map_some]
      · intro i
        rw [counters_modify]
        split
        · exact hsafe
        · exact hfound i

/-- **The profit and loss arithmetic stays in the range of `int64_t`.**  With `L * L * P < 2 ^ 63`
and `L < 2 ^ 63`, in every sequence of calls of `onFill` with positive quantities and prices from 0
to `P`, in which every position is at most `L` in either direction before and after every fill, no
signed operation overflows, nothing is divided by zero, and `cost_basis_total` does not wrap. -/
theorem pnl_arithmetic_stays_in_range (L P : ℤ) (hL : 0 ≤ L) (hL' : L < 2 ^ 63) (hP : 0 ≤ P)
    (hLP : L * L * P < 2 ^ 63) (fills : List Fill)
    (hfills : Runs.AllSteps PositionManager.onFill64 (SafeFill L P) {} fills) :
    (Runs.exec PositionManager.onFill64 {} fills).isSome = true :=
  Runs.exec_isSome_of_allSteps (PositionManager.onFill64_safe hL hL' hP hLP)
    (fun _ => safe_zero P) hfills

/-- Up to 2000 shares at up to 10 000 dollars, the price scaled by 10 000: a long position is sold
in two steps and turned. -/
theorem pnl_arithmetic_of_three_fills :
    let aapl : CharArray 8 := CharArray.ofBytes 8 [65, 65, 80, 76]
    let fills : List Fill :=
      [⟨aapl, .buy, 2000, 10000⟩, ⟨aapl, .sell, 999, 9999⟩, ⟨aapl, .sell, 3001, 1⟩]
    (Runs.exec PositionManager.onFill64 {} fills).isSome = true := by
  intro aapl fills
  exact pnl_arithmetic_stays_in_range 2000 100000000 (by decide) (by decide) (by decide)
    (by decide) fills (by decide +kernel)

/-- With shares that cost nothing `L` may be anything.  At a position of `INT64_MIN` shares the
next purchase negates it. -/
theorem pnl_arithmetic_overflows :
    let aapl : CharArray 8 := CharArray.ofBytes 8 [65, 65, 80, 76]
    let fills : List Fill :=
      [⟨aapl, .sell, 2 ^ 63 - 1, 0⟩, ⟨aapl, .sell, 1, 0⟩, ⟨aapl, .buy, 1, 0⟩]
    (2 ^ 63 : ℤ) * 2 ^ 63 * 0 < 2 ^ 63 ∧
      Runs.AllSteps PositionManager.onFill64 (SafeFill (2 ^ 63) 0) {} fills ∧
      (Runs.exec PositionManager.onFill64 {} fills).isSome = false := by
  decide +kernel

end Trading
