/-
**The cost basis stays between the traded prices.**

A partial close takes a share of the cost basis, `cost_basis * part / shares`, rounded towards zero,
so the shares that stay keep their share rounded up.  Rounding up cannot carry an integer multiple
of the number of shares over the next one: if the cost was between `lo` and `hi` a share before, it
still is.  The division of the short side, of a negative by a negative number, is the same one.

Main definitions:

* `Trading.WithinPrices` — the cost of a position is between two prices a share, with its sign.

Main results:

* `Trading.proRata_bounds` — what a partial close leaves;
* `Trading.Fill.apply_withinPrices`, `Trading.applyAll_withinPrices` — one fill, and any fills, keep
  the cost between the prices;
* `Trading.average_cost_within_traded_prices` — the getters of a position manager, after any calls
  of `onFill`.
-/

import TradingAlgo.ProfitLoss

set_option relaxedAutoImplicit false
set_option autoImplicit false

namespace Trading

/-! ### A partial close -/

/-- **What a partial close leaves**: `shares - part` shares at a cost between the same bounds, for
the truncation is in their favour and the bounds are integers. -/
theorem proRata_bounds {lo hi total shares part : ℤ} (hshares : 0 < shares) (hpart : part ≤ shares)
    (hlo : lo * shares ≤ total) (hhi : total ≤ hi * shares) :
    lo * (shares - part) ≤ total - total * part / shares ∧
      total - total * part / shares ≤ hi * (shares - part) := by
  have hrest : 0 ≤ shares - part := by omega
  have hbelow : total * part / shares * shares ≤ total * part :=
    Int.ediv_mul_le _ hshares.ne'
  have habove : total * part < (total * part / shares + 1) * shares :=
    Int.lt_ediv_add_one_mul_self _ hshares
  constructor
  · refine le_of_mul_le_mul_right ?_ hshares
    calc lo * (shares - part) * shares = lo * shares * (shares - part) := by ring
      _ ≤ total * (shares - part) := mul_le_mul_of_nonneg_right hlo hrest
      _ ≤ (total - total * part / shares) * shares := by linarith
  · -- one more would be too much by a whole share
    refine Int.lt_add_one_iff.1 (lt_of_mul_lt_mul_right ?_ hshares.le)
    calc (total - total * part / shares) * shares
        < total * (shares - part) + shares := by linarith
      _ ≤ hi * shares * (shares - part) + shares := by
          have := mul_le_mul_of_nonneg_right hhi hrest
          linarith
      _ = (hi * (shares - part) + 1) * shares := by ring

/-! ### One fill -/

/-- The cost basis of a long position is between `lo` and `hi` a share, that of a short one is the
negative of such a cost. -/
structure WithinPrices (lo hi : ℤ) (c : Counters) : Prop where
  long : 0 ≤ c.filled → lo * c.filled ≤ c.costBasisTotal ∧ c.costBasisTotal ≤ hi * c.filled
  short : c.filled ≤ 0 → lo * -c.filled ≤ -c.costBasisTotal ∧ -c.costBasisTotal ≤ hi * -c.filled

theorem withinPrices_zero (lo hi : ℤ) : WithinPrices lo hi 0 :=
  ⟨fun _ => by simp, fun _ => by simp⟩

theorem WithinPrices.neg {lo hi : ℤ} {c : Counters} (h : WithinPrices lo hi c) :
    WithinPrices lo hi (-c) where
  long hc := h.short (by simpa using hc)
  short hc := by
    simpa using h.long (by simpa using hc)

/-- The share of the cost basis that a purchase takes out of a short position. -/
theorem tdiv_short {cost part : ℤ} (filled : ℤ) (hpart : 0 ≤ part) (hcost : 0 ≤ -cost) :
    (cost * part).tdiv filled = -cost * part / -filled := by
  rw [← Int.tdiv_eq_ediv_of_nonneg (mul_nonneg hcost hpart), neg_mul, Int.neg_tdiv_neg]

section OneFill

variable {lo hi p q : ℤ} {c : Counters}

/-- A purchase that adds to a position adds its own price. -/
theorem applyBuyFill_cost_of_nonneg (h : 0 ≤ c.filled) :
    (applyBuyFill p q c.filled c).costBasisTotal = c.costBasisTotal + p * q := by
  simp [applyBuyFill, not_lt.2 h]

/-- A purchase that covers a part takes the share of that part. -/
theorem applyBuyFill_cost_of_cover (hq : 0 < q) (hpart : q ≤ -c.filled) :
    (applyBuyFill p q c.filled c).costBasisTotal =
      c.costBasisTotal + (c.costBasisTotal * q).tdiv c.filled := by
  have hneg : c.filled < 0 := by omega
  simp [applyBuyFill, hneg, min_eq_left hpart, hq]

/-- A purchase that turns a short position into a long one leaves the cost of what it opens. -/
theorem applyBuyFill_cost_of_flip (hneg : c.filled < 0) (hflip : -c.filled < q) :
    (applyBuyFill p q c.filled c).costBasisTotal = p * (q + c.filled) := by
  have hall : (c.costBasisTotal * c.filled).tdiv c.filled = c.costBasisTotal :=
    Int.mul_tdiv_cancel _ hneg.ne
  have hopen : 0 < q + c.filled := by omega
  simp [applyBuyFill, hneg, min_eq_right hflip.le, hall, hopen]

/-- **A purchase keeps the cost between the prices.** -/
theorem applyBuyFill_withinPrices (hq : 0 < q) (hlo : 0 ≤ lo) (hp : lo ≤ p ∧ p ≤ hi)
    (h : WithinPrices lo hi c) : WithinPrices lo hi (applyBuyFill p q c.filled c) := by
  rcases le_or_gt 0 c.filled with hfilled | hneg
  · -- it adds to a long position
    obtain ⟨hl, hh⟩ := h.long hfilled
    have hnew : 0 < (applyBuyFill p q c.filled c).filled := by
      rw [applyBuyFill_filled]
      omega
    refine ⟨fun _ => ?_, fun hle => absurd hle (not_le.2 hnew)⟩
    rw [applyBuyFill_filled, applyBuyFill_cost_of_nonneg hfilled]
    constructor
    · linarith [mul_le_mul_of_nonneg_right hp.1 hq.le]
    · linarith [mul_le_mul_of_nonneg_right hp.2 hq.le]
  · obtain ⟨hl, hh⟩ := h.short hneg.le
    rcases le_or_gt q (-c.filled) with hpart | hflip
    · -- it covers a part of a short position, or all of it
      have hcost : 0 ≤ -c.costBasisTotal := (mul_nonneg hlo (by omega)).trans hl
      obtain ⟨hl', hh'⟩ := proRata_bounds (by omega) hpart hl hh
      have hrest : -(c.costBasisTotal + -c.costBasisTotal * q / -c.filled) =
          -c.costBasisTotal - -c.costBasisTotal * q / -c.filled := by ring
      have hshares : -(c.filled + q) = -c.filled - q := by ring
      have hshort : lo * -(c.filled + q) ≤
            -(c.costBasisTotal + -c.costBasisTotal * q / -c.filled) ∧
          -(c.costBasisTotal + -c.costBasisTotal * q / -c.filled) ≤ hi * -(c.filled + q) := by
        rw [hrest, hshares]
        exact ⟨hl', hh'⟩
      refine ⟨fun hge => ?_, fun _ => ?_⟩
      · -- nothing is left of it
        rw [applyBuyFill_filled] at hge
        have hflat : c.filled + q = 0 := by omega
        rw [applyBuyFill_filled, applyBuyFill_cost_of_cover hq hpart, tdiv_short _ hq.le hcost]
        rw [hflat] at hshort ⊢
        constructor <;> linarith [hshort.1, hshort.2]
      · rw [applyBuyFill_filled, applyBuyFill_cost_of_cover hq hpart, tdiv_short _ hq.le hcost]
        exact hshort
    · -- it covers the short position and opens a long one
      have hnew : 0 < (applyBuyFill p q c.filled c).filled := by
        rw [applyBuyFill_filled]
        omega
      refine ⟨fun _ => ?_, fun hle => absurd hle (not_le.2 hnew)⟩
      rw [applyBuyFill_filled, applyBuyFill_cost_of_flip hneg hflip, add_comm c.filled q]
      exact ⟨mul_le_mul_of_nonneg_right hp.1 (by omega),
        mul_le_mul_of_nonneg_right hp.2 (by omega)⟩

/-- So does a sale, a purchase on the negated counters. -/
theorem applySellFill_withinPrices (hq : 0 < q) (hlo : 0 ≤ lo) (hp : lo ≤ p ∧ p ≤ hi)
    (h : WithinPrices lo hi c) : WithinPrices lo hi (applySellFill p q c.filled c) := by
  rw [applySellFill_eq_neg, ← Counters.neg_filled]
  exact (applyBuyFill_withinPrices hq hlo hp h.neg).neg

end OneFill

/-- **One fill keeps the cost between the prices.** -/
theorem Fill.apply_withinPrices {fill : Fill} {lo hi : ℤ} (hq : 0 < fill.quantity) (hlo : 0 ≤ lo)
    (hp : lo ≤ fill.priceScaled ∧ fill.priceScaled ≤ hi) {c : Counters}
    (h : WithinPrices lo hi c) : WithinPrices lo hi (fill.apply c) := by
  cases hside : fill.side with
  | buy =>
      simp only [Fill.apply, hside]
      exact applyBuyFill_withinPrices hq hlo hp h
  | sell =>
      simp only [Fill.apply, hside]
      exact applySellFill_withinPrices hq hlo hp h

/-! ### Lists of fills -/

/-- **Any fills keep the cost between the prices.** -/
theorem applyAll_withinPrices {fills : List Fill} {lo hi : ℤ} (hlo : 0 ≤ lo)
    (hq : ∀ f ∈ fills, 0 < f.quantity)
    (hp : ∀ f ∈ fills, lo ≤ f.priceScaled ∧ f.priceScaled ≤ hi) {c : Counters}
    (h : WithinPrices lo hi c) : WithinPrices lo hi (applyAll fills c) := by
  induction fills generalizing c with
  | nil => exact h
  | cons f fills ih =>
      have hf := Fill.apply_withinPrices (hq f List.mem_cons_self) hlo (hp f List.mem_cons_self) h
      exact ih (fun g hg => hq g (List.mem_cons_of_mem _ hg))
        (fun g hg => hp g (List.mem_cons_of_mem _ hg)) hf

/-- The same with absolute values. -/
theorem WithinPrices.abs {lo hi : ℤ} {c : Counters} (hlo : 0 ≤ lo) (h : WithinPrices lo hi c) :
    lo * |c.filled| ≤ |c.costBasisTotal| ∧ |c.costBasisTotal| ≤ hi * |c.filled| ∧
      (0 < c.filled → 0 ≤ c.costBasisTotal) ∧ (c.filled < 0 → c.costBasisTotal ≤ 0) := by
  rcases le_total 0 c.filled with hfilled | hfilled
  · obtain ⟨hl, hh⟩ := h.long hfilled
    have hcost : 0 ≤ c.costBasisTotal := (mul_nonneg hlo hfilled).trans hl
    rw [abs_of_nonneg hfilled, abs_of_nonneg hcost]
    exact ⟨hl, hh, fun _ => hcost, fun hneg => absurd hneg (not_lt.2 hfilled)⟩
  · obtain ⟨hl, hh⟩ := h.short hfilled
    have hcost : 0 ≤ -c.costBasisTotal := (mul_nonneg hlo (by omega)).trans hl
    rw [abs_of_nonpos hfilled, abs_of_nonpos (by omega)]
    exact ⟨hl, hh, fun hpos => absurd hpos (not_lt.2 hfilled), fun _ => by omega⟩

/-! ### Through the table -/

/-- The calls of `onFill` up to some point are as well booked as all of them. -/
theorem Booked.of_isPrefix {fills before : List Fill} {symbol : List UInt8}
    (h : Booked fills symbol) (hpre : before <+: fills) : Booked before symbol := by
  rcases h with hone | ⟨hk, hcard⟩
  · exact Or.inl fun f hf => hone f (hpre.subset hf)
  · refine Or.inr ⟨fun f hf => hk f (hpre.subset hf), (Finset.card_le_card ?_).trans hcard⟩
    intro k hk
    obtain ⟨f, hf, rfl⟩ := List.mem_map.1 (List.mem_toFinset.1 hk)
    exact List.mem_toFinset.2 (List.mem_map_of_mem (hpre.subset hf))

/-- **The average cost stays within the traded prices.**  At every point of any calls of `onFill`
in which the fills of a symbol have positive quantities and prices between `pmin` and `pmax`, the
absolute cost basis of the symbol is between `pmin` and `pmax` times its absolute position, and has
the sign of the position. -/
theorem average_cost_within_traded_prices (pmin pmax : ℤ) (hpmin : 0 ≤ pmin) (symbol : List UInt8)
    (fills : List Fill) (hb : Booked fills symbol)
    (hfills : ∀ f ∈ fills, f.key = symbolToKey symbol →
      0 < f.quantity ∧ pmin ≤ f.priceScaled ∧ f.priceScaled ≤ pmax)
    (before : List Fill) (hpre : before <+: fills) :
    let pm := before.foldl PositionManager.onFill {}
    pmin * |pm.getFilledPosition symbol| ≤ |pm.getCostBasis symbol| ∧
      |pm.getCostBasis symbol| ≤ pmax * |pm.getFilledPosition symbol| ∧
      (0 < pm.getFilledPosition symbol → 0 ≤ pm.getCostBasis symbol) ∧
      (pm.getFilledPosition symbol < 0 → pm.getCostBasis symbol ≤ 0) := by
  intro pm
  have hbooked := hb.of_isPrefix hpre
  have hcost : pm.getCostBasis symbol = _ := PositionManager.read_foldl_onFill hbooked rfl
  have hfilled : pm.getFilledPosition symbol = _ := PositionManager.read_foldl_onFill hbooked rfl
  have hown : ∀ f ∈ before.filter fun f => f.key = symbolToKey symbol,
      0 < f.quantity ∧ pmin ≤ f.priceScaled ∧ f.priceScaled ≤ pmax := by
    intro f hf
    obtain ⟨hmem, hkey⟩ := List.mem_filter.1 hf
    exact hfills f (hpre.subset hmem) (by simpa using hkey)
  rw [hcost, hfilled]
  exact (applyAll_withinPrices hpmin (fun f hf => (hown f hf).1) (fun f hf => (hown f hf).2)
    (withinPrices_zero pmin pmax)).abs hpmin

/-- Seven shares bought at two prices, two of them sold: the division by seven is not exact. -/
theorem average_cost_of_three_fills :
    let aapl : CharArray 8 := CharArray.ofBytes 8 [65, 65, 80, 76]
    let fills : List Fill := [⟨aapl, .buy, 3, 10⟩, ⟨aapl, .buy, 4, 11⟩, ⟨aapl, .sell, 2, 10⟩]
    let pm := fills.foldl PositionManager.onFill {}
    pm.getFilledPosition [65, 65, 80, 76] = 5 ∧ pm.getCostBasis [65, 65, 80, 76] = 528572 ∧
      |pm.getCostBasis [65, 65, 80, 76]| ≤ 110000 * |pm.getFilledPosition [65, 65, 80, 76]| := by
  intro aapl fills pm
  have hone : ∀ f ∈ fills, f.key = symbolToKey [65, 65, 80, 76] := by
    intro f hf
    simp only [fills, List.mem_cons, List.not_mem_nil, or_false] at hf
    rcases hf with rfl | rfl | rfl <;> rfl
  have h := average_cost_within_traded_prices 100000 110000 (by decide) [65, 65, 80, 76] fills
    (Or.inl hone) (by decide +kernel) fills (List.prefix_refl _)
  exact ⟨by decide +kernel, by decide +kernel, h.2.1⟩

end Trading
