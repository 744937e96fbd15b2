/-
**Profit and loss is conserved.**

A fill moves cash: a sale brings `price * qty` in, a purchase takes it out.  The position manager
splits that amount between the cost basis of the open position and the realized profit, with a
truncating division when a position is closed in part.  What the division loses on one side it adds
on the other, so the two always sum up to the cash flow; and a flat position has no cost basis.

The source has four branches for a purchase and four for a sale.  They are mirror images — a sale
is a purchase on the negated counters (`Trading.applySellFill_eq_neg`), the division included — so
each fact is proved for purchases only.

Main definitions:

* `Trading.cashOf`, `Trading.soldFor`, `Trading.boughtFor` — the cash a list of fills moves;
* `Trading.Balanced` — realized profit is cash plus cost basis, and a flat position costs nothing.

Main results:

* `Trading.Fill.apply_balanced` — one fill keeps the balance;
* `Trading.applyAll_balanced` — any list of fills does;
* `Trading.realized_pnl_is_cash_plus_cost_basis` — the getters of a position manager, after any
  calls of `onFill`.
-/

import TradingAlgo.PositionBook

set_option relaxedAutoImplicit false
set_option autoImplicit false

namespace Trading

/-! ### Sales mirror purchases -/

/-- The counters of the opposite position. -/
instance : Neg Counters :=
  ⟨fun c => ⟨-c.filled, -c.pending, -c.costBasisTotal, -c.realizedPnl⟩⟩

@[simp] theorem Counters.neg_filled (c : Counters) : (-c).filled = -c.filled := rfl
@[simp] theorem Counters.neg_pending (c : Counters) : (-c).pending = -c.pending := rfl
@[simp] theorem Counters.neg_costBasisTotal (c : Counters) :
    (-c).costBasisTotal = -c.costBasisTotal := rfl
@[simp] theorem Counters.neg_realizedPnl (c : Counters) : (-c).realizedPnl = -c.realizedPnl := rfl

/-- **A sale is a purchase on the negated counters**: the truncating division of a negative total
by a negative position is the division of the positive ones. -/
theorem applySellFill_eq_neg (p q f : ℤ) (c : Counters) :
    applySellFill p q f c = -applyBuyFill p q (-f) (-c) := by
  have hdiv : (-c.costBasisTotal * min q f).tdiv (-f) = (c.costBasisTotal * min q f).tdiv f := by
    rw [neg_mul, Int.neg_tdiv_neg]
  simp only [applySellFill, applyBuyFill, neg_neg, neg_lt_zero, Counters.neg_costBasisTotal, hdiv]
  split_ifs
  all_goals
    ext
    all_goals
      simp only [Counters.neg_filled, Counters.neg_pending, Counters.neg_costBasisTotal,
        Counters.neg_realizedPnl]
      ring

/-! ### One fill -/

@[simp] theorem applyBuyFill_filled (p q f : ℤ) (c : Counters) :
    (applyBuyFill p q f c).filled = c.filled + q := by
  simp only [applyBuyFill]
  split_ifs <;> rfl

@[simp] theorem applyBuyFill_pending (p q f : ℤ) (c : Counters) :
    (applyBuyFill p q f c).pending = c.pending - q := by
  simp only [applyBuyFill]
  split_ifs <;> rfl

@[simp] theorem applySellFill_filled (p q f : ℤ) (c : Counters) :
    (applySellFill p q f c).filled = c.filled - q := by
  simp only [applySellFill]
  split_ifs <;> rfl

@[simp] theorem applySellFill_pending (p q f : ℤ) (c : Counters) :
    (applySellFill p q f c).pending = c.pending + q := by
  simp only [applySellFill]
  split_ifs <;> rfl

/-- A fill moves its quantity from the pending to the filled position. -/
theorem Fill.apply_filled (fill : Fill) (c : Counters) :
    (fill.apply c).filled = c.filled + fill.side.signed fill.quantity := by
  cases h : fill.side <;> simp [Fill.apply, h, sub_eq_add_neg]

theorem Fill.apply_pending (fill : Fill) (c : Counters) :
    (fill.apply c).pending = c.pending - fill.side.signed fill.quantity := by
  cases h : fill.side <;> simp [Fill.apply, h]

/-- A purchase moves its price out of the difference of realized profit and cost basis, whatever
the division rounds to. -/
theorem applyBuyFill_cash {p q f : ℤ} (hq : 0 < q) (c : Counters) :
    (applyBuyFill p q f c).realizedPnl - (applyBuyFill p q f c).costBasisTotal =
      c.realizedPnl - c.costBasisTotal - p * q := by
  by_cases hf : f < 0
  · -- the cover is positive, and what it leaves open is positive or nothing
    have hcover : 0 < min q (-f) := lt_min hq (by omega)
    by_cases ho : 0 < q - min q (-f)
    · simp only [applyBuyFill, hf, hcover, ho, if_true]
      ring
    · have hopen : min q (-f) = q := by omega
      simp only [applyBuyFill, hf, hopen, hq, sub_self, lt_irrefl, if_true, if_false]
      ring
  · simp only [applyBuyFill, hf, if_false]
    ring

/-- A purchase that leaves the position flat leaves no cost basis: it covers the whole position,
and then the division is exact. -/
theorem applyBuyFill_flat {p q : ℤ} (hq : 0 < q) {c : Counters} (hflat : c.filled + q = 0) :
    (applyBuyFill p q c.filled c).costBasisTotal = 0 := by
  have hf : c.filled < 0 := by omega
  have hcover : min q (-c.filled) = q := by omega
  have hdiv : (c.costBasisTotal * q).tdiv c.filled = -c.costBasisTotal := by
    rw [show q = -c.filled by omega, mul_neg, Int.neg_tdiv, Int.mul_tdiv_cancel _ hf.ne]
  simp only [applyBuyFill, hf, hcover, hq, sub_self, lt_irrefl, if_true, if_false, hdiv]
  ring

theorem applySellFill_cash {p q f : ℤ} (hq : 0 < q) (c : Counters) :
    (applySellFill p q f c).realizedPnl - (applySellFill p q f c).costBasisTotal =
      c.realizedPnl - c.costBasisTotal + p * q := by
  have h := applyBuyFill_cash (p := p) (f := -f) hq (-c)
  rw [applySellFill_eq_neg]
  simp only [Counters.neg_realizedPnl, Counters.neg_costBasisTotal] at h ⊢
  linarith

theorem applySellFill_flat {p q : ℤ} (hq : 0 < q) {c : Counters} (hflat : c.filled - q = 0) :
    (applySellFill p q c.filled c).costBasisTotal = 0 := by
  have h : (-c).filled + q = 0 := by simp only [Counters.neg_filled]; omega
  rw [applySellFill_eq_neg, Counters.neg_costBasisTotal, ← Counters.neg_filled,
    applyBuyFill_flat hq h, neg_zero]

/-! ### Lists of fills -/

/-- The cash a fill moves: what a sale brings in, what a purchase takes out. -/
def cashOf (fill : Fill) : ℤ := -fill.side.signed (fill.priceScaled * fill.quantity)

/-- The sum of `price * qty` over the fills of one side. -/
def tradedOn (side : OrderSide) (fills : List Fill) : ℤ :=
  ((fills.filter fun f => f.side = side).map fun f => f.priceScaled * f.quantity).sum

/-- The sum of `price * qty` over the sales. -/
def soldFor (fills : List Fill) : ℤ := tradedOn .sell fills

/-- The sum of `price * qty` over the purchases. -/
def boughtFor (fills : List Fill) : ℤ := tradedOn .buy fills

theorem soldFor_sub_boughtFor (fills : List Fill) :
    soldFor fills - boughtFor fills = (fills.map cashOf).sum := by
  induction fills with
  | nil => rfl
  | cons f fills ih =>
      cases h : f.side <;>
        simp [soldFor, boughtFor, tradedOn, cashOf, h] at ih ⊢ <;> linarith

/-- Realized profit is cash plus cost basis, and a flat position has no cost basis. -/
structure Balanced (cash : ℤ) (c : Counters) : Prop where
  realized : c.realizedPnl = cash + c.costBasisTotal
  flat : c.filled = 0 → c.costBasisTotal = 0

theorem balanced_zero : Balanced 0 0 := ⟨rfl, fun _ => rfl⟩

/-- **One fill keeps the balance.** -/
theorem Fill.apply_balanced {fill : Fill} (hq : 0 < fill.quantity) {cash : ℤ} {c : Counters}
    (h : Balanced cash c) : Balanced (cash + cashOf fill) (fill.apply c) := by
  have hreal := h.realized
  cases hside : fill.side with
  | buy =>
      have hcash := applyBuyFill_cash (p := fill.priceScaled) (f := c.filled) hq c
      refine ⟨?_, fun hflat => ?_⟩
      · simp only [Fill.apply, cashOf, hside, OrderSide.signed_buy]
        linarith
      · simp only [Fill.apply, hside, applyBuyFill_filled] at hflat ⊢
        exact applyBuyFill_flat hq hflat
  | sell =>
      have hcash := applySellFill_cash (p := fill.priceScaled) (f := c.filled) hq c
      refine ⟨?_, fun hflat => ?_⟩
      · simp only [Fill.apply, cashOf, hside, OrderSide.signed_sell]
        linarith
      · simp only [Fill.apply, hside, applySellFill_filled] at hflat ⊢
        exact applySellFill_flat hq hflat

/-- The counters after a list of fills of one symbol. -/
def applyAll (fills : List Fill) (c : Counters) : Counters :=
  fills.foldl (fun c fill => fill.apply c) c

/-- **Any list of fills keeps the balance.** -/
theorem applyAll_balanced {fills : List Fill} (hq : ∀ f ∈ fills, 0 < f.quantity) {cash : ℤ}
    {c : Counters} (h : Balanced cash c) :
    Balanced (cash + (fills.map cashOf).sum) (applyAll fills c) := by
  induction fills generalizing cash c with
  | nil => simpa [applyAll] using h
  | cons f fills ih =>
      have hf := Fill.apply_balanced (hq f List.mem_cons_self) h
      have := ih (fun g hg => hq g (List.mem_cons_of_mem _ hg)) hf
      simpa [applyAll, add_assoc] using this

/-! ### Through the table -/

/-- The key a fill is booked under. -/
def Fill.key (fill : Fill) : UInt64 := symbolBufferToKey fill.symbol

/-- While the table has room, the counters of a key are those of its own fills. -/
theorem Book.foldl_onFill_counters (fills : List Fill) :
    ∀ b : Book, (b.keys ∪ (fills.map Fill.key).toFinset).card ≤ kMaxSymbols → ∀ k,
      (fills.foldl Book.onFill b).counters k =
        applyAll (fills.filter fun f => f.key = k) (b.counters k) := by
  induction fills with
  | nil => intro b _ k; rfl
  | cons f fills ih =>
      intro b hcard k
      have hins : insert f.key b.keys ∪ (fills.map Fill.key).toFinset =
          b.keys ∪ ((f :: fills).map Fill.key).toFinset := by
        rw [List.map_cons, List.toFinset_cons, Finset.insert_union, Finset.union_insert]
      have htakes : b.Takes f.key := by
        by_cases hmem : f.key ∈ b.keys
        · exact Or.inl hmem
        · refine Or.inr ?_
          have hsub : insert f.key b.keys ⊆ b.keys ∪ ((f :: fills).map Fill.key).toFinset :=
            hins ▸ Finset.subset_union_left
          have := (Finset.card_le_card hsub).trans hcard
          rwa [Finset.card_insert_of_notMem hmem, Nat.succ_le_iff] at this
      obtain ⟨hkeys, hcnt⟩ := Book.touch_of_takes htakes f.apply
      have hnext : (b.onFill f).keys = insert f.key b.keys := hkeys
      rw [List.foldl_cons, ih (b.onFill f) (by rw [hnext, hins]; exact hcard) k]
      by_cases hk : f.key = k
      · rw [List.filter_cons_of_pos (by simpa using hk)]
        show applyAll _ ((b.touch f.key f.apply).counters k) = _
        rw [hcnt, hk, Function.update_self]
        rfl
      · rw [List.filter_cons_of_neg (by simpa using hk)]
        show applyAll _ ((b.touch f.key f.apply).counters k) = _
        rw [hcnt, Function.update_of_ne (Ne.symm hk)]

/-- The table follows the book through any fills that avoid the reserved key. -/
theorem PositionManager.Refines.foldl_onFill {fills : List Fill}
    (hk : ∀ f ∈ fills, f.key ≠ kEmptySlot) :
    ∀ {pm : PositionManager} {b : Book}, pm.Refines b →
      (fills.foldl PositionManager.onFill pm).Refines (fills.foldl Book.onFill b) := by
  induction fills with
  | nil => intro pm b h; exact h
  | cons f fills ih =>
      intro pm b h
      exact ih (fun g hg => hk g (List.mem_cons_of_mem _ hg))
        (h.onFill f (hk f List.mem_cons_self))

/-- While its key stands in its home slot, every fill of a symbol goes there.  This is so for the
reserved key too, as long as no other symbol is inserted. -/
theorem PositionManager.foldl_onFill_home {k : UInt64} {fills : List Fill}
    (hk : ∀ f ∈ fills, f.key = k) :
    ∀ {pm : PositionManager}, pm.keys (start k) = k →
      (fills.foldl PositionManager.onFill pm).keys (start k) = k ∧
        ((fills.foldl PositionManager.onFill pm).table (start k)).counters =
          applyAll fills (pm.table (start k)).counters := by
  induction fills with
  | nil => intro pm h; exact ⟨h, rfl⟩
  | cons f fills ih =>
      intro pm h
      have hf : f.key = k := hk f List.mem_cons_self
      have hstep : pm.onFill f = pm.modify (start k) f.apply := by
        show pm.touch f.key f.apply = _
        rw [hf, PositionManager.touch, PositionManager.findOrInsert_eq,
          Probing.firstStop_of_home h]
        simp [h]
      have hhome : (pm.onFill f).keys (start k) = k := by
        rw [hstep, PositionManager.keys_modify]
        exact h
      obtain ⟨hkeys, hcnt⟩ := ih (fun g hg => hk g (List.mem_cons_of_mem _ hg)) hhome
      rw [List.foldl_cons]
      refine ⟨hkeys, ?_⟩
      rw [hcnt, hstep, PositionManager.counters_modify, if_pos rfl]
      rfl

theorem PositionManager.read_home {pm : PositionManager} {symbol : List UInt8}
    (h : pm.keys (start (symbolToKey symbol)) = symbolToKey symbol) (field : Counters → ℤ) :
    pm.read symbol field = field (pm.table (start (symbolToKey symbol))).counters := by
  rw [PositionManager.read, PositionManager.find_eq, Probing.firstStop_of_home h]
  simp [h]

/-- The calls of `onFill` are all for one symbol, or for at most `kMaxSymbols` symbols none of
which is the reserved one: no call is dropped and no entry is shared. -/
def Booked (fills : List Fill) (symbol : List UInt8) : Prop :=
  (∀ f ∈ fills, f.key = symbolToKey symbol) ∨
    ((∀ f ∈ fills, f.key ≠ kEmptySlot) ∧ (fills.map Fill.key).toFinset.card ≤ kMaxSymbols)

/-- The getters of a new position manager after calls of `onFill` read the counters of the fills
of their own symbol. -/
theorem PositionManager.read_foldl_onFill {fills : List Fill} {symbol : List UInt8}
    (hb : Booked fills symbol) {field : Counters → ℤ} (hfield : field 0 = 0) :
    (fills.foldl PositionManager.onFill {}).read symbol field =
      field (applyAll (fills.filter fun f => f.key = symbolToKey symbol) 0) := by
  -- the general case: the table follows the book
  have hmany : (∀ f ∈ fills, f.key ≠ kEmptySlot) →
      (fills.map Fill.key).toFinset.card ≤ kMaxSymbols →
      (fills.foldl PositionManager.onFill {}).read symbol field =
        field (applyAll (fills.filter fun f => f.key = symbolToKey symbol) 0) := by
    intro hk hcard
    have href := PositionManager.Refines.foldl_onFill hk PositionManager.refines_empty
    rw [href.read symbol hfield,
      Book.foldl_onFill_counters fills Book.empty (by simpa [Book.empty] using hcard)]
    rfl
  rcases hb with hone | ⟨hk, hcard⟩
  · by_cases hres : symbolToKey symbol = kEmptySlot
    · have hkey :
          ({} : PositionManager).keys (start (symbolToKey symbol)) = symbolToKey symbol := by
        rw [hres]; rfl
      obtain ⟨hkey', hcnt⟩ := PositionManager.foldl_onFill_home hone hkey
      have hall : (fills.filter fun f => f.key = symbolToKey symbol) = fills :=
        List.filter_eq_self.2 fun f hf => by simpa using hone f hf
      rw [PositionManager.read_home hkey', hcnt, hall]
      rfl
    · refine hmany (fun f hf => hone f hf ▸ hres) ?_
      have hsub : (fills.map Fill.key).toFinset ⊆ {symbolToKey symbol} := by
        intro k hk
        obtain ⟨f, hf, rfl⟩ := List.mem_map.1 (List.mem_toFinset.1 hk)
        rw [Finset.mem_singleton]
        exact hone f hf
      exact (Finset.card_le_card hsub).trans (by rw [Finset.card_singleton]; decide)
  · exact hmany hk hcard

/-- **Profit and loss is conserved.**  After any calls of `onFill` with positive quantities the
realized profit of a symbol is what its sales brought in, less what its purchases cost, plus its
cost basis; and with a flat position the cost basis is zero, so that it is the net cash flow. -/
theorem realized_pnl_is_cash_plus_cost_basis (fills : List Fill)
    (hq : ∀ f ∈ fills, 0 < f.quantity) (symbol : List UInt8) (hb : Booked fills symbol) :
    let pm := fills.foldl PositionManager.onFill {}
    let own := fills.filter fun f => f.key = symbolToKey symbol
    pm.getRealizedPnl symbol = soldFor own - boughtFor own + pm.getCostBasis symbol ∧
      (pm.getFilledPosition symbol = 0 →
        pm.getCostBasis symbol = 0 ∧ pm.getRealizedPnl symbol = soldFor own - boughtFor own) := by
  intro pm own
  have hown : ∀ f ∈ own, 0 < f.quantity := fun f hf => hq f (List.mem_filter.1 hf).1
  have hbal := applyAll_balanced hown balanced_zero
  rw [zero_add, ← soldFor_sub_boughtFor] at hbal
  have hreal : pm.getRealizedPnl symbol = (applyAll own 0).realizedPnl :=
    PositionManager.read_foldl_onFill hb rfl
  have hcost : pm.getCostBasis symbol = (applyAll own 0).costBasisTotal :=
    PositionManager.read_foldl_onFill hb rfl
  have hfilled : pm.getFilledPosition symbol = (applyAll own 0).filled :=
    PositionManager.read_foldl_onFill hb rfl
  rw [hreal, hcost, hfilled]
  refine ⟨hbal.realized, fun hflat => ⟨hbal.flat hflat, ?_⟩⟩
  rw [hbal.realized, hbal.flat hflat, add_zero]

/-- Three shares bought for 200006 in all and sold in two lots: the division by three is not
exact. -/
theorem realized_pnl_of_four_fills :
    let aapl : CharArray 8 := CharArray.ofBytes 8 [65, 65, 80, 76]
    let fills : List Fill :=
      [⟨aapl, .buy, 2, 10⟩, ⟨aapl, .buy, 1, 6 / 10000⟩, ⟨aapl, .sell, 1, 11⟩, ⟨aapl, .sell, 2, 9⟩]
    let pm := fills.foldl PositionManager.onFill {}
    pm.getRealizedPnl [65, 65, 80, 76] =
      soldFor fills - boughtFor fills + pm.getCostBasis [65, 65, 80, 76] := by
  intro aapl fills pm
  have hone : ∀ f ∈ fills, f.key = symbolToKey [65, 65, 80, 76] := by
    intro f hf
    simp only [fills, List.mem_cons, List.not_mem_nil, or_false] at hf
    rcases hf with rfl | rfl | rfl | rfl <;> rfl
  have hown : (fills.filter fun f => f.key = symbolToKey [65, 65, 80, 76]) = fills :=
    List.filter_eq_self.2 fun f hf => by simpa using hone f hf
  have h := (realized_pnl_is_cash_plus_cost_basis fills (by decide) [65, 65, 80, 76]
    (Or.inl hone)).1
  rwa [hown] at h

end Trading
