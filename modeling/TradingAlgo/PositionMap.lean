/-
**The position manager as a finite map of symbols.**

`TradingAlgo/PositionBook.lean` relates the probing table to a book of 64-bit keys.  Here the book
is related to what a caller thinks of: a finite map from symbols — eight bytes, zero-padded and
cut off after the eighth — to counters, with room for 256 of them.  The map is Mathlib's `Finmap`
and knows nothing of keys, hashes and slots.

Main definitions:

* `Trading.SymbolMap` — the map, with `touch`, `amend` and `get`;
* `Trading.PositionCall` — the four calls that change a position manager;
* `Trading.SymbolMap.Agrees` — the map has the entries of a book.

Main results:

* `Trading.SymbolMap.Agrees.call` — every call is the same operation on the map and on the book;
* `Trading.PositionManager.call_of_full` — a full table drops a call for a new symbol as a whole;
* `Trading.position_manager_refines_map` — the getters return what the map holds, after every
  sequence of calls.
-/

import TradingAlgo.PositionBook
import Mathlib.Data.Finmap

set_option relaxedAutoImplicit false
set_option autoImplicit false

namespace Trading

/-! ### The map -/

/-- A finite map from symbols to counters. -/
abbrev SymbolMap := Finmap fun _ : CharArray 8 => Counters

namespace SymbolMap

/-- The counters of a symbol, zero when it is absent. -/
def get (m : SymbolMap) (symbol : CharArray 8) : Counters := (m.lookup symbol).getD 0

/-- Change the counters of a symbol, from zero when it is absent and there is room; otherwise do
nothing. -/
def touch (m : SymbolMap) (symbol : CharArray 8) (f : Counters → Counters) : SymbolMap :=
  if symbol ∈ m ∨ m.keys.card < 256 then m.insert symbol (f (m.get symbol)) else m

/-- Change the counters of a symbol if it is present. -/
def amend (m : SymbolMap) (symbol : CharArray 8) (f : Counters → Counters) : SymbolMap :=
  if symbol ∈ m then m.insert symbol (f (m.get symbol)) else m

theorem get_insert (m : SymbolMap) (symbol symbol' : CharArray 8) (c : Counters) :
    get (m.insert symbol c) symbol' = if symbol' = symbol then c else m.get symbol' := by
  by_cases h : symbol' = symbol
  · subst h
    simp [get]
  · simp [get, h]

theorem keys_insert (m : SymbolMap) (symbol : CharArray 8) (c : Counters) :
    (m.insert symbol c).keys = insert symbol m.keys := by
  ext symbol'
  simp [Finmap.mem_keys]

end SymbolMap

/-! ### The calls -/

/-- The calls that change a position manager. -/
inductive PositionCall
  | registerSymbol (symbol : List UInt8)
  | onFill (fill : Fill)
  | onOrderSent (order : Order)
  | onOrderCancelled (order : Order)
  deriving DecidableEq, Repr

/-- The symbol that a call is about, as eight bytes. -/
def PositionCall.symbol : PositionCall → CharArray 8
  | .registerSymbol symbol => CharArray.ofBytes 8 symbol
  | .onFill fill => fill.symbol
  | .onOrderSent order => order.symbol
  | .onOrderCancelled order => order.symbol

/-- A call of the position manager. -/
def PositionManager.call (pm : PositionManager) : PositionCall → PositionManager
  | .registerSymbol symbol => pm.registerSymbol symbol
  | .onFill fill => pm.onFill fill
  | .onOrderSent order => pm.onOrderSent order
  | .onOrderCancelled order => pm.onOrderCancelled order

/-- The call on the book of keys. -/
def Book.call (b : Book) : PositionCall → Book
  | .registerSymbol symbol => b.registerSymbol symbol
  | .onFill fill => b.onFill fill
  | .onOrderSent order => b.onOrderSent order
  | .onOrderCancelled order => b.onOrderCancelled order

/-- The call on the map. -/
def SymbolMap.call (m : SymbolMap) : PositionCall → SymbolMap
  | .registerSymbol symbol => m.touch (CharArray.ofBytes 8 symbol) id
  | .onFill fill => m.touch fill.symbol fill.apply
  | .onOrderSent order => m.touch order.symbol order.sent
  | .onOrderCancelled order => m.amend order.symbol order.cancelled

/-! ### The map and the book -/

namespace SymbolMap

/-- The map has the entries of the book: the same symbols, as many of them, and their counters. -/
structure Agrees (m : SymbolMap) (b : Book) : Prop where
  mem : ∀ symbol, symbol ∈ m ↔ symbolBufferToKey symbol ∈ b.keys
  card : m.keys.card = b.keys.card
  get : ∀ symbol, m.get symbol = b.counters (symbolBufferToKey symbol)

theorem agrees_empty : Agrees ∅ Book.empty where
  mem := by simp [Book.empty, Finmap.notMem_empty]
  card := by simp [Book.empty]
  get := by simp [Book.empty, SymbolMap.get]

variable {m : SymbolMap} {b : Book}

/-- The room for a symbol is the room for its key. -/
theorem Agrees.takes_iff (h : Agrees m b) (symbol : CharArray 8) :
    (symbol ∈ m ∨ m.keys.card < 256) ↔ b.Takes (symbolBufferToKey symbol) := by
  rw [h.mem, h.card]
  rfl

/-- An entry is made or changed in both. -/
theorem Agrees.insert (h : Agrees m b) (symbol : CharArray 8) {c : Counters} {b' : Book}
    (hkeys : b'.keys = Insert.insert (symbolBufferToKey symbol) b.keys)
    (hcnt : b'.counters = Function.update b.counters (symbolBufferToKey symbol) c) :
    Agrees (m.insert symbol c) b' where
  mem := by
    intro symbol'
    rw [Finmap.mem_insert, hkeys, Finset.mem_insert, h.mem, symbolBufferToKey_injective.eq_iff]
  card := by
    rw [keys_insert, hkeys]
    by_cases hmem : symbol ∈ m
    · rw [Finset.insert_eq_of_mem (Finmap.mem_keys.2 hmem),
        Finset.insert_eq_of_mem ((h.mem symbol).1 hmem), h.card]
    · rw [Finset.card_insert_of_notMem (fun hk => hmem (Finmap.mem_keys.1 hk)),
        Finset.card_insert_of_notMem (fun hk => hmem ((h.mem symbol).2 hk)), h.card]
  get := by
    intro symbol'
    rw [get_insert, hcnt, Function.update_apply, h.get]
    simp only [symbolBufferToKey_injective.eq_iff]

theorem Agrees.touch (h : Agrees m b) (symbol : CharArray 8) (f : Counters → Counters) :
    Agrees (m.touch symbol f) (b.touch (symbolBufferToKey symbol) f) := by
  unfold SymbolMap.touch
  by_cases ht : symbol ∈ m ∨ m.keys.card < 256
  · rw [if_pos ht, h.get]
    obtain ⟨hkeys, hcnt⟩ := Book.touch_of_takes ((h.takes_iff symbol).1 ht) f
    exact h.insert symbol hkeys hcnt
  · rw [if_neg ht, Book.touch_of_not_takes (fun hb => ht ((h.takes_iff symbol).2 hb))]
    exact h

theorem Agrees.amend (h : Agrees m b) (symbol : CharArray 8) (f : Counters → Counters) :
    Agrees (m.amend symbol f) (b.amend (symbolBufferToKey symbol) f) := by
  unfold SymbolMap.amend
  by_cases hmem : symbol ∈ m
  · rw [if_pos hmem, h.get]
    have hmem' := (h.mem symbol).1 hmem
    obtain ⟨hkeys, hcnt⟩ := Book.amend_of_mem hmem' f
    exact h.insert symbol (hkeys.trans (Finset.insert_eq_of_mem hmem').symm) hcnt
  · rw [if_neg hmem, Book.amend_of_notMem (fun hb => hmem ((h.mem symbol).2 hb))]
    exact h

/-- **Every call is the same operation on the map and on the book.** -/
theorem Agrees.call (h : Agrees m b) (c : PositionCall) : Agrees (m.call c) (b.call c) := by
  cases c with
  | registerSymbol symbol => exact h.touch (CharArray.ofBytes 8 symbol) id
  | onFill fill => exact h.touch fill.symbol fill.apply
  | onOrderSent order => exact h.touch order.symbol order.sent
  | onOrderCancelled order => exact h.amend order.symbol order.cancelled

end SymbolMap

/-! ### The table and the book -/

/-- A call changes no other symbol's counters. -/
theorem Book.call_counters_of_ne (b : Book) (c : PositionCall) {k : UInt64}
    (hk : k ≠ symbolBufferToKey c.symbol) : (b.call c).counters k = b.counters k := by
  cases c with
  | registerSymbol symbol => exact b.touch_counters_of_ne id hk
  | onFill fill => exact b.touch_counters_of_ne fill.apply hk
  | onOrderSent order => exact b.touch_counters_of_ne order.sent hk
  | onOrderCancelled order => exact b.amend_counters_of_ne order.cancelled hk

namespace PositionManager

open Probing

variable {pm : PositionManager} {b : Book}

theorem Refines.call (h : Refines pm b) (c : PositionCall)
    (hk : symbolBufferToKey c.symbol ≠ kEmptySlot) : Refines (pm.call c) (b.call c) := by
  cases c with
  | registerSymbol symbol => exact h.registerSymbol hk
  | onFill fill => exact h.onFill fill hk
  | onOrderSent order => exact h.onOrderSent order hk
  | onOrderCancelled order => exact h.onOrderCancelled order hk

/-- The search for a key that a full table does not have goes once around and gives up. -/
theorem Refines.firstStop_of_full (h : Refines pm b) {k : UInt64} (hk : k ≠ kEmptySlot)
    (hnew : k ∉ b.keys) (hfull : b.keys.card = kMaxSymbols) :
    firstStop start kEmptySlot pm.keys k = none := by
  cases hs : firstStop start kEmptySlot pm.keys k with
  | none => rfl
  | some j =>
      obtain ⟨-, -, -, -, hstop, -⟩ := scan_some hs
      rcases of_decide_eq_true hstop with hj | hj
      · exact absurd (h.mem_keys.2 ⟨hk, j, hj⟩) hnew
      · have hroom := h.card_lt_iff.2 ⟨j, hj⟩
        omega

/-- **A full table drops a call for a new symbol as a whole.** -/
theorem call_of_full (h : Refines pm b) (c : PositionCall)
    (hk : symbolBufferToKey c.symbol ≠ kEmptySlot) (hnew : symbolBufferToKey c.symbol ∉ b.keys)
    (hfull : b.keys.card = kMaxSymbols) : pm.call c = pm := by
  have hstop := h.firstStop_of_full hk hnew hfull
  have htouch : ∀ f, pm.touch (symbolBufferToKey c.symbol) f = pm := by
    intro f
    simp only [touch, findOrInsert_eq, hstop]
  cases c with
  | registerSymbol symbol =>
      rw [PositionManager.call, registerSymbol_eq_touch]
      exact htouch id
  | onFill fill => exact htouch fill.apply
  | onOrderSent order => exact htouch order.sent
  | onOrderCancelled order =>
      have hfind : pm.find (symbolBufferToKey order.symbol) = none := by
        rw [find_eq]
        exact congrArg (Option.bind · _) hstop
      simp only [PositionManager.call, onOrderCancelled, findMutable_eq_find, hfind]

end PositionManager

/-- Table, book and map after a sequence of calls. -/
theorem refines_and_agrees_foldl (calls : List PositionCall)
    (hkeys : ∀ c ∈ calls, symbolBufferToKey c.symbol ≠ kEmptySlot) :
    ∃ b, PositionManager.Refines (calls.foldl PositionManager.call {}) b ∧
      SymbolMap.Agrees (calls.foldl SymbolMap.call ∅) b := by
  induction calls using List.reverseRecOn with
  | nil => exact ⟨Book.empty, PositionManager.refines_empty, SymbolMap.agrees_empty⟩
  | append_singleton calls c ih =>
      obtain ⟨b, href, hagree⟩ := ih fun c' hc' => hkeys c' (List.mem_append_left _ hc')
      refine ⟨b.call c, ?_, ?_⟩
      · rw [List.foldl_append]
        exact href.call c (hkeys c (by simp))
      · rw [List.foldl_append]
        exact hagree.call c

/-- **The position manager refines a map with room for 256 symbols.**  After every sequence of
calls, none of them for the reserved key, each getter returns for each symbol what the map holds.
One more call changes no other symbol's counters, none at all when it only registers, and nothing
in the table when there is no room for its symbol. -/
theorem position_manager_refines_map (calls : List PositionCall)
    (hkeys : ∀ c ∈ calls, symbolBufferToKey c.symbol ≠ kEmptySlot) :
    let pm := calls.foldl PositionManager.call {}
    let m := calls.foldl SymbolMap.call ∅
    (∀ symbol : List UInt8,
      pm.getFilledPosition symbol = (m.get (CharArray.ofBytes 8 symbol)).filled ∧
      pm.getPendingPosition symbol = (m.get (CharArray.ofBytes 8 symbol)).pending ∧
      pm.getTotalExposure symbol =
        (m.get (CharArray.ofBytes 8 symbol)).filled +
          (m.get (CharArray.ofBytes 8 symbol)).pending ∧
      pm.getCostBasis symbol = (m.get (CharArray.ofBytes 8 symbol)).costBasisTotal ∧
      pm.getRealizedPnl symbol = (m.get (CharArray.ofBytes 8 symbol)).realizedPnl) ∧
    ∀ c : PositionCall, symbolBufferToKey c.symbol ≠ kEmptySlot →
      (∀ symbol : List UInt8, CharArray.ofBytes 8 symbol ≠ c.symbol →
        (pm.call c).countersOf symbol = pm.countersOf symbol) ∧
      (∀ text, c = .registerSymbol text →
        ∀ symbol, (pm.call c).countersOf symbol = pm.countersOf symbol) ∧
      (c.symbol ∉ m → m.keys.card = 256 → pm.call c = pm) := by
  intro pm m
  obtain ⟨b, href, hagree⟩ := refines_and_agrees_foldl calls hkeys
  refine ⟨fun symbol => ?_, fun c hc => ⟨fun symbol hne => ?_, ?_, fun hnew hfull => ?_⟩⟩
  · rw [hagree.get]
    exact ⟨href.getFilledPosition symbol, href.getPendingPosition symbol,
      href.getTotalExposure symbol, href.getCostBasis symbol, href.getRealizedPnl symbol⟩
  · rw [(href.call c hc).countersOf, href.countersOf]
    exact b.call_counters_of_ne c fun heq => hne (symbolBufferToKey_injective heq)
  · rintro text rfl symbol
    rw [(href.call _ hc).countersOf, href.countersOf]
    exact congrFun (b.counters_touch_id (symbolToKey text)) _
  · refine PositionManager.call_of_full href c hc ?_ (hagree.card ▸ hfull)
    exact fun hmem => hnew ((hagree.mem c.symbol).2 hmem)

/-- A symbol is registered, traded and registered again, and an order of another one is
cancelled. -/
theorem position_manager_refines_map_of_two :
    let aapl : List UInt8 := [65, 65, 80, 76]
    let msft : CharArray 8 := CharArray.ofBytes 8 [77, 83, 70, 84]
    let calls : List PositionCall :=
      [.registerSymbol aapl,
        .onOrderSent { symbol := CharArray.ofBytes 8 aapl, quantity := 10, side := .buy },
        .onFill { symbol := CharArray.ofBytes 8 aapl, side := .buy, quantity := 4, price := 2 },
        .registerSymbol aapl, .onOrderCancelled { symbol := msft, quantity := 7, side := .sell }]
    (∀ c ∈ calls, symbolBufferToKey c.symbol ≠ kEmptySlot) ∧
      (calls.foldl PositionManager.call {}).getTotalExposure aapl = 10 := by
  intro aapl msft calls
  have hkeys : ∀ c ∈ calls, symbolBufferToKey c.symbol ≠ kEmptySlot := by decide +kernel
  refine ⟨hkeys, ?_⟩
  rw [((position_manager_refines_map calls hkeys).1 aapl).2.2.1]
  decide +kernel

end Trading
