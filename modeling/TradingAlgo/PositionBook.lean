/-
**What the position manager is for: a book of at most 256 symbols.**

`TradingAlgo/PositionManager.lean` is the table with its probe loops.  This module states what the
table stands for — a finite map from keys to counters that takes up to 256 keys and drops what it
has no room for — and proves that the table behaves as that map on every key but the reserved one.
From here on no proof looks at slots: the effect of every call on every symbol is read off the
book.

Main definitions:

* `Trading.Book` — the map, with its capacity and the zero of an absent key as part of the type;
* `Trading.Book.touch`, `Trading.Book.amend` — changing the counters of a key, with and without
  inserting it;
* `Trading.PositionManager.Wf` — the probe path invariant, and free slots have no counts;
* `Trading.PositionManager.Refines` — the table holds exactly what the book says.

Main results:

* `Trading.PositionManager.Refines.onFill`, `onOrderSent`, `onOrderCancelled`, `registerSymbol` —
  every call on the table is the corresponding operation of the book;
* `Trading.PositionManager.Refines.read` — the getters return what the book holds.
-/

import TradingAlgo.PositionManager
import Mathlib.Data.Finset.Card
import Mathlib.Data.Fintype.Card

set_option relaxedAutoImplicit false
set_option autoImplicit false

namespace Trading

/-! ### The book -/

/-- A finite map from keys to counters with room for `kMaxSymbols` keys. -/
@[ext] structure Book where
  /-- The keys present. -/
  keys : Finset UInt64
  /-- The counters of a key. -/
  counters : UInt64 → Counters
  /-- A key that is not present counts nothing. -/
  absent : ∀ k ∉ keys, counters k = 0
  /-- The capacity. -/
  card_le : keys.card ≤ kMaxSymbols

namespace Book

/-- The book without symbols. -/
def empty : Book := ⟨∅, fun _ => 0, fun _ _ => rfl, by simp⟩

/-- There is an entry for `k`, or room to make one. -/
def Takes (b : Book) (k : UInt64) : Prop := k ∈ b.keys ∨ b.keys.card < kMaxSymbols

instance (b : Book) (k : UInt64) : Decidable (b.Takes k) :=
  inferInstanceAs (Decidable (k ∈ b.keys ∨ b.keys.card < kMaxSymbols))

/-- Change the counters of `k`, making its entry if there is none; without room nothing happens. -/
def touch (b : Book) (k : UInt64) (f : Counters → Counters) : Book :=
  if h : b.Takes k then
    { keys := insert k b.keys
      counters := Function.update b.counters k (f (b.counters k))
      absent := by
        intro k' hk'
        rw [Finset.mem_insert, not_or] at hk'
        rw [Function.update_of_ne hk'.1]
        exact b.absent k' hk'.2
      card_le := by
        rcases h with h | h
        · rw [Finset.insert_eq_of_mem h]
          exact b.card_le
        · exact (Finset.card_insert_le _ _).trans h }
  else b

/-- Change the counters of `k` if it has an entry. -/
def amend (b : Book) (k : UInt64) (f : Counters → Counters) : Book :=
  if h : k ∈ b.keys then
    { b with
      counters := Function.update b.counters k (f (b.counters k))
      absent := by
        intro k' hk'
        have hne : k' ≠ k := fun heq => hk' (heq ▸ h)
        rw [Function.update_of_ne hne]
        exact b.absent k' hk' }
  else b

theorem touch_of_takes {b : Book} {k : UInt64} (h : b.Takes k) (f : Counters → Counters) :
    (b.touch k f).keys = insert k b.keys ∧
      (b.touch k f).counters = Function.update b.counters k (f (b.counters k)) := by
  simp [touch, h]

theorem touch_of_not_takes {b : Book} {k : UInt64} (h : ¬ b.Takes k) (f : Counters → Counters) :
    b.touch k f = b := by
  simp [touch, h]

theorem amend_of_mem {b : Book} {k : UInt64} (h : k ∈ b.keys) (f : Counters → Counters) :
    (b.amend k f).keys = b.keys ∧
      (b.amend k f).counters = Function.update b.counters k (f (b.counters k)) := by
  simp [amend, h]

theorem amend_of_notMem {b : Book} {k : UInt64} (h : k ∉ b.keys) (f : Counters → Counters) :
    b.amend k f = b := by
  simp [amend, h]

/-- Neither operation changes the counters of another key. -/
theorem touch_counters_of_ne (b : Book) {k k' : UInt64} (f : Counters → Counters) (h : k' ≠ k) :
    (b.touch k f).counters k' = b.counters k' := by
  by_cases ht : b.Takes k
  · rw [(touch_of_takes ht f).2, Function.update_of_ne h]
  · rw [touch_of_not_takes ht]

theorem amend_counters_of_ne (b : Book) {k k' : UInt64} (f : Counters → Counters) (h : k' ≠ k) :
    (b.amend k f).counters k' = b.counters k' := by
  by_cases hk : k ∈ b.keys
  · rw [(amend_of_mem hk f).2, Function.update_of_ne h]
  · rw [amend_of_notMem hk]

/-- Entries are never removed. -/
theorem keys_subset_touch (b : Book) (k : UInt64) (f : Counters → Counters) :
    b.keys ⊆ (b.touch k f).keys := by
  by_cases ht : b.Takes k
  · rw [(touch_of_takes ht f).1]
    exact Finset.subset_insert _ _
  · rw [touch_of_not_takes ht]

theorem keys_touch_subset (b : Book) (k : UInt64) (f : Counters → Counters) :
    (b.touch k f).keys ⊆ insert k b.keys := by
  by_cases ht : b.Takes k
  · rw [(touch_of_takes ht f).1]
  · rw [touch_of_not_takes ht]
    exact Finset.subset_insert _ _

/-- Making an entry counts nothing. -/
theorem counters_touch_id (b : Book) (k : UInt64) : (b.touch k id).counters = b.counters := by
  by_cases ht : b.Takes k
  · rw [(touch_of_takes ht id).2]
    exact Function.update_eq_self k b.counters
  · rw [touch_of_not_takes ht]

@[simp] theorem keys_amend (b : Book) (k : UInt64) (f : Counters → Counters) :
    (b.amend k f).keys = b.keys := by
  by_cases hk : k ∈ b.keys
  · exact (amend_of_mem hk f).1
  · rw [amend_of_notMem hk]

/-- What the calls of the position manager do to the book. -/
def registerSymbol (b : Book) (symbol : List UInt8) : Book := b.touch (symbolToKey symbol) id

/-- `onFill` on the book. -/
def onFill (b : Book) (fill : Fill) : Book := b.touch (symbolBufferToKey fill.symbol) fill.apply

/-- `onOrderSent` on the book. -/
def onOrderSent (b : Book) (order : Order) : Book :=
  b.touch (symbolBufferToKey order.symbol) order.sent

/-- `onOrderCancelled` on the book. -/
def onOrderCancelled (b : Book) (order : Order) : Book :=
  b.amend (symbolBufferToKey order.symbol) order.cancelled

end Book

/-! ### The table -/

namespace PositionManager

open Probing

/-- The keys of the slots. -/
def keys (pm : PositionManager) (j : Fin kMaxSymbols) : UInt64 := (pm.table j).key

/-- The invariant of a table that never saw the reserved key. -/
structure Wf (pm : PositionManager) : Prop where
  /-- No key is stored twice and no path to a key has a free slot. -/
  ok : Ok start kEmptySlot pm.keys
  /-- A free slot counts nothing. -/
  free : ∀ {j}, pm.keys j = kEmptySlot → (pm.table j).counters = 0

/-- The table holds exactly what the book says. -/
structure Refines (pm : PositionManager) (b : Book) : Prop where
  wf : pm.Wf
  /-- The keys of the book are the keys stored. -/
  mem_keys : ∀ {k}, k ∈ b.keys ↔ k ≠ kEmptySlot ∧ ∃ j, pm.keys j = k
  /-- The counters of the book are those of the slots. -/
  counters : ∀ {j}, pm.keys j ≠ kEmptySlot → (pm.table j).counters = b.counters (pm.keys j)

/-- A new position manager is the empty book. -/
theorem refines_empty : Refines {} Book.empty where
  wf := ⟨ok_const _ _, fun _ => rfl⟩
  mem_keys := by
    intro k
    constructor
    · intro h
      simp [Book.empty] at h
    · rintro ⟨hk, j, hj⟩
      exact absurd hj.symm hk
  counters := fun h => absurd rfl h

/-! ### The loops are one scan -/

theorem findLoop_eq (pm : PositionManager) (k : UInt64) (m i : ℕ) :
    pm.findLoop k m i =
      (scan (fun j => decide (pm.keys j = k ∨ pm.keys j = kEmptySlot)) (start k) m i).bind
        fun j => if pm.keys j = k then some j else none := by
  induction m generalizing i with
  | zero => rfl
  | succ m ih =>
      by_cases h₁ : (pm.table (probe (start k) i)).key = k
      · simp [findLoop, scan, keys, h₁]
      · by_cases h₂ : (pm.table (probe (start k) i)).key = kEmptySlot
        · simp [findLoop, scan, keys, h₂, h₂ ▸ h₁]
        · simp [findLoop, scan, keys, h₁, h₂, ih]

theorem findOrInsertLoop_eq (pm : PositionManager) (k : UInt64) (m i : ℕ) :
    pm.findOrInsertLoop k m i =
      match scan (fun j => decide (pm.keys j = k ∨ pm.keys j = kEmptySlot)) (start k) m i with
      | none => (pm, none)
      | some j => (if pm.keys j = k then pm else pm.claim j k, some j) := by
  induction m generalizing i with
  | zero => rfl
  | succ m ih =>
      by_cases h₁ : (pm.table (probe (start k) i)).key = k
      · simp [findOrInsertLoop, scan, keys, h₁]
      · by_cases h₂ : (pm.table (probe (start k) i)).key = kEmptySlot
        · simp [findOrInsertLoop, scan, keys, h₂, h₂ ▸ h₁]
        · simp [findOrInsertLoop, scan, keys, h₁, h₂, ih]

/-- `find` is the scan for the key, discarding a free slot. -/
theorem find_eq (pm : PositionManager) (k : UInt64) :
    pm.find k =
      (firstStop start kEmptySlot pm.keys k).bind
        fun j => if pm.keys j = k then some j else none :=
  findLoop_eq pm k kMaxSymbols 0

theorem findMutable_eq_find (pm : PositionManager) (k : UInt64) : pm.findMutable k = pm.find k :=
  rfl

/-- `findOrInsert` is the same scan, claiming a free slot. -/
theorem findOrInsert_eq (pm : PositionManager) (k : UInt64) :
    pm.findOrInsert k =
      match firstStop start kEmptySlot pm.keys k with
      | none => (pm, none)
      | some j => (if pm.keys j = k then pm else pm.claim j k, some j) :=
  findOrInsertLoop_eq pm k kMaxSymbols 0

theorem find_of_key {pm : PositionManager} (hwf : pm.Wf) {j : Fin kMaxSymbols}
    (hk : pm.keys j ≠ kEmptySlot) : pm.find (pm.keys j) = some j := by
  rw [find_eq, firstStop_of_mem hwf.ok rfl hk]
  simp

theorem find_some {pm : PositionManager} {k : UInt64} {j : Fin kMaxSymbols}
    (h : pm.find k = some j) : pm.keys j = k := by
  rw [find_eq] at h
  obtain ⟨i, -, hi⟩ := Option.bind_eq_some_iff.1 h
  by_cases hik : pm.keys i = k
  · rw [if_pos hik, Option.some_inj] at hi
    exact hi ▸ hik
  · rw [if_neg hik] at hi
    cases hi

@[simp] theorem keys_modify (pm : PositionManager) (j : Fin kMaxSymbols)
    (f : Counters → Counters) : (pm.modify j f).keys = pm.keys := by
  funext i
  by_cases hij : i = j
  · subst hij
    simp [keys, modify]
  · simp [keys, modify, hij]

@[simp] theorem keys_claim (pm : PositionManager) (j : Fin kMaxSymbols) (k : UInt64) :
    (pm.claim j k).keys = Function.update pm.keys j k := by
  funext i
  by_cases hij : i = j
  · subst hij
    simp [keys, claim]
  · simp [keys, claim, hij]

theorem counters_modify (pm : PositionManager) (j i : Fin kMaxSymbols) (f : Counters → Counters) :
    ((pm.modify j f).table i).counters =
      if i = j then f (pm.table j).counters else (pm.table i).counters := by
  by_cases hij : i = j
  · subst hij
    simp [modify]
  · simp [modify, hij]

@[simp] theorem counters_claim (pm : PositionManager) (j i : Fin kMaxSymbols) (k : UInt64) :
    ((pm.claim j k).table i).counters = (pm.table i).counters := by
  by_cases hij : i = j
  · subst hij
    simp [claim]
  · simp [claim, hij]

/-! ### Every call is an operation of the book -/

namespace Refines

variable {pm : PositionManager} {b : Book}

/-- A table without the key has room for it exactly when it has a free slot. -/
theorem card_lt_iff (h : Refines pm b) :
    b.keys.card < kMaxSymbols ↔ ∃ j, pm.keys j = kEmptySlot := by
  constructor
  · intro hlt
    by_contra hfree
    have hfull : ∀ j, pm.keys j ≠ kEmptySlot := fun j hj => hfree ⟨j, hj⟩
    have hinj : Function.Injective pm.keys := fun i j hij => h.wf.ok.unique hij (hfull i)
    have hsub : Finset.univ.image pm.keys ⊆ b.keys := by
      intro k hk
      obtain ⟨j, -, rfl⟩ := Finset.mem_image.1 hk
      exact h.mem_keys.2 ⟨hfull j, j, rfl⟩
    have hcard := Finset.card_le_card hsub
    rw [Finset.card_image_of_injective _ hinj, Finset.card_fin] at hcard
    omega
  · rintro ⟨j, hj⟩
    have hsub : b.keys ⊆ (Finset.univ.erase j).image pm.keys := by
      intro k hk
      obtain ⟨hne, i, rfl⟩ := h.mem_keys.1 hk
      have hij : i ≠ j := fun hij => hne (hij ▸ hj)
      exact Finset.mem_image_of_mem _ (Finset.mem_erase.2 ⟨hij, Finset.mem_univ i⟩)
    have hcard := (Finset.card_le_card hsub).trans Finset.card_image_le
    rw [Finset.card_erase_of_mem (Finset.mem_univ j), Finset.card_fin] at hcard
    have : 0 < kMaxSymbols := by decide
    omega

/-- The slot of a key of the book. -/
theorem find_of_mem (h : Refines pm b) {k : UInt64} (hk : k ∈ b.keys) :
    ∃ j, pm.find k = some j ∧ pm.keys j = k := by
  obtain ⟨hne, j, rfl⟩ := h.mem_keys.1 hk
  exact ⟨j, find_of_key h.wf hne, rfl⟩

/-- Changing the counters of the slot of `k` changes them in the book. -/
theorem modify (h : Refines pm b) {j : Fin kMaxSymbols} (hj : pm.keys j ≠ kEmptySlot)
    (f : Counters → Counters) {b' : Book} (hkeys : b'.keys = b.keys)
    (hcnt : b'.counters = Function.update b.counters (pm.keys j) (f (b.counters (pm.keys j)))) :
    Refines (pm.modify j f) b' where
  wf := by
    refine ⟨by rw [keys_modify]; exact h.wf.ok, ?_⟩
    intro i hi
    rw [keys_modify] at hi
    have hij : i ≠ j := fun hij => hj (hij ▸ hi)
    rw [counters_modify, if_neg hij]
    exact h.wf.free hi
  mem_keys := by
    intro k
    rw [hkeys, keys_modify]
    exact h.mem_keys
  counters := by
    intro i hi
    rw [keys_modify] at hi ⊢
    rw [counters_modify, hcnt]
    by_cases hij : i = j
    · subst hij
      rw [if_pos rfl, Function.update_self, h.counters hi]
    · have hne : pm.keys i ≠ pm.keys j := fun heq => hij (h.wf.ok.unique heq hi)
      rw [if_neg hij, Function.update_of_ne hne, h.counters hi]

/-- Claiming the first free slot of the path of a new key adds it to the book. -/
theorem claim (h : Refines pm b) {k : UInt64} (hk : k ≠ kEmptySlot) (hnew : k ∉ b.keys)
    {j : Fin kMaxSymbols} (hj : pm.keys j = kEmptySlot)
    (hpath : ∀ i < dist (start k) j, pm.keys (probe (start k) i) ≠ kEmptySlot) :
    Refines (pm.claim j k) (b.touch k id) := by
  have habsent : ∀ i, pm.keys i ≠ k := fun i hi => hnew (h.mem_keys.2 ⟨hk, i, hi⟩)
  have htakes : b.Takes k := Or.inr (h.card_lt_iff.2 ⟨j, hj⟩)
  obtain ⟨hkeys, hcnt⟩ := Book.touch_of_takes htakes id
  constructor
  · refine ⟨by rw [keys_claim]; exact h.wf.ok.claim habsent hj hpath, ?_⟩
    intro i hi
    rw [keys_claim] at hi
    rw [counters_claim]
    by_cases hij : i = j
    · exact hij ▸ h.wf.free hj
    · rw [Function.update_of_ne hij] at hi
      exact h.wf.free hi
  · intro k'
    rw [hkeys, Finset.mem_insert, h.mem_keys, keys_claim]
    constructor
    · rintro (rfl | ⟨hne, i, rfl⟩)
      · exact ⟨hk, j, Function.update_self ..⟩
      · have hij : i ≠ j := fun hij => hne (hij ▸ hj)
        exact ⟨hne, i, Function.update_of_ne hij ..⟩
    · rintro ⟨hne, i, hi⟩
      by_cases hij : i = j
      · rw [hij, Function.update_self] at hi
        exact Or.inl hi.symm
      · rw [Function.update_of_ne hij] at hi
        exact Or.inr ⟨hne, i, hi⟩
  · intro i hi
    rw [keys_claim] at hi ⊢
    rw [counters_claim, hcnt]
    by_cases hij : i = j
    · subst hij
      rw [Function.update_self, Function.update_self, h.wf.free hj, b.absent k hnew]
      rfl
    · rw [Function.update_of_ne hij] at hi ⊢
      rw [Function.update_of_ne (habsent i), h.counters hi]

/-- **`touch` on the table is `touch` on the book**, for every key but the reserved one. -/
theorem touch (h : Refines pm b) {k : UInt64} (hk : k ≠ kEmptySlot) (f : Counters → Counters) :
    Refines (pm.touch k f) (b.touch k f) := by
  rw [PositionManager.touch, findOrInsert_eq]
  by_cases hmem : k ∈ b.keys
  · -- the key has its entry: only its counters change
    obtain ⟨j, -, rfl⟩ := h.find_of_mem hmem
    rw [firstStop_of_mem h.wf.ok rfl hk]
    obtain ⟨hkeys, hcnt⟩ := Book.touch_of_takes (Or.inl hmem) f
    simp only [if_pos]
    exact h.modify hk f (hkeys.trans (Finset.insert_eq_of_mem hmem)) hcnt
  · have habsent : ∀ j, pm.keys j ≠ k := fun j hj => hmem (h.mem_keys.2 ⟨hk, j, hj⟩)
    cases hs : firstStop start kEmptySlot pm.keys k with
    | none =>
        -- no free slot: the call is dropped
        have hfull : ¬ b.Takes k := by
          rintro (hk' | hlt)
          · exact hmem hk'
          · obtain ⟨j, hj⟩ := h.card_lt_iff.1 hlt
            exact (firstStop_none hs j).2 hj
        rw [Book.touch_of_not_takes hfull]
        exact h
    | some j =>
        obtain ⟨hj, hpath⟩ := firstStop_of_notMem habsent hs
        have hclaim := h.claim hk hmem hj hpath
        have htakes : b.Takes k := Or.inr (h.card_lt_iff.2 ⟨j, hj⟩)
        obtain ⟨hkeys₀, hcnt₀⟩ := Book.touch_of_takes htakes id
        obtain ⟨hkeys, hcnt⟩ := Book.touch_of_takes htakes f
        have hkey : (pm.claim j k).keys j = k := by rw [keys_claim, Function.update_self]
        simp only [if_neg (habsent j)]
        refine hclaim.modify (by rwa [hkey]) f (hkeys.trans hkeys₀.symm) ?_
        rw [hcnt, hcnt₀, hkey]
        simp

/-- `onFill` on the table is `onFill` on the book. -/
theorem onFill (h : Refines pm b) (fill : Fill)
    (hk : symbolBufferToKey fill.symbol ≠ kEmptySlot) : Refines (pm.onFill fill) (b.onFill fill) :=
  h.touch hk fill.apply

theorem onOrderSent (h : Refines pm b) (order : Order)
    (hk : symbolBufferToKey order.symbol ≠ kEmptySlot) :
    Refines (pm.onOrderSent order) (b.onOrderSent order) :=
  h.touch hk order.sent

theorem onOrderCancelled (h : Refines pm b) (order : Order)
    (hk : symbolBufferToKey order.symbol ≠ kEmptySlot) :
    Refines (pm.onOrderCancelled order) (b.onOrderCancelled order) := by
  rw [PositionManager.onOrderCancelled, Book.onOrderCancelled, findMutable_eq_find]
  by_cases hmem : symbolBufferToKey order.symbol ∈ b.keys
  · obtain ⟨j, hfind, hj⟩ := h.find_of_mem hmem
    rw [hfind]
    obtain ⟨hkeys, hcnt⟩ := Book.amend_of_mem hmem order.cancelled
    rw [← hj] at hcnt hk
    exact h.modify hk order.cancelled (hj ▸ hkeys) (hj ▸ hcnt)
  · cases hfind : pm.find (symbolBufferToKey order.symbol) with
    | none =>
        rw [Book.amend_of_notMem hmem]
        exact h
    | some j => exact absurd (h.mem_keys.2 ⟨hk, j, find_some hfind⟩) hmem

end Refines

/-- `registerSymbol` changes no counter. -/
theorem modify_id (pm : PositionManager) (j : Fin kMaxSymbols) : pm.modify j id = pm := by
  simp [PositionManager.modify]

theorem registerSymbol_eq_touch (pm : PositionManager) (symbol : List UInt8) :
    pm.registerSymbol symbol = pm.touch (symbolToKey symbol) id := by
  rw [registerSymbol, touch]
  rcases pm.findOrInsert (symbolToKey symbol) with ⟨pm', _ | j⟩
  · rfl
  · exact (modify_id pm' j).symm

/-- Registering the reserved symbol does nothing. -/
theorem registerSymbol_of_reserved (pm : PositionManager) {symbol : List UInt8}
    (hk : symbolToKey symbol = kEmptySlot) : pm.registerSymbol symbol = pm := by
  rw [registerSymbol, hk, findOrInsert_eq]
  cases hs : firstStop start kEmptySlot pm.keys kEmptySlot with
  | none => rfl
  | some j =>
      obtain ⟨-, -, -, -, hstop, -⟩ := scan_some hs
      have hj : pm.keys j = kEmptySlot := by simpa using hstop
      simp [hj]

namespace Refines

variable {pm : PositionManager} {b : Book}

theorem registerSymbol (h : Refines pm b) {symbol : List UInt8}
    (hk : symbolToKey symbol ≠ kEmptySlot) :
    Refines (pm.registerSymbol symbol) (b.registerSymbol symbol) := by
  rw [registerSymbol_eq_touch]
  exact h.touch hk id

/-- **The getters return what the book holds**, for every symbol. -/
theorem read (h : Refines pm b) (symbol : List UInt8) {field : Counters → ℤ} (hf : field 0 = 0) :
    pm.read symbol field = field (b.counters (symbolToKey symbol)) := by
  rw [PositionManager.read]
  cases hfind : pm.find (symbolToKey symbol) with
  | none =>
      have hmem : symbolToKey symbol ∉ b.keys := by
        intro hmem
        obtain ⟨j, hj, -⟩ := h.find_of_mem hmem
        rw [hj] at hfind
        cases hfind
      simp [b.absent _ hmem, hf]
  | some j =>
      have hj := find_some hfind
      by_cases hk : pm.keys j = kEmptySlot
      · -- the reserved key reads a free slot, and those count nothing
        have hmem : symbolToKey symbol ∉ b.keys := fun hmem => (h.mem_keys.1 hmem).1 (hj ▸ hk)
        simp [b.absent _ hmem, h.wf.free hk]
      · simp [h.counters hk, hj]

theorem getFilledPosition (h : Refines pm b) (symbol : List UInt8) :
    pm.getFilledPosition symbol = (b.counters (symbolToKey symbol)).filled := h.read symbol rfl

theorem getPendingPosition (h : Refines pm b) (symbol : List UInt8) :
    pm.getPendingPosition symbol = (b.counters (symbolToKey symbol)).pending := h.read symbol rfl

theorem getTotalExposure (h : Refines pm b) (symbol : List UInt8) :
    pm.getTotalExposure symbol =
      (b.counters (symbolToKey symbol)).filled + (b.counters (symbolToKey symbol)).pending :=
  h.read symbol rfl

theorem getCostBasis (h : Refines pm b) (symbol : List UInt8) :
    pm.getCostBasis symbol = (b.counters (symbolToKey symbol)).costBasisTotal := h.read symbol rfl

theorem getRealizedPnl (h : Refines pm b) (symbol : List UInt8) :
    pm.getRealizedPnl symbol = (b.counters (symbolToKey symbol)).realizedPnl := h.read symbol rfl

theorem countersOf (h : Refines pm b) (symbol : List UInt8) :
    pm.countersOf symbol = b.counters (symbolToKey symbol) := by
  ext
  · exact h.getFilledPosition symbol
  · exact h.getPendingPosition symbol
  · exact h.getCostBasis symbol
  · exact h.getRealizedPnl symbol

end Refines

/-! ### Keys -/

end PositionManager

theorem toNat_symbolBufferToKey (buffer : CharArray 8) :
    (symbolBufferToKey buffer).toNat = buffer.toNat := by
  rw [symbolBufferToKey, UInt64.toNat_ofNat']
  exact Nat.mod_eq_of_lt buffer.toNat_lt

/-- Distinct buffers have distinct keys. -/
theorem symbolBufferToKey_injective : Function.Injective symbolBufferToKey := by
  intro a b hab
  have h := congrArg UInt64.toNat hab
  rw [toNat_symbolBufferToKey, toNat_symbolBufferToKey] at h
  exact CharArray.toNat_injective h

/-- The symbol whose key is `kEmptySlot`: eight bytes `0xFF`. -/
def reservedSymbol : CharArray 8 := ⟨List.replicate 8 0xFF, rfl⟩

theorem symbolBufferToKey_reservedSymbol : symbolBufferToKey reservedSymbol = kEmptySlot := by
  decide +kernel

/-- No other symbol has the reserved key. -/
theorem symbolBufferToKey_ne_kEmptySlot {buffer : CharArray 8} (h : buffer ≠ reservedSymbol) :
    symbolBufferToKey buffer ≠ kEmptySlot := by
  rw [← symbolBufferToKey_reservedSymbol]
  exact fun heq => h (symbolBufferToKey_injective heq)

/-- The key of a string is the key of the buffer it fills. -/
theorem symbolToKey_eq (symbol : List UInt8) :
    symbolToKey symbol = symbolBufferToKey (CharArray.ofBytes 8 symbol) := rfl

end Trading
