/-
**The position manager.**

`src/PositionManager.cpp` keeps four counters for each symbol — the filled and the pending position,
the total cost basis and the realized profit — in a table of 256 entries, found by linear probing
from a hash of the symbol's eight bytes.  This module is the translation of that file, one atomic
call at a time: a call of the source is one function on the table here, and the compare-and-exchange
of an insertion, which no other thread can then lose, always succeeds.

The reserved key `kEmptySlot`, eight bytes `0xFF`, marks the free entries.  Nothing in the source
keeps a caller from passing that very symbol, so the functions below accept it too.  The counters
are integers that do not wrap around; `TradingAlgo/PnlArithmetic.lean` is about their 64 bits.

Main definitions:

* `Trading.Counters`, `Trading.Entry`, `Trading.PositionManager` — the state;
* `Trading.symbolToKey`, `Trading.symbolBufferToKey`, `Trading.hash` — keys and where they start;
* `Trading.PositionManager.findOrInsert`, `findMutable`, `find` — the three probe loops;
* `Trading.applyBuyFill`, `Trading.applySellFill` — a fill on the counters of one symbol;
* `Trading.PositionManager.registerSymbol`, `onFill`, `onOrderSent`, `onOrderCancelled` and the
  getters — the interface.
-/

import TradingAlgo.Orders
import TradingAlgo.Probing

set_option relaxedAutoImplicit false
set_option autoImplicit false

namespace Trading

/-! ### State -/

/-- The counters of an entry. -/
@[ext] structure Counters where
  filled : ℤ := 0
  pending : ℤ := 0
  costBasisTotal : ℤ := 0
  realizedPnl : ℤ := 0
  deriving DecidableEq, Repr

instance : Zero Counters := ⟨{}⟩

@[simp] theorem Counters.zero_filled : (0 : Counters).filled = 0 := rfl
@[simp] theorem Counters.zero_pending : (0 : Counters).pending = 0 := rfl
@[simp] theorem Counters.zero_costBasisTotal : (0 : Counters).costBasisTotal = 0 := rfl
@[simp] theorem Counters.zero_realizedPnl : (0 : Counters).realizedPnl = 0 := rfl

/-- `PositionManager::kMaxSymbols`. -/
def kMaxSymbols : ℕ := 256

/-- `PositionManager::kEmptySlot`, `UINT64_MAX`. -/
def kEmptySlot : UInt64 := 0xFFFFFFFFFFFFFFFF

/-- `PositionManager::Entry`: a key and its counters. -/
structure Entry where
  key : UInt64 := kEmptySlot
  counters : Counters := {}
  deriving DecidableEq, Repr

/-- The position manager is its table. -/
structure PositionManager where
  /-- `table_`. -/
  table : Fin kMaxSymbols → Entry := fun _ => {}

/-! ### Keys -/

/-- `symbolToKey`: at most eight bytes of the symbol, copied over a zero. -/
def symbolToKey (symbol : List UInt8) : UInt64 :=
  UInt64.ofNat (CharArray.ofBytes 8 symbol).toNat

/-- `symbolBufferToKey`: all eight bytes of the buffer. -/
def symbolBufferToKey (buffer : CharArray 8) : UInt64 := UInt64.ofNat buffer.toNat

/-- `hash`, the finalizer of splitmix64. -/
def hash (key : UInt64) : UInt32 :=
  let key := key ^^^ (key >>> 33)
  let key := key * 0xff51afd7ed558ccd
  let key := key ^^^ (key >>> 33)
  let key := key * 0xc4ceb9fe1a85ec53
  let key := key ^^^ (key >>> 33)
  key.toUInt32

/-- `hash(symbol_key) & kMask`: the mask keeps the eight low bits. -/
def start (symbolKey : UInt64) : Fin kMaxSymbols :=
  ⟨(Trading.hash symbolKey).toNat % kMaxSymbols, Nat.mod_lt _ (by decide)⟩

namespace PositionManager

open Probing

/-! ### The probe loops -/

/-- The slot `j` claimed for a key, its counters as they are. -/
def claim (pm : PositionManager) (j : Fin kMaxSymbols) (symbolKey : UInt64) : PositionManager :=
  { table := Function.update pm.table j { pm.table j with key := symbolKey } }

/-- The loop of `findOrInsert`: `m` rounds are left, the next one is round `i`. -/
def findOrInsertLoop (pm : PositionManager) (symbolKey : UInt64) :
    ℕ → ℕ → PositionManager × Option (Fin kMaxSymbols)
  | 0, _ => (pm, none)
  | m + 1, i =>
      let j := probe (start symbolKey) i
      if (pm.table j).key = symbolKey then (pm, some j)
      -- the compare-and-exchange on a free slot
      else if (pm.table j).key = kEmptySlot then (pm.claim j symbolKey, some j)
      else findOrInsertLoop pm symbolKey m (i + 1)

/-- `findOrInsert`: the slot of the key, claimed if need be; nothing when the table is full. -/
def findOrInsert (pm : PositionManager) (symbolKey : UInt64) :
    PositionManager × Option (Fin kMaxSymbols) :=
  findOrInsertLoop pm symbolKey kMaxSymbols 0

/-- The loop that `findMutable` and `find` share. -/
def findLoop (pm : PositionManager) (symbolKey : UInt64) : ℕ → ℕ → Option (Fin kMaxSymbols)
  | 0, _ => none
  | m + 1, i =>
      let j := probe (start symbolKey) i
      if (pm.table j).key = symbolKey then some j
      else if (pm.table j).key = kEmptySlot then none
      else findLoop pm symbolKey m (i + 1)

/-- `findMutable`. -/
def findMutable (pm : PositionManager) (symbolKey : UInt64) : Option (Fin kMaxSymbols) :=
  findLoop pm symbolKey kMaxSymbols 0

/-- `find`. -/
def find (pm : PositionManager) (symbolKey : UInt64) : Option (Fin kMaxSymbols) :=
  findLoop pm symbolKey kMaxSymbols 0

/-- The counters of the slot `j` changed by `f`. -/
def modify (pm : PositionManager) (j : Fin kMaxSymbols) (f : Counters → Counters) :
    PositionManager :=
  { table := Function.update pm.table j { pm.table j with counters := f (pm.table j).counters } }

end PositionManager

/-! ### Fills -/

/-- `applyBuyFill`, with `current_filled` read from the entry just before.  C++ division truncates
towards zero. -/
def applyBuyFill (priceScaled qty currentFilled : ℤ) (entry : Counters) : Counters :=
  let entry :=
    if currentFilled < 0 then
      let shortQty := -currentFilled
      let coverQty := min qty shortQty
      let entry :=
        if 0 < coverQty then
          let costRemoved := (entry.costBasisTotal * coverQty).tdiv currentFilled
          let pnl := costRemoved - priceScaled * coverQty
          { entry with
            realizedPnl := entry.realizedPnl + pnl
            costBasisTotal := entry.costBasisTotal + costRemoved }
        else entry
      let openQty := qty - coverQty
      if 0 < openQty then
        { entry with costBasisTotal := entry.costBasisTotal + priceScaled * openQty }
      else entry
    else { entry with costBasisTotal := entry.costBasisTotal + priceScaled * qty }
  -- in this order in the source; a reader between the two sees the quantity twice
  { entry with filled := entry.filled + qty, pending := entry.pending - qty }

/-- `applySellFill`. -/
def applySellFill (priceScaled qty currentFilled : ℤ) (entry : Counters) : Counters :=
  let entry :=
    if 0 < currentFilled then
      let sellQty := min qty currentFilled
      let entry :=
        if 0 < sellQty then
          let costRemoved := (entry.costBasisTotal * sellQty).tdiv currentFilled
          let pnl := priceScaled * sellQty - costRemoved
          { entry with
            realizedPnl := entry.realizedPnl + pnl
            costBasisTotal := entry.costBasisTotal - costRemoved }
        else entry
      let shortQty := qty - sellQty
      if 0 < shortQty then
        { entry with costBasisTotal := entry.costBasisTotal - priceScaled * shortQty }
      else entry
    else { entry with costBasisTotal := entry.costBasisTotal - priceScaled * qty }
  { entry with filled := entry.filled - qty, pending := entry.pending + qty }

/-- The effect of a fill on the counters of its symbol: the body of `onFill` after the lookup. -/
def Fill.apply (fill : Fill) (entry : Counters) : Counters :=
  match fill.side with
  | .buy => applyBuyFill fill.priceScaled fill.quantity entry.filled entry
  | .sell => applySellFill fill.priceScaled fill.quantity entry.filled entry

/-- The effect of `onOrderSent` on the counters of the symbol: `pending.fetch_add(delta)`. -/
def Order.sent (order : Order) (entry : Counters) : Counters :=
  { entry with pending := entry.pending + order.side.signed order.quantity }

/-- The effect of `onOrderCancelled`: `pending.fetch_sub(delta)`. -/
def Order.cancelled (order : Order) (entry : Counters) : Counters :=
  { entry with pending := entry.pending - order.side.signed order.quantity }

namespace PositionManager

/-! ### The interface -/

/-- Look the key up, inserting it if need be, and change its counters; with a full table nothing
happens.  The common shape of `registerSymbol`, `onFill` and `onOrderSent`. -/
def touch (pm : PositionManager) (symbolKey : UInt64) (f : Counters → Counters) :
    PositionManager :=
  match pm.findOrInsert symbolKey with
  | (pm, none) => pm
  | (pm, some j) => pm.modify j f

/-- `registerSymbol`. -/
def registerSymbol (pm : PositionManager) (symbol : List UInt8) : PositionManager :=
  (pm.findOrInsert (symbolToKey symbol)).1

/-- `onFill`. -/
def onFill (pm : PositionManager) (fill : Fill) : PositionManager :=
  pm.touch (symbolBufferToKey fill.symbol) fill.apply

/-- `onOrderSent`. -/
def onOrderSent (pm : PositionManager) (order : Order) : PositionManager :=
  pm.touch (symbolBufferToKey order.symbol) order.sent

/-- `onOrderCancelled`: it looks the symbol up but never inserts it. -/
def onOrderCancelled (pm : PositionManager) (order : Order) : PositionManager :=
  match pm.findMutable (symbolBufferToKey order.symbol) with
  | none => pm
  | some j => pm.modify j order.cancelled

/-- A counter of a symbol, `0` when the symbol is absent: the common shape of the getters. -/
def read (pm : PositionManager) (symbol : List UInt8) (field : Counters → ℤ) : ℤ :=
  match pm.find (symbolToKey symbol) with
  | none => 0
  | some j => field (pm.table j).counters

/-- `getFilledPosition`. -/
def getFilledPosition (pm : PositionManager) (symbol : List UInt8) : ℤ :=
  pm.read symbol Counters.filled

/-- `getPendingPosition`. -/
def getPendingPosition (pm : PositionManager) (symbol : List UInt8) : ℤ :=
  pm.read symbol Counters.pending

/-- `getTotalExposure`. -/
def getTotalExposure (pm : PositionManager) (symbol : List UInt8) : ℤ :=
  pm.read symbol fun entry => entry.filled + entry.pending

/-- `getCostBasis`. -/
def getCostBasis (pm : PositionManager) (symbol : List UInt8) : ℤ :=
  pm.read symbol Counters.costBasisTotal

/-- `getRealizedPnl`. -/
def getRealizedPnl (pm : PositionManager) (symbol : List UInt8) : ℤ :=
  pm.read symbol Counters.realizedPnl

/-- What the four getters of single counters return for a symbol. -/
def countersOf (pm : PositionManager) (symbol : List UInt8) : Counters where
  filled := pm.getFilledPosition symbol
  pending := pm.getPendingPosition symbol
  costBasisTotal := pm.getCostBasis symbol
  realizedPnl := pm.getRealizedPnl symbol

end PositionManager

end Trading
