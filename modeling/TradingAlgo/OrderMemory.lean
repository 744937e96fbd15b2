/-
**What the fill listener remembers of the orders.**

`upsertFilledQty` and `markCompleted` are the only functions that change the two memories.  After
any sequence of their calls, however long, each memory holds the ids of the last 4096 insertions,
in their order; an update of an id that is there is no insertion.

Main definitions:

* `Trading.FillListener.MemoryCall`, `Trading.FillListener.call` — the calls;
* `Trading.FillListener.OrderMemory` — what holds of the memories after a sequence of calls.

Main results:

* `Trading.FillListener.keeps_filled`, `Trading.FillListener.keeps_completed` — both memories are
  first in, first out;
* `Trading.FillListener.bounded_order_memory` — **the memories after any sequence of calls.**
-/

import TradingAlgo.Eviction
import TradingAlgo.FillListener

set_option relaxedAutoImplicit false
set_option autoImplicit false

namespace Trading

namespace FillListener

open BoundedMemo Eviction

/-! ### Calls -/

/-- The calls that change the memories. -/
inductive MemoryCall
  | upsertFilledQty (orderId : List UInt8) (qty : ℤ)
  | markCompleted (orderId : List UInt8)
  deriving DecidableEq, Repr

/-- The id of a call. -/
def MemoryCall.orderId : MemoryCall → List UInt8
  | upsertFilledQty orderId _ => orderId
  | markCompleted orderId => orderId

/-- The id that a call touches in `filled_entries_`. -/
def MemoryCall.upserted : MemoryCall → Option (List UInt8)
  | upsertFilledQty orderId _ => some orderId
  | markCompleted _ => none

/-- The id that a call touches in `completed_entries_`. -/
def MemoryCall.marked : MemoryCall → Option (List UInt8)
  | upsertFilledQty _ _ => none
  | markCompleted orderId => some orderId

/-- The listener after a call. -/
def call (l : FillListener) : MemoryCall → FillListener
  | .upsertFilledQty orderId qty => l.upsertFilledQty orderId qty
  | .markCompleted orderId => l.markCompleted orderId

/-- The ids of `filled_entries_`. -/
def filledIds (l : FillListener) : List (List UInt8) := l.filledEntries.map entryKey

/-- The ids of `completed_entries_`. -/
def completedIds (l : FillListener) : List (List UInt8) := l.completedEntries.map CharArray.view

/-! ### The memories are first in, first out -/

theorem keeps_filled :
    Keeps call filledIds kMaxTrackedOrders MemoryCall.upserted fun c => IsId c.orderId where
  keys_of_none l c _ ht := by
    cases c with
    | upsertFilledQty id qty => cases ht
    | markCompleted id => simp [call, filledIds]
  keys_of_some l c k hid ht := by
    cases c with
    | upsertFilledQty id qty =>
        cases ht
        exact map_upsert entryKey _ (entryKey_with qty) (hid.entryKey_mk qty) _
    | markCompleted id => cases ht

theorem keeps_completed :
    Keeps call completedIds kMaxTrackedOrders MemoryCall.marked fun c => IsId c.orderId where
  keys_of_none l c _ ht := by
    cases c with
    | upsertFilledQty id qty => rfl
    | markCompleted id => cases ht
  keys_of_some l c k hid ht := by
    cases c with
    | upsertFilledQty id qty => cases ht
    | markCompleted id =>
        cases ht
        have hview : (CharArray.ofBytes 48 k).view = k := hid.view
        simp only [call, completedIds, completedEntries_markCompleted]
        exact map_upsert CharArray.view _ (fun _ => rfl) hview _

theorem mem_completedIds {l : FillListener} {id : List UInt8} :
    l.isCompleted id = true ↔ id ∈ completedIds l := isCompleted_iff

theorem findFilledQty_of_not_mem {l : FillListener} {id : List UInt8} (h : id ∉ filledIds l) :
    l.findFilledQty id = 0 := by
  unfold findFilledQty
  rw [(find_eq_none_iff entryKey).2 h]

/-- The quantity of an id that a call does not touch stays while the id does. -/
theorem findFilledQty_call (l : FillListener) (c : MemoryCall) (id : List UInt8)
    (hid : IsId c.orderId) (hnd : (filledIds l).Nodup) (ht : c.upserted ≠ some id)
    (hmem : id ∈ filledIds (l.call c)) : (l.call c).findFilledQty id = l.findFilledQty id := by
  cases c with
  | upsertFilledQty id' qty =>
      have hne : id ≠ id' := fun h => ht (h ▸ rfl)
      have hkey : entryKey ⟨CharArray.ofBytes 48 id', qty⟩ = id' := hid.entryKey_mk qty
      have hfind := find_upsert_of_mem entryKey hne (entryKey_with qty) hkey hnd hmem
      simp only [call, findFilledQty, FillListener.upsertFilledQty]
      rw [hfind]
  | markCompleted id' => exact findFilledQty_markCompleted l id' id

/-! ### Every sequence of calls -/

/-- The listener after a sequence of calls. -/
def afterCalls (calls : List MemoryCall) : FillListener := run call {} calls

/-- What holds of the memories after a sequence of calls. -/
structure OrderMemory (calls : List MemoryCall) : Prop where
  /-- There are at most 4096 entries, -/
  filled_length : (afterCalls calls).filledEntries.length ≤ kMaxTrackedOrders
  completed_length : (afterCalls calls).completedEntries.length ≤ kMaxTrackedOrders
  /-- with distinct ids, -/
  filled_distinct : (filledIds (afterCalls calls)).Nodup
  completed_distinct : (completedIds (afterCalls calls)).Nodup
  /-- and they are those of the last insertions, the earliest one first. -/
  filled_latest : filledIds (afterCalls calls) =
    latest kMaxTrackedOrders (insertions call filledIds {} calls)
  completed_latest : completedIds (afterCalls calls) =
    latest kMaxTrackedOrders (insertions call completedIds {} calls)
  /-- A new id is appended; when the memory is full the first entry goes, and no other. -/
  upsert_new : ∀ id qty, IsId id → id ∉ filledIds (afterCalls calls) →
    ((afterCalls calls).upsertFilledQty id qty).filledEntries =
      (if (afterCalls calls).filledEntries.length = kMaxTrackedOrders
        then (afterCalls calls).filledEntries.tail else (afterCalls calls).filledEntries) ++
        [{ orderId := CharArray.ofBytes 48 id, filledQty := qty }]
  mark_new : ∀ id, IsId id → id ∉ completedIds (afterCalls calls) →
    ((afterCalls calls).markCompleted id).completedEntries =
      (if (afterCalls calls).completedEntries.length = kMaxTrackedOrders
        then (afterCalls calls).completedEntries.tail else (afterCalls calls).completedEntries) ++
        [CharArray.ofBytes 48 id]
  /-- The update of an id that is there changes its quantity and nothing else. -/
  upsert_present : ∀ id qty, id ∈ filledIds (afterCalls calls) →
    ((afterCalls calls).upsertFilledQty id qty).filledEntries =
      (afterCalls calls).filledEntries.map fun entry =>
        if entry.orderId.view = id then { entry with filledQty := qty } else entry
  mark_present : ∀ id, id ∈ completedIds (afterCalls calls) →
    (afterCalls calls).markCompleted id = afterCalls calls
  /-- What is found is the quantity of the last update, 0 if the id was evicted after it, -/
  found : ∀ before id qty after, calls = before ++ .upsertFilledQty id qty :: after →
    (∀ c ∈ after, c.upserted ≠ some id) →
    (¬ Evicted call filledIds id (afterCalls (before ++ [.upsertFilledQty id qty])) after →
      (afterCalls calls).findFilledQty id = qty) ∧
    (Evicted call filledIds id (afterCalls (before ++ [.upsertFilledQty id qty])) after →
      (afterCalls calls).findFilledQty id = 0)
  /-- and 0 if there was none. -/
  not_found : ∀ id, (∀ c ∈ calls, c.upserted ≠ some id) → (afterCalls calls).findFilledQty id = 0
  /-- The completed orders are those that were marked and not evicted since. -/
  completed : ∀ id, (afterCalls calls).isCompleted id = true ↔
    ∃ before after, calls = before ++ .markCompleted id :: after ∧
      ¬ Evicted call completedIds id (afterCalls (before ++ [.markCompleted id])) after

section Calls

variable {calls : List MemoryCall} (hids : ∀ c ∈ calls, IsId c.orderId)
include hids

theorem filledIds_nodup : (filledIds (afterCalls calls)).Nodup :=
  keeps_filled.nodup_run hids List.nodup_nil

theorem completedIds_nodup : (completedIds (afterCalls calls)).Nodup :=
  keeps_completed.nodup_run hids List.nodup_nil

theorem filledEntries_length_le :
    (afterCalls calls).filledEntries.length ≤ kMaxTrackedOrders := by
  have h := keeps_filled.length_run_le (by decide) hids (s := {}) (Nat.zero_le _)
  rwa [filledIds, List.length_map] at h

theorem completedEntries_length_le :
    (afterCalls calls).completedEntries.length ≤ kMaxTrackedOrders := by
  have h := keeps_completed.length_run_le (by decide) hids (s := {}) (Nat.zero_le _)
  rwa [completedIds, List.length_map] at h

/-- The quantity of an id whose last update is known. -/
theorem findFilledQty_afterCalls {before after : List MemoryCall} {id : List UInt8} {qty : ℤ}
    (hcalls : calls = before ++ .upsertFilledQty id qty :: after)
    (hlast : ∀ c ∈ after, c.upserted ≠ some id) :
    (¬ Evicted call filledIds id (afterCalls (before ++ [.upsertFilledQty id qty])) after →
      (afterCalls calls).findFilledQty id = qty) ∧
    (Evicted call filledIds id (afterCalls (before ++ [.upsertFilledQty id qty])) after →
      (afterCalls calls).findFilledQty id = 0) := by
  subst hcalls
  have hid : IsId id := hids _ (List.mem_append_right _ List.mem_cons_self)
  have hbefore : ∀ c ∈ before ++ [.upsertFilledQty id qty], IsId c.orderId := by
    intro c hc
    exact hids c (List.append_subset.2 ⟨List.subset_append_left _ _, by simp⟩ hc)
  have hafter : ∀ c ∈ after, IsId c.orderId := fun c hc =>
    hids c (List.mem_append_right _ (List.mem_cons_of_mem _ hc))
  -- right after the update the id is there, with its quantity
  have hstart : afterCalls (before ++ [.upsertFilledQty id qty]) =
      (afterCalls before).upsertFilledQty id qty := run_append _ _ _
  have hin : id ∈ filledIds (afterCalls (before ++ [.upsertFilledQty id qty])) := by
    rw [hstart]
    exact keeps_filled.mem_step_self (c := .upsertFilledQty id qty) _ hid rfl
  have hqty : (afterCalls (before ++ [.upsertFilledQty id qty])).findFilledQty id = qty := by
    rw [hstart]
    exact findFilledQty_upsertFilledQty_self _ hid qty
  have hsplit : afterCalls (before ++ .upsertFilledQty id qty :: after) =
      run call (afterCalls (before ++ [.upsertFilledQty id qty])) after := run_split _ _ _ _
  rw [hsplit]
  constructor
  · intro hev
    have hvalue := keeps_filled.run_value findFilledQty_call hafter hlast
      (filledIds_nodup hbefore) hin hev
    exact hvalue.trans hqty
  · intro hev
    refine findFilledQty_of_not_mem fun hmem => ?_
    exact (keeps_filled.mem_run_iff hafter hlast hin).1 hmem hev

end Calls

/-- **The memories after any sequence of calls.** -/
theorem bounded_order_memory (calls : List MemoryCall) (hids : ∀ c ∈ calls, IsId c.orderId) :
    OrderMemory calls where
  filled_length := filledEntries_length_le hids
  completed_length := completedEntries_length_le hids
  filled_distinct := filledIds_nodup hids
  completed_distinct := completedIds_nodup hids
  filled_latest := keeps_filled.keys_run (by decide) hids [] rfl
  completed_latest := keeps_completed.keys_run (by decide) hids [] rfl
  upsert_new id qty _ hnew :=
    (if_neg hnew).trans (push_of_le (filledEntries_length_le hids) _)
  mark_new id _ hnew := by
    rw [FillListener.markCompleted, if_neg fun h => hnew (mem_completedIds.1 h)]
    exact push_of_le (completedEntries_length_le hids) _
  upsert_present id qty hmem :=
    (if_pos hmem).trans (modifyFirst_eq_map entryKey (filledIds_nodup hids))
  mark_present id hmem := by
    rw [FillListener.markCompleted, if_pos (mem_completedIds.2 hmem)]
  found before id qty after hcalls hlast := findFilledQty_afterCalls hids hcalls hlast
  not_found id hnone :=
    findFilledQty_of_not_mem (keeps_filled.not_mem_run hids hnone List.not_mem_nil)
  completed id := by
    rw [mem_completedIds, afterCalls,
      keeps_completed.mem_run_iff_exists hids (k := id) List.not_mem_nil]
    constructor
    · rintro ⟨before, c, after, rfl, hc, hev⟩
      cases c with
      | upsertFilledQty id' qty => cases hc
      | markCompleted id' =>
          cases hc
          exact ⟨before, after, rfl, hev⟩
    · rintro ⟨before, after, rfl, hev⟩
      exact ⟨before, _, after, rfl, rfl, hev⟩

/-- An order that is booked twice and then done. -/
theorem bounded_order_memory_one_order :
    (∀ c ∈ [MemoryCall.upsertFilledQty [97] 5, .markCompleted [97], .upsertFilledQty [97] 8],
      IsId c.orderId) ∧
    OrderMemory [.upsertFilledQty [97] 5, .markCompleted [97], .upsertFilledQty [97] 8] :=
  ⟨by decide, bounded_order_memory _ (by decide)⟩

end FillListener

end Trading
