/-
**Frames that end too early.**

A frame that is cut off, or that is malformed somewhere, makes the parser stop; `decodeRaw` swallows
the error.  By then the visitor has had the calls for what came before, and has emitted events while
it read.  Since an event is emitted at the end of a message and nowhere else, the events of such a
frame are those of the messages in it that are complete.

Main definitions:

* `Trading.AlpacaMsgpackDecoder.decodeCalls` — `decodeRaw` of a frame of which a part is read;
* `Trading.completeElements` — the elements that are read to their end.

Main results:

* `Trading.AlpacaVisitor.Unmoved.element_of_isPrefix` — a part of an element changes nothing that
  only the ends of messages change;
* `Trading.truncated_frame` — a frame that is cut anywhere is decoded as the frame of its complete
  elements.
-/

import TradingAlgo.ContainerFields

set_option relaxedAutoImplicit false
set_option autoImplicit false

namespace Trading

open Msgpack (Scalar Value Call Nested)

variable {F : Type} {d : Doubles F}

namespace AlpacaVisitor

/-! ### Parts of nested values -/

section Parts

variable {α : Type*} {f : AlpacaVisitor F → α} {x : α} {arrays maps : ℕ} {s : AlpacaVisitor F}
  {p : List (Call F)}

theorem Unmoved.run_of_isPrefix (hf : Unmoved d f) (hbase : 2 ≤ arrays ∨ 1 ≤ maps) {v : Value F}
    (hbound : arrays + maps + v.depth ≤ 2 ^ 32 + 1) (h : At arrays maps s ∧ f s = x)
    (hp : p <+: v.calls) : f (p.foldl (visit d) s) = x := by
  obtain ⟨key, a, m, -, hx⟩ := @Nested.run_of_isPrefix F _ _ _ _ (hf.nested x hbase hbound) v false
    0 0 s (by omega) (by simp) h p hp
  exact hx

theorem Unmoved.runItems_of_isPrefix (hf : Unmoved d f) (hbase : 2 ≤ arrays ∨ 1 ≤ maps)
    {items : List (Value F)} (hbound : arrays + maps + Msgpack.itemsDepth items ≤ 2 ^ 32 + 1)
    (h : At arrays maps s ∧ f s = x) (hp : p <+: Msgpack.itemCalls items) :
    f (p.foldl (visit d) s) = x := by
  refine Msgpack.runItems_isPrefix_of_forall (visit d) (Q := fun s => At arrays maps s ∧ f s = x)
    (R := fun s => f s = x) (fun _ hs => hs.2) (fun _ hs => hs)
    (fun _ hs => ⟨hs.1.endArrayItem, (hf _ _ (by simp)).trans hs.2⟩) ?_ ?_ h hp
  · intro item hitem s hs
    have hle := Msgpack.depth_le_itemsDepth hitem
    exact hf.run hbase (by omega) hs
  · intro item hitem s hs p hp
    have hle := Msgpack.depth_le_itemsDepth hitem
    exact hf.run_of_isPrefix hbase (by omega) hs hp

theorem Unmoved.runPairs_of_isPrefix (hf : Unmoved d f) (hbase : 2 ≤ arrays ∨ 1 ≤ maps)
    {pairs : List (Value F × Value F)}
    (hbound : arrays + maps + Msgpack.pairsDepth pairs ≤ 2 ^ 32 + 1)
    (h : At arrays maps s ∧ f s = x) (hp : p <+: Msgpack.pairCalls pairs) :
    f (p.foldl (visit d) s) = x := by
  refine Msgpack.runPairs_isPrefix_of_forall (visit d) (Q := fun s => At arrays maps s ∧ f s = x)
    (K := fun s => At arrays maps s ∧ f s = x) (R := fun s => f s = x) (fun _ hs => hs.2)
    (fun _ hs => hs.2) (fun _ hs => ⟨hs.1, (hf _ .startMapKey (by simp)).trans hs.2⟩)
    (fun _ hs => ⟨hs.1, (hf _ .endMapKey (by simp)).trans hs.2⟩) (fun _ hs => hs)
    (fun _ hs => ⟨hs.1, (hf _ .endMapValue (by simp)).trans hs.2⟩) ?_ ?_ h hp
  · intro pair hpair
    have hle := Msgpack.depth_le_pairsDepth hpair
    exact ⟨fun _ hs => hf.run hbase (by omega) hs, fun _ hs => hf.run hbase (by omega) hs⟩
  · intro pair hpair
    have hle := Msgpack.depth_le_pairsDepth hpair
    exact ⟨fun _ hs _ hp => hf.run_of_isPrefix hbase (by omega) hs hp,
      fun _ hs _ hp => hf.run_of_isPrefix hbase (by omega) hs hp⟩

/-- **A part of an element**: as long as its last call is missing, nothing is emitted. -/
theorem Unmoved.element_of_isPrefix (hf : Unmoved d f) (hs : At 1 0 s) {v : Value F}
    (hdepth : v.depth + 1 ≤ 2 ^ 32 + 1) (hp : p <+: v.calls) (hpart : p ≠ v.calls) :
    f (p.foldl (visit d) s) = f s := by
  cases v with
  | scalar y =>
      rcases List.prefix_cons_iff.1 hp with rfl | ⟨q, rfl, hq⟩
      · rfl
      · obtain rfl := List.prefix_nil.1 hq
        exact absurd rfl hpart
  | array items =>
      rw [Value.depth] at hdepth
      rcases List.prefix_cons_iff.1 hp with rfl | ⟨q, rfl, hq⟩
      · rfl
      rcases List.prefix_concat_iff.1 hq with rfl | hq
      · exact absurd rfl hpart
      · have hopen : At 2 0 (s.visit d (.startArray items.length)) := hs.startArray _
        have hsame : f (s.visit d (.startArray items.length)) = f s := hf s _ (by simp)
        have hkept : f (q.foldl (visit d) (s.visit d (.startArray items.length))) = f s :=
          hf.runItems_of_isPrefix (Or.inl le_rfl) (by omega) ⟨hopen, hsame⟩ hq
        exact hkept
  | map pairs =>
      rw [Value.depth] at hdepth
      rcases List.prefix_cons_iff.1 hp with rfl | ⟨q, rfl, hq⟩
      · rfl
      rcases List.prefix_concat_iff.1 hq with rfl | hq
      · exact absurd rfl hpart
      · have hopen : At 1 1 (s.visit d (.startMap pairs.length)) := hs.startMap _
        have hsame : f (s.visit d (.startMap pairs.length)) = f s := hf s _ (by simp)
        have hkept : f (q.foldl (visit d) (s.visit d (.startMap pairs.length))) = f s :=
          hf.runPairs_of_isPrefix (Or.inr le_rfl) (by omega) ⟨hopen, hsame⟩ hq
        exact hkept

/-- A part of a value that is not an array has no ends of messages. -/
theorem Unmoved.run_of_isPrefix_of_not_array (hf : Unmoved d f) (hs : At 0 0 s) {v : Value F}
    (hdepth : v.depth ≤ 2 ^ 32 + 1) (hv : ∀ items, v ≠ .array items) (hp : p <+: v.calls) :
    f (p.foldl (visit d) s) = f s := by
  by_cases hwhole : p = v.calls
  · rw [hwhole]
    exact hf.run_of_not_array hs hdepth hv
  · cases v with
    | scalar y =>
        rcases List.prefix_cons_iff.1 hp with rfl | ⟨q, rfl, hq⟩
        · rfl
        · obtain rfl := List.prefix_nil.1 hq
          exact absurd rfl hwhole
    | array items => exact absurd rfl (hv items)
    | map pairs =>
        rw [Value.depth] at hdepth
        rcases List.prefix_cons_iff.1 hp with rfl | ⟨q, rfl, hq⟩
        · rfl
        rcases List.prefix_concat_iff.1 hq with rfl | hq
        · exact absurd rfl hwhole
        · have hopen : At 0 1 (s.visit d (.startMap pairs.length)) := hs.startMap _
          have hsame : f (s.visit d (.startMap pairs.length)) = f s := hf s _ (by simp)
          have hkept : f (q.foldl (visit d) (s.visit d (.startMap pairs.length))) = f s :=
            hf.runPairs_of_isPrefix (Or.inr le_rfl) (by omega) ⟨hopen, hsame⟩ hq
          exact hkept

end Parts

end AlpacaVisitor

/-! ### Frames that are cut -/

/-- `decodeRaw` of a frame with which the parser gets as far as these calls. -/
def AlpacaMsgpackDecoder.decodeCalls (d : Doubles F) (decoder : AlpacaMsgpackDecoder)
    (calls : List (Call F)) (arrivedAt : UInt64) : AlpacaVisitor F :=
  calls.foldl (AlpacaVisitor.visit d)
    (AlpacaVisitor.create d decoder.eventBuffer decoder.onAuthSuccess arrivedAt)

/-- The elements that are read to their end within the first `cut` calls of an array's items. -/
def completed : ℕ → List (Value F) → List (Value F)
  | _, [] => []
  | cut, item :: items =>
      if item.calls.length + 1 ≤ cut then
        item :: completed (cut - (item.calls.length + 2)) items
      else []

/-- The elements of a frame that are read to their end within its first `cut` calls. -/
def completeElements (cut : ℕ) : Value F → List (Value F)
  | .array items => completed (cut - 1) items
  | _ => []

theorem completed_zero (items : List (Value F)) : completed 0 items = [] := by
  cases items with
  | nil => rfl
  | cons item items => rw [completed, if_neg (by omega)]

theorem completed_isPrefix (cut : ℕ) (items : List (Value F)) : completed cut items <+: items := by
  induction items generalizing cut with
  | nil => exact List.prefix_rfl
  | cons item items ih =>
      rw [completed]
      split_ifs
      · exact (List.prefix_cons_inj item).2 (ih _)
      · exact List.nil_prefix

theorem depth_completed_le (cut : ℕ) (items : List (Value F)) :
    Msgpack.itemsDepth (completed cut items) ≤ Msgpack.itemsDepth items := by
  obtain ⟨rest, hrest⟩ := completed_isPrefix cut items
  conv_rhs => rw [← hrest, Msgpack.itemsDepth_append]
  exact le_max_left _ _

namespace AlpacaVisitor

/-- A message as a whole. -/
theorem Between.message {events : List (MarketEvent × List UInt8)} {arrivedAt : UInt64}
    {s : AlpacaVisitor F} (hs : Between events arrivedAt s) {pairs : List (Value F × Value F)}
    (hdepth : Msgpack.pairsDepth pairs + 2 ≤ 2 ^ 32 + 1) :
    Between (events ++ messageEvents d arrivedAt pairs) arrivedAt
      (Msgpack.run (visit d) s (.map pairs)) := by
  refine hs.map hdepth fun t ht hreset => ?_
  rw [(runPairs_assignments pairs (by omega) ht).2, hreset]
  exact (Item.same_resetItem s.item).foldl_assignTo (assignments pairs)

/-- The items of the outermost array up to a cut. -/
theorem emitted_take_items (arrivedAt : UInt64) (items : List (Value F))
    (hdepth : Msgpack.itemsDepth items + 1 ≤ 2 ^ 32 + 1) (cut : ℕ)
    {events : List (MarketEvent × List UInt8)} {s : AlpacaVisitor F}
    (hs : Between events arrivedAt s) :
    (((Msgpack.itemCalls items ++ [Call.endArray]).take cut).foldl (visit d) s).emitted =
      events ++ (completed cut items).flatMap (elementEvents (messageEvents d arrivedAt)) := by
  induction items generalizing cut events s with
  | nil =>
      rw [completed, List.flatMap_nil, List.append_nil]
      cases cut with
      | zero => exact hs.2.1
      | succ cut =>
          rw [Msgpack.itemCalls, List.nil_append, List.take_of_length_le (by simp)]
          exact hs.2.1
  | cons item items ih =>
      rw [Msgpack.itemsDepth] at hdepth
      have hcalls : Msgpack.itemCalls (item :: items) ++ [Call.endArray] =
          (Call.startArrayItem :: item.calls) ++
            (Call.endArrayItem :: (Msgpack.itemCalls items ++ [Call.endArray])) := by
        simp [Msgpack.itemCalls]
      have hlength : (Call.startArrayItem :: item.calls).length = item.calls.length + 1 :=
        List.length_cons
      rw [hcalls, List.take_append, List.foldl_append, hlength, completed]
      by_cases hcut : item.calls.length + 1 ≤ cut
      · -- the element is read to its end
        rw [if_pos hcut, List.take_of_length_le (by omega), List.flatMap_cons,
          ← List.append_assoc]
        have hitem : Between (events ++ elementEvents (messageEvents d arrivedAt) item) arrivedAt
            (Msgpack.run (visit d) (s.visit d .startArrayItem) item) := by
          refine Between.element hs (fun pairs hpairs => ?_) (by omega)
          rw [hpairs, Value.depth] at hdepth
          exact Between.message hs (by omega)
        generalize hrest : cut - (item.calls.length + 1) = rest
        have hnext : cut - (item.calls.length + 2) = rest - 1 := by omega
        rw [hnext]
        cases rest with
        | zero =>
            rw [Nat.zero_sub, completed_zero, List.flatMap_nil, List.append_nil, List.take_zero]
            exact hitem.2.1
        | succ rest => exact ih (by omega) rest hitem.endArrayItem
      · -- its last call is missing
        rw [if_neg hcut, List.flatMap_nil, List.append_nil]
        have hnone : cut - (item.calls.length + 1) = 0 := by omega
        rw [hnone, List.take_zero, List.foldl_nil]
        cases cut with
        | zero => exact hs.2.1
        | succ cut =>
            have hpart : item.calls.take cut ≠ item.calls := by
              intro heq
              have hlen := congrArg List.length heq
              rw [List.length_take] at hlen
              omega
            have hsame := unmoved_output.element_of_isPrefix (d := d) hs.1 (by omega)
              (List.take_prefix cut item.calls) hpart
            exact (Prod.mk.inj hsame).1.trans hs.2.1

end AlpacaVisitor

theorem emitted_decodeCalls_of_not_array (d : Doubles F) (decoder : AlpacaMsgpackDecoder)
    {v : Value F} (arrivedAt : UInt64) (hdepth : v.depth ≤ 2 ^ 32 + 1)
    (hv : ∀ items, v ≠ .array items) (cut : ℕ) :
    (decoder.decodeCalls d (v.calls.take cut) arrivedAt).emitted = [] :=
  congrArg Prod.fst (AlpacaVisitor.unmoved_output.run_of_isPrefix_of_not_array ⟨rfl, rfl⟩ hdepth hv
    (List.take_prefix cut v.calls))

theorem emitted_decodeCalls_array (d : Doubles F) (decoder : AlpacaMsgpackDecoder)
    (items : List (Value F)) (arrivedAt : UInt64)
    (hdepth : (Value.array items).depth ≤ 2 ^ 32 + 1) (cut : ℕ) :
    (decoder.decodeCalls d ((Value.array items).calls.take cut) arrivedAt).emitted =
      (completed (cut - 1) items).flatMap
        (AlpacaVisitor.elementEvents (messageEvents d arrivedAt)) := by
  rw [Value.depth] at hdepth
  cases cut with
  | zero =>
      rw [Nat.zero_sub, completed_zero]
      rfl
  | succ cut =>
      have hstart : AlpacaVisitor.Between [] arrivedAt ((AlpacaVisitor.create d decoder.eventBuffer
          decoder.onAuthSuccess arrivedAt).visit d (.startArray items.length)) :=
        ⟨⟨rfl, rfl⟩, rfl, rfl⟩
      exact AlpacaVisitor.emitted_take_items arrivedAt items hdepth cut hstart

/-- **A frame that is cut anywhere is decoded as the frame of its complete elements**, whatever the
decoder has decoded before.  So its events are the first ones of the whole frame, and all of them
when nothing is missing.  The containers are nested `2 ^ 32 + 1` deep at most. -/
theorem truncated_frame (d : Doubles F) (decoder decoder' : AlpacaMsgpackDecoder) (v : Value F)
    (arrivedAt : UInt64) (hdepth : v.depth ≤ 2 ^ 32 + 1) (cut : ℕ) :
    let emitted := (decoder.decodeCalls d (v.calls.take cut) arrivedAt).emitted
    emitted = (decoder'.decodeRaw d (.array (completeElements cut v)) arrivedAt).emitted ∧
      emitted <+: (decoder.decodeRaw d v arrivedAt).emitted ∧
      (v.calls.length ≤ cut → emitted = (decoder.decodeRaw d v arrivedAt).emitted) := by
  intro emitted
  have hwhole : v.calls.length ≤ cut → emitted = (decoder.decodeRaw d v arrivedAt).emitted := by
    intro hcut
    simp only [emitted, List.take_of_length_le hcut]
    rfl
  suffices h :
      emitted = (decoder'.decodeRaw d (.array (completeElements cut v)) arrivedAt).emitted ∧
        emitted <+: (decoder.decodeRaw d v arrivedAt).emitted from ⟨h.1, h.2, hwhole⟩
  by_cases hv : ∀ items, v ≠ .array items
  · have hnone : completeElements cut v = [] := by
      cases v with
      | array items => exact absurd rfl (hv items)
      | _ => rfl
    have hempty : emitted = [] := emitted_decodeCalls_of_not_array d decoder arrivedAt hdepth hv cut
    rw [hnone, emitted_array d decoder' [] arrivedAt (by simp [Value.depth, Msgpack.itemsDepth]),
      hempty]
    exact ⟨rfl, List.nil_prefix⟩
  · obtain ⟨items, rfl⟩ : ∃ items, v = .array items := by simpa using hv
    have hcut : (Value.array (completed (cut - 1) items)).depth ≤ 2 ^ 32 + 1 := by
      have hle := depth_completed_le (cut - 1) items
      rw [Value.depth] at hdepth ⊢
      omega
    have heq : emitted = (completed (cut - 1) items).flatMap
        (AlpacaVisitor.elementEvents (messageEvents d arrivedAt)) :=
      emitted_decodeCalls_array d decoder items arrivedAt hdepth cut
    rw [heq]
    refine ⟨(emitted_array d decoder' _ arrivedAt hcut).symm, ?_⟩
    rw [emitted_array d decoder items arrivedAt hdepth]
    obtain ⟨rest, hrest⟩ := completed_isPrefix (cut - 1) items
    conv_rhs => rw [← hrest, List.flatMap_append]
    exact List.prefix_append _ _

/-- Two trades, cut in the last pair of the second: one event. -/
theorem truncated_frame_of_two_trades :
    let v : Value ℕ := .array [.map tradePairs, .map tradePairs]
    let cut := 70
    v.depth ≤ 2 ^ 32 + 1 ∧
      (newDecoder.decodeCalls wholeDoubles (v.calls.take cut) 7).emitted =
        (newDecoder.decodeRaw wholeDoubles (.array [.map tradePairs]) 7).emitted ∧
      (newDecoder.decodeRaw wholeDoubles (.array [.map tradePairs]) 7).emitted.length = 1 := by
  intro v cut
  have hdepth : v.depth ≤ 2 ^ 32 + 1 := by decide +kernel
  have hlength : (Value.map tradePairs).calls.length = 37 := by decide +kernel
  have hcut : completeElements cut v = [.map tradePairs] := by
    simp [completeElements, v, cut, completed, hlength]
  refine ⟨hdepth, ?_, by decide +kernel⟩
  rw [(truncated_frame wholeDoubles newDecoder newDecoder v 7 hdepth cut).1, hcut]

end Trading
