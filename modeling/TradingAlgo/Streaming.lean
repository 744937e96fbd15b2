/-
**The streaming decoder is the reference decoder.**

The visitor keeps its state over a whole frame: the counters, the current field and the fields of
the current message see every call, also those of values that are nested in a message or beside it.
A value that is nested deeper than the two counters can count would be taken for a message; below
that every value leaves the counters as it found them, and within a message it leaves the fields
alone.

Main results:

* `Trading.AlpacaVisitor.Unmoved.nested`, `Trading.AlpacaVisitor.nested_inside` — what nested values
  leave alone, everywhere and within a message;
* `Trading.AlpacaVisitor.runPairs_item` — the pairs of a message are folded one by one;
* `Trading.emitted_of_messages` — the events of a frame are those of its messages;
* `Trading.streaming_decoder` — they are those of the reference decoder.
-/

import TradingAlgo.MsgpackDecoder

set_option relaxedAutoImplicit false
set_option autoImplicit false

namespace Trading

open Msgpack (Scalar Value Call Nested)

variable {F : Type} {d : Doubles F}

/-! ### Items that read the same -/

namespace Item

/-- Two items that differ at most in bytes that nobody reads. -/
structure Same (item item' : Item F) : Prop where
  mt : item.mt = item'.mt
  sym : item.sym = item'.sym
  timestamp : item.timestamp = item'.timestamp
  p1Raw : item.p1Raw = item'.p1Raw
  s1Raw : item.s1Raw = item'.s1Raw
  p2Raw : item.p2Raw = item'.p2Raw
  s2Raw : item.s2Raw = item'.s2Raw
  hasTimestamp : item.hasTimestamp = item'.hasTimestamp
  invalidItem : item.invalidItem = item'.invalidItem

theorem same_resetItem (item : Item F) : Same (item.resetItem d) (Item.empty d) where
  mt := by simp [Item.mt, resetItem, empty]
  sym := by simp [Item.sym, resetItem, empty]
  timestamp := rfl
  p1Raw := rfl
  s1Raw := rfl
  p2Raw := rfl
  s2Raw := rfl
  hasTimestamp := rfl
  invalidItem := rfl

/-- What was copied is read back. -/
theorem take_copyOver (buffer : CharArray 8) (v : List UInt8) :
    (copyOver buffer v).bytes.take (min v.length 8) = v.take 8 := by
  simp only [copyOver]
  rw [List.take_append_of_le_length (by simp), List.take_take]
  rcases Nat.le_total v.length 8 with h | h
  · simp [h]
  · simp [h]

section Assign

variable {item item' : Item F}

theorem Same.visitStr (h : Same item item') (field : FieldId) (v : List UInt8) :
    Same (item.visitStr field v) (item'.visitStr field v) := by
  cases field with
  | type => exact { h with mt := (take_copyOver _ v).trans (take_copyOver _ v).symm }
  | symbol => exact { h with sym := (take_copyOver _ v).trans (take_copyOver _ v).symm }
  | _ => exact h

theorem Same.visitPositiveInteger (h : Same item item') (field : FieldId) (v : UInt64) :
    Same (item.visitPositiveInteger d field v) (item'.visitPositiveInteger d field v) := by
  cases field with
  | timestamp => exact { h with timestamp := rfl, hasTimestamp := rfl }
  | bidPrice => exact { h with p1Raw := rfl }
  | bidSize => exact { h with s1Raw := rfl }
  | askPrice => exact { h with p2Raw := rfl }
  | askSize => exact { h with s2Raw := rfl }
  | _ => exact h

theorem Same.visitNegativeInteger (h : Same item item') (field : FieldId) :
    Same (item.visitNegativeInteger field) (item'.visitNegativeInteger field) := by
  cases field with
  | timestamp => exact { h with timestamp := rfl, hasTimestamp := rfl }
  | bidPrice | bidSize | askPrice | askSize => exact { h with invalidItem := rfl }
  | _ => exact h

theorem Same.visitFloat64 (h : Same item item') (field : FieldId) (v : F) :
    Same (item.visitFloat64 d field v) (item'.visitFloat64 d field v) := by
  cases field with
  | timestamp => exact { h with timestamp := rfl, hasTimestamp := rfl }
  | bidPrice => exact { h with p1Raw := rfl }
  | bidSize =>
      simp only [Item.visitFloat64]
      cases d.toUInt64 v with
      | none => exact { h with invalidItem := rfl }
      | some size => exact { h with s1Raw := rfl }
  | askPrice => exact { h with p2Raw := rfl }
  | askSize =>
      simp only [Item.visitFloat64]
      cases d.toUInt64 v with
      | none => exact { h with invalidItem := rfl }
      | some size => exact { h with s2Raw := rfl }
  | _ => exact h

theorem Same.visitExt (h : Same item item') (field : FieldId) (v : List UInt8) :
    Same (item.visitExt field v) (item'.visitExt field v) := by
  unfold Item.visitExt
  split_ifs
  · exact { h with timestamp := rfl, hasTimestamp := rfl }
  · exact h

/-- A scalar for a field, on items that read the same. -/
theorem Same.assign (h : Same item item') (field : FieldId) (x : Scalar F) :
    Same (item.assign d field x) (item'.assign d field x) := by
  cases x with
  | str v => exact h.visitStr field v
  | positiveInteger v => exact h.visitPositiveInteger field v
  | negativeInteger v => exact h.visitNegativeInteger field
  | float32 v | float64 v => exact h.visitFloat64 field v
  | ext v => exact h.visitExt field v
  | nil | boolean | bin => exact h

/-- **The pairs of a message, on items that read the same.** -/
theorem Same.foldl_assignPair (pairs : List (Value F × Value F)) :
    ∀ {item item' : Item F}, Same item item' →
      Same (pairs.foldl (assignPair d) item) (pairs.foldl (assignPair d) item') := by
  induction pairs with
  | nil => exact fun h => h
  | cons pair pairs ih =>
      intro item item' h
      refine ih ?_
      unfold assignPair
      cases pair.2 with
      | scalar x => exact h.assign (keyField pair.1) x
      | _ => exact h

end Assign

/-- A scalar that is not the value of a field changes nothing. -/
@[simp] theorem assign_none (item : Item F) (x : Scalar F) : item.assign d .none x = item := by
  cases x with
  | ext v => simp [assign, visitExt]
  | _ => rfl

/-- A container does not change an item. -/
theorem assignPair_of_not_isScalar (item : Item F) {pair : Value F × Value F}
    (h : ¬ pair.2.isScalar) : item.assignPair d pair = item := by
  unfold assignPair
  split
  · next x hx => simp [hx, Value.isScalar] at h
  · rfl

end Item

/-! ### What is emitted -/

namespace AlpacaVisitor

/-- What an item leads to at the end of its map. -/
def output (d : Doubles F) (arrivedAt : UInt64) (item : Item F) : List (MarketEvent × List UInt8) :=
  let nothing : MarketEvent := ⟨0, CharArray.ofBytes 8 [], 0, 0, 0, 0, 0, 0⟩
  (emitItem d { create d nothing false arrivedAt with item := item }).emitted

/-- **An event has nothing of the events before**: `emitItem` writes all of the buffer. -/
theorem emitItem_emitted (s : AlpacaVisitor F) :
    (s.emitItem d).emitted = s.emitted ++ output d s.arrivedAt s.item := by
  simp only [output, emitItem, emit, create, apply_ite AlpacaVisitor.emitted,
    apply_ite (s.emitted ++ ·), List.append_nil, List.nil_append, ite_self]

theorem output_congr {item item' : Item F} (h : item.Same item') (arrivedAt : UInt64) :
    output d arrivedAt item = output d arrivedAt item' := by
  simp only [output, emitItem, emit, create, apply_ite AlpacaVisitor.emitted, h.mt, h.sym,
    h.timestamp, h.p1Raw, h.s1Raw, h.p2Raw, h.s2Raw, h.hasTimestamp, h.invalidItem]

/-- The time of arrival is that of the frame. -/
theorem arrivedAt_of_mem_output {item : Item F} {arrivedAt : UInt64}
    {x : MarketEvent × List UInt8} (hx : x ∈ output d arrivedAt item) :
    x.1.arrivedAt = arrivedAt := by
  simp only [output, emitItem, emit, create, apply_ite AlpacaVisitor.emitted, List.nil_append,
    ite_self] at hx
  repeat' split at hx
  all_goals first
    | exact absurd hx List.not_mem_nil
    | rw [List.mem_singleton.1 hx]

/-- `emitItem` writes the event buffer and the two logs, and nothing else. -/
theorem emitItem_eq (s : AlpacaVisitor F) :
    ∃ event emitted calls, s.emitItem d =
      { s with eventBuffer := event, emitted := emitted, authSuccesses := calls } := by
  simp only [emitItem]
  split_ifs <;> exact ⟨_, _, _, rfl⟩

theorem emitItem_frame (s : AlpacaVisitor F) :
    (s.emitItem d).arrayDepth = s.arrayDepth ∧ (s.emitItem d).mapDepth = s.mapDepth ∧
      (s.emitItem d).arrivedAt = s.arrivedAt := by
  obtain ⟨event, emitted, calls, heq⟩ := emitItem_eq (d := d) s
  rw [heq]
  exact ⟨rfl, rfl, rfl⟩

/-! ### The counters -/

theorem ofNat_succ (k : ℕ) : UInt32.ofNat k + 1 = UInt32.ofNat (k + 1) := by
  rw [UInt32.ofNat_add]
  rfl

theorem ofNat_succ_sub (k : ℕ) : UInt32.ofNat (k + 1) - 1 = UInt32.ofNat k := by
  rw [← ofNat_succ]
  simp

theorem ofNat_eq_one_iff (k : ℕ) : UInt32.ofNat k = 1 ↔ k % 2 ^ 32 = 1 := by
  rw [← UInt32.toNat_inj, UInt32.toNat_ofNat']
  rfl

/-- As many arrays and maps are open; the counters are modulo `2^32`. -/
def At (arrays maps : ℕ) (s : AlpacaVisitor F) : Prop :=
  s.arrayDepth = UInt32.ofNat arrays ∧ s.mapDepth = UInt32.ofNat maps

/-- Within the bound only a map of the outermost array is taken for a message. -/
theorem At.not_message {s : AlpacaVisitor F} {arrays maps : ℕ} (h : At arrays maps s)
    (hnested : arrays ≠ 1 ∨ maps ≠ 1) (hbound : arrays + maps ≤ 2 ^ 32 + 1) :
    ¬ (s.arrayDepth = 1 ∧ s.mapDepth = 1) := by
  rw [h.1, h.2, ofNat_eq_one_iff, ofNat_eq_one_iff]
  omega

/-- A scalar selects a field or changes the item. -/
theorem visitScalar_eq (s : AlpacaVisitor F) (x : Scalar F) :
    ∃ field item, s.visitScalar d x = { s with currentField := field, item := item } := by
  unfold visitScalar
  split_ifs
  · exact ⟨_, _, rfl⟩
  · cases x <;> exact ⟨_, _, rfl⟩
  · exact ⟨_, _, rfl⟩

section At

variable {s : AlpacaVisitor F} {arrays maps : ℕ}

theorem At.visitScalar (h : At arrays maps s) (x : Scalar F) :
    At arrays maps (s.visitScalar d x) := by
  obtain ⟨field, item, heq⟩ := visitScalar_eq (d := d) s x
  rw [heq]
  exact h

theorem At.startArray (h : At arrays maps s) (num : ℕ) :
    At (arrays + 1) maps (s.visit d (.startArray num)) := by
  refine ⟨?_, h.2⟩
  rw [← ofNat_succ, ← h.1]
  rfl

theorem At.endArrayItem (h : At arrays maps s) : At arrays maps (s.visit d .endArrayItem) := by
  simp only [visit]
  split_ifs <;> exact h

theorem At.endArray (h : At (arrays + 1) maps s) : At arrays maps (s.visit d .endArray) := by
  refine ⟨?_, h.2⟩
  rw [← ofNat_succ_sub, ← h.1]
  rfl

theorem At.startMap (h : At arrays maps s) (num : ℕ) :
    At arrays (maps + 1) (s.visit d (.startMap num)) := by
  have hmaps : s.mapDepth + 1 = UInt32.ofNat (maps + 1) := by rw [← ofNat_succ, ← h.2]
  simp only [visit]
  split_ifs <;> exact ⟨h.1, hmaps⟩

theorem At.endMap (h : At arrays (maps + 1) s) : At arrays maps (s.visit d .endMap) := by
  obtain ⟨harrays, hmaps, -⟩ := emitItem_frame (d := d) s
  have hpred : s.mapDepth - 1 = UInt32.ofNat maps := by rw [← ofNat_succ_sub, ← h.2]
  simp only [visit]
  split_ifs
  · refine ⟨harrays.trans h.1, ?_⟩
    show (s.emitItem d).mapDepth - 1 = _
    rw [hmaps, hpred]
  · exact ⟨h.1, hpred⟩

end At

/-- **Every value restores the counters.** -/
theorem nested_at {arrays maps bound : ℕ} :
    Nested (visit d) bound fun _ a m s => At (arrays + a) (maps + m) s where
  scalar := fun x _ h => h.visitScalar x
  startArray := fun num _ h => h.startArray num
  startArrayItem := fun h => h
  endArrayItem := fun h => h.endArrayItem
  endArray := fun h => h.endArray
  startMap := fun num _ h => h.startMap num
  startMapKey := fun h => h
  endMapKey := fun h => h
  startMapValue := fun h => h
  endMapValue := fun h => h
  endMap := fun _ _ h => h.endMap

/-- A part of the state that no call changes, except for the ends of messages. -/
def Unmoved {α : Type*} (d : Doubles F) (f : AlpacaVisitor F → α) : Prop :=
  ∀ s call, ¬ (call = Call.endMap ∧ s.arrayDepth = 1 ∧ s.mapDepth = 1) → f (s.visit d call) = f s

/-- Outside of the ends of messages the calls change the counters, the current field and the item.
-/
theorem unmoved_of_frame {α : Type*} {f : AlpacaVisitor F → α}
    (hf : ∀ s arrayDepth arrayIndex mapDepth inKey currentField item,
      f { s with
        arrayDepth := arrayDepth
        arrayIndex := arrayIndex
        mapDepth := mapDepth
        inKey := inKey
        currentField := currentField
        item := item } = f s) : Unmoved d f := by
  intro s call hcall
  cases call with
  | scalar x =>
      obtain ⟨field, item, heq⟩ := visitScalar_eq (d := d) s x
      rw [show s.visit d (.scalar x) = s.visitScalar d x from rfl, heq]
      exact hf s _ _ _ _ _ _
  | endArrayItem | startMap num =>
      simp only [visit]
      split_ifs <;> exact hf s _ _ _ _ _ _
  | endMap =>
      have hnot : ¬ (s.arrayDepth = 1 ∧ s.mapDepth = 1) := fun h => hcall ⟨rfl, h⟩
      simp only [visit, if_neg hnot]
      exact hf s _ _ _ _ _ _
  | _ => exact hf s _ _ _ _ _ _

/-- **Nested values restore the counters and leave what is unmoved**, below two arrays or one map.
-/
theorem Unmoved.nested {α : Type*} {f : AlpacaVisitor F → α} (hf : Unmoved d f) (x : α)
    {arrays maps bound : ℕ} (hbase : 2 ≤ arrays ∨ 1 ≤ maps)
    (hbound : arrays + maps + bound ≤ 2 ^ 32 + 1) :
    Nested (visit d) bound fun _ a m s => At (arrays + a) (maps + m) s ∧ f s = x where
  scalar := fun y _ h => ⟨h.1.visitScalar y, (hf _ (.scalar y) (by simp)).trans h.2⟩
  startArray := fun num _ h => ⟨h.1.startArray num, (hf _ _ (by simp)).trans h.2⟩
  startArrayItem := fun h => h
  endArrayItem := fun h => ⟨h.1.endArrayItem, (hf _ _ (by simp)).trans h.2⟩
  endArray := fun h => ⟨h.1.endArray, (hf _ _ (by simp)).trans h.2⟩
  startMap := fun num _ h => ⟨h.1.startMap num, (hf _ _ (by simp)).trans h.2⟩
  startMapKey := fun h => ⟨h.1, (hf _ .startMapKey (by simp)).trans h.2⟩
  endMapKey := fun h => ⟨h.1, (hf _ .endMapKey (by simp)).trans h.2⟩
  startMapValue := fun h => h
  endMapValue := fun h => ⟨h.1, (hf _ .endMapValue (by simp)).trans h.2⟩
  endMap := by
    intro _ a m s hlt _ h
    have hopen : At (arrays + a) (maps + m + 1) s := h.1
    have hnot := hopen.not_message (by omega) (by omega)
    exact ⟨hopen.endMap, (hf _ _ fun hend => hnot hend.2).trans h.2⟩

section Containers

variable {α : Type*} {f : AlpacaVisitor F → α} {x : α} {arrays maps : ℕ}

theorem Unmoved.run (hf : Unmoved d f) (hbase : 2 ≤ arrays ∨ 1 ≤ maps) {v : Value F}
    (hbound : arrays + maps + v.depth ≤ 2 ^ 32 + 1) {s : AlpacaVisitor F}
    (h : At arrays maps s ∧ f s = x) :
    At arrays maps (Msgpack.run (visit d) s v) ∧ f (Msgpack.run (visit d) s v) = x :=
  @Nested.run F _ _ _ _ (hf.nested x hbase hbound) v false 0 0 s (by omega) (by simp) h

theorem Unmoved.runItems (hf : Unmoved d f) (items : List (Value F))
    (hbase : 2 ≤ arrays ∨ 1 ≤ maps)
    (hbound : arrays + maps + Msgpack.itemsDepth items ≤ 2 ^ 32 + 1) {s : AlpacaVisitor F}
    (h : At arrays maps s ∧ f s = x) :
    At arrays maps (Msgpack.runItems (visit d) s items) ∧
      f (Msgpack.runItems (visit d) s items) = x := by
  refine Msgpack.runItems_of_forall (visit d)
    (Q := fun s => At arrays maps s ∧ f s = x) (fun _ hs => hs)
    (fun _ hs => ⟨hs.1.endArrayItem, (hf _ _ (by simp)).trans hs.2⟩) (fun item hitem s hs => ?_) h
  have hle := Msgpack.depth_le_itemsDepth hitem
  exact hf.run hbase (by omega) hs

theorem Unmoved.runPairs (hf : Unmoved d f) (pairs : List (Value F × Value F))
    (hbase : 2 ≤ arrays ∨ 1 ≤ maps)
    (hbound : arrays + maps + Msgpack.pairsDepth pairs ≤ 2 ^ 32 + 1) {s : AlpacaVisitor F}
    (h : At arrays maps s ∧ f s = x) :
    At arrays maps (Msgpack.runPairs (visit d) s pairs) ∧
      f (Msgpack.runPairs (visit d) s pairs) = x := by
  refine Msgpack.runPairs_of_forall (visit d)
    (Q := fun s => At arrays maps s ∧ f s = x)
    (fun _ hs => ⟨hs.1, (hf _ .startMapKey (by simp)).trans hs.2⟩)
    (fun _ hs => ⟨hs.1, (hf _ .endMapKey (by simp)).trans hs.2⟩) (fun _ hs => hs)
    (fun _ hs => ⟨hs.1, (hf _ .endMapValue (by simp)).trans hs.2⟩) (fun pair hpair s hs => ?_) h
  have hle := Msgpack.depth_le_pairsDepth hpair
  exact ⟨hf.run hbase (by omega) hs, hf.run hbase (by omega) hs⟩

end Containers

/-- With a base of open containers, how many are open, and nothing was emitted since. -/
def Quiet (s₀ : AlpacaVisitor F) (arrays maps : ℕ) (s : AlpacaVisitor F) : Prop :=
  At arrays maps s ∧ s.emitted = s₀.emitted ∧ s.arrivedAt = s₀.arrivedAt

theorem unmoved_output : Unmoved d fun s => (s.emitted, s.arrivedAt) :=
  unmoved_of_frame fun _ _ _ _ _ _ _ => rfl

section Quiet

variable {s₀ s : AlpacaVisitor F} {arrays maps : ℕ}

theorem quiet_iff : Quiet s₀ arrays maps s ↔
    At arrays maps s ∧ (s.emitted, s.arrivedAt) = (s₀.emitted, s₀.arrivedAt) := by
  simp [Quiet]

/-- A call that is not the end of a message. -/
theorem Quiet.visit (h : Quiet s₀ arrays maps s) (call : Call F) {arrays' maps' : ℕ}
    (hat : At arrays' maps' (s.visit d call))
    (hcall : ¬ (call = Call.endMap ∧ s.arrayDepth = 1 ∧ s.mapDepth = 1)) :
    Quiet s₀ arrays' maps' (s.visit d call) :=
  quiet_iff.2 ⟨hat, (unmoved_output s call hcall).trans (quiet_iff.1 h).2⟩

theorem Quiet.visitScalar (h : Quiet s₀ arrays maps s) (x : Scalar F) :
    Quiet s₀ arrays maps (s.visitScalar d x) :=
  h.visit (.scalar x) (h.1.visitScalar x) (by simp)

theorem Quiet.startArray (h : Quiet s₀ arrays maps s) (num : ℕ) :
    Quiet s₀ (arrays + 1) maps (s.visit d (.startArray num)) :=
  h.visit _ (h.1.startArray num) (by simp)

theorem Quiet.endArrayItem (h : Quiet s₀ arrays maps s) :
    Quiet s₀ arrays maps (s.visit d .endArrayItem) :=
  h.visit _ h.1.endArrayItem (by simp)

theorem Quiet.endArray (h : Quiet s₀ (arrays + 1) maps s) :
    Quiet s₀ arrays maps (s.visit d .endArray) :=
  h.visit _ h.1.endArray (by simp)

theorem Quiet.startMap (h : Quiet s₀ arrays maps s) (num : ℕ) :
    Quiet s₀ arrays (maps + 1) (s.visit d (.startMap num)) :=
  h.visit _ (h.1.startMap num) (by simp)

theorem Quiet.endMap (h : Quiet s₀ arrays (maps + 1) s) (hnested : arrays ≠ 1 ∨ maps ≠ 0)
    (hbound : arrays + (maps + 1) ≤ 2 ^ 32 + 1) :
    Quiet s₀ arrays maps (s.visit d .endMap) := by
  have hnot := h.1.not_message (by omega) hbound
  exact h.visit _ h.1.endMap fun hend => hnot hend.2

end Quiet

/-! ### Within a message -/

/-- Within the value of a key that is not recognised.  The flag `in_key` is meaningless while the
parser is in a key of a nested map, and does no harm there. -/
structure Inside (s₀ : AlpacaVisitor F) (key : Bool) (a m : ℕ) (s : AlpacaVisitor F) : Prop where
  quiet : Quiet s₀ (1 + a) (1 + m) s
  item : s.item = s₀.item
  currentField : s.currentField = .none
  inKey : key = false ∨ m = 0 → s.inKey = false

/-- **Nested values leave the current message alone.** -/
theorem nested_inside {s₀ : AlpacaVisitor F} {bound : ℕ} (hbound : bound + 2 ≤ 2 ^ 32 + 1) :
    Nested (visit d) bound (Inside s₀) where
  scalar := by
    intro key a m s x hle h
    -- at the level of the message no field is selected, and deeper nothing is looked at
    have hsame : s.visitScalar d x = s := by
      unfold visitScalar
      split_ifs with hmap hkey
      · rfl
      · have hm : m = 0 := by
          rw [not_not, h.quiet.1.2, ofNat_eq_one_iff] at hmap
          omega
        simp [h.inKey (Or.inr hm)] at hkey
      · have hitem : s.item.assign d s.currentField x = s.item := by
          rw [h.currentField, Item.assign_none]
        rw [hitem]
    rw [show visit d s (.scalar x) = s.visitScalar d x from rfl, hsame]
    exact h
  startArray := fun num _ h => { h with quiet := h.quiet.startArray num }
  startArrayItem := fun h => h
  endArrayItem := by
    intro key a m s h
    have hquiet : Quiet s₀ (1 + (a + 1)) (1 + m) (s.visit d .endArrayItem) := h.quiet.endArrayItem
    simp only [visit] at hquiet ⊢
    split_ifs at hquiet ⊢ with hone
    · exact { h with quiet := hquiet }
    · exact h
  endArray := fun h => { h with quiet := h.quiet.endArray }
  startMap := by
    intro key a m s num hlt h
    have hquiet : Quiet s₀ (1 + a) (1 + (m + 1)) (s.visit d (.startMap num)) :=
      h.quiet.startMap num
    have hnot : ¬ (s.arrayDepth = 1 ∧ s.mapDepth + 1 = 1) :=
      fun hmessage => hquiet.1.not_message (by omega) (by omega) (by simp [visit, hmessage])
    simp only [visit, if_neg hnot] at hquiet ⊢
    exact ⟨hquiet, h.item, h.currentField,
      fun hk => h.inKey (Or.inl (hk.resolve_right (Nat.succ_ne_zero m)))⟩
  startMapKey := fun h =>
    { h with currentField := rfl, inKey := fun hk => by simp at hk }
  endMapKey := fun h => { h with inKey := fun _ => rfl }
  startMapValue := fun h => h
  endMapValue := fun h => { h with currentField := rfl }
  endMap := by
    intro key a m s hlt hkey h
    have hopen : Quiet s₀ (1 + a) (1 + m + 1) s := h.quiet
    have hquiet : Quiet s₀ (1 + a) (1 + m) (s.visit d .endMap) :=
      hopen.endMap (by omega) (by omega)
    have hnot := hopen.1.not_message (by omega) (by omega)
    simp only [visit, if_neg hnot] at hquiet ⊢
    refine ⟨hquiet, h.item, h.currentField, fun hk => h.inKey (Or.inl ?_)⟩
    cases key with
    | false => rfl
    | true => exact absurd (hkey rfl) (by simpa using hk)

/-- A key of a message that is a scalar. -/
theorem run_key {s : AlpacaVisitor F} (hs : s.mapDepth = 1) {key : Value F}
    (hkey : key.isScalar) :
    (Msgpack.run (visit d) (s.visit d .startMapKey) key).visit d .endMapKey =
      { s with inKey := false, currentField := keyField key } := by
  cases key with
  | scalar x =>
      rw [Msgpack.run_scalar]
      cases x <;> simp [visit, visitScalar, hs, keyField]
  | array | map => simp [Value.isScalar] at hkey

/-- **A pair of a message**: its value is given to the field of its key. -/
theorem runPair_item {s : AlpacaVisitor F} (hs : At 1 1 s) {pair : Value F × Value F}
    (hkey : pair.1.isScalar) (hvalue : keyField pair.1 ≠ .none → pair.2.isScalar)
    (hdepth : pair.2.depth + 2 ≤ 2 ^ 32 + 1) :
    Quiet s 1 1 (Msgpack.runPair (visit d) s pair) ∧
      (Msgpack.runPair (visit d) s pair).item = s.item.assignPair d pair := by
  rw [Msgpack.runPair, run_key hs.2 hkey]
  by_cases hscalar : pair.2.isScalar
  · obtain ⟨key, value⟩ := pair
    cases value with
    | scalar x =>
        have hone : s.mapDepth = 1 := hs.2
        simp only [Msgpack.run_scalar, visit, visitScalar, hone, ne_eq, not_true_eq_false, if_false,
          Bool.false_eq_true]
        exact ⟨⟨⟨hs.1, rfl⟩, rfl, rfl⟩, rfl⟩
    | array | map => simp [Value.isScalar] at hscalar
  · -- a container, so the key is not recognised
    have hnone : keyField pair.1 = .none := by
      by_contra hne
      exact hscalar (hvalue hne)
    have hstart : Inside s false 0 0
        { s with inKey := false, currentField := keyField pair.1 } :=
      ⟨⟨hs, rfl, rfl⟩, rfl, hnone, fun _ => rfl⟩
    have hinside := (nested_inside (d := d) hdepth).run pair.2 (by omega) (by simp) hstart
    rw [Item.assignPair_of_not_isScalar _ hscalar]
    exact ⟨hinside.quiet, hinside.item⟩

/-- **The pairs of a message are folded one by one**, and nothing is emitted meanwhile. -/
theorem runPairs_item {pairs : List (Value F × Value F)}
    (hscalar : ∀ pair ∈ pairs,
      pair.1.isScalar ∧ (keyField pair.1 ≠ .none → pair.2.isScalar))
    (hdepth : Msgpack.pairsDepth pairs + 2 ≤ 2 ^ 32 + 1) :
    ∀ {s : AlpacaVisitor F}, At 1 1 s →
      Quiet s 1 1 (Msgpack.runPairs (visit d) s pairs) ∧
        (Msgpack.runPairs (visit d) s pairs).item = pairs.foldl (Item.assignPair d) s.item := by
  induction pairs with
  | nil => exact fun hs => ⟨⟨hs, rfl, rfl⟩, rfl⟩
  | cons pair pairs ih =>
      intro s hs
      have hpair := hscalar pair List.mem_cons_self
      have hle := (Msgpack.depth_le_pairsDepth (List.mem_cons_self (a := pair) (l := pairs))).2
      have hrest : Msgpack.pairsDepth pairs ≤ Msgpack.pairsDepth (pair :: pairs) := by
        rw [Msgpack.pairsDepth]
        exact le_max_right _ _
      obtain ⟨hquiet, hitem⟩ := runPair_item (d := d) hs hpair.1 hpair.2 (by omega)
      obtain ⟨hquiet', hitem'⟩ :=
        ih (fun p hp => hscalar p (List.mem_cons_of_mem pair hp)) (by omega) hquiet.1
      rw [Msgpack.runPairs_cons, List.foldl_cons, ← hitem]
      exact ⟨⟨hquiet'.1, hquiet'.2.1.trans hquiet.2.1, hquiet'.2.2.trans hquiet.2.2⟩, hitem'⟩

/-! ### The outermost array -/

/-- The events of an element of the outermost array, by those of messages. -/
def elementEvents (message : List (Value F × Value F) → List (MarketEvent × List UInt8)) :
    Value F → List (MarketEvent × List UInt8)
  | .map pairs => message pairs
  | _ => []

/-- Between two elements of the outermost array, with the events so far. -/
def Between (events : List (MarketEvent × List UInt8)) (arrivedAt : UInt64)
    (s : AlpacaVisitor F) : Prop :=
  At 1 0 s ∧ s.emitted = events ∧ s.arrivedAt = arrivedAt

section Elements

variable {events : List (MarketEvent × List UInt8)} {arrivedAt : UInt64} {s : AlpacaVisitor F}

theorem Between.quiet (hs : Between events arrivedAt s) {t : AlpacaVisitor F}
    (ht : Quiet s 1 0 t) : Between (events ++ []) arrivedAt t := by
  rw [List.append_nil]
  exact ⟨ht.1, ht.2.1.trans hs.2.1, ht.2.2.trans hs.2.2⟩

theorem Between.endArrayItem (hs : Between events arrivedAt s) :
    Between events arrivedAt (s.visit d .endArrayItem) := by
  simp only [visit]
  split_ifs <;> exact hs

/-- A message: whatever came before, only its own pairs count. -/
theorem Between.map (hs : Between events arrivedAt s) {pairs : List (Value F × Value F)}
    {item : Item F} (hdepth : Msgpack.pairsDepth pairs + 2 ≤ 2 ^ 32 + 1)
    (hpairs : ∀ t : AlpacaVisitor F, At 1 1 t → t.item = s.item.resetItem d →
      (Msgpack.runPairs (visit d) t pairs).item.Same item) :
    Between (events ++ output d arrivedAt item) arrivedAt
      (Msgpack.run (visit d) s (.map pairs)) := by
  obtain ⟨hat, rfl, rfl⟩ := hs
  have hone : s.arrayDepth = 1 ∧ s.mapDepth + 1 = 1 := by
    rw [hat.1, hat.2]
    exact ⟨rfl, rfl⟩
  have hstart : Quiet s 1 1 (s.visit d (.startMap pairs.length)) :=
    Quiet.startMap ⟨hat, rfl, rfl⟩ _
  have hreset : (s.visit d (.startMap pairs.length)).item = s.item.resetItem d := by
    simp only [visit, if_pos hone]
  have hsame := hpairs _ hstart.1 hreset
  obtain ⟨hat', hemitted, harrived⟩ : Quiet s 1 1 (Msgpack.runPairs (visit d) _ pairs) :=
    quiet_iff.2 (unmoved_output.runPairs pairs (Or.inr le_rfl) (by omega) (quiet_iff.1 hstart))
  rw [Msgpack.run_map]
  generalize Msgpack.runPairs (visit d) _ pairs = t at hsame hat' hemitted harrived ⊢
  have hmessage : t.arrayDepth = 1 ∧ t.mapDepth = 1 := hat'
  obtain ⟨-, -, harrived'⟩ := emitItem_frame (d := d) t
  refine ⟨hat'.endMap, ?_, ?_⟩
  · simp only [visit, if_pos hmessage]
    rw [emitItem_emitted, hemitted, harrived, output_congr hsame]
  · simp only [visit, if_pos hmessage]
    exact harrived'.trans harrived

/-- **An element of the outermost array**: only maps are messages. -/
theorem Between.element (hs : Between events arrivedAt s) {v : Value F}
    {message : List (Value F × Value F) → List (MarketEvent × List UInt8)}
    (hmessage : ∀ pairs, v = .map pairs →
      Between (events ++ message pairs) arrivedAt (Msgpack.run (visit d) s (.map pairs)))
    (hdepth : v.depth + 1 ≤ 2 ^ 32 + 1) :
    Between (events ++ elementEvents message v) arrivedAt (Msgpack.run (visit d) s v) := by
  cases v with
  | scalar x =>
      rw [Msgpack.run_scalar]
      exact hs.quiet (Quiet.visitScalar ⟨hs.1, rfl, rfl⟩ x)
  | array items =>
      rw [Value.depth] at hdepth
      have hstart : Quiet s 2 0 (s.visit d (.startArray items.length)) :=
        Quiet.startArray ⟨hs.1, rfl, rfl⟩ _
      have hitems : Quiet s 2 0 (Msgpack.runItems (visit d) _ items) := quiet_iff.2
        (unmoved_output.runItems items (Or.inl le_rfl) (by omega) (quiet_iff.1 hstart))
      rw [Msgpack.run_array]
      exact hs.quiet hitems.endArray
  | map pairs => exact hmessage pairs rfl

/-- **The elements one after the other.** -/
theorem Between.elements {items : List (Value F)}
    {message : List (Value F × Value F) → List (MarketEvent × List UInt8)}
    (hmessage : ∀ pairs, .map pairs ∈ items →
      ∀ {events : List (MarketEvent × List UInt8)} {s : AlpacaVisitor F},
        Between events arrivedAt s →
          Between (events ++ message pairs) arrivedAt (Msgpack.run (visit d) s (.map pairs)))
    (hdepth : Msgpack.itemsDepth items + 1 ≤ 2 ^ 32 + 1) :
    ∀ {events : List (MarketEvent × List UInt8)} {s : AlpacaVisitor F},
      Between events arrivedAt s →
        Between (events ++ items.flatMap (elementEvents message)) arrivedAt
          (Msgpack.runItems (visit d) s items) := by
  induction items with
  | nil =>
      intro events s hs
      rwa [List.flatMap_nil, List.append_nil]
  | cons item items ih =>
      intro events s hs
      rw [Msgpack.itemsDepth] at hdepth
      have hstart : Between events arrivedAt (s.visit d .startArrayItem) := hs
      have hitem : Between (events ++ elementEvents message item) arrivedAt
          (Msgpack.run (visit d) (s.visit d .startArrayItem) item) :=
        hstart.element (fun pairs hpairs => hmessage pairs (hpairs ▸ List.mem_cons_self) hstart)
          (by omega)
      rw [Msgpack.runItems_cons, List.flatMap_cons, ← List.append_assoc]
      exact ih (fun pairs hpairs => hmessage pairs (List.mem_cons_of_mem item hpairs)) (by omega)
        hitem.endArrayItem

end Elements

end AlpacaVisitor

open AlpacaVisitor (Between elementEvents)

/-- **The events of a frame are those of its messages**, if every message leads to its own. -/
theorem emitted_of_messages (d : Doubles F) (decoder : AlpacaMsgpackDecoder)
    {items : List (Value F)} (arrivedAt : UInt64) (hdepth : (Value.array items).depth ≤ 2 ^ 32 + 1)
    {message : List (Value F × Value F) → List (MarketEvent × List UInt8)}
    (hmessage : ∀ pairs, .map pairs ∈ items →
      ∀ {events : List (MarketEvent × List UInt8)} {s : AlpacaVisitor F},
        Between events arrivedAt s →
          Between (events ++ message pairs) arrivedAt
            (Msgpack.run (AlpacaVisitor.visit d) s (.map pairs))) :
    (decoder.decodeRaw d (.array items) arrivedAt).emitted =
      items.flatMap (elementEvents message) := by
  rw [Value.depth] at hdepth
  rw [AlpacaMsgpackDecoder.decodeRaw, Msgpack.run_array]
  have hstart : Between [] arrivedAt ((AlpacaVisitor.create d decoder.eventBuffer
      decoder.onAuthSuccess arrivedAt).visit d (.startArray items.length)) :=
    ⟨⟨rfl, rfl⟩, rfl, rfl⟩
  have hitems := Between.elements (d := d) hmessage (by omega) hstart
  exact hitems.2.1

/-- The events of the reference have the time of arrival of the frame. -/
theorem arrivedAt_of_mem_referenceDecode {arrivedAt : UInt64} {v : Value F}
    {x : MarketEvent × List UInt8} (hx : x ∈ referenceDecode d arrivedAt v) :
    x.1.arrivedAt = arrivedAt := by
  cases v with
  | scalar => cases hx
  | map => cases hx
  | array items =>
      obtain ⟨item, -, hx⟩ := List.mem_flatMap.1 hx
      cases item with
      | map pairs => exact AlpacaVisitor.arrivedAt_of_mem_output hx
      | _ => cases hx

/-- A value that is not an array has no messages. -/
theorem AlpacaVisitor.Unmoved.run_of_not_array {α : Type*} {f : AlpacaVisitor F → α}
    (hf : AlpacaVisitor.Unmoved d f) {s : AlpacaVisitor F} (hs : AlpacaVisitor.At 0 0 s)
    {v : Value F} (hdepth : v.depth ≤ 2 ^ 32 + 1) (hv : ∀ items, v ≠ .array items) :
    f (Msgpack.run (AlpacaVisitor.visit d) s v) = f s := by
  cases v with
  | scalar x =>
      rw [Msgpack.run_scalar]
      exact hf s (.scalar x) (by simp)
  | array items => exact absurd rfl (hv items)
  | map pairs =>
      rw [Value.depth] at hdepth
      have hopen : AlpacaVisitor.At 0 1 (s.visit d (.startMap pairs.length)) := hs.startMap _
      obtain ⟨hat, hpairs⟩ := hf.runPairs pairs (Or.inr le_rfl) (by omega)
        ⟨hopen, hf s _ (by simp)⟩
      have hnot := hat.not_message (Or.inl (by omega)) (by omega)
      rw [Msgpack.run_map]
      exact (hf _ _ fun hend => hnot hend.2).trans hpairs

/-- A frame that is not an array. -/
theorem emitted_of_not_array (d : Doubles F) (decoder : AlpacaMsgpackDecoder) {v : Value F}
    (arrivedAt : UInt64) (hdepth : v.depth ≤ 2 ^ 32 + 1) (hv : ∀ items, v ≠ .array items) :
    (decoder.decodeRaw d v arrivedAt).emitted = [] :=
  congrArg Prod.fst (AlpacaVisitor.unmoved_output.run_of_not_array ⟨rfl, rfl⟩ hdepth hv)

/-- **The streaming decoder emits what decoding each message alone emits.**  For every value whose
containers are nested at most `2^32 + 1` deep and whose messages have scalar keys and scalar values
for the recognised ones, and whatever the decoder has decoded before. -/
theorem streaming_decoder (d : Doubles F) (decoder : AlpacaMsgpackDecoder) (v : Value F)
    (arrivedAt : UInt64) (hscalar : ScalarFields v) (hdepth : v.depth ≤ 2 ^ 32 + 1) :
    (decoder.decodeRaw d v arrivedAt).emitted = referenceDecode d arrivedAt v ∧
      (∀ x ∈ (decoder.decodeRaw d v arrivedAt).emitted, x.1.arrivedAt = arrivedAt) ∧
      ((∀ items, v ≠ .array items) → (decoder.decodeRaw d v arrivedAt).emitted = []) := by
  have heq : (decoder.decodeRaw d v arrivedAt).emitted = referenceDecode d arrivedAt v := by
    cases v with
    | scalar x => exact emitted_of_not_array d decoder arrivedAt hdepth (by simp)
    | map pairs => exact emitted_of_not_array d decoder arrivedAt hdepth (by simp)
    | array items =>
        have helement :
            referenceElement d arrivedAt = elementEvents (referenceItem d arrivedAt) := by
          funext item
          cases item <;> rfl
        rw [referenceDecode, helement]
        refine emitted_of_messages d decoder arrivedAt hdepth fun pairs hpairs {_ s} hs => ?_
        rw [Value.depth] at hdepth
        have hle := Msgpack.depth_le_itemsDepth hpairs
        rw [Value.depth] at hle
        refine hs.map (by omega) fun t ht hreset => ?_
        rw [(AlpacaVisitor.runPairs_item (hscalar items rfl pairs hpairs) (by omega) ht).2, hreset]
        exact Item.Same.foldl_assignPair pairs (Item.same_resetItem s.item)
  refine ⟨heq, fun x hx => ?_, emitted_of_not_array d decoder arrivedAt hdepth⟩
  rw [heq] at hx
  exact arrivedAt_of_mem_referenceDecode hx

/-- Doubles that are whole numbers. -/
def wholeDoubles : Doubles ℕ where
  zero := 0
  ofUInt64 := UInt64.toNat
  toUInt64 v := if v < 2 ^ 64 then some (UInt64.ofNat v) else none
  isSafePrice v := v * 10000 < 2 ^ 64
  scaled v := UInt64.ofNat (v * 10000)

/-- A trade of AAPL at 7, the price as an integer, with a nested value under a key that is not
recognised. -/
def tradePairs : List (Value ℕ × Value ℕ) :=
  [(.scalar (.str [84]), .scalar (.str [116])),
    (.scalar (.str [120]), .map [(.scalar (.str [84]), .array [.scalar (.str [113])])]),
    (.scalar (.str [83]), .scalar (.str [65, 65, 80, 76])),
    (.scalar (.str [112]), .scalar (.positiveInteger 7))]

/-- The decoder after its construction. -/
def newDecoder : AlpacaMsgpackDecoder where
  eventBuffer := ⟨0, CharArray.ofBytes 8 [], 0, 0, 0, 0, 0, 0⟩
  onAuthSuccess := false

/-- Two trades, and between them an array with a third: two events are emitted. -/
theorem streaming_decoder_of_two_trades :
    let v : Value ℕ := .array [.map tradePairs, .array [.map tradePairs], .map tradePairs]
    (newDecoder.decodeRaw wholeDoubles v 9).emitted = referenceDecode wholeDoubles 9 v ∧
      (newDecoder.decodeRaw wholeDoubles v 9).emitted.length = 2 := by
  intro v
  have hpairs : ∀ pair ∈ tradePairs,
      pair.1.isScalar ∧ (keyField pair.1 ≠ .none → pair.2.isScalar) := by decide
  have hscalar : ScalarFields v := by
    intro items hitems pairs hmem
    obtain rfl := Value.array.inj hitems
    have heq : pairs = tradePairs := by simpa using hmem
    exact heq ▸ hpairs
  have h := (streaming_decoder wholeDoubles newDecoder v 9 hscalar (by decide)).1
  refine ⟨h, ?_⟩
  rw [h]
  decide +kernel

/-- As many arrays around a value. -/
def wrapArrays (v : Value F) : ℕ → Value F
  | 0 => v
  | k + 1 => .array [wrapArrays v k]

/-- The arrays around a value are only counted. -/
theorem run_wrapArrays_emitted (v : Value F) (k : ℕ) :
    ∀ {s : AlpacaVisitor F}, s.arrayIndex = 0 →
      (Msgpack.run (AlpacaVisitor.visit d) s (wrapArrays v k)).emitted =
        (Msgpack.run (AlpacaVisitor.visit d)
          { s with arrayDepth := s.arrayDepth + UInt32.ofNat k } v).emitted := by
  induction k with
  | zero =>
      intro s _
      have hzero : s.arrayDepth + UInt32.ofNat 0 = s.arrayDepth := by simp
      rw [hzero, wrapArrays]
  | succ k ih =>
      intro s hs
      have hnext : s.arrayDepth + 1 + UInt32.ofNat k = s.arrayDepth + UInt32.ofNat (k + 1) := by
        rw [← AlpacaVisitor.ofNat_succ, UInt32.add_assoc, UInt32.add_comm 1]
      have hend : ∀ t : AlpacaVisitor F,
          ((t.visit d .endArrayItem).visit d .endArray).emitted = t.emitted := by
        intro t
        simp only [AlpacaVisitor.visit]
        split_ifs <;> rfl
      rw [wrapArrays, Msgpack.run_array, Msgpack.runItems_cons, Msgpack.runItems_nil, hend, ← hnext]
      have hstart : (s.visit d (.startArray 1)).visit d .startArrayItem =
          { s with arrayDepth := s.arrayDepth + 1 } := by
        simp [AlpacaVisitor.visit, ← hs]
      rw [List.length_singleton, hstart]
      exact ih hs

/-- In `2^32` more arrays than one a trade is taken for a message: the counter of the arrays is at
one again. -/
theorem streaming_decoder_fails :
    let v : Value ℕ := wrapArrays (.map tradePairs) (2 ^ 32 + 1)
    ScalarFields v ∧
      (newDecoder.decodeRaw wholeDoubles v 9).emitted ≠ referenceDecode wholeDoubles 9 v := by
  intro v
  obtain ⟨k, hk⟩ : ∃ k, 2 ^ 32 = k + 1 := ⟨2 ^ 32 - 1, rfl⟩
  have hv : v = .array [.array [wrapArrays (.map tradePairs) k]] := by
    simp only [v, wrapArrays]
    rw [hk, wrapArrays]
  refine ⟨fun items hitems pairs hmem => ?_, ?_⟩
  · obtain rfl := Value.array.inj (hv.symm.trans hitems)
    simp at hmem
  · have href : referenceDecode wholeDoubles 9 v = [] := by
      rw [hv]
      rfl
    have hemitted : (newDecoder.decodeRaw wholeDoubles v 9).emitted = _ :=
      run_wrapArrays_emitted (.map tradePairs) (2 ^ 32 + 1) rfl
    have hone : (0 : UInt32) + UInt32.ofNat (2 ^ 32 + 1) = 1 := rfl
    rw [href, hemitted]
    simp only [AlpacaVisitor.create, hone]
    decide +kernel

end Trading
