/-
**Containers under the recognised keys.**

The visitor gives a scalar to the field of the current key whenever one map is open and the scalar
is not in a key.  Nested maps are kept out by the count of the maps; nothing counts the arrays, so
the scalars of an array under a recognised key are values of its field, one after the other, up to
the first nested map with a pair.  A container makes no difference exactly when the field takes none
of them.

Main definitions:

* `Trading.takes` — a field takes a scalar;
* `Trading.Item.Alike` — items that lead to the same events;
* `Trading.AsIfAbsent` — a pair makes no difference in any frame.

Main results:

* `Trading.emitted_array` — the events of a frame, whatever is nested in its messages;
* `Trading.Item.alike_foldl` — a scalar that is taken hides what was given to its field before;
* `Trading.container_as_if_absent_iff` — when a pair makes no difference.
-/

import TradingAlgo.FirstElement

set_option relaxedAutoImplicit false
set_option autoImplicit false

namespace Trading

open Msgpack (Scalar Value)

variable {F : Type} {d : Doubles F}

/-! ### The events of a frame -/

theorem Item.Same.foldl_assignTo (as : List (FieldId × Scalar F)) :
    ∀ {item item' : Item F}, Item.Same item item' →
      Item.Same (as.foldl (Item.assignTo d) item) (as.foldl (Item.assignTo d) item') := by
  induction as with
  | nil => exact fun h => h
  | cons a as ih =>
      intro item item' h
      exact ih (h.assign a.1 a.2)

/-- The item of a message, by what its pairs assign. -/
def messageItem (d : Doubles F) (pairs : List (Value F × Value F)) : Item F :=
  (assignments pairs).foldl (Item.assignTo d) (Item.empty d)

/-- What a message leads to. -/
def messageEvents (d : Doubles F) (arrivedAt : UInt64) (pairs : List (Value F × Value F)) :
    List (MarketEvent × List UInt8) :=
  AlpacaVisitor.output d arrivedAt (messageItem d pairs)

/-- **The events of a frame are those of its messages**, whatever is nested in them. -/
theorem emitted_array (d : Doubles F) (decoder : AlpacaMsgpackDecoder) (items : List (Value F))
    (arrivedAt : UInt64) (hdepth : (Value.array items).depth ≤ 2 ^ 32 + 1) :
    (decoder.decodeRaw d (.array items) arrivedAt).emitted =
      items.flatMap (AlpacaVisitor.elementEvents (messageEvents d arrivedAt)) := by
  refine emitted_of_messages d decoder arrivedAt hdepth fun pairs hpairs {_ s} hs => ?_
  rw [Value.depth] at hdepth
  have hle := Msgpack.depth_le_itemsDepth hpairs
  rw [Value.depth] at hle
  refine hs.map (by omega) fun t ht hreset => ?_
  rw [(AlpacaVisitor.runPairs_assignments pairs (by omega) ht).2, hreset]
  exact (Item.same_resetItem s.item).foldl_assignTo (assignments pairs)

/-! ### What a field takes -/

/-- The fields that hold numbers. -/
def FieldId.isNumber : FieldId → Bool
  | .none | .type | .symbol => false
  | .timestamp | .bidPrice | .bidSize | .askPrice | .askSize => true

/-- The field takes the scalar: it keeps it as its value or makes the item invalid for it. -/
def takes (field : FieldId) : Scalar F → Bool
  | .str _ => field = .type ∨ field = .symbol
  | .positiveInteger _ | .negativeInteger _ | .float32 _ | .float64 _ => field.isNumber
  | .ext v => field = .timestamp ∧ 2 ≤ v.length
  | .nil | .boolean _ | .bin _ => false

namespace Item

/-- What a field does not take changes nothing. -/
theorem assign_of_not_takes (item : Item F) {field : FieldId} {x : Scalar F}
    (h : takes field x = false) : item.assign d field x = item := by
  cases x with
  | nil | boolean | bin => rfl
  | str v => cases field <;> first | rfl | simp [takes] at h
  | positiveInteger v | negativeInteger v | float32 v | float64 v =>
      cases field <;> first | rfl | simp [takes, FieldId.isNumber] at h
  | ext v =>
      have hnot : ¬ (field = .timestamp ∧ 2 ≤ v.length) := by simpa [takes] using h
      exact if_neg hnot

theorem foldl_assignTo_of_not_takes {field : FieldId} {xs : List (Scalar F)}
    (h : ∀ x ∈ xs, takes field x = false) (item : Item F) :
    (xs.map fun x => (field, x)).foldl (assignTo d) item = item := by
  induction xs with
  | nil => rfl
  | cons x xs ih =>
      have hx := assign_of_not_takes (d := d) item (h x List.mem_cons_self)
      rw [List.map_cons, List.foldl_cons, assignTo, hx]
      exact ih fun y hy => h y (List.mem_cons_of_mem x hy)

/-! ### What a field has taken hides what it had before -/

/-- Two items that lead to the same events: they read the same, or both are invalid. -/
def Alike (item item' : Item F) : Prop :=
  item.Same item' ∨ item.invalidItem = true ∧ item'.invalidItem = true

theorem Alike.assignTo {item item' : Item F} (h : Alike item item') (a : FieldId × Scalar F) :
    Alike (item.assignTo d a) (item'.assignTo d a) := by
  rcases h with h | ⟨h, h'⟩
  · exact Or.inl (h.assign a.1 a.2)
  · refine Or.inr ⟨?_, ?_⟩
    · rw [invalidItem_assignTo, h, Bool.true_or]
    · rw [invalidItem_assignTo, h', Bool.true_or]

theorem Alike.foldl_assignTo (as : List (FieldId × Scalar F)) :
    ∀ {item item' : Item F}, Alike item item' →
      Alike (as.foldl (Item.assignTo d) item) (as.foldl (Item.assignTo d) item') := by
  induction as with
  | nil => exact fun h => h
  | cons a as ih => exact fun h => ih (h.assignTo a)

theorem Same.refl (item : Item F) : Same item item :=
  ⟨rfl, rfl, rfl, rfl, rfl, rfl, rfl, rfl, rfl⟩

theorem Same.symm {item item' : Item F} (h : Same item item') : Same item' item :=
  ⟨h.mt.symm, h.sym.symm, h.timestamp.symm, h.p1Raw.symm, h.s1Raw.symm, h.p2Raw.symm, h.s2Raw.symm,
    h.hasTimestamp.symm, h.invalidItem.symm⟩

theorem Same.trans {item item' item'' : Item F} (h : Same item item') (h' : Same item' item'') :
    Same item item'' :=
  ⟨h.mt.trans h'.mt, h.sym.trans h'.sym, h.timestamp.trans h'.timestamp, h.p1Raw.trans h'.p1Raw,
    h.s1Raw.trans h'.s1Raw, h.p2Raw.trans h'.p2Raw, h.s2Raw.trans h'.s2Raw,
    h.hasTimestamp.trans h'.hasTimestamp, h.invalidItem.trans h'.invalidItem⟩

theorem Alike.symm {item item' : Item F} (h : Alike item item') : Alike item' item := by
  rcases h with h | h
  · exact Or.inl h.symm
  · exact Or.inr h.symm

theorem Alike.trans {item item' item'' : Item F} (h : Alike item item') (h' : Alike item' item'') :
    Alike item item'' := by
  rcases h with h | h
  · rcases h' with h' | h'
    · exact Or.inl (h.trans h')
    · exact Or.inr ⟨h.invalidItem.trans h'.1, h'.2⟩
  · rcases h' with h' | h'
    · exact Or.inr ⟨h.1, h'.invalidItem.symm.trans h.2⟩
    · exact Or.inr ⟨h.1, h'.2⟩

/-- An item with nothing in a field. -/
def clear (d : Doubles F) (item : Item F) : FieldId → Item F
  | .none => item
  | .type => { item with msgTypeLen := 0 }
  | .symbol => { item with symbolLen := 0 }
  | .timestamp => { item with timestamp := 0, hasTimestamp := false }
  | .bidPrice => { item with p1Raw := d.zero }
  | .bidSize => { item with s1Raw := 0 }
  | .askPrice => { item with p2Raw := d.zero }
  | .askSize => { item with s2Raw := 0 }

/-- Clearing a field undoes what it was given, if that has not made the item invalid. -/
theorem same_clear_assign (item : Item F) {field : FieldId} {y : Scalar F}
    (hy : spoils d (field, y) = false) :
    Same ((item.assign d field y).clear d field) (item.clear d field) := by
  cases y with
  | nil | boolean | bin => exact Same.refl _
  | str v => cases field <;> constructor <;> simp [assign, visitStr, clear, mt, sym]
  | positiveInteger v => cases field <;> exact Same.refl _
  | negativeInteger v => cases field <;> first | exact Same.refl _ | simp [spoils] at hy
  | float32 v | float64 v =>
      cases field with
      | bidSize | askSize =>
          simp only [assign, visitFloat64]
          cases hv : d.toUInt64 v with
          | none => simp [spoils, hv] at hy
          | some size => exact Same.refl _
      | _ => exact Same.refl _
  | ext v =>
      simp only [assign, visitExt]
      split_ifs with htime
      · rw [htime.1]
        exact Same.refl _
      · exact Same.refl _

/-- What a field takes is independent of what it had. -/
theorem alike_assign_clear (item : Item F) {field : FieldId} {x : Scalar F}
    (hx : takes field x = true) :
    Alike ((item.clear d field).assign d field x) (item.assign d field x) := by
  cases x with
  | nil | boolean | bin => simp [takes] at hx
  | str v =>
      cases field with
      | type =>
          exact Or.inl
            { Same.refl item with mt := (take_copyOver _ v).trans (take_copyOver _ v).symm }
      | symbol =>
          exact Or.inl
            { Same.refl item with sym := (take_copyOver _ v).trans (take_copyOver _ v).symm }
      | _ => simp [takes] at hx
  | positiveInteger v =>
      cases field with
      | timestamp | bidPrice | bidSize | askPrice | askSize => exact Or.inl (Same.refl _)
      | _ => simp [takes, FieldId.isNumber] at hx
  | negativeInteger v =>
      cases field with
      | bidPrice | bidSize | askPrice | askSize => exact Or.inr ⟨rfl, rfl⟩
      | timestamp => exact Or.inl (Same.refl _)
      | _ => simp [takes, FieldId.isNumber] at hx
  | float32 v | float64 v =>
      cases field with
      | bidSize | askSize =>
          simp only [assign, visitFloat64]
          cases d.toUInt64 v with
          | none => exact Or.inr ⟨rfl, rfl⟩
          | some size => exact Or.inl (Same.refl _)
      | timestamp | bidPrice | askPrice => exact Or.inl (Same.refl _)
      | _ => simp [takes, FieldId.isNumber] at hx
  | ext v =>
      obtain ⟨rfl, hlen⟩ : field = .timestamp ∧ 2 ≤ v.length := by simpa [takes] using hx
      simp only [assign, visitExt, hlen, and_self, if_true]
      exact Or.inl (Same.refl _)

/-- **Assigning a field twice**: what the field takes hides what it was given before. -/
theorem alike_assign_assign (item : Item F) {field : FieldId} {x y : Scalar F}
    (hx : takes field x = true) (hy : spoils d (field, y) = false) :
    Alike ((item.assign d field y).assign d field x) (item.assign d field x) := by
  have hclear : Alike (((item.assign d field y).clear d field).assign d field x)
      ((item.clear d field).assign d field x) := Or.inl ((same_clear_assign item hy).assign field x)
  exact ((alike_assign_clear _ hx).symm.trans hclear).trans (alike_assign_clear item hx)

/-- **A value with a scalar that is taken hides what the field was given before.** -/
theorem alike_foldl {field : FieldId} {y : Scalar F} (hy : spoils d (field, y) = false)
    {xs : List (Scalar F)} (h : ∃ x ∈ xs, takes field x = true) (item : Item F) :
    Alike ((xs.map fun x => (field, x)).foldl (Item.assignTo d) (item.assign d field y))
      ((xs.map fun x => (field, x)).foldl (Item.assignTo d) item) := by
  induction xs with
  | nil => simp at h
  | cons x xs ih =>
      rw [List.map_cons, List.foldl_cons, List.foldl_cons]
      cases hx : takes field x with
      | true => exact (alike_assign_assign item hx hy).foldl_assignTo _
      | false =>
          obtain ⟨z, hz, htakes⟩ := h
          have hmem : z ∈ xs := by
            rcases List.mem_cons.1 hz with rfl | hz
            · simp [hx] at htakes
            · exact hz
          simp only [assignTo, assign_of_not_takes _ hx]
          exact ih ⟨z, hmem, htakes⟩

end Item

namespace AlpacaVisitor

theorem output_of_invalid {item : Item F} (h : item.invalidItem = true) (arrivedAt : UInt64) :
    output d arrivedAt item = [] := by
  simp [output, emitItem, create, h]

theorem output_of_alike {item item' : Item F} (h : item.Alike item') (arrivedAt : UInt64) :
    output d arrivedAt item = output d arrivedAt item' := by
  rcases h with h | ⟨h, h'⟩
  · exact output_congr h arrivedAt
  · rw [output_of_invalid h, output_of_invalid h']

/-- The event of a quote. -/
def quoteEvent (d : Doubles F) (arrivedAt : UInt64) (item : Item F) : MarketEvent :=
  ⟨1, CharArray.ofBytes 8 item.sym, if item.hasTimestamp then item.timestamp else 0,
    d.scaled item.p1Raw, item.s1Raw, d.scaled item.p2Raw, item.s2Raw, arrivedAt⟩

theorem output_quote (item : Item F) (arrivedAt : UInt64) (hvalid : item.invalidItem = false)
    (hmt : item.mt = [113]) (hsym : item.sym ≠ [])
    (hp1 : d.isSafePrice item.p1Raw = true) (hp2 : d.isSafePrice item.p2Raw = true) :
    output d arrivedAt item = [(quoteEvent d arrivedAt item, item.sym)] := by
  simp [output, emitItem, emit, create, quoteEvent, hvalid, hmt, hsym, hp1, hp2]

theorem output_trade (item : Item F) (arrivedAt : UInt64) (hvalid : item.invalidItem = false)
    (hmt : item.mt = [116]) (hsym : item.sym ≠ []) (hp1 : d.isSafePrice item.p1Raw = true) :
    output d arrivedAt item =
      [(⟨2, CharArray.ofBytes 8 item.sym, if item.hasTimestamp then item.timestamp else 0,
        d.scaled item.p1Raw, item.s1Raw, 0, 0, arrivedAt⟩, item.sym)] := by
  simp [output, emitItem, emit, create, hvalid, hmt, hsym, hp1]

end AlpacaVisitor

/-! ### A pair in a message -/

/-- A recognised key selects its field. -/
theorem selectedField_of_keyField {key : Value F} (h : keyField key ≠ .none) :
    selectedField key = keyField key := by
  cases key with
  | array | map => simp [keyField] at h
  | scalar x =>
      cases x with
      | str v => rfl
      | _ => simp [keyField] at h

theorem messageItem_append (pre post : List (Value F × Value F)) :
    messageItem d (pre ++ post) =
      (assignments post).foldl (Item.assignTo d) (messageItem d pre) := by
  rw [messageItem, messageItem, assignments, List.flatMap_append, List.foldl_append]
  rfl

/-- The item of a message by a pair in it. -/
theorem messageItem_pair {key : Value F} (hkey : keyField key ≠ .none) (value : Value F)
    (pre post : List (Value F × Value F)) :
    messageItem d (pre ++ (key, value) :: post) =
      (assignments post).foldl (Item.assignTo d)
        ((value.front.map fun x => (keyField key, x)).foldl (Item.assignTo d)
          (messageItem d pre)) := by
  rw [messageItem_append, assignments, List.flatMap_cons, List.foldl_append,
    selectedField_of_keyField hkey]
  rfl

/-- A frame with a message among other elements. -/
def frameOf (before : List (Value F)) (pairs : List (Value F × Value F)) (after : List (Value F)) :
    Value F :=
  .array (before ++ .map pairs :: after)

/-- **The pair makes no difference**, whatever else is in its message and in the frame. -/
def AsIfAbsent (d : Doubles F) (decoder : AlpacaMsgpackDecoder) (arrivedAt : UInt64)
    (key value : Value F) : Prop :=
  ∀ before pre post after, (frameOf before (pre ++ (key, value) :: post) after).depth ≤ 2 ^ 32 + 1 →
    (decoder.decodeRaw d (frameOf before (pre ++ (key, value) :: post) after) arrivedAt).emitted =
      (decoder.decodeRaw d (frameOf before (pre ++ post) after) arrivedAt).emitted

/-- What doubles are at zero and one: both are prices, and scaled they are `0` and `10000`. -/
structure Doubles.ZeroOne (d : Doubles F) : Prop where
  isSafePrice_zero : d.isSafePrice d.zero = true
  isSafePrice_one : d.isSafePrice (d.ofUInt64 1) = true
  scaled_zero : d.scaled d.zero = 0
  scaled_one : d.scaled (d.ofUInt64 1) = 10000

/-- The pairs of a quote of A. -/
def quotePairs : List (Value F × Value F) :=
  [(.scalar (.str [84]), .scalar (.str [113])), (.scalar (.str [83]), .scalar (.str [65]))]

/-- A value for a field that a quote of A does not have there. -/
def marker : FieldId → Scalar F
  | .type => .str [116]
  | .symbol => .str [66]
  | _ => .positiveInteger 1

/-- A quote of A with another value in a field. -/
def markedQuote (d : Doubles F) (field : FieldId) : Item F :=
  (messageItem d quotePairs).assign d field (marker field)

/-- Another value in a field of a quote is in its event. -/
theorem quoteEvent_markedQuote_ne (hd : d.ZeroOne) (arrivedAt : UInt64) {field : FieldId}
    (hnone : field ≠ .none) (htype : field ≠ .type) :
    AlpacaVisitor.quoteEvent d arrivedAt (markedQuote d field) ≠
      AlpacaVisitor.quoteEvent d arrivedAt (messageItem d quotePairs) := by
  intro h
  have hprice : d.scaled (d.ofUInt64 1) ≠ d.scaled d.zero := by
    rw [hd.scaled_one, hd.scaled_zero]
    decide
  cases field with
  | none => exact hnone rfl
  | type => exact htype rfl
  | symbol =>
      have hpart : CharArray.ofBytes 8 [66] = CharArray.ofBytes 8 [65] :=
        congrArg MarketEvent.symbol h
      exact absurd hpart (by decide)
  | timestamp =>
      have hpart : (1 : UInt64) = 0 := congrArg MarketEvent.timestamp h
      exact absurd hpart (by decide)
  | bidPrice => exact hprice (congrArg MarketEvent.p1 h)
  | bidSize =>
      have hpart : (1 : UInt64) = 0 := congrArg MarketEvent.s1 h
      exact absurd hpart (by decide)
  | askPrice => exact hprice (congrArg MarketEvent.p2 h)
  | askSize =>
      have hpart : (1 : UInt64) = 0 := congrArg MarketEvent.s2 h
      exact absurd hpart (by decide)

/-- The quote of A is emitted whatever is in its prices and sizes. -/
theorem output_markedQuote (hd : d.ZeroOne) (arrivedAt : UInt64) {field : FieldId}
    (htype : field ≠ .type) :
    AlpacaVisitor.output d arrivedAt (markedQuote d field) =
      [(AlpacaVisitor.quoteEvent d arrivedAt (markedQuote d field),
        (markedQuote d field).sym)] := by
  refine AlpacaVisitor.output_quote _ arrivedAt ?_ ?_ ?_ ?_ ?_
  · cases field <;> rfl
  · cases field <;> first | rfl | exact absurd rfl htype
  · cases field <;> exact List.cons_ne_nil _ _
  · cases field <;> first | exact hd.isSafePrice_zero | exact hd.isSafePrice_one
  · cases field <;> first | exact hd.isSafePrice_zero | exact hd.isSafePrice_one

/-- **Every field matters**: another value in it leads to another event. -/
theorem output_marker_ne (hd : d.ZeroOne) (arrivedAt : UInt64) {field : FieldId}
    (hfield : field ≠ .none) :
    AlpacaVisitor.output d arrivedAt (markedQuote d field) ≠
      AlpacaVisitor.output d arrivedAt (messageItem d quotePairs) := by
  have hsafe := hd.isSafePrice_zero
  rw [AlpacaVisitor.output_quote (messageItem d quotePairs) arrivedAt rfl rfl (List.cons_ne_nil _ _)
    hsafe hsafe]
  intro heq
  by_cases htype : field = .type
  · -- the other type is that of a trade
    rw [htype, AlpacaVisitor.output_trade (markedQuote d .type) arrivedAt rfl rfl
      (List.cons_ne_nil _ _) hsafe] at heq
    have hevent := (Prod.mk.inj (List.singleton_inj.1 heq)).1
    have hpart : (2 : UInt64) = 1 := congrArg MarketEvent.eventType hevent
    exact absurd hpart (by decide)
  · rw [output_markedQuote hd arrivedAt htype] at heq
    exact quoteEvent_markedQuote_ne hd arrivedAt hfield htype
      (Prod.mk.inj (List.singleton_inj.1 heq)).1

/-- The frame without the pair is nested no deeper. -/
theorem depth_frameOf_le (before after : List (Value F)) (pre post : List (Value F × Value F))
    (pair : Value F × Value F) :
    (frameOf before (pre ++ post) after).depth ≤
      (frameOf before (pre ++ pair :: post) after).depth := by
  simp only [frameOf, Value.depth, Msgpack.itemsDepth_append, Msgpack.itemsDepth,
    Msgpack.pairsDepth_append, Msgpack.pairsDepth]
  omega

/-- The events of a frame by those of one of its messages. -/
theorem emitted_frameOf (d : Doubles F) (decoder : AlpacaMsgpackDecoder) (arrivedAt : UInt64)
    {before after : List (Value F)} {pairs : List (Value F × Value F)}
    (hdepth : (frameOf before pairs after).depth ≤ 2 ^ 32 + 1) :
    (decoder.decodeRaw d (frameOf before pairs after) arrivedAt).emitted =
      before.flatMap (AlpacaVisitor.elementEvents (messageEvents d arrivedAt)) ++
        (messageEvents d arrivedAt pairs ++
          after.flatMap (AlpacaVisitor.elementEvents (messageEvents d arrivedAt))) := by
  rw [frameOf, emitted_array d decoder _ arrivedAt hdepth, List.flatMap_append, List.flatMap_cons]
  rfl

/-- The quote of A with a pair that follows it, alone in a frame. -/
theorem depth_frameOf_quote {key : Value F} (hkey : keyField key ≠ .none) (value : Value F)
    (x : Scalar F) :
    (frameOf [] (quotePairs ++ [(key, value)]) []).depth = value.depth + 2 ∧
      (frameOf [] (quotePairs ++ [(key, .scalar x)] ++ [(key, value)]) []).depth =
        value.depth + 2 := by
  have hzero : key.depth = 0 := by
    cases key with
    | scalar x => rfl
    | array | map => simp [keyField] at hkey
  simp [frameOf, quotePairs, Value.depth, Msgpack.itemsDepth, Msgpack.pairsDepth, hzero]

/-- **A pair with a scalar that its field takes makes a difference** in one of two messages: the
quote of A, or the same with another value in the field before the pair. -/
theorem not_asIfAbsent_of_takes (hd : d.ZeroOne) (decoder : AlpacaMsgpackDecoder)
    (arrivedAt : UInt64) {key value : Value F} (hkey : keyField key ≠ .none)
    (hdepth : value.depth + 2 ≤ 2 ^ 32 + 1)
    (htakes : ∃ x ∈ value.front, takes (keyField key) x = true) :
    ¬ AsIfAbsent d decoder arrivedAt key value := by
  intro habsent
  obtain ⟨hquote, hmarked⟩ := depth_frameOf_quote hkey value (marker (keyField key))
  have hevents : ∀ pre, (frameOf [] (pre ++ [(key, value)]) []).depth = value.depth + 2 →
      messageEvents d arrivedAt (pre ++ [(key, value)]) = messageEvents d arrivedAt pre := by
    intro pre hpre
    have hframe := hpre.trans_le hdepth
    have hframe' := (depth_frameOf_le [] [] pre [] (key, value)).trans hframe
    have heq := habsent [] pre [] [] hframe
    rw [emitted_frameOf d decoder arrivedAt hframe,
      emitted_frameOf d decoder arrivedAt hframe'] at heq
    simpa using heq
  have hspoils : spoils d (keyField key, marker (keyField key)) = false := by
    cases keyField key <;> rfl
  have hitem : messageItem d (quotePairs ++ [(key, .scalar (marker (keyField key)))]) =
      markedQuote d (keyField key) := messageItem_pair hkey _ quotePairs []
  -- with the pair both messages have the same events, without it they have not
  have halike : messageEvents d arrivedAt
      (quotePairs ++ [(key, .scalar (marker (keyField key)))] ++ [(key, value)]) =
        messageEvents d arrivedAt (quotePairs ++ [(key, value)]) := by
    rw [messageEvents, messageEvents, messageItem_append, hitem,
      messageItem_pair hkey value quotePairs, assignments, List.flatMap_singleton,
      selectedField_of_keyField hkey]
    exact AlpacaVisitor.output_of_alike (Item.alike_foldl hspoils htakes _) arrivedAt
  rw [hevents _ hmarked, hevents _ hquote, messageEvents, messageEvents, hitem] at halike
  exact output_marker_ne hd arrivedAt hkey halike

/-- **When a pair with a recognised key makes no difference**: exactly when its field takes none of
the scalars that its value has in arrays, up to the first nested map with a pair.  For every value
that fits into a frame whose containers are nested at most `2^32 + 1` deep, and all such frames. -/
theorem container_as_if_absent_iff (d : Doubles F) (hd : d.ZeroOne) (decoder : AlpacaMsgpackDecoder)
    (arrivedAt : UInt64) (key value : Value F) (hkey : keyField key ≠ .none)
    (hdepth : value.depth + 2 ≤ 2 ^ 32 + 1) :
    AsIfAbsent d decoder arrivedAt key value ↔
      ∀ x ∈ value.front, takes (keyField key) x = false := by
  constructor
  · intro habsent x hx
    by_contra htakes
    exact not_asIfAbsent_of_takes hd decoder arrivedAt hkey hdepth ⟨x, hx, by simpa using htakes⟩
      habsent
  · intro hfront before pre post after hframe
    have hframe' := (depth_frameOf_le before after pre post (key, value)).trans hframe
    have hitem : messageItem d (pre ++ (key, value) :: post) = messageItem d (pre ++ post) := by
      rw [messageItem_pair hkey, Item.foldl_assignTo_of_not_takes hfront, messageItem_append]
    rw [emitted_frameOf d decoder arrivedAt hframe, emitted_frameOf d decoder arrivedAt hframe',
      messageEvents, messageEvents, hitem]

/-- The key "bp", with an array of a string, a map, and a price behind the map: none is taken. -/
theorem container_as_if_absent_behind_a_map :
    let key : Value ℕ := .scalar (.str [98, 112])
    let value : Value ℕ :=
      .array [.scalar (.str [57]), .map [(key, .scalar .nil)], .scalar (.positiveInteger 9)]
    keyField key ≠ .none ∧ AsIfAbsent wholeDoubles newDecoder 9 key value := by
  intro key value
  have hd : wholeDoubles.ZeroOne := ⟨by decide, by decide, by decide, by decide⟩
  have hkey : keyField key ≠ .none := by decide
  exact ⟨hkey, (container_as_if_absent_iff wholeDoubles hd newDecoder 9 key value hkey
    (by decide)).2 (by decide)⟩

/-- A quote of A with the array of 9 under "bp": the bid of the event is that of the array, and zero
without the pair. -/
theorem container_as_if_absent_fails :
    let key : Value ℕ := .scalar (.str [98, 112])
    let value : Value ℕ := .array [.scalar (.positiveInteger 9)]
    (newDecoder.decodeRaw wholeDoubles (frameOf [] (quotePairs ++ [(key, value)]) []) 9).emitted.map
        (fun x => x.1.p1) = [90000] ∧
      (newDecoder.decodeRaw wholeDoubles (frameOf [] quotePairs []) 9).emitted.map
        (fun x => x.1.p1) = [0] ∧
      ¬ AsIfAbsent wholeDoubles newDecoder 9 key value := by
  intro key value
  refine ⟨by decide +kernel, by decide +kernel, fun h => ?_⟩
  have heq := h [] quotePairs [] [] (by decide)
  revert heq
  decide +kernel

end Trading
