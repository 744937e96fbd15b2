/-
**The callback for a successful authentication.**

`emitItem` calls back for a message of type "success" when `array_index` is zero, which is meant to
be the first element of the frame.  The index is one counter for all arrays: the start of any array
sets it to zero, and only the ends of the outermost items count it up again.  At the end of a later
message that has an array in it the index is zero as well, so a frame can call back for any of its
elements, and more than once.

Main definitions:

* `Trading.ReadsSuccess` — a message is taken for one of type "success";
* `Trading.TriggeredByFirst` — the property;
* `Trading.FirstOnly` — the condition on the frame.

Main results:

* `Trading.AlpacaVisitor.arrayIndex_run` — the index after a value;
* `Trading.authSuccesses_eq` — how often a frame calls back;
* `Trading.auth_success_triggered_by_first_iff` — when only the first element does.
-/

import TradingAlgo.NestedFields

set_option relaxedAutoImplicit false
set_option autoImplicit false

namespace Trading

open Msgpack (Scalar Value Call)

variable {F : Type} {d : Doubles F}

/-! ### The type of a message -/

/-- The text that an assignment gives to the type. -/
def typeText : FieldId × Scalar F → Option (List UInt8)
  | (.type, .str v) => some v
  | _ => none

/-- The assignments that make an item invalid: negative prices and sizes, and sizes that are no
`uint64_t`. -/
def spoils (d : Doubles F) : FieldId × Scalar F → Bool
  | (.bidPrice, .negativeInteger _) | (.bidSize, .negativeInteger _)
  | (.askPrice, .negativeInteger _) | (.askSize, .negativeInteger _) => true
  | (.bidSize, .float32 v) | (.bidSize, .float64 v)
  | (.askSize, .float32 v) | (.askSize, .float64 v) => (d.toUInt64 v).isNone
  | _ => false

/-- "success". -/
def success : List UInt8 := [115, 117, 99, 99, 101, 115, 115]

/-- The map is taken for a message of type "success": that is the last text that is given to the
type, and nothing makes the item invalid. -/
def ReadsSuccess (d : Doubles F) : Value F → Prop
  | .map pairs => ((assignments pairs).filterMap typeText).getLast? = some success ∧
      (assignments pairs).any (spoils d) = false
  | _ => False

instance (v : Value F) : Decidable (ReadsSuccess d v) :=
  match v with
  | .map _ => inferInstanceAs (Decidable (_ ∧ _))
  | .scalar _ => inferInstanceAs (Decidable False)
  | .array _ => inferInstanceAs (Decidable False)

namespace Item

theorem mt_assignTo (item : Item F) (a : FieldId × Scalar F) :
    (item.assignTo d a).mt = ((typeText a).map (List.take 8)).getD item.mt := by
  obtain ⟨field, x⟩ := a
  cases x with
  | str v =>
      cases field with
      | type => exact take_copyOver item.msgType v
      | _ => rfl
  | positiveInteger v => cases field <;> rfl
  | negativeInteger v => cases field <;> rfl
  | float32 v | float64 v =>
      cases field with
      | bidSize | askSize =>
          simp only [assignTo, assign, visitFloat64]
          cases d.toUInt64 v <;> rfl
      | _ => rfl
  | ext v =>
      simp only [assignTo, assign, visitExt]
      split_ifs <;> cases field <;> rfl
  | nil | boolean | bin => cases field <;> rfl

theorem invalidItem_assignTo (item : Item F) (a : FieldId × Scalar F) :
    (item.assignTo d a).invalidItem = (item.invalidItem || spoils d a) := by
  obtain ⟨field, x⟩ := a
  cases x with
  | str v => cases field <;> simp [assignTo, assign, visitStr, spoils]
  | positiveInteger v => cases field <;> simp [assignTo, assign, visitPositiveInteger, spoils]
  | negativeInteger v => cases field <;> simp [assignTo, assign, visitNegativeInteger, spoils]
  | float32 v | float64 v =>
      cases field with
      | bidSize | askSize =>
          simp only [assignTo, assign, visitFloat64, spoils]
          cases d.toUInt64 v <;> simp
      | _ => simp [assignTo, assign, visitFloat64, spoils]
  | ext v =>
      simp only [assignTo, assign, visitExt]
      split_ifs <;> cases field <;> simp [spoils]
  | nil | boolean | bin => cases field <;> simp [assignTo, assign, spoils]

/-- The type after assignments is the last text that was given to it. -/
theorem mt_foldl_assignTo (as : List (FieldId × Scalar F)) :
    ∀ item : Item F, (as.foldl (assignTo d) item).mt =
      ((as.filterMap typeText).getLast?.map (List.take 8)).getD item.mt := by
  induction as with
  | nil => exact fun _ => rfl
  | cons a as ih =>
      intro item
      rw [List.foldl_cons, ih, mt_assignTo]
      cases htext : typeText a with
      | none => simp [htext]
      | some v =>
          simp only [List.filterMap_cons, htext, List.getLast?_cons, Option.map_some,
            Option.getD_some]
          cases (as.filterMap typeText).getLast? <;> rfl

theorem invalidItem_foldl_assignTo (as : List (FieldId × Scalar F)) :
    ∀ item : Item F, (as.foldl (assignTo d) item).invalidItem =
      (item.invalidItem || as.any (spoils d)) := by
  induction as with
  | nil => simp
  | cons a as ih =>
      intro item
      rw [List.foldl_cons, ih, invalidItem_assignTo, List.any_cons, Bool.or_assoc]

end Item

namespace AlpacaVisitor

/-! ### The index -/

theorem visitScalar_arrayIndex (s : AlpacaVisitor F) (x : Scalar F) :
    (s.visitScalar d x).arrayIndex = s.arrayIndex := by
  obtain ⟨field, item, heq⟩ := visitScalar_eq (d := d) s x
  rw [heq]

theorem startMap_arrayIndex (s : AlpacaVisitor F) (num : ℕ) :
    (s.visit d (.startMap num)).arrayIndex = s.arrayIndex := by
  simp only [visit]
  split_ifs <;> rfl

theorem endMap_arrayIndex (s : AlpacaVisitor F) :
    (s.visit d .endMap).arrayIndex = s.arrayIndex := by
  obtain ⟨event, emitted, calls, heq⟩ := emitItem_eq (d := d) s
  have hemit : (s.emitItem d).arrayIndex = s.arrayIndex := by rw [heq]
  simp only [visit]
  split_ifs
  · exact hemit
  · rfl

/-- Within the outermost array the items of arrays are not counted. -/
theorem At.endArrayItem_arrayIndex {s : AlpacaVisitor F} {arrays maps : ℕ} (hs : At arrays maps s)
    (harrays : 2 ≤ arrays) (hbound : arrays ≤ 2 ^ 32) :
    (s.visit d .endArrayItem).arrayIndex = s.arrayIndex := by
  have hne : s.arrayDepth ≠ 1 := by
    rw [hs.1, Ne, ofNat_eq_one_iff]
    omega
  simp only [visit, if_neg hne]

mutual

/-- **The index after a value in the outermost array**: zero if there is an array in it. -/
theorem arrayIndex_run (v : Value F) {s : AlpacaVisitor F} {arrays maps : ℕ}
    (hs : At arrays maps s) (harrays : 1 ≤ arrays) (hbound : arrays + v.depth ≤ 2 ^ 32) :
    (Msgpack.run (visit d) s v).arrayIndex = if v.hasArray then 0 else s.arrayIndex := by
  cases v with
  | scalar x =>
      rw [Msgpack.run_scalar]
      exact visitScalar_arrayIndex s x
  | array items =>
      rw [Value.depth] at hbound
      rw [Msgpack.run_array]
      exact arrayIndex_runItems items (hs.startArray (d := d) items.length) (by omega) (by omega)
        rfl
  | map pairs =>
      rw [Value.depth] at hbound
      rw [Msgpack.run_map, endMap_arrayIndex, Value.hasArray,
        arrayIndex_runPairs pairs (hs.startMap (d := d) pairs.length) harrays (by omega),
        startMap_arrayIndex]

theorem arrayIndex_runItems (items : List (Value F)) {s : AlpacaVisitor F} {arrays maps : ℕ}
    (hs : At arrays maps s) (harrays : 2 ≤ arrays)
    (hbound : arrays + Msgpack.itemsDepth items ≤ 2 ^ 32) (hzero : s.arrayIndex = 0) :
    (Msgpack.runItems (visit d) s items).arrayIndex = 0 := by
  cases items with
  | nil => rwa [Msgpack.runItems_nil]
  | cons item items =>
      rw [Msgpack.itemsDepth] at hbound
      have hat : At arrays maps (Msgpack.run (visit d) (s.visit d .startArrayItem) item) :=
        At.run hs item
      have hitem : (Msgpack.run (visit d) (s.visit d .startArrayItem) item).arrayIndex =
          if item.hasArray then 0 else s.arrayIndex :=
        arrayIndex_run item hs (by omega) (by omega)
      rw [hzero, ite_self] at hitem
      rw [Msgpack.runItems_cons]
      exact arrayIndex_runItems items hat.endArrayItem harrays (by omega)
        ((hat.endArrayItem_arrayIndex harrays (by omega)).trans hitem)

theorem arrayIndex_runPairs (pairs : List (Value F × Value F)) {s : AlpacaVisitor F}
    {arrays maps : ℕ} (hs : At arrays maps s) (harrays : 1 ≤ arrays)
    (hbound : arrays + Msgpack.pairsDepth pairs ≤ 2 ^ 32) :
    (Msgpack.runPairs (visit d) s pairs).arrayIndex =
      if Msgpack.pairsHaveArray pairs then 0 else s.arrayIndex := by
  cases pairs with
  | nil =>
      rw [Msgpack.runPairs_nil]
      rfl
  | cons pair pairs =>
      obtain ⟨key, value⟩ := pair
      rw [Msgpack.pairsDepth] at hbound
      have hstart : At arrays maps (s.visit d .startMapKey) := hs
      have hkey : (Msgpack.run (visit d) (s.visit d .startMapKey) key).arrayIndex =
          if key.hasArray then 0 else s.arrayIndex :=
        arrayIndex_run key hstart harrays (by omega)
      have hat := hstart.run (d := d) key
      have hvalue : (Msgpack.runPair (visit d) s (key, value)).arrayIndex =
          if value.hasArray then 0
          else (Msgpack.run (visit d) (s.visit d .startMapKey) key).arrayIndex :=
        arrayIndex_run value (s := AlpacaVisitor.visit d (AlpacaVisitor.visit d _ .endMapKey)
          .startMapValue) hat harrays (by omega)
      rw [Msgpack.runPairs_cons, arrayIndex_runPairs pairs (hs.runPair (key, value)) harrays
        (by omega), hvalue, hkey, Msgpack.pairsHaveArray]
      cases key.hasArray <;> cases value.hasArray <;> cases Msgpack.pairsHaveArray pairs <;> rfl

end

/-! ### The elements of a frame -/

theorem unmoved_auth : Unmoved d fun s => (s.authSuccesses, s.onAuthSuccess) :=
  unmoved_of_frame fun _ _ _ _ _ _ _ => rfl

/-- The calls back at the end of a message. -/
theorem emitItem_auth (s : AlpacaVisitor F) :
    (s.emitItem d).onAuthSuccess = s.onAuthSuccess ∧
      (s.emitItem d).authSuccesses = s.authSuccesses +
        if s.item.invalidItem = false ∧ s.item.mt = success ∧ s.arrayIndex = 0 ∧
          s.onAuthSuccess = true then 1 else 0 := by
  refine ⟨?_, ?_⟩
  · obtain ⟨event, emitted, calls, heq⟩ := emitItem_eq (d := d) s
    rw [heq]
  · simp only [emitItem, emit, success, apply_ite AlpacaVisitor.authSuccesses, ite_self]
    cases s.item.invalidItem with
    | true => simp
    | false =>
        by_cases hmt : s.item.mt = [115, 117, 99, 99, 101, 115, 115]
        · by_cases hcall : s.arrayIndex = 0 ∧ s.onAuthSuccess = true
          · simp [hmt, hcall]
          · simp [hmt, hcall]
        · simp [hmt]

theorem take_eq_success_iff (v : List UInt8) : v.take 8 = success ↔ v = success := by
  constructor
  · intro h
    have hlen : (v.take 8).length = 7 := congrArg List.length h
    rw [List.length_take] at hlen
    rwa [List.take_of_length_le (by omega)] at h
  · rintro rfl
    rfl

/-- The item of a map tells whether the map reads as "success". -/
theorem readsSuccess_iff (item : Item F) (pairs : List (Value F × Value F)) :
    ReadsSuccess d (.map pairs) ↔
      ((assignments pairs).foldl (Item.assignTo d) (item.resetItem d)).invalidItem = false ∧
        ((assignments pairs).foldl (Item.assignTo d) (item.resetItem d)).mt = success := by
  rw [Item.invalidItem_foldl_assignTo, Item.mt_foldl_assignTo, and_comm, ReadsSuccess]
  have hvalid : (item.resetItem d).invalidItem = false := rfl
  have hmt : (item.resetItem d).mt = [] := by simp [Item.mt, Item.resetItem]
  rw [hvalid, hmt, Bool.false_or]
  refine and_congr_left fun _ => ?_
  cases (List.filterMap typeText (assignments pairs)).getLast? with
  | none => simp [success]
  | some v => simp [take_eq_success_iff]

/-- A message calls back if it reads as "success" and the index is zero at its end. -/
theorem run_message {s : AlpacaVisitor F} (hs : At 1 0 s) (pairs : List (Value F × Value F))
    (hdepth : 1 + (Value.map pairs).depth ≤ 2 ^ 32) :
    (Msgpack.run (visit d) s (.map pairs)).onAuthSuccess = s.onAuthSuccess ∧
      (Msgpack.run (visit d) s (.map pairs)).authSuccesses = s.authSuccesses +
        if s.onAuthSuccess = true ∧ ReadsSuccess d (.map pairs) ∧
            ((Value.map pairs).hasArray = true ∨ s.arrayIndex = 0)
          then 1 else 0 := by
  rw [Value.depth] at hdepth
  have hopen : At 1 1 (s.visit d (.startMap pairs.length)) := hs.startMap _
  have hauth := ((unmoved_auth (d := d)).runPairs (x := (s.authSuccesses, s.onAuthSuccess)) pairs
    (Or.inr le_rfl) (by omega) ⟨hopen, unmoved_auth s _ (by simp)⟩).2
  have hindex := arrayIndex_runPairs (d := d) pairs hopen le_rfl (by omega)
  obtain ⟨hat, hitem⟩ := runPairs_assignments (d := d) pairs (by omega) hopen
  have hone : s.arrayDepth = 1 ∧ s.mapDepth + 1 = 1 := by
    rw [hs.1, hs.2]
    exact ⟨rfl, rfl⟩
  have hreset : (s.visit d (.startMap pairs.length)).item = s.item.resetItem d := by
    simp only [visit, if_pos hone]
  rw [startMap_arrayIndex] at hindex
  rw [hreset] at hitem
  rw [Msgpack.run_map]
  generalize Msgpack.runPairs (visit d) _ pairs = t at hauth hindex hat hitem ⊢
  have hmessage : t.arrayDepth = 1 ∧ t.mapDepth = 1 := hat
  obtain ⟨hemit, hemit'⟩ := emitItem_auth (d := d) t
  simp only [Prod.mk.injEq] at hauth
  simp only [visit, if_pos hmessage]
  refine ⟨hemit.trans hauth.2, ?_⟩
  rw [hemit', hauth.1, hauth.2, hindex]
  refine congrArg (s.authSuccesses + ·) (if_congr ?_ rfl rfl)
  rw [readsSuccess_iff s.item, ← hitem, Value.hasArray]
  cases Msgpack.pairsHaveArray pairs with
  | false =>
      simp only [Bool.false_eq_true, if_false, false_or]
      tauto
  | true =>
      simp only [if_true, true_and, true_or, and_true]
      tauto

/-- **An element of the outermost array**: only a message calls back. -/
theorem run_element {s : AlpacaVisitor F} (hs : At 1 0 s) (v : Value F)
    (hdepth : 1 + v.depth ≤ 2 ^ 32) :
    (Msgpack.run (visit d) s v).onAuthSuccess = s.onAuthSuccess ∧
      (Msgpack.run (visit d) s v).authSuccesses = s.authSuccesses +
        if s.onAuthSuccess = true ∧ ReadsSuccess d v ∧ (v.hasArray = true ∨ s.arrayIndex = 0)
          then 1 else 0 := by
  cases v with
  | scalar x =>
      have h := unmoved_auth (d := d) s (.scalar x) (by simp)
      simp only [Prod.mk.injEq] at h
      rw [Msgpack.run_scalar]
      simp [h.1, h.2, ReadsSuccess]
  | array items =>
      rw [Value.depth] at hdepth
      have hstart : At 2 0 (s.visit d (.startArray items.length)) := hs.startArray _
      have h := ((unmoved_auth (d := d)).runItems (x := (s.authSuccesses, s.onAuthSuccess)) items
        (Or.inl le_rfl) (by omega) ⟨hstart, rfl⟩).2
      simp only [Prod.mk.injEq] at h
      have hnot : ¬ ReadsSuccess d (.array items) := id
      rw [Msgpack.run_array]
      simp only [hnot, false_and, and_false, if_false, Nat.add_zero]
      exact ⟨h.2, h.1⟩
  | map pairs => exact run_message hs pairs hdepth

theorem At.run_endArrayItem {s : AlpacaVisitor F} (hs : At 1 0 s) (v : Value F)
    (hdepth : 1 + v.depth ≤ 2 ^ 32) :
    ((Msgpack.run (visit d) s v).visit d .endArrayItem).arrayIndex =
      (if v.hasArray then 0 else s.arrayIndex) + 1 := by
  have hat : At 1 0 (Msgpack.run (visit d) s v) := hs.run v
  have hone : (Msgpack.run (visit d) s v).arrayDepth = 1 := hat.1
  simp only [visit, if_pos hone]
  rw [arrayIndex_run v hs le_rfl hdepth]

theorem endArrayItem_auth (s : AlpacaVisitor F) :
    (s.visit d .endArrayItem).onAuthSuccess = s.onAuthSuccess ∧
      (s.visit d .endArrayItem).authSuccesses = s.authSuccesses := by
  simp only [visit]
  split_ifs <;> exact ⟨rfl, rfl⟩

/-- **The elements after the first**: the index is not zero at their start, and stays so in those
that have no array in them. -/
theorem runItems_later (auth : Bool) (items : List (Value F)) :
    ∀ {s : AlpacaVisitor F} {i : ℕ}, At 1 0 s → s.onAuthSuccess = auth →
      s.arrayIndex = UInt32.ofNat i → 1 ≤ i → i + items.length ≤ 2 ^ 32 →
      1 + Msgpack.itemsDepth items ≤ 2 ^ 32 →
      (Msgpack.runItems (visit d) s items).authSuccesses = s.authSuccesses +
        items.countP fun v => auth = true ∧ ReadsSuccess d v ∧ v.hasArray = true := by
  induction items with
  | nil => simp
  | cons item items ih =>
      intro s i hs hauth hindex hpos hlen hdepth
      rw [Msgpack.itemsDepth] at hdepth
      rw [List.length_cons] at hlen
      have hne : s.arrayIndex ≠ 0 := by
        rw [hindex, Ne, ← UInt32.toNat_inj, UInt32.toNat_ofNat']
        simp only [UInt32.toNat_zero]
        omega
      obtain ⟨honAuth, hcalls⟩ := run_element (d := d) hs item (by omega)
      have hnext := hs.run_endArrayItem (d := d) item (by omega)
      have hat : At 1 0 ((Msgpack.run (visit d) s item).visit d .endArrayItem) :=
        (hs.run item).endArrayItem
      obtain ⟨honAuth', hcalls'⟩ := endArrayItem_auth (d := d) (Msgpack.run (visit d) s item)
      rw [Msgpack.runItems_cons, List.countP_cons]
      have hstart : s.visit d .startArrayItem = s := rfl
      rw [hstart]
      obtain ⟨j, hj, hjpos, hjle⟩ : ∃ j, ((Msgpack.run (visit d) s item).visit d
          .endArrayItem).arrayIndex = UInt32.ofNat j ∧ 1 ≤ j ∧ j ≤ i + 1 := by
        rw [hnext]
        cases item.hasArray with
        | true => exact ⟨1, rfl, le_rfl, by omega⟩
        | false => exact ⟨i + 1, by rw [hindex]; exact ofNat_succ i, by omega, le_rfl⟩
      rw [ih hat (honAuth'.trans (honAuth.trans hauth)) hj hjpos (by omega) (by omega), hcalls',
        hcalls, hauth]
      simp only [hne, or_false, decide_eq_true_eq]
      omega

end AlpacaVisitor

/-- **How often a frame calls back**: for the first element if it reads as "success", and for every
later one that reads so and has an array in it. -/
theorem authSuccesses_eq (d : Doubles F) (decoder : AlpacaMsgpackDecoder) (first : Value F)
    (rest : List (Value F)) (arrivedAt : UInt64) (hlen : rest.length < 2 ^ 32 - 1)
    (hdepth : (Value.array (first :: rest)).depth ≤ 2 ^ 32) :
    (decoder.decodeRaw d (.array (first :: rest)) arrivedAt).authSuccesses =
      (if decoder.onAuthSuccess = true ∧ ReadsSuccess d first then 1 else 0) +
        rest.countP fun v =>
          decoder.onAuthSuccess = true ∧ ReadsSuccess d v ∧ v.hasArray = true := by
  rw [Value.depth, Msgpack.itemsDepth] at hdepth
  rw [AlpacaMsgpackDecoder.decodeRaw, Msgpack.run_array, Msgpack.runItems_cons]
  generalize hs :
    ((AlpacaVisitor.create d decoder.eventBuffer decoder.onAuthSuccess arrivedAt).visit d
      (.startArray (first :: rest).length)).visit d .startArrayItem = s
  have hat : AlpacaVisitor.At 1 0 s := by
    subst hs
    exact ⟨rfl, rfl⟩
  have hzero : s.arrayIndex = 0 ∧ s.authSuccesses = 0 ∧
      s.onAuthSuccess = decoder.onAuthSuccess := by
    subst hs
    exact ⟨rfl, rfl, rfl⟩
  obtain ⟨honAuth, hcalls⟩ := AlpacaVisitor.run_element (d := d) hat first (by omega)
  obtain ⟨honAuth', hcalls'⟩ :=
    AlpacaVisitor.endArrayItem_auth (d := d) (Msgpack.run (AlpacaVisitor.visit d) s first)
  have hindex : ((Msgpack.run (AlpacaVisitor.visit d) s first).visit d .endArrayItem).arrayIndex =
      UInt32.ofNat 1 := by
    rw [hat.run_endArrayItem first (by omega), hzero.1, ite_self]
    rfl
  have hrest := AlpacaVisitor.runItems_later (d := d) decoder.onAuthSuccess rest
    (hat.run first).endArrayItem (honAuth'.trans (honAuth.trans hzero.2.2)) hindex le_rfl (by omega)
    (by omega)
  refine Eq.trans hrest ?_
  rw [hcalls', hcalls, hzero.1, hzero.2.1, hzero.2.2]
  simp

/-! ### Only the first element -/

/-- A map with the pair of "T" and "success". -/
def TypeIsSuccess : Value F → Prop
  | .map pairs => (.scalar (.str [84]), .scalar (.str success)) ∈ pairs
  | _ => False

/-- The callback is called at most once, only for an array whose first element is a map with the
type "success", and it is that element which leads to the call: alone it does as well. -/
def TriggeredByFirst (d : Doubles F) (decoder : AlpacaMsgpackDecoder) (v : Value F)
    (arrivedAt : UInt64) : Prop :=
  (decoder.decodeRaw d v arrivedAt).authSuccesses ≤ 1 ∧
    (0 < (decoder.decodeRaw d v arrivedAt).authSuccesses →
      ∃ first rest, v = .array (first :: rest) ∧ TypeIsSuccess first) ∧
    ∀ first rest, v = .array (first :: rest) →
      (decoder.decodeRaw d v arrivedAt).authSuccesses =
        (decoder.decodeRaw d (.array [first]) arrivedAt).authSuccesses

/-- The first element has the type "success" if it reads so, and no later element that reads so has
an array in it. -/
def FirstOnly (d : Doubles F) (v : Value F) : Prop :=
  ∀ first rest, v = .array (first :: rest) →
    (ReadsSuccess d first → TypeIsSuccess first) ∧
      ∀ later ∈ rest, ReadsSuccess d later → later.hasArray = false

theorem authSuccesses_of_not_array (d : Doubles F) (decoder : AlpacaMsgpackDecoder) {v : Value F}
    (arrivedAt : UInt64) (hdepth : v.depth ≤ 2 ^ 32 + 1) (hv : ∀ items, v ≠ .array items) :
    (decoder.decodeRaw d v arrivedAt).authSuccesses = 0 :=
  congrArg Prod.fst (AlpacaVisitor.unmoved_auth.run_of_not_array ⟨rfl, rfl⟩ hdepth hv)

/-- A frame without elements. -/
theorem triggeredByFirst_of_no_calls {decoder : AlpacaMsgpackDecoder} {v : Value F}
    {arrivedAt : UInt64} (hv : ∀ first rest, v ≠ .array (first :: rest))
    (hcalls : (decoder.decodeRaw d v arrivedAt).authSuccesses = 0) :
    TriggeredByFirst d decoder v arrivedAt ∧ FirstOnly d v :=
  ⟨⟨by omega, by omega, fun first rest h => absurd h (hv first rest)⟩,
    fun first rest h => absurd h (hv first rest)⟩

/-- A frame with elements. -/
theorem triggeredByFirst_cons_iff (d : Doubles F) (decoder : AlpacaMsgpackDecoder)
    {first : Value F} {rest : List (Value F)} (arrivedAt : UInt64)
    (hlen : rest.length < 2 ^ 32 - 1)
    (hdepth : (Value.array (first :: rest)).depth ≤ 2 ^ 32) :
    TriggeredByFirst d decoder (.array (first :: rest)) arrivedAt ↔
      (decoder.onAuthSuccess = true → FirstOnly d (.array (first :: rest))) := by
  have halone : (Value.array [first]).depth ≤ 2 ^ 32 := by
    simp only [Value.depth, Msgpack.itemsDepth] at hdepth ⊢
    omega
  have hcalls := authSuccesses_eq d decoder first rest arrivedAt hlen hdepth
  have hcalls' := authSuccesses_eq d decoder first [] arrivedAt (by simp) halone
  rw [List.countP_nil, Nat.add_zero] at hcalls'
  constructor
  · rintro ⟨-, hpos, hfirst⟩ hauth first' rest' heq
    obtain ⟨rfl, rfl⟩ := List.cons.inj (Value.array.inj heq)
    refine ⟨fun hreads => ?_, fun later hmem hreads => ?_⟩
    · have hcall : 0 < (decoder.decodeRaw d (.array (first :: rest)) arrivedAt).authSuccesses := by
        rw [hcalls, if_pos ⟨hauth, hreads⟩]
        omega
      obtain ⟨first', rest', heq', htype⟩ := hpos hcall
      obtain ⟨rfl, rfl⟩ := List.cons.inj (Value.array.inj heq')
      exact htype
    · -- the first element alone leads to all calls, so the later ones lead to none
      have hsum := hfirst first rest rfl
      rw [hcalls, hcalls'] at hsum
      have hlater := List.countP_eq_zero.1 (Nat.add_left_cancel hsum) later hmem
      simpa [hauth, hreads] using hlater
  · intro hcond
    have hzero : rest.countP (fun v =>
        decoder.onAuthSuccess = true ∧ ReadsSuccess d v ∧ v.hasArray = true) = 0 := by
      refine List.countP_eq_zero.2 fun later hmem => ?_
      simp only [decide_eq_true_eq]
      rintro ⟨hauth, hreads, harray⟩
      rw [(hcond hauth first rest rfl).2 later hmem hreads] at harray
      cases harray
    rw [hzero, Nat.add_zero] at hcalls
    refine ⟨?_, fun hpos => ⟨first, rest, rfl, ?_⟩, fun first' rest' heq => ?_⟩
    · rw [hcalls]
      split_ifs <;> omega
    · have hreads : decoder.onAuthSuccess = true ∧ ReadsSuccess d first := by
        by_contra hnot
        rw [hcalls, if_neg hnot] at hpos
        omega
      exact (hcond hreads.1 first rest rfl).1 hreads.2
    · obtain ⟨rfl, rfl⟩ := List.cons.inj (Value.array.inj heq)
      rw [hcalls, hcalls']

/-- **When only the first element of a frame triggers the subscription**: for every frame whose
containers are nested at most `2^32` deep and whose outermost array has less than `2^32` elements,
as the format has it. -/
theorem auth_success_triggered_by_first_iff (d : Doubles F) (decoder : AlpacaMsgpackDecoder)
    (v : Value F) (arrivedAt : UInt64) (hlen : ∀ items, v = .array items → items.length < 2 ^ 32)
    (hdepth : v.depth ≤ 2 ^ 32) :
    TriggeredByFirst d decoder v arrivedAt ↔
      (decoder.onAuthSuccess = true → FirstOnly d v) := by
  by_cases hv : ∃ first rest, v = .array (first :: rest)
  · obtain ⟨first, rest, rfl⟩ := hv
    have hrest : rest.length + 1 < 2 ^ 32 := hlen _ rfl
    exact triggeredByFirst_cons_iff d decoder arrivedAt (by omega) hdepth
  · have hcalls : (decoder.decodeRaw d v arrivedAt).authSuccesses = 0 := by
      cases v with
      | scalar x => exact authSuccesses_of_not_array d decoder arrivedAt (by omega) (by simp)
      | map pairs => exact authSuccesses_of_not_array d decoder arrivedAt (by omega) (by simp)
      | array items =>
          cases items with
          | nil => rfl
          | cons first rest => exact absurd ⟨first, rest, rfl⟩ hv
    obtain ⟨htriggered, hfirst⟩ :=
      triggeredByFirst_of_no_calls (d := d) (fun first rest h => hv ⟨first, rest, h⟩) hcalls
    exact ⟨fun _ _ => hfirst, fun _ => htriggered⟩

/-- A decoder with a callback. -/
def authDecoder : AlpacaMsgpackDecoder := { newDecoder with onAuthSuccess := true }

/-- The reply to an authentication, with the given message. -/
def successReply (msg : Value ℕ) : Value ℕ :=
  .map [(.scalar (.str [84]), .scalar (.str success)), (.scalar (.str [109, 115, 103]), msg)]

/-- The reply comes first, a trade with nested values after it: one call. -/
theorem auth_success_of_first_reply :
    let v : Value ℕ := .array [successReply (.array []), .map tradePairs]
    TriggeredByFirst wholeDoubles authDecoder v 9 ∧
      (authDecoder.decodeRaw wholeDoubles v 9).authSuccesses = 1 := by
  intro v
  have hfirst : FirstOnly wholeDoubles v := by
    intro first rest heq
    obtain ⟨rfl, rfl⟩ := List.cons.inj (Value.array.inj heq)
    refine ⟨fun _ => by simp [TypeIsSuccess, successReply], fun later hmem hreads => ?_⟩
    obtain rfl := List.mem_singleton.1 hmem
    exact absurd hreads (by decide +kernel)
  refine ⟨(auth_success_triggered_by_first_iff wholeDoubles authDecoder v 9 ?_ (by decide)).2
    fun _ => hfirst, by decide +kernel⟩
  intro items heq
  obtain rfl := Value.array.inj heq
  decide

/-- The reply comes after a trade, and its message is an array: it calls back all the same. -/
theorem auth_success_of_later_reply :
    let v : Value ℕ := .array [.map tradePairs, successReply (.array [])]
    (authDecoder.decodeRaw wholeDoubles v 9).authSuccesses = 1 ∧
      ¬ TriggeredByFirst wholeDoubles authDecoder v 9 := by
  intro v
  have hcalls : (authDecoder.decodeRaw wholeDoubles v 9).authSuccesses = 1 := by decide +kernel
  refine ⟨hcalls, fun h => ?_⟩
  obtain ⟨first, rest, heq, htype⟩ := h.2.1 (by omega)
  obtain ⟨rfl, rfl⟩ := List.cons.inj (Value.array.inj heq)
  simp [TypeIsSuccess, tradePairs, success] at htype

end Trading
