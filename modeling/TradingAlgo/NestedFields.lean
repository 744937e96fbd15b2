/-
**What a message with nested values assigns.**

The visitor reads the scalars of a message by two counters, a flag and the current field, so the
values of a message need not be scalars.  A string in an array is read as if it stood alone: an
array as a key selects the field of its last string, and the scalars of an array are given to the
field one after the other.  A nested map ends that: its scalars are not looked at, and after one
with a pair in it no field is selected any more.

Main definitions:

* `Trading.selectedField` — the field that a key of any kind selects;
* `Trading.assignments` — what the pairs of a message give to fields;
* `Trading.Cursor` — the part of the visitor that the scalars of a message see.

Main results:

* `Trading.AlpacaVisitor.cursor_run` — what a message reads of a nested value;
* `Trading.AlpacaVisitor.runPairs_assignments` — the item of a message is a fold over its
  assignments.
-/

import TradingAlgo.Streaming

set_option relaxedAutoImplicit false
set_option autoImplicit false

namespace Trading

open Msgpack (Scalar Value Call Nested)

variable {F : Type} {d : Doubles F}

/-! ### Assignments -/

/-- A scalar in a key: a string selects its field. -/
def selectField (field : FieldId) : Scalar F → FieldId
  | .str v => fieldOfKey v
  | _ => field

/-- The field that is selected after a key. -/
def selectedField (key : Value F) : FieldId :=
  if key.hasPairs then .none else key.front.foldl selectField .none

/-- The scalars that the pairs of a message give to fields, in order. -/
def assignments (pairs : List (Value F × Value F)) : List (FieldId × Scalar F) :=
  pairs.flatMap fun pair => pair.2.front.map fun x => (selectedField pair.1, x)

/-- An assignment. -/
def Item.assignTo (d : Doubles F) (item : Item F) (a : FieldId × Scalar F) : Item F :=
  item.assign d a.1 a.2

/-! ### Reading a message -/

/-- What of the visitor the scalars of a message see. -/
structure Cursor (F : Type) where
  inKey : Bool
  field : FieldId
  item : Item F

namespace Cursor

/-- A scalar at the level of the message. -/
def scalar (d : Doubles F) (c : Cursor F) (x : Scalar F) : Cursor F :=
  if c.inKey then { c with field := selectField c.field x }
  else { c with item := c.item.assign d c.field x }

/-- After a nested map with a pair. -/
def close (c : Cursor F) : Cursor F := { c with inKey := false, field := .none }

/-- After a nested value, by its scalars in front and whether a map with a pair follows them. -/
def read (d : Doubles F) (c : Cursor F) (front : List (Scalar F)) (hasPairs : Bool) : Cursor F :=
  if hasPairs then (front.foldl (scalar d) c).close else front.foldl (scalar d) c

/-- Once closed, nothing more is read. -/
theorem foldl_scalar_close (c : Cursor F) (xs : List (Scalar F)) :
    xs.foldl (scalar d) c.close = c.close := by
  induction xs with
  | nil => rfl
  | cons x xs ih =>
      have hx : scalar d c.close x = c.close := by simp [scalar, close]
      rw [List.foldl_cons, hx, ih]

/-- One nested value after the other. -/
theorem read_read (c : Cursor F) (xs ys : List (Scalar F)) (p q : Bool) :
    (c.read d xs p).read d ys q = c.read d (xs ++ if p then [] else ys) (p || q) := by
  cases p with
  | false => simp [read]
  | true =>
      simp only [read, if_true, foldl_scalar_close, Bool.true_or, List.append_nil]
      cases q <;> rfl

theorem foldl_scalar_of_key (field : FieldId) (item : Item F) (xs : List (Scalar F)) :
    xs.foldl (scalar d) ⟨true, field, item⟩ = ⟨true, xs.foldl selectField field, item⟩ := by
  induction xs generalizing field with
  | nil => rfl
  | cons x xs ih => exact ih (selectField field x)

theorem foldl_scalar_of_value (field : FieldId) (item : Item F) (xs : List (Scalar F)) :
    xs.foldl (scalar d) ⟨false, field, item⟩ =
      ⟨false, field, (xs.map fun x => (field, x)).foldl (Item.assignTo d) item⟩ := by
  induction xs generalizing item with
  | nil => rfl
  | cons x xs ih => exact ih (item.assign d field x)

end Cursor

namespace AlpacaVisitor

def cursor (s : AlpacaVisitor F) : Cursor F := ⟨s.inKey, s.currentField, s.item⟩

theorem cursor_visitScalar {s : AlpacaVisitor F} (hs : s.mapDepth = 1) (x : Scalar F) :
    (s.visitScalar d x).cursor = s.cursor.scalar d x := by
  unfold visitScalar Cursor.scalar cursor
  cases hkey : s.inKey with
  | false => simp [hs]
  | true => cases x <;> simp [hs, selectField, hkey]

theorem cursor_endArrayItem (s : AlpacaVisitor F) :
    (s.visit d .endArrayItem).cursor = s.cursor := by
  simp only [visit]
  split_ifs <;> rfl

/-- The flag for keys is down again after every value. -/
theorem nested_inKey {bound : ℕ} :
    Nested (visit d) bound fun key _ m s => key = false ∨ m = 0 → s.inKey = false where
  scalar := by
    intro key a m s x _ h hk
    obtain ⟨field, item, heq⟩ := visitScalar_eq (d := d) s x
    rw [show s.visit d (.scalar x) = s.visitScalar d x from rfl, heq]
    exact h hk
  startArray := fun _ _ h => h
  startArrayItem := fun h => h
  endArrayItem := by
    intro key a m s h hk
    simp only [visit]
    split_ifs <;> exact h hk
  endArray := fun h => h
  startMap := by
    intro key a m s num _ h hk
    have hkey := h (Or.inl (hk.resolve_right (Nat.succ_ne_zero m)))
    simp only [visit]
    split_ifs <;> exact hkey
  startMapKey := by
    intro key a m s _ hk
    simp at hk
  endMapKey := fun _ _ => rfl
  startMapValue := fun h => h
  endMapValue := fun h => h
  endMap := by
    intro key a m s _ hkey h hk
    have hfalse : key = false := by
      cases key with
      | false => rfl
      | true => exact absurd (hkey rfl) (by simpa using hk)
    obtain ⟨event, emitted, calls, heq⟩ := emitItem_eq (d := d) s
    have hemit : (s.emitItem d).inKey = s.inKey := by rw [heq]
    simp only [visit]
    split_ifs
    · exact hemit.trans (h (Or.inl hfalse))
    · exact h (Or.inl hfalse)

theorem inKey_run {s : AlpacaVisitor F} (hs : s.inKey = false) (v : Value F) :
    (Msgpack.run (visit d) s v).inKey = false :=
  @Nested.run F _ _ v.depth _ nested_inKey v false 0 0 s (by omega) (by simp) (fun _ => hs)
    (Or.inl rfl)

theorem At.run {s : AlpacaVisitor F} {arrays maps : ℕ} (h : At arrays maps s) (v : Value F) :
    At arrays maps (Msgpack.run (visit d) s v) :=
  @Nested.run F _ _ v.depth _ nested_at v false 0 0 s (by omega) (by simp) h

theorem At.runPair {s : AlpacaVisitor F} {arrays maps : ℕ} (h : At arrays maps s)
    (pair : Value F × Value F) : At arrays maps (Msgpack.runPair (visit d) s pair) := by
  have hstart : At arrays maps (s.visit d .startMapKey) := h
  have hkey : At arrays maps (((Msgpack.run (visit d) (s.visit d .startMapKey) pair.1).visit d
      .endMapKey).visit d .startMapValue) := hstart.run pair.1
  exact hkey.run pair.2

/-- After a pair no field is selected. -/
theorem runPair_closed (s : AlpacaVisitor F) (pair : Value F × Value F) :
    (Msgpack.runPair (visit d) s pair).inKey = false ∧
      (Msgpack.runPair (visit d) s pair).currentField = .none :=
  ⟨inKey_run (s := AlpacaVisitor.visit d (AlpacaVisitor.visit d _ .endMapKey) .startMapValue) rfl
    pair.2, rfl⟩

theorem runPairs_closed {s : AlpacaVisitor F} (hs : s.inKey = false ∧ s.currentField = .none)
    (pairs : List (Value F × Value F)) :
    (Msgpack.runPairs (visit d) s pairs).inKey = false ∧
      (Msgpack.runPairs (visit d) s pairs).currentField = .none := by
  induction pairs generalizing s with
  | nil => exact hs
  | cons pair pairs ih =>
      rw [Msgpack.runPairs_cons]
      exact ih (runPair_closed s pair)

/-- Within two maps or more nothing is read. -/
theorem At.mapDepth_ne_one {s : AlpacaVisitor F} {arrays maps : ℕ} (h : At arrays maps s)
    (harrays : 1 ≤ arrays) (hmaps : 2 ≤ maps) (hbound : arrays + maps ≤ 2 ^ 32 + 1) :
    s.mapDepth ≠ 1 := by
  rw [h.2, Ne, ofNat_eq_one_iff]
  omega

theorem emitItem_item (s : AlpacaVisitor F) : (s.emitItem d).item = s.item := by
  obtain ⟨event, emitted, calls, heq⟩ := emitItem_eq (d := d) s
  rw [heq]

/-- **Maps within a message leave its item alone.** -/
theorem nested_item (x : Item F) {arrays maps bound : ℕ} (harrays : 1 ≤ arrays) (hmaps : 2 ≤ maps)
    (hbound : arrays + maps + bound ≤ 2 ^ 32 + 1) :
    Nested (visit d) bound fun _ a m s => At (arrays + a) (maps + m) s ∧ s.item = x where
  scalar := by
    intro key a m s y hle h
    have hne := h.1.mapDepth_ne_one (by omega) (by omega) (by omega)
    refine ⟨h.1.visitScalar y, ?_⟩
    simp only [visit, visitScalar, ne_eq, hne, not_false_eq_true, if_true]
    exact h.2
  startArray := fun num _ h => ⟨h.1.startArray num, h.2⟩
  startArrayItem := fun h => h
  endArrayItem := by
    intro key a m s h
    refine ⟨h.1.endArrayItem, ?_⟩
    simp only [visit]
    split_ifs <;> exact h.2
  endArray := fun h => ⟨h.1.endArray, h.2⟩
  startMap := by
    intro key a m s num hlt h
    have hat : At (arrays + a) (maps + (m + 1)) (s.visit d (.startMap num)) := h.1.startMap num
    have hnot : ¬ (s.arrayDepth = 1 ∧ s.mapDepth + 1 = 1) :=
      fun hmessage => hat.not_message (by omega) (by omega) (by simp [visit, hmessage])
    simp only [visit, if_neg hnot] at hat ⊢
    exact ⟨hat, h.2⟩
  startMapKey := fun h => h
  endMapKey := fun h => h
  startMapValue := fun h => h
  endMapValue := fun h => h
  endMap := by
    intro key a m s _ _ h
    refine ⟨At.endMap h.1, ?_⟩
    simp only [visit]
    split_ifs
    · exact (emitItem_item s).trans h.2
    · exact h.2

theorem runPairs_nested_item {s : AlpacaVisitor F} {arrays maps : ℕ} (h : At arrays maps s)
    (harrays : 1 ≤ arrays) (hmaps : 2 ≤ maps) (pairs : List (Value F × Value F))
    (hbound : arrays + maps + Msgpack.pairsDepth pairs ≤ 2 ^ 32 + 1) :
    At arrays maps (Msgpack.runPairs (visit d) s pairs) ∧
      (Msgpack.runPairs (visit d) s pairs).item = s.item := by
  have hrun : ∀ v : Value F, v.depth ≤ Msgpack.pairsDepth pairs → ∀ t : AlpacaVisitor F,
      At arrays maps t ∧ t.item = s.item →
        At arrays maps (Msgpack.run (visit d) t v) ∧ (Msgpack.run (visit d) t v).item = s.item := by
    intro v hv t ht
    exact @Nested.run F _ _ v.depth _ (nested_item s.item harrays hmaps (by omega)) v false 0 0 t
      (by omega) (by simp) ht
  refine Msgpack.runPairs_of_forall (visit d)
    (Q := fun t => At arrays maps t ∧ t.item = s.item) (fun _ ht => ht) (fun _ ht => ht)
    (fun _ ht => ht) (fun _ ht => ht) (fun pair hpair t ht => ?_) ⟨h, rfl⟩
  have hle := Msgpack.depth_le_pairsDepth hpair
  exact ⟨hrun _ hle.1 t ht, hrun _ hle.2 t ht⟩

/-- A map within a message. -/
theorem cursor_run_map {s : AlpacaVisitor F} {a : ℕ} (hs : At (1 + a) 1 s)
    (pairs : List (Value F × Value F))
    (hdepth : a + 2 + (Value.map pairs).depth ≤ 2 ^ 32 + 1) :
    (Msgpack.run (visit d) s (.map pairs)).cursor =
      s.cursor.read d [] (Value.map pairs).hasPairs := by
  rw [Value.depth] at hdepth
  have hopen : At (1 + a) 2 (s.visit d (.startMap pairs.length)) := hs.startMap _
  have hnot : ¬ (s.arrayDepth = 1 ∧ s.mapDepth + 1 = 1) :=
    fun hmessage => hopen.not_message (by omega) (by omega) (by simp [visit, hmessage])
  have hcursor : (s.visit d (.startMap pairs.length)).cursor = s.cursor := by
    simp only [visit, if_neg hnot]
    rfl
  obtain ⟨hat, hitem⟩ := runPairs_nested_item (d := d) hopen (by omega) le_rfl pairs (by omega)
  have hend : ∀ t : AlpacaVisitor F, At (1 + a) 2 t → (t.visit d .endMap).cursor = t.cursor := by
    intro t ht
    have hnot := ht.not_message (by omega) (by omega)
    simp only [visit, if_neg hnot]
    rfl
  rw [Msgpack.run_map, hend _ hat]
  cases pairs with
  | nil => simpa [Value.hasPairs, Cursor.read] using hcursor
  | cons pair pairs =>
      -- whatever was selected before, the last pair of the map has closed it
      have hstart : (s.visit d (.startMap (pair :: pairs).length)).item = s.item :=
        congrArg Cursor.item hcursor
      generalize s.visit d (.startMap (pair :: pairs).length) = t at hitem hstart ⊢
      rw [Msgpack.runPairs_cons] at hitem ⊢
      obtain ⟨hkey, hfield⟩ := runPairs_closed (d := d) (runPair_closed (d := d) t pair) pairs
      simp [cursor, Cursor.read, Cursor.close, Value.hasPairs, hkey, hfield, hitem, hstart]

mutual

/-- **What a message reads of a nested value**: the scalars in front, one by one. -/
theorem cursor_run (v : Value F) {s : AlpacaVisitor F} {a : ℕ} (hs : At (1 + a) 1 s)
    (hdepth : a + 2 + v.depth ≤ 2 ^ 32 + 1) :
    (Msgpack.run (visit d) s v).cursor = s.cursor.read d v.front v.hasPairs := by
  cases v with
  | scalar x =>
      rw [Msgpack.run_scalar]
      exact cursor_visitScalar hs.2 x
  | array items =>
      rw [Value.depth] at hdepth
      rw [Msgpack.run_array, Value.front, Value.hasPairs]
      exact cursor_runItems items (hs.startArray (d := d) items.length) (by omega)
  | map pairs => exact cursor_run_map hs pairs hdepth

theorem cursor_runItems (items : List (Value F)) {s : AlpacaVisitor F} {a : ℕ}
    (hs : At (1 + (a + 1)) 1 s) (hdepth : a + 3 + Msgpack.itemsDepth items ≤ 2 ^ 32 + 1) :
    (Msgpack.runItems (visit d) s items).cursor =
      s.cursor.read d (Msgpack.itemsFront items) (Msgpack.itemsHavePairs items) := by
  cases items with
  | nil => simp [Msgpack.itemsFront, Msgpack.itemsHavePairs, Cursor.read]
  | cons item items =>
      rw [Msgpack.itemsDepth] at hdepth
      have hitem : (Msgpack.run (visit d) (s.visit d .startArrayItem) item).cursor =
          s.cursor.read d item.front item.hasPairs := cursor_run item hs (by omega)
      have hat : At (1 + (a + 1)) 1 (Msgpack.run (visit d) (s.visit d .startArrayItem) item) :=
        At.run hs item
      rw [Msgpack.runItems_cons, cursor_runItems items hat.endArrayItem (by omega),
        cursor_endArrayItem, hitem, Cursor.read_read, Msgpack.itemsFront, Msgpack.itemsHavePairs]

end

/-- A pair of a message. -/
theorem runPair_assignments {s : AlpacaVisitor F} (hs : At 1 1 s) (pair : Value F × Value F)
    (hdepth : 2 + max pair.1.depth pair.2.depth ≤ 2 ^ 32 + 1) :
    At 1 1 (Msgpack.runPair (visit d) s pair) ∧
      (Msgpack.runPair (visit d) s pair).item =
        (pair.2.front.map fun x => (selectedField pair.1, x)).foldl (Item.assignTo d) s.item := by
  have hstart : At (1 + 0) 1 (s.visit d .startMapKey) := hs
  have hread : (Msgpack.run (visit d) (s.visit d .startMapKey) pair.1).cursor =
      (⟨true, .none, s.item⟩ : Cursor F).read d pair.1.front pair.1.hasPairs :=
    cursor_run pair.1 hstart (by omega)
  have hat := hstart.run (d := d) pair.1
  refine ⟨hs.runPair pair, ?_⟩
  rw [Msgpack.runPair]
  generalize Msgpack.run (visit d) (s.visit d .startMapKey) pair.1 = t at hread hat ⊢
  have hkey : ((t.visit d .endMapKey).visit d .startMapValue).cursor =
      ⟨false, selectedField pair.1, s.item⟩ := by
    simp only [Cursor.read, Cursor.foldl_scalar_of_key, cursor] at hread
    cases hpairs : pair.1.hasPairs with
    | false =>
        rw [hpairs] at hread
        simp only [Bool.false_eq_true, if_false, Cursor.mk.injEq] at hread
        simp [cursor, visit, selectedField, hpairs, hread]
    | true =>
        rw [hpairs] at hread
        simp only [if_true, Cursor.close, Cursor.mk.injEq] at hread
        simp [cursor, visit, selectedField, hpairs, hread]
  have hvalue := cursor_run (d := d) pair.2 (s := (t.visit d .endMapKey).visit d .startMapValue)
    (a := 0) hat (by omega)
  rw [hkey, Cursor.read, Cursor.foldl_scalar_of_value] at hvalue
  have hitem := congrArg Cursor.item hvalue
  cases hpairs : pair.2.hasPairs <;> simpa [hpairs, Cursor.close, cursor, visit] using hitem

/-- **The item of a message is a fold over its assignments.** -/
theorem runPairs_assignments (pairs : List (Value F × Value F))
    (hdepth : 2 + Msgpack.pairsDepth pairs ≤ 2 ^ 32 + 1) :
    ∀ {s : AlpacaVisitor F}, At 1 1 s →
      At 1 1 (Msgpack.runPairs (visit d) s pairs) ∧
        (Msgpack.runPairs (visit d) s pairs).item =
          (assignments pairs).foldl (Item.assignTo d) s.item := by
  induction pairs with
  | nil => exact fun hs => ⟨hs, rfl⟩
  | cons pair pairs ih =>
      intro s hs
      rw [Msgpack.pairsDepth] at hdepth
      obtain ⟨hat, hitem⟩ := runPair_assignments (d := d) hs pair (by omega)
      obtain ⟨hat', hitem'⟩ := ih (by omega) hat
      rw [Msgpack.runPairs_cons]
      refine ⟨hat', ?_⟩
      rw [hitem', hitem, ← List.foldl_append]
      rfl

end AlpacaVisitor

end Trading
