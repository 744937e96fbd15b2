/-
**MessagePack values and the calls that a parser makes on a visitor.**

A streaming parser does not build the value that it reads: it tells a visitor, in document order,
where containers, items, keys and values start and end, and which scalars it meets.  A visitor is a
step function on its own state, so what it makes of a value is a fold over the calls of the value.

Main definitions:

* `Msgpack.Value`, `Msgpack.Value.depth` — values, and how deep their containers are nested;
* `Msgpack.Value.hasArray`, `Msgpack.Value.front` — whether there is an array in a value, and its
  scalars that are in no map;
* `Msgpack.Value.calls`, `Msgpack.run` — the calls of a value, and a visitor after them;
* `Msgpack.Nested` — a property of the visitor's state that depends on where in the nesting it
  stands, and is kept by every call.

Main results:

* `Msgpack.Nested.run` — the induction rule: such a property holds again after a whole value;
* `Msgpack.Nested.run_of_isPrefix` — and somewhere in the nesting after a part of one;
* `Msgpack.runItems_of_forall`, `Msgpack.runPairs_of_forall` — from values to the items and the
  pairs of a container.
-/

import Mathlib.Tactic

set_option relaxedAutoImplicit false
set_option autoImplicit false

namespace Msgpack

/-- The scalars.  `F` is the type of the floating point numbers; one of single precision stands
here as the double that it is cast to.  The bytes of an extension start with its type. -/
inductive Scalar (F : Type)
  | nil
  | boolean (v : Bool)
  | positiveInteger (v : UInt64)
  | negativeInteger (v : ℤ)
  | float32 (v : F)
  | float64 (v : F)
  | str (v : List UInt8)
  | bin (v : List UInt8)
  | ext (v : List UInt8)
  deriving DecidableEq, Repr

/-- The values. -/
inductive Value (F : Type)
  | scalar (x : Scalar F)
  | array (items : List (Value F))
  | map (pairs : List (Value F × Value F))

/-- The calls on a visitor. -/
inductive Call (F : Type)
  | scalar (x : Scalar F)
  | startArray (num : ℕ)
  | startArrayItem
  | endArrayItem
  | endArray
  | startMap (num : ℕ)
  | startMapKey
  | endMapKey
  | startMapValue
  | endMapValue
  | endMap
  deriving DecidableEq, Repr

variable {F : Type}

def Value.isScalar : Value F → Bool
  | .scalar _ => true
  | _ => false

mutual

/-- The calls of a value in document order. -/
def Value.calls : Value F → List (Call F)
  | .scalar x => [.scalar x]
  | .array items => .startArray items.length :: itemCalls items ++ [.endArray]
  | .map pairs => .startMap pairs.length :: pairCalls pairs ++ [.endMap]

def itemCalls : List (Value F) → List (Call F)
  | [] => []
  | item :: items => .startArrayItem :: item.calls ++ .endArrayItem :: itemCalls items

def pairCalls : List (Value F × Value F) → List (Call F)
  | [] => []
  | (key, value) :: pairs =>
      .startMapKey :: key.calls ++ .endMapKey :: .startMapValue :: value.calls ++
        .endMapValue :: pairCalls pairs

end

mutual

/-- How many containers are nested in a value, itself included. -/
def Value.depth : Value F → ℕ
  | .scalar _ => 0
  | .array items => itemsDepth items + 1
  | .map pairs => pairsDepth pairs + 1

def itemsDepth : List (Value F) → ℕ
  | [] => 0
  | item :: items => max item.depth (itemsDepth items)

def pairsDepth : List (Value F × Value F) → ℕ
  | [] => 0
  | (key, value) :: pairs => max (max key.depth value.depth) (pairsDepth pairs)

end

mutual

/-- Whether there is an array in a value, itself included. -/
def Value.hasArray : Value F → Bool
  | .scalar _ => false
  | .array _ => true
  | .map pairs => pairsHaveArray pairs

def pairsHaveArray : List (Value F × Value F) → Bool
  | [] => false
  | (key, value) :: pairs => key.hasArray || value.hasArray || pairsHaveArray pairs

end

mutual

/-- Whether there is a map with a pair in a value that is reached through arrays only. -/
def Value.hasPairs : Value F → Bool
  | .scalar _ => false
  | .array items => itemsHavePairs items
  | .map pairs => !pairs.isEmpty

def itemsHavePairs : List (Value F) → Bool
  | [] => false
  | item :: items => item.hasPairs || itemsHavePairs items

end

mutual

/-- The scalars that are reached through arrays only, up to the first map that has a pair. -/
def Value.front : Value F → List (Scalar F)
  | .scalar x => [x]
  | .array items => itemsFront items
  | .map _ => []

def itemsFront : List (Value F) → List (Scalar F)
  | [] => []
  | item :: items => item.front ++ if item.hasPairs then [] else itemsFront items

end

theorem itemsDepth_append (items items' : List (Value F)) :
    itemsDepth (items ++ items') = max (itemsDepth items) (itemsDepth items') := by
  induction items with
  | nil => simp [itemsDepth]
  | cons item items ih => rw [List.cons_append, itemsDepth, itemsDepth, ih, max_assoc]

theorem pairsDepth_append (pairs pairs' : List (Value F × Value F)) :
    pairsDepth (pairs ++ pairs') = max (pairsDepth pairs) (pairsDepth pairs') := by
  induction pairs with
  | nil => simp [pairsDepth]
  | cons pair pairs ih =>
      rw [List.cons_append, pairsDepth, pairsDepth, ih]
      exact (max_assoc _ _ _).symm

theorem depth_le_pairsDepth {pair : Value F × Value F} {pairs : List (Value F × Value F)}
    (h : pair ∈ pairs) : pair.1.depth ≤ pairsDepth pairs ∧ pair.2.depth ≤ pairsDepth pairs := by
  induction pairs with
  | nil => cases h
  | cons first pairs ih =>
      rw [pairsDepth]
      rcases List.mem_cons.1 h with rfl | h
      · exact ⟨(le_max_left _ _).trans (le_max_left _ _),
          (le_max_right _ _).trans (le_max_left _ _)⟩
      · exact ⟨(ih h).1.trans (le_max_right _ _), (ih h).2.trans (le_max_right _ _)⟩

theorem depth_le_itemsDepth {item : Value F} {items : List (Value F)} (h : item ∈ items) :
    item.depth ≤ itemsDepth items := by
  induction items with
  | nil => cases h
  | cons first items ih =>
      rw [itemsDepth]
      rcases List.mem_cons.1 h with rfl | h
      · exact le_max_left _ _
      · exact (ih h).trans (le_max_right _ _)

/-! ### Visitors -/

section Visitors

variable {σ : Type*} (step : σ → Call F → σ)

/-- A visitor after the calls of a value. -/
def run (s : σ) (v : Value F) : σ := v.calls.foldl step s

def runItems (s : σ) (items : List (Value F)) : σ := (itemCalls items).foldl step s

def runPair (s : σ) (pair : Value F × Value F) : σ :=
  step (run step (step (step (run step (step s .startMapKey) pair.1) .endMapKey) .startMapValue)
    pair.2) .endMapValue

def runPairs (s : σ) (pairs : List (Value F × Value F)) : σ := (pairCalls pairs).foldl step s

@[simp] theorem run_scalar (s : σ) (x : Scalar F) :
    run step s (.scalar x) = step s (.scalar x) := by
  simp [run, Value.calls]

@[simp] theorem run_array (s : σ) (items : List (Value F)) : run step s (.array items) =
    step (runItems step (step s (.startArray items.length)) items) .endArray := by
  simp [run, runItems, Value.calls]

@[simp] theorem run_map (s : σ) (pairs : List (Value F × Value F)) : run step s (.map pairs) =
    step (runPairs step (step s (.startMap pairs.length)) pairs) .endMap := by
  simp [run, runPairs, Value.calls]

@[simp] theorem runItems_nil (s : σ) : runItems step s [] = s := by
  simp [runItems, itemCalls]

@[simp] theorem runItems_cons (s : σ) (item : Value F) (items : List (Value F)) :
    runItems step s (item :: items) =
      runItems step (step (run step (step s .startArrayItem) item) .endArrayItem) items := by
  simp [runItems, run, itemCalls]

@[simp] theorem runPairs_nil (s : σ) : runPairs step s [] = s := by
  simp [runPairs, pairCalls]

@[simp] theorem runPairs_cons (s : σ) (pair : Value F × Value F)
    (pairs : List (Value F × Value F)) :
    runPairs step s (pair :: pairs) = runPairs step (runPair step s pair) pairs := by
  simp [runPairs, runPair, run, pairCalls]

/-- A property that the items keep, and the calls between them, holds again after an array's
items. -/
theorem runItems_of_forall {Q : σ → Prop} (hstart : ∀ s, Q s → Q (step s .startArrayItem))
    (hend : ∀ s, Q s → Q (step s .endArrayItem)) {items : List (Value F)}
    (hrun : ∀ item ∈ items, ∀ s, Q s → Q (run step s item)) {s : σ} (hs : Q s) :
    Q (runItems step s items) := by
  induction items generalizing s with
  | nil => rwa [runItems_nil]
  | cons item items ih =>
      rw [runItems_cons]
      have hitem := hrun item List.mem_cons_self _ (hstart s hs)
      exact ih (fun i hi => hrun i (List.mem_cons_of_mem item hi)) (hend _ hitem)

/-- The same for the pairs of a map. -/
theorem runPairs_of_forall {Q : σ → Prop} (hstartKey : ∀ s, Q s → Q (step s .startMapKey))
    (hendKey : ∀ s, Q s → Q (step s .endMapKey))
    (hstartValue : ∀ s, Q s → Q (step s .startMapValue))
    (hendValue : ∀ s, Q s → Q (step s .endMapValue)) {pairs : List (Value F × Value F)}
    (hrun : ∀ pair ∈ pairs, ∀ s, Q s → Q (run step s pair.1) ∧ Q (run step s pair.2)) {s : σ}
    (hs : Q s) : Q (runPairs step s pairs) := by
  induction pairs generalizing s with
  | nil => rwa [runPairs_nil]
  | cons pair pairs ih =>
      rw [runPairs_cons]
      have hpair := hrun pair List.mem_cons_self
      have hkey := hendKey _ (hpair _ (hstartKey s hs)).1
      have hvalue := hendValue _ (hpair _ (hstartValue _ hkey)).2
      exact ih (fun p hp => hrun p (List.mem_cons_of_mem pair hp)) hvalue

/-- Where the calls of two parts can be cut. -/
theorem isPrefix_append_cases {α : Type*} {p l l' : List α} (h : p <+: l ++ l') :
    p <+: l ∨ ∃ q, p = l ++ q ∧ q <+: l' := by
  rcases List.prefix_or_prefix_of_prefix h (List.prefix_append l l') with hp | ⟨q, rfl⟩
  · exact Or.inl hp
  · exact Or.inr ⟨q, rfl, (List.prefix_append_right_inj l).1 h⟩

/-- The parser may stop within the items: then what holds in their midst is all that is known. -/
theorem runItems_isPrefix_of_forall {Q R : σ → Prop} (hR : ∀ s, Q s → R s)
    (hstart : ∀ s, Q s → Q (step s .startArrayItem)) (hend : ∀ s, Q s → Q (step s .endArrayItem))
    {items : List (Value F)} (hrun : ∀ item ∈ items, ∀ s, Q s → Q (run step s item))
    (hpart : ∀ item ∈ items, ∀ s, Q s → ∀ p, p <+: item.calls → R (p.foldl step s)) {s : σ}
    (hs : Q s) {p : List (Call F)} (hp : p <+: itemCalls items) : R (p.foldl step s) := by
  induction items generalizing s p with
  | nil =>
      obtain rfl := List.prefix_nil.1 hp
      exact hR s hs
  | cons item items ih =>
      rw [itemCalls] at hp
      have hfirst := hstart s hs
      rcases isPrefix_append_cases hp with hp | ⟨q, rfl, hq⟩
      · rcases List.prefix_cons_iff.1 hp with rfl | ⟨q, rfl, hq⟩
        · exact hR s hs
        · exact hpart item List.mem_cons_self _ hfirst q hq
      · have hitem := hrun item List.mem_cons_self _ hfirst
        rw [List.foldl_append]
        rcases List.prefix_cons_iff.1 hq with rfl | ⟨r, rfl, hr⟩
        · exact hR _ hitem
        · exact ih (fun i hi => hrun i (List.mem_cons_of_mem item hi))
            (fun i hi => hpart i (List.mem_cons_of_mem item hi)) (hend _ hitem) hr

/-- The same within the pairs of a map; `K` is what holds in the keys. -/
theorem runPairs_isPrefix_of_forall {Q K R : σ → Prop} (hR : ∀ s, Q s → R s)
    (hKR : ∀ s, K s → R s) (hstartKey : ∀ s, Q s → K (step s .startMapKey))
    (hendKey : ∀ s, K s → Q (step s .endMapKey))
    (hstartValue : ∀ s, Q s → Q (step s .startMapValue))
    (hendValue : ∀ s, Q s → Q (step s .endMapValue)) {pairs : List (Value F × Value F)}
    (hrun : ∀ pair ∈ pairs, (∀ s, K s → K (run step s pair.1)) ∧ ∀ s, Q s → Q (run step s pair.2))
    (hpart : ∀ pair ∈ pairs, (∀ s, K s → ∀ p, p <+: pair.1.calls → R (p.foldl step s)) ∧
      ∀ s, Q s → ∀ p, p <+: pair.2.calls → R (p.foldl step s)) {s : σ}
    (hs : Q s) {p : List (Call F)} (hp : p <+: pairCalls pairs) : R (p.foldl step s) := by
  induction pairs generalizing s p with
  | nil =>
      obtain rfl := List.prefix_nil.1 hp
      exact hR s hs
  | cons pair pairs ih =>
      obtain ⟨k, v⟩ := pair
      rw [pairCalls] at hp
      obtain ⟨hrunKey, hrunValue⟩ := hrun (k, v) List.mem_cons_self
      obtain ⟨hpartKey, hpartValue⟩ := hpart (k, v) List.mem_cons_self
      have hk := hstartKey s hs
      have hkey := hrunKey _ hk
      have hleft := hendKey _ hkey
      have hv := hstartValue _ hleft
      have hvalue := hrunValue _ hv
      rcases isPrefix_append_cases hp with hp | ⟨q, rfl, hq⟩
      · rcases isPrefix_append_cases hp with hp | ⟨q, rfl, hq⟩
        · -- in the key
          rcases List.prefix_cons_iff.1 hp with rfl | ⟨q, rfl, hq⟩
          · exact hR s hs
          · exact hpartKey _ hk q hq
        · -- in the value
          rw [List.foldl_append]
          rcases List.prefix_cons_iff.1 hq with rfl | ⟨r, rfl, hr⟩
          · exact hKR _ hkey
          · rcases List.prefix_cons_iff.1 hr with rfl | ⟨u, rfl, hu⟩
            · exact hR _ hleft
            · exact hpartValue _ hv u hu
      · rw [List.foldl_append, List.foldl_append]
        rcases List.prefix_cons_iff.1 hq with rfl | ⟨r, rfl, hr⟩
        · exact hR _ hvalue
        · exact ih (fun i hi => hrun i (List.mem_cons_of_mem _ hi))
            (fun i hi => hpart i (List.mem_cons_of_mem _ hi)) (hendValue _ hvalue) hr

end Visitors

/-! ### Properties that follow the nesting -/

/-- `P key a m` is kept by every call.  It may depend on how many arrays and maps are open since
some point, `a` and `m`, up to a bound on both, and on whether that point is in a key of the
innermost map.  A parser leaves a key before it ends the map of the key, so the end of a map within
a key leaves another map open. -/
structure Nested {σ : Type*} (step : σ → Call F → σ) (bound : ℕ) (P : Bool → ℕ → ℕ → σ → Prop) :
    Prop where
  scalar : ∀ {key a m s} (x : Scalar F), a + m ≤ bound → P key a m s →
    P key a m (step s (.scalar x))
  startArray : ∀ {key a m s} (num : ℕ), a + m < bound → P key a m s →
    P key (a + 1) m (step s (.startArray num))
  startArrayItem : ∀ {key a m s}, P key (a + 1) m s → P key (a + 1) m (step s .startArrayItem)
  endArrayItem : ∀ {key a m s}, P key (a + 1) m s → P key (a + 1) m (step s .endArrayItem)
  endArray : ∀ {key a m s}, P key (a + 1) m s → P key a m (step s .endArray)
  startMap : ∀ {key a m s} (num : ℕ), a + m < bound → P key a m s →
    P key a (m + 1) (step s (.startMap num))
  startMapKey : ∀ {key a m s}, P key a (m + 1) s → P true a (m + 1) (step s .startMapKey)
  endMapKey : ∀ {key a m s}, P true a (m + 1) s → P key a (m + 1) (step s .endMapKey)
  startMapValue : ∀ {key a m s}, P key a (m + 1) s → P key a (m + 1) (step s .startMapValue)
  endMapValue : ∀ {key a m s}, P key a (m + 1) s → P key a (m + 1) (step s .endMapValue)
  endMap : ∀ {key a m s}, a + m < bound → (key = true → 0 < m) → P key a (m + 1) s →
    P key a m (step s .endMap)

section Rule

variable {σ : Type*} {step : σ → Call F → σ} {bound : ℕ} {P : Bool → ℕ → ℕ → σ → Prop}

mutual

/-- **The induction rule**: a property that follows the nesting holds again after a value. -/
theorem Nested.run (h : Nested step bound P) (v : Value F) {key : Bool} {a m : ℕ} {s : σ}
    (hdepth : a + m + v.depth ≤ bound) (hkey : key = true → 0 < m) (hs : P key a m s) :
    P key a m (Msgpack.run step s v) := by
  cases v with
  | scalar x =>
      rw [run_scalar]
      exact h.scalar x (by omega) hs
  | array items =>
      rw [Value.depth] at hdepth
      rw [run_array]
      have hstart := h.startArray items.length (by omega) hs
      exact h.endArray (h.runItems items (by omega) hkey hstart)
  | map pairs =>
      rw [Value.depth] at hdepth
      rw [run_map]
      have hstart := h.startMap pairs.length (by omega) hs
      exact h.endMap (by omega) hkey (h.runPairs pairs (by omega) hstart)

theorem Nested.runItems (h : Nested step bound P) (items : List (Value F)) {key : Bool} {a m : ℕ}
    {s : σ} (hdepth : a + 1 + m + itemsDepth items ≤ bound) (hkey : key = true → 0 < m)
    (hs : P key (a + 1) m s) : P key (a + 1) m (Msgpack.runItems step s items) := by
  cases items with
  | nil => rwa [runItems_nil]
  | cons item items =>
      rw [itemsDepth] at hdepth
      rw [runItems_cons]
      have hitem := h.run item (by omega) hkey (h.startArrayItem hs)
      exact h.runItems items (by omega) hkey (h.endArrayItem hitem)

theorem Nested.runPairs (h : Nested step bound P) (pairs : List (Value F × Value F)) {key : Bool}
    {a m : ℕ} {s : σ} (hdepth : a + (m + 1) + pairsDepth pairs ≤ bound)
    (hs : P key a (m + 1) s) : P key a (m + 1) (Msgpack.runPairs step s pairs) := by
  cases pairs with
  | nil => rwa [runPairs_nil]
  | cons pair pairs =>
      obtain ⟨k, v⟩ := pair
      rw [pairsDepth] at hdepth
      rw [runPairs_cons]
      have hk := h.run k (by omega) (fun _ => Nat.succ_pos m) (h.startMapKey hs)
      have hleft : P key a (m + 1) _ := h.endMapKey hk
      have hv := h.run v (by omega) (fun _ => Nat.succ_pos m) (h.startMapValue hleft)
      exact h.runPairs pairs (by omega) (h.endMapValue hv)

end

/-- **The rule for a part of a value**: wherever the parser stops, the property holds for some place
in the nesting. -/
theorem Nested.run_of_isPrefix (h : Nested step bound P) (v : Value F) :
    ∀ {key : Bool} {a m : ℕ} {s : σ}, a + m + v.depth ≤ bound → (key = true → 0 < m) →
      P key a m s → ∀ {p : List (Call F)}, p <+: v.calls →
        ∃ key' a' m', P key' a' m' (p.foldl step s) := by
  cases v with
  | scalar x =>
      intro key a m s hdepth hkey hs p hp
      rcases List.prefix_cons_iff.1 hp with rfl | ⟨q, rfl, hq⟩
      · exact ⟨key, a, m, hs⟩
      · obtain rfl := List.prefix_nil.1 hq
        exact ⟨key, a, m, h.scalar x (by omega) hs⟩
  | array items =>
      intro key a m s hdepth hkey hs p hp
      rw [Value.depth] at hdepth
      rcases List.prefix_cons_iff.1 hp with rfl | ⟨q, rfl, hq⟩
      · exact ⟨key, a, m, hs⟩
      rw [List.foldl_cons]
      have hstart := h.startArray items.length (by omega) hs
      rcases List.prefix_concat_iff.1 hq with rfl | hq
      · rw [List.foldl_append]
        exact ⟨key, a, m, h.endArray (h.runItems items (by omega) hkey hstart)⟩
      refine runItems_isPrefix_of_forall step (Q := P key (a + 1) m)
        (R := fun s => ∃ key' a' m', P key' a' m' s) (fun s hs => ⟨_, _, _, hs⟩)
        (fun s hs => h.startArrayItem hs) (fun s hs => h.endArrayItem hs) ?_ ?_ hstart hq
      · intro item hitem s hs
        have := depth_le_itemsDepth hitem
        exact h.run item (by omega) hkey hs
      · intro item hitem s hs p hp
        have := depth_le_itemsDepth hitem
        exact h.run_of_isPrefix item (by omega) hkey hs hp
  | map pairs =>
      intro key a m s hdepth hkey hs p hp
      rw [Value.depth] at hdepth
      rcases List.prefix_cons_iff.1 hp with rfl | ⟨q, rfl, hq⟩
      · exact ⟨key, a, m, hs⟩
      rw [List.foldl_cons]
      have hstart := h.startMap pairs.length (by omega) hs
      rcases List.prefix_concat_iff.1 hq with rfl | hq
      · rw [List.foldl_append]
        exact ⟨key, a, m, h.endMap (by omega) hkey (h.runPairs pairs (by omega) hstart)⟩
      refine runPairs_isPrefix_of_forall step (Q := P key a (m + 1)) (K := P true a (m + 1))
        (R := fun s => ∃ key' a' m', P key' a' m' s)
        (fun s hs => ⟨_, _, _, hs⟩) (fun s hs => ⟨_, _, _, hs⟩)
        (fun s hs => h.startMapKey hs) (fun s hs => h.endMapKey hs) (fun s hs => h.startMapValue hs)
        (fun s hs => h.endMapValue hs) ?_ ?_ hstart hq
      · intro pair hpair
        have := depth_le_pairsDepth hpair
        exact ⟨fun s hs => h.run pair.1 (by omega) (fun _ => Nat.succ_pos m) hs,
          fun s hs => h.run pair.2 (by omega) (fun _ => Nat.succ_pos m) hs⟩
      · intro pair hpair
        have := depth_le_pairsDepth hpair
        exact ⟨fun s hs p hp => h.run_of_isPrefix pair.1 (by omega) (fun _ => Nat.succ_pos m) hs hp,
          fun s hs p hp => h.run_of_isPrefix pair.2 (by omega) (fun _ => Nat.succ_pos m) hs hp⟩
termination_by sizeOf v
decreasing_by
  · have := List.sizeOf_lt_of_mem hitem
    simp only [Value.array.sizeOf_spec]
    omega
  all_goals
    have := List.sizeOf_lt_of_mem hpair
    obtain ⟨k, v⟩ := pair
    simp only [Prod.mk.sizeOf_spec, Value.map.sizeOf_spec] at *
    omega

end Rule

end Msgpack
