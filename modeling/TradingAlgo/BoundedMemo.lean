/-
**Bounded memories.**

A list of entries, each with a key, that holds at most `cap` of them: an entry is found by its key,
changed in place when it is there, and otherwise appended, after the oldest one was dropped if the
list is full.

Main definitions:

* `BoundedMemo.find` — the first entry of a key;
* `BoundedMemo.modifyFirst`, `BoundedMemo.push`, `BoundedMemo.upsert` — the updates.

Main results:

* `BoundedMemo.mem_upsert` — where the entries after an update come from, evictions or not;
* `BoundedMemo.find_upsert_self`, `BoundedMemo.find_upsert_of_ne` — an update changes what is found
  for its key and, with room for it, for no other;
* `BoundedMemo.Capacity.upsert` — while the entries and the keys still to come fit in, there is
  always room.
-/

import Mathlib.Data.List.Nodup
import Mathlib.Tactic

set_option relaxedAutoImplicit false
set_option autoImplicit false

namespace BoundedMemo

variable {α κ : Type*} [DecidableEq κ] (key : α → κ)

/-- The first entry of a key. -/
def find (k : κ) (l : List α) : Option α := l.find? fun a => key a = k

/-- The first entry of a key changed by `f`. -/
def modifyFirst (k : κ) (f : α → α) : List α → List α
  | [] => []
  | a :: l => if key a = k then f a :: l else a :: modifyFirst k f l

/-- A new entry at the end; the first one goes when the list is full. -/
def push (cap : ℕ) (l : List α) (x : α) : List α := (if cap ≤ l.length then l.tail else l) ++ [x]

/-- The entry of a key changed by `f` if there is one, a new one otherwise. -/
def upsert (cap : ℕ) (k : κ) (f : α → α) (new : α) (l : List α) : List α :=
  if k ∈ l.map key then modifyFirst key k f l else push cap l new

/-- There is room for a key: it has its entry, or the list is not full. -/
def Room (cap : ℕ) (k : κ) (l : List α) : Prop := k ∈ l.map key ∨ l.length < cap

/-! ### Where entries come from -/

theorem mem_modifyFirst {k : κ} {f : α → α} {l : List α} {x : α}
    (h : x ∈ modifyFirst key k f l) : x ∈ l ∨ ∃ a ∈ l, key a = k ∧ x = f a := by
  induction l with
  | nil => simp [modifyFirst] at h
  | cons a l ih =>
      simp only [modifyFirst] at h
      split_ifs at h with ha
      · rcases List.mem_cons.1 h with rfl | h
        · exact Or.inr ⟨a, List.mem_cons_self, ha, rfl⟩
        · exact Or.inl (List.mem_cons_of_mem _ h)
      · rcases List.mem_cons.1 h with rfl | h
        · exact Or.inl List.mem_cons_self
        · rcases ih h with hx | ⟨b, hb, hk, rfl⟩
          · exact Or.inl (List.mem_cons_of_mem _ hx)
          · exact Or.inr ⟨b, List.mem_cons_of_mem _ hb, hk, rfl⟩

theorem mem_push {cap : ℕ} {l : List α} {x y : α} (h : y ∈ push cap l x) : y ∈ l ∨ y = x := by
  unfold push at h
  split_ifs at h
  · rcases List.mem_append.1 h with h | h
    · exact Or.inl (List.mem_of_mem_tail h)
    · exact Or.inr (List.mem_singleton.1 h)
  · simpa using h

/-- **Where the entries after an update come from**, evictions or not. -/
theorem mem_upsert {cap : ℕ} {k : κ} {f : α → α} {new : α} {l : List α} {x : α}
    (h : x ∈ upsert key cap k f new l) : x ∈ l ∨ x = new ∨ ∃ a ∈ l, key a = k ∧ x = f a := by
  unfold upsert at h
  split_ifs at h
  · exact (mem_modifyFirst key h).imp_right Or.inr
  · exact (mem_push h).imp_right Or.inl

/-! ### With room for the key -/

theorem keys_modifyFirst {k : κ} {f : α → α} (hf : ∀ a, key (f a) = key a) (l : List α) :
    (modifyFirst key k f l).map key = l.map key := by
  induction l with
  | nil => rfl
  | cons a l ih =>
      simp only [modifyFirst]
      split_ifs
      · simp [hf]
      · simp [ih]

theorem modifyFirst_id (k : κ) (l : List α) : modifyFirst key k (fun a => a) l = l := by
  induction l with
  | nil => rfl
  | cons a l ih => simp [modifyFirst, ih]

theorem push_of_lt {cap : ℕ} {l : List α} (h : l.length < cap) (x : α) :
    push cap l x = l ++ [x] := by
  rw [push, if_neg (by omega)]

theorem find_modifyFirst_self {k : κ} {f : α → α} (hf : ∀ a, key (f a) = key a) (l : List α) :
    find key k (modifyFirst key k f l) = (find key k l).map f := by
  induction l with
  | nil => rfl
  | cons a l ih =>
      simp only [modifyFirst]
      split_ifs with ha
      · simp [find, hf, ha]
      · simpa [find, ha] using ih

theorem find_modifyFirst_of_ne {k k' : κ} (hk : k' ≠ k) {f : α → α}
    (hf : ∀ a, key (f a) = key a) (l : List α) :
    find key k' (modifyFirst key k f l) = find key k' l := by
  induction l with
  | nil => rfl
  | cons a l ih =>
      simp only [modifyFirst]
      split_ifs with ha
      · have hne : key a ≠ k' := fun h => hk (h.symm.trans ha)
        simp [find, hf, hne]
      · by_cases hak : key a = k'
        · simp [find, hak]
        · simpa [find, hak] using ih

theorem find_eq_none_iff {k : κ} {l : List α} : find key k l = none ↔ k ∉ l.map key := by
  simp [find]

theorem find_concat (k : κ) (l : List α) (x : α) :
    find key k (l ++ [x]) = (find key k l).or (if key x = k then some x else none) := by
  by_cases hx : key x = k <;> simp [find, List.find?_append, hx]

section Update

variable {cap : ℕ} {k : κ} {f : α → α} {new : α} {l : List α}

/-- **An update changes what is found for its key**: the entry there was, or the new one.  This is
so without room too, for the entry that goes is not the new one. -/
theorem find_upsert_self (hf : ∀ a, key (f a) = key a) (hnew : key new = k) :
    find key k (upsert key cap k f new l) = some (((find key k l).map f).getD new) := by
  unfold upsert
  split_ifs with hk
  · rw [find_modifyFirst_self key hf]
    cases hfind : find key k l with
    | none => exact absurd hk ((find_eq_none_iff key).1 hfind)
    | some a => rfl
  · have hrest : find key k (if cap ≤ l.length then l.tail else l) = none := by
      rw [find_eq_none_iff]
      split_ifs
      · exact fun h => hk (List.map_subset key (List.tail_subset l) h)
      · exact hk
    rw [push, find_concat, hrest, if_pos hnew, (find_eq_none_iff key).2 hk]
    rfl

/-- **It changes nothing for the others.** -/
theorem find_upsert_of_ne (hroom : Room key cap k l) (hf : ∀ a, key (f a) = key a)
    (hnew : key new = k) {k' : κ} (hk' : k' ≠ k) :
    find key k' (upsert key cap k f new l) = find key k' l := by
  unfold upsert
  split_ifs with hk
  · exact find_modifyFirst_of_ne key hk' hf l
  · have hne : key new ≠ k' := fun h => hk' (h.symm.trans hnew)
    rw [push_of_lt (hroom.resolve_left hk), find_concat, if_neg hne, Option.or_none]

/-- **The keys are the old ones and this one.** -/
theorem keys_upsert (hroom : Room key cap k l) (hf : ∀ a, key (f a) = key a) (hnew : key new = k) :
    (upsert key cap k f new l).map key =
      if k ∈ l.map key then l.map key else l.map key ++ [k] := by
  unfold upsert
  split_ifs with hk
  · exact keys_modifyFirst key hf l
  · simp [push_of_lt (hroom.resolve_left hk), hnew]

end Update

/-- There is room for all of `keys`: the list holds them, with what else it holds, without an
eviction. -/
def Capacity (cap : ℕ) (keys : List κ) (l : List α) : Prop :=
  l.length + (keys.filter fun k => k ∉ l.map key).length ≤ cap

instance (cap : ℕ) (keys : List κ) (l : List α) : Decidable (Capacity key cap keys l) :=
  inferInstanceAs (Decidable (_ ≤ _))

theorem Capacity.room {cap : ℕ} {keys : List κ} {l : List α} (h : Capacity key cap keys l) {k : κ}
    (hk : k ∈ keys) : Room key cap k l := by
  by_cases hmem : k ∈ l.map key
  · exact Or.inl hmem
  · right
    have hpos : 0 < (keys.filter fun k => k ∉ l.map key).length :=
      List.length_pos_of_mem (List.mem_filter.2 ⟨hk, by simpa using hmem⟩)
    unfold Capacity at h
    omega

/-- An update with one of the keys leaves room for the others. -/
theorem Capacity.upsert {cap : ℕ} {keys : List κ} {l : List α} (h : Capacity key cap keys l)
    {k : κ} (hk : k ∈ keys) {f : α → α} (hf : ∀ a, key (f a) = key a) {new : α}
    (hnew : key new = k) : Capacity key cap keys (upsert key cap k f new l) := by
  have hkeys := keys_upsert key (h.room key hk) hf hnew
  have hlen : (BoundedMemo.upsert key cap k f new l).length =
      if k ∈ l.map key then l.length else l.length + 1 := by
    have hcongr := congrArg List.length hkeys
    rw [List.length_map] at hcongr
    rw [hcongr]
    split_ifs <;> simp
  unfold Capacity at h ⊢
  rw [hlen, hkeys]
  split_ifs with hmem
  · exact h
  · -- the new key is one of those that were missing
    have hlt : (keys.filter fun x => x ∉ l.map key ++ [k]).length <
        (keys.filter fun x => x ∉ l.map key).length := by
      have hfilter : (keys.filter fun x => x ∉ l.map key ++ [k]) =
          (keys.filter fun x => x ∉ l.map key).filter fun x => x ≠ k := by
        rw [List.filter_filter]
        refine List.filter_congr fun x _ => ?_
        rw [← Bool.decide_and, decide_eq_decide, List.mem_append, List.mem_singleton]
        tauto
      rw [hfilter, List.length_filter_lt_length_iff_exists]
      exact ⟨k, List.mem_filter.2 ⟨hk, by simpa using hmem⟩, by simp⟩
    omega

end BoundedMemo
