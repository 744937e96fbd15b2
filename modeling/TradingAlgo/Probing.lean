/-
**Open addressing with linear probing.**

A table of `n` slots, each carrying a key; one key `e` is reserved and marks the slots that are
free.  A key `k` has a home slot `home k`, and a search for it visits the slots from there on,
wrapping around, until it meets `k` or a free slot.  Nothing is ever removed from the table.

What makes the search correct is the *probe path* invariant: between the home slot of a stored key
and the slot it is stored in there is no free slot.  It is kept by storing a new key in the first
free slot of its own path, up to and including the last free slot of the table.

Main definitions:

* `Probing.probe`, `Probing.dist` — the slot at a distance from another one, and that distance;
* `Probing.scan` — the first slot of a path, within a number of steps, that satisfies a test;
* `Probing.Ok` — no key is stored twice, and no path from a home slot to its key has a free slot;
* `Probing.firstStop` — where the search for a key ends.

Main results:

* `Probing.firstStop_of_mem` — the search for a stored key ends at its slot;
* `Probing.firstStop_of_notMem` — the search for another key ends at a free slot, when there is
  one;
* `Probing.Ok.claim` — storing a new key where its search ended keeps the invariant;
* `Probing.Ok.ne_of_walked` — what a walk knows that looked at the slots one by one, while others
  were storing keys.
-/

import Mathlib.Data.Fintype.Card
import Mathlib.Tactic

set_option relaxedAutoImplicit false
set_option autoImplicit false

namespace Probing

variable {n : ℕ}

/-! ### Distances around the table -/

/-- The slot `i` steps after `h`, wrapping around. -/
def probe (h : Fin n) (i : ℕ) : Fin n := ⟨(h + i) % n, Nat.mod_lt _ h.pos⟩

/-- The number of steps from `h` to `j`. -/
def dist (h j : Fin n) : ℕ := (j + (n - h)) % n

theorem dist_lt (h j : Fin n) : dist h j < n := Nat.mod_lt _ h.pos

@[simp] theorem dist_self (h : Fin n) : dist h h = 0 := by
  have hh := h.isLt
  show (h + (n - h)) % n = 0
  rw [show (h : ℕ) + (n - h) = n by omega, Nat.mod_self]

theorem probe_dist (h j : Fin n) : probe h (dist h j) = j := by
  refine Fin.ext ?_
  have hh := h.isLt
  have hj := j.isLt
  show (h + (j + (n - h)) % n) % n = (j : ℕ)
  rw [Nat.add_mod_mod, show (h : ℕ) + (j + (n - h)) = j + n by omega, Nat.add_mod_right,
    Nat.mod_eq_of_lt hj]

theorem dist_probe (h : Fin n) {i : ℕ} (hi : i < n) : dist h (probe h i) = i := by
  have hh := h.isLt
  show ((h + i) % n + (n - h)) % n = i
  rw [Nat.mod_add_mod, show (h : ℕ) + i + (n - h) = i + n by omega, Nat.add_mod_right,
    Nat.mod_eq_of_lt hi]

/-! ### Scanning a path -/

/-- The first slot that satisfies `stop` among the `m` slots of the path of `h` from distance `i`
on. -/
def scan (stop : Fin n → Bool) (h : Fin n) : ℕ → ℕ → Option (Fin n)
  | 0, _ => none
  | m + 1, i => if stop (probe h i) then some (probe h i) else scan stop h m (i + 1)

theorem scan_some {stop : Fin n → Bool} {h : Fin n} {m i : ℕ} {j : Fin n}
    (hs : scan stop h m i = some j) :
    ∃ d, i ≤ d ∧ d < i + m ∧ j = probe h d ∧ stop j = true ∧
      ∀ c, i ≤ c → c < d → stop (probe h c) = false := by
  induction m generalizing i with
  | zero => simp [scan] at hs
  | succ m ih =>
      by_cases hi : stop (probe h i) = true
      · rw [scan, if_pos hi, Option.some_inj] at hs
        exact ⟨i, le_rfl, by omega, hs.symm, hs ▸ hi, fun c h₁ h₂ => by omega⟩
      · rw [scan, if_neg hi] at hs
        obtain ⟨d, h₁, h₂, h₃, h₄, h₅⟩ := ih hs
        refine ⟨d, by omega, by omega, h₃, h₄, ?_⟩
        intro c hc hcd
        rcases Nat.eq_or_lt_of_le hc with rfl | hlt
        · simpa using hi
        · exact h₅ c hlt hcd

theorem scan_none {stop : Fin n → Bool} {h : Fin n} {m i : ℕ} (hs : scan stop h m i = none) :
    ∀ d, i ≤ d → d < i + m → stop (probe h d) = false := by
  induction m generalizing i with
  | zero => intro d h₁ h₂; omega
  | succ m ih =>
      by_cases hi : stop (probe h i) = true
      · rw [scan, if_pos hi] at hs
        cases hs
      · rw [scan, if_neg hi] at hs
        intro d h₁ h₂
        rcases Nat.eq_or_lt_of_le h₁ with rfl | hlt
        · simpa using hi
        · exact ih hs d hlt (by omega)

/-- A scan of the whole table from `h` finds the stopping slot that comes first. -/
theorem scan_eq_of_first {stop : Fin n → Bool} {h j : Fin n} (hj : stop j = true)
    (hfirst : ∀ i < dist h j, stop (probe h i) = false) : scan stop h n 0 = some j := by
  cases hs : scan stop h n 0 with
  | none =>
      have := scan_none hs (dist h j) (Nat.zero_le _) (by simpa using dist_lt h j)
      rw [probe_dist, hj] at this
      cases this
  | some j' =>
      obtain ⟨d, -, hd, rfl, hstop, hbefore⟩ := scan_some hs
      have hd' : d < n := by omega
      rcases Nat.lt_trichotomy d (dist h j) with hlt | heq | hgt
      · rw [hfirst d hlt] at hstop
        cases hstop
      · rw [heq, probe_dist]
      · have := hbefore (dist h j) (Nat.zero_le _) hgt
        rw [probe_dist, hj] at this
        cases this

/-! ### Tables -/

section Table

variable {κ : Type*}

/-- The invariant of a table: no key is stored twice, and no free slot lies between the home slot
of a stored key and its own slot. -/
structure Ok (home : κ → Fin n) (e : κ) (keys : Fin n → κ) : Prop where
  /-- A stored key has one slot. -/
  unique : ∀ {i j}, keys i = keys j → keys i ≠ e → i = j
  /-- The path from a home slot to its key is occupied. -/
  path : ∀ {j}, keys j ≠ e → ∀ i < dist (home (keys j)) j, keys (probe (home (keys j)) i) ≠ e

/-- A table without keys. -/
theorem ok_const (home : κ → Fin n) (e : κ) : Ok home e fun _ => e :=
  ⟨fun _ h => absurd rfl h, fun h => absurd rfl h⟩

variable {home : κ → Fin n} {e : κ} {keys : Fin n → κ} {k : κ}

/-- **Storing a new key in the first free slot of its path keeps the invariant.** -/
theorem Ok.claim (hok : Ok home e keys) (hk : ∀ j, keys j ≠ k) {j : Fin n}
    (hj : keys j = e) (hpath : ∀ i < dist (home k) j, keys (probe (home k) i) ≠ e) :
    Ok home e (Function.update keys j k) := by
  -- the new slot is not free any more, so a path that was occupied stays occupied
  have hstay : ∀ i, keys i ≠ e → Function.update keys j k i ≠ e := by
    intro i hi
    have hij : i ≠ j := fun hij => hi (hij ▸ hj)
    rwa [Function.update_of_ne hij]
  constructor
  · intro a b hab ha
    by_cases haj : a = j <;> by_cases hbj : b = j
    · rw [haj, hbj]
    · subst haj
      rw [Function.update_self, Function.update_of_ne hbj] at hab
      exact absurd hab.symm (hk b)
    · subst hbj
      rw [Function.update_self, Function.update_of_ne haj] at hab
      exact absurd hab (hk a)
    · rw [Function.update_of_ne haj] at hab ha
      rw [Function.update_of_ne hbj] at hab
      exact hok.unique hab ha
  · intro a ha i hi
    by_cases haj : a = j
    · subst haj
      rw [Function.update_self] at hi ⊢
      exact hstay _ (hpath i hi)
    · rw [Function.update_of_ne haj] at ha hi ⊢
      exact hstay _ (hok.path ha i hi)

/-- A walk along the path of `k` that has not met `k` before it came to a free slot would have met
it: the table does not have it. -/
theorem Ok.ne_of_walked (hok : Ok home e keys) (hk : k ≠ e) {i : ℕ}
    (hfree : keys (probe (home k) i) = e) (hwalked : ∀ d < i, keys (probe (home k) d) ≠ k)
    (j : Fin n) : keys j ≠ k := by
  rintro rfl
  rcases Nat.lt_trichotomy i (dist (home (keys j)) j) with hlt | heq | hgt
  · exact hok.path hk i hlt hfree
  · rw [heq, probe_dist] at hfree
    exact hk hfree
  · exact hwalked _ hgt (by rw [probe_dist])

variable [DecidableEq κ]

/-- Where the search for `k` ends: at `k`, or at a free slot, or nowhere. -/
def firstStop (home : κ → Fin n) (e : κ) (keys : Fin n → κ) (k : κ) : Option (Fin n) :=
  scan (fun j => decide (keys j = k ∨ keys j = e)) (home k) n 0

/-- A search that finds the key in its home slot ends there. -/
theorem firstStop_of_home (hk : keys (home k) = k) : firstStop home e keys k = some (home k) := by
  refine scan_eq_of_first (by simp [hk]) ?_
  intro i hi
  rw [dist_self] at hi
  exact absurd hi (Nat.not_lt_zero i)

/-- **The search for a stored key ends at its slot.** -/
theorem firstStop_of_mem (hok : Ok home e keys) {j : Fin n} (hj : keys j = k) (hk : k ≠ e) :
    firstStop home e keys k = some j := by
  subst hj
  refine scan_eq_of_first (by simp) ?_
  intro i hi
  have hfree := hok.path hk i hi
  have hother : keys (probe (home (keys j)) i) ≠ keys j := by
    intro heq
    have hij : dist (home (keys j)) j = i := by
      have := congrArg (dist (home (keys j))) (hok.unique heq.symm hk)
      rwa [dist_probe _ (lt_trans hi (dist_lt _ _))] at this
    omega
  simp [hfree, hother]

/-- **The search for another key ends at the first free slot of its path**, when there is one. -/
theorem firstStop_of_notMem (hk : ∀ j, keys j ≠ k) {j : Fin n}
    (hs : firstStop home e keys k = some j) :
    keys j = e ∧ ∀ i < dist (home k) j, keys (probe (home k) i) ≠ e := by
  obtain ⟨d, -, hd, rfl, hstop, hbefore⟩ := scan_some hs
  refine ⟨by simpa [hk] using hstop, ?_⟩
  intro i hi
  rw [dist_probe _ (by omega)] at hi
  have := hbefore i (Nat.zero_le _) hi
  simp only [decide_eq_false_iff_not, not_or] at this
  exact this.2

/-- The search fails only in a table without the key and without a free slot. -/
theorem firstStop_none (hs : firstStop home e keys k = none) (j : Fin n) :
    keys j ≠ k ∧ keys j ≠ e := by
  have := scan_none hs (dist (home k) j) (Nat.zero_le _) (by simpa using dist_lt (home k) j)
  simpa [probe_dist] using this

end Table

end Probing
