/-
**Times that keep a distance.**

A list of times in which every later one is at least `d` after every earlier one.  Such a list has
few elements in any window, which is what a limiter that enforces the distance is for.

Main definitions:

* `Spacing.Spaced` — the property.

Main results:

* `Spacing.Spaced.concat` — one more time at the end;
* `Spacing.Spaced.length_filter_le` — **the number of times in a window**.
-/

import Mathlib.Data.List.Pairwise
import Mathlib.Tactic.Ring
import Mathlib.Algebra.Order.Ring.Nat

set_option relaxedAutoImplicit false
set_option autoImplicit false

namespace Spacing

/-- Every later time is at least `d` after every earlier one. -/
def Spaced (d : ℕ) (times : List ℕ) : Prop := times.Pairwise fun a b => a + d ≤ b

variable {d : ℕ} {times : List ℕ}

@[simp] theorem spaced_nil : Spaced d [] := List.Pairwise.nil

theorem Spaced.concat (h : Spaced d times) {t : ℕ} (ht : ∀ a ∈ times, a + d ≤ t) :
    Spaced d (times ++ [t]) := by
  refine List.pairwise_append.2 ⟨h, List.pairwise_singleton _ _, fun a ha b hb => ?_⟩
  obtain rfl := List.mem_singleton.1 hb
  exact ht a ha

/-- The first time, and all the distances after it, come before the end. -/
theorem Spaced.add_length_mul_le {t : ℕ} (h : Spaced d (t :: times)) {bound : ℕ}
    (hbound : ∀ a ∈ t :: times, a ≤ bound) : t + times.length * d ≤ bound := by
  induction times generalizing t with
  | nil => simpa using hbound t List.mem_cons_self
  | cons u times ih =>
      obtain ⟨hfirst, hrest⟩ := List.pairwise_cons.1 h
      have hu : t + d ≤ u := hfirst u List.mem_cons_self
      have hlater := ih hrest fun a ha => hbound a (List.mem_cons_of_mem t ha)
      calc t + (u :: times).length * d = t + d + times.length * d := by
            rw [List.length_cons]
            ring
        _ ≤ u + times.length * d := Nat.add_le_add_right hu _
        _ ≤ bound := hlater

/-- **The number of times in a window**: one, and one more for every distance that fits in. -/
theorem Spaced.length_filter_le (h : Spaced d times) (hd : 0 < d) (start width : ℕ) :
    (times.filter fun t => start ≤ t ∧ t ≤ start + width).length ≤ width / d + 1 := by
  have hspaced : Spaced d (times.filter fun t => start ≤ t ∧ t ≤ start + width) :=
    List.Pairwise.sublist List.filter_sublist h
  have hmem : ∀ t ∈ times.filter fun t => start ≤ t ∧ t ≤ start + width,
      start ≤ t ∧ t ≤ start + width := by
    intro t ht
    simpa using (List.mem_filter.1 ht).2
  cases hwindow : times.filter fun t => start ≤ t ∧ t ≤ start + width with
  | nil => simp
  | cons t rest =>
      rw [hwindow] at hspaced hmem
      have hle := hspaced.add_length_mul_le fun a ha => (hmem a ha).2
      have hstart := (hmem t List.mem_cons_self).1
      have hfits : rest.length ≤ width / d := (Nat.le_div_iff_mul_le hd).2 (by omega)
      simpa using hfits

end Spacing
