/-
**Consecutive elements of a list.**

That `b` comes right after `a` in the list `l` is the infix relation `[a, b] <:+: l`.  These are the
facts about it that an invariant over a linked structure needs: what appending at one end and
dropping at the other does to the pairs, and that in a list without repetitions an element has one
successor, the last one none.
-/

import Mathlib.Data.List.Infix
import Mathlib.Data.List.Nodup
import Mathlib.Tactic

set_option relaxedAutoImplicit false
set_option autoImplicit false

namespace Consecutive

variable {α : Type*} {a b c : α} {l : List α}

theorem cons_iff : [a, b] <:+: c :: l ↔ (a = c ∧ l.head? = some b) ∨ [a, b] <:+: l := by
  rw [List.infix_cons_iff, List.cons_prefix_cons]
  cases l with
  | nil => simp
  | cons d l => simp [eq_comm]

theorem concat_iff : [a, b] <:+: l ++ [c] ↔ (l.getLast? = some a ∧ b = c) ∨ [a, b] <:+: l := by
  rw [List.infix_concat_iff]
  refine or_congr_left ?_
  rw [← List.reverse_prefix]
  simp only [List.reverse_append, List.reverse_cons, List.reverse_nil, List.nil_append,
    List.cons_append, List.cons_prefix_cons, ← List.head?_reverse]
  cases l.reverse with
  | nil => simp
  | cons d m => simp [and_comm, eq_comm]

theorem mem_left (h : [a, b] <:+: l) : a ∈ l := h.subset (by simp)

/-- In a list without repetitions an element has one successor. -/
theorem right_unique (hl : l.Nodup) (hb : [a, b] <:+: l) (hc : [a, c] <:+: l) : b = c := by
  induction l with
  | nil => simp at hb
  | cons d l ih =>
      obtain ⟨hd, hl'⟩ := List.nodup_cons.1 hl
      rcases cons_iff.1 hb with ⟨rfl, hhb⟩ | hb' <;> rcases cons_iff.1 hc with ⟨h, hhc⟩ | hc'
      · exact Option.some_inj.1 (hhb.symm.trans hhc)
      · exact absurd (mem_left hc') hd
      · exact absurd (h ▸ mem_left hb') hd
      · exact ih hl' hb' hc'

/-- In a list without repetitions the last element has no successor. -/
theorem not_last (hl : l.Nodup) (h : l.getLast? = some a) : ¬ [a, b] <:+: l := by
  induction l with
  | nil => simp
  | cons d l ih =>
      obtain ⟨hd, hl'⟩ := List.nodup_cons.1 hl
      intro hb
      rcases cons_iff.1 hb with ⟨rfl, hhb⟩ | hb'
      · cases l with
        | nil => simp at hhb
        | cons e l =>
            rw [List.getLast?_cons_cons] at h
            exact hd (List.mem_of_getLast? h)
      · cases l with
        | nil => simp at hb'
        | cons e l =>
            rw [List.getLast?_cons_cons] at h
            exact ih hl' h hb'

/-- Every element but the last has a successor. -/
theorem exists_right (ha : a ∈ l) (hlast : l.getLast? ≠ some a) : ∃ b, [a, b] <:+: l := by
  obtain ⟨before, after, rfl⟩ := List.append_of_mem ha
  cases after with
  | nil => exact absurd (by simp) hlast
  | cons b after => exact ⟨b, before, after, by simp⟩

/-- A list without repetitions whose first element is its last has no other. -/
theorem eq_singleton (hl : l.Nodup) (hhead : l.head? = some a) (hlast : l.getLast? = some a) :
    l = [a] := by
  cases l with
  | nil => simp at hhead
  | cons d l =>
      obtain rfl : d = a := by simpa using hhead
      cases l with
      | nil => rfl
      | cons e l => exact absurd (cons_iff.2 (Or.inl ⟨rfl, rfl⟩)) (not_last hl hlast (b := e))

end Consecutive
