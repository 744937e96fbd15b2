/-
**Reading a sorted collection page by page.**

A server holds elements in the order of a key.  A reader asks for the first `n` elements whose key
is greater than a cursor, translates them — dropping those that have no translation — and, when it
is left with a full page, goes on with the key of the last one as the cursor.

Two things can go wrong with this.  A page that was full on the server may be short after the
translation, and the reader stops too early; and elements beyond the page may have the key that
becomes the cursor, and the reader skips them.  `PagedQuery.Complete` says that neither happens to
an element that has a translation, and it is equivalent to the reader getting them all.

Main definitions:

* `PagedQuery.after` — the elements beyond a cursor;
* `PagedQuery.next` — the cursor for the next page, if there is to be one;
* `PagedQuery.pages` — the pages that a reader gets, given enough fuel;
* `PagedQuery.Complete` — block after block, nothing is lost.

Main results:

* `PagedQuery.exists_pages` — the reader comes to an end;
* `PagedQuery.flatten_perm_iff` — it gets everything exactly when the blocks are complete.
-/

import Mathlib.Data.List.Perm.Subperm
import Mathlib.Order.Basic
import Mathlib.Tactic

set_option relaxedAutoImplicit false
set_option autoImplicit false

namespace PagedQuery

variable {α β κ : Type*} (key : α → κ) (parse : α → Option β) (keyOf : β → κ) (n : ℕ)

/-! ### The reader -/

/-- The cursor for the next page: the key of the last element of a full page. -/
def next (page : List β) : Option κ :=
  if page.length < n then none else page.getLast?.map keyOf

variable [LinearOrder κ]

/-- The elements beyond a cursor. -/
def after (cursor : κ) (xs : List α) : List α := xs.filter fun a => cursor < key a

/-- The pages that a reader gets, when `xs` are the elements beyond its cursor; `none` when the fuel
runs out. -/
def pages : ℕ → List α → Option (List (List β))
  | 0, _ => none
  | fuel + 1, xs =>
      let page := (xs.take n).filterMap parse
      match next keyOf n page with
      | none => some [page]
      | some cursor => (pages fuel (after key cursor xs)).map (page :: ·)

/-- **Nothing is lost.**  Either no element beyond the first block has a translation, or the block
has translations for all its elements, the last key of it is smaller than those of all later
elements with a translation, and nothing is lost of what comes after that key. -/
inductive Complete : List α → Prop
  | done {xs : List α} (h : ∀ a ∈ xs.drop n, parse a = none) : Complete xs
  | more {xs : List α} {last : α} (hlast : (xs.take n).getLast? = some last)
      (hblock : ∀ a ∈ xs.take n, (parse a).isSome)
      (hlater : ∀ a ∈ xs.drop n, (parse a).isSome → key last < key a)
      (hrest : Complete (after key (key last) (xs.drop n))) : Complete xs

/-! ### Pages of translations -/

section Translations

variable {α β : Type*} {parse : α → Option β}

theorem length_filterMap_eq_iff (xs : List α) :
    (xs.filterMap parse).length = xs.length ↔ ∀ a ∈ xs, (parse a).isSome := by
  induction xs with
  | nil => simp
  | cons a xs ih =>
      have hle := List.length_filterMap_le parse xs
      cases ha : parse a with
      | none =>
          rw [List.filterMap_cons_none ha]
          simp only [List.length_cons, List.forall_mem_cons, ha]
          simp
          omega
      | some b =>
          rw [List.filterMap_cons_some ha]
          simp [ha, ih]

/-- A translation that drops nothing keeps the last element last. -/
theorem getLast?_filterMap {xs : List α} (h : ∀ a ∈ xs, (parse a).isSome) :
    (xs.filterMap parse).getLast? = xs.getLast?.bind parse := by
  induction xs using List.reverseRecOn with
  | nil => rfl
  | append_singleton xs a _ =>
      obtain ⟨b, hb⟩ := Option.isSome_iff_exists.1 (h a (by simp))
      simp [List.filterMap_append, hb]

/-- A filter loses no translation exactly when it keeps all elements that have one. -/
theorem length_filterMap_filter_iff (parse : α → Option β) (p : α → Bool) (xs : List α) :
    ((xs.filter p).filterMap parse).length = (xs.filterMap parse).length ↔
      ∀ a ∈ xs, (parse a).isSome → p a = true := by
  induction xs with
  | nil => simp
  | cons a xs ih =>
      have hle : ((xs.filter p).filterMap parse).length ≤ (xs.filterMap parse).length :=
        (List.filter_sublist.filterMap parse).length_le
      cases ha : parse a with
      | none =>
          cases hp : p a <;> simp [ha, hp, ih]
      | some b =>
          cases hp : p a with
          | true => simp [ha, hp, ih]
          | false =>
              simp only [List.filter_cons, hp, List.filterMap_cons, ha, List.length_cons,
                List.forall_mem_cons]
              simp
              omega

end Translations

/-! ### The rounds of a reader -/

section Rounds

variable {α β κ : Type*} {key : α → κ} {parse : α → Option β} {keyOf : β → κ} {n : ℕ} {xs : List α}

/-- A full page of translations comes from a full block, and the cursor is its last key. -/
theorem next_some (hkey : ∀ a b, parse a = some b → keyOf b = key a) {cursor : κ}
    (h : next keyOf n ((xs.take n).filterMap parse) = some cursor) :
    (∀ a ∈ xs.take n, (parse a).isSome) ∧
      ∃ last, (xs.take n).getLast? = some last ∧ key last = cursor := by
  unfold next at h
  split_ifs at h with hfull
  have hle := List.length_filterMap_le parse (xs.take n)
  have htake : (xs.take n).length ≤ n := List.length_take_le n xs
  have hall : ∀ a ∈ xs.take n, (parse a).isSome :=
    (length_filterMap_eq_iff _).1 (by omega)
  refine ⟨hall, ?_⟩
  rw [getLast?_filterMap hall] at h
  obtain ⟨b, hb, rfl⟩ := Option.map_eq_some_iff.1 h
  obtain ⟨last, hlast, hparse⟩ := Option.bind_eq_some_iff.1 hb
  exact ⟨last, hlast, (hkey last b hparse).symm⟩

/-- There is no next page: of a block without losses the reader has seen everything. -/
theorem drop_eq_nil_of_next_none (hn : 0 < n)
    (h : next keyOf n ((xs.take n).filterMap parse) = none)
    (hall : ∀ a ∈ xs.take n, (parse a).isSome) : xs.drop n = [] := by
  have hlen := (length_filterMap_eq_iff _).2 hall
  have hshort : ((xs.take n).filterMap parse).length < n := by
    by_contra hfull
    have hne : (xs.take n).filterMap parse ≠ [] := by
      intro hnil
      rw [hnil, List.length_nil] at hfull
      omega
    rw [next, if_neg hfull, Option.map_eq_none_iff, List.getLast?_eq_none_iff] at h
    exact hne h
  rw [hlen, List.length_take] at hshort
  exact List.drop_eq_nil_of_le (by omega)

variable [LinearOrder κ]

theorem after_sublist (key : α → κ) (cursor : κ) (xs : List α) : (after key cursor xs).Sublist xs :=
  List.filter_sublist

/-- What is beyond a later cursor is there beyond an earlier one, too. -/
theorem after_after {cursor cursor' : κ} (hle : cursor ≤ cursor') (xs : List α) :
    after key cursor' (after key cursor xs) = after key cursor' xs := by
  rw [after, after, after, List.filter_filter]
  refine List.filter_congr fun a _ => ?_
  by_cases h : cursor' < key a
  · simp [h, hle.trans_lt h]
  · simp [h]

/-- In sorted elements, what is beyond the last key of a block is beyond the block. -/
theorem after_eq_after_drop (hsorted : xs.Pairwise fun a b => key a ≤ key b) {last : α}
    (hlast : (xs.take n).getLast? = some last) :
    after key (key last) xs = after key (key last) (xs.drop n) := by
  have hblock : ∀ a ∈ xs.take n, key a ≤ key last := by
    obtain ⟨init, hinit⟩ := List.getLast?_eq_some_iff.1 hlast
    have hs : (init ++ [last]).Pairwise fun a b => key a ≤ key b :=
      hinit ▸ hsorted.sublist (List.take_sublist n xs)
    intro a ha
    rw [hinit, List.mem_append, List.mem_singleton] at ha
    rcases ha with ha | rfl
    · exact (List.pairwise_append.1 hs).2.2 a ha last (by simp)
    · exact le_rfl
  have hnil : after key (key last) (xs.take n) = [] := by
    rw [after, List.filter_eq_nil_iff]
    intro a ha
    simpa using hblock a ha
  calc after key (key last) xs
      = after key (key last) (xs.take n ++ xs.drop n) := by rw [List.take_append_drop]
    _ = after key (key last) (xs.take n) ++ after key (key last) (xs.drop n) :=
        List.filter_append ..
    _ = after key (key last) (xs.drop n) := by rw [hnil, List.nil_append]

/-- A round goes on with fewer elements. -/
theorem length_after_lt (key : α → κ) {last : α} (hlast : (xs.take n).getLast? = some last) :
    (after key (key last) xs).length < xs.length := by
  refine List.length_filter_lt_length_iff_exists.2 ⟨last, ?_, by simp⟩
  exact List.mem_of_mem_take (List.mem_of_getLast? hlast)

theorem filterMap_eq_append_drop (xs : List α) :
    xs.filterMap parse = (xs.take n).filterMap parse ++ (xs.drop n).filterMap parse := by
  rw [← List.filterMap_append, List.take_append_drop]

/-- **The reader comes to an end**, and what it gets is part of what there is. -/
theorem exists_pages (hkey : ∀ a b, parse a = some b → keyOf b = key a) (fuel : ℕ) :
    ∀ xs : List α, xs.length < fuel → (xs.Pairwise fun a b => key a ≤ key b) →
      ∃ ps, pages key parse keyOf n fuel xs = some ps ∧
        ps.flatten.Subperm (xs.filterMap parse) := by
  induction fuel with
  | zero => exact fun xs h => absurd h (Nat.not_lt_zero _)
  | succ fuel ih =>
      intro xs hfuel hsorted
      cases hnext : next keyOf n ((xs.take n).filterMap parse) with
      | none =>
          refine ⟨[(xs.take n).filterMap parse], by simp [pages, hnext], ?_⟩
          simpa using ((List.take_sublist n xs).filterMap parse).subperm
      | some cursor =>
          obtain ⟨-, last, hlast, rfl⟩ := next_some hkey hnext
          have hshort := length_after_lt key hlast
          obtain ⟨ps, hps, hsub⟩ := ih (after key (key last) xs) (by omega)
            (hsorted.sublist (after_sublist key _ xs))
          refine ⟨(xs.take n).filterMap parse :: ps, by simp [pages, hnext, hps], ?_⟩
          rw [after_eq_after_drop hsorted hlast] at hsub
          rw [List.flatten_cons, filterMap_eq_append_drop (n := n) xs, List.subperm_append_left]
          exact hsub.trans ((after_sublist key _ _).filterMap parse).subperm

/-- A last page: the reader has everything when nothing with a translation is left. -/
theorem perm_of_last_iff (hn : 0 < n)
    (hnext : next keyOf n ((xs.take n).filterMap parse) = none) :
    ((xs.take n).filterMap parse).Perm (xs.filterMap parse) ↔ Complete key parse n xs := by
  have hdone : ((xs.take n).filterMap parse).Perm (xs.filterMap parse) ↔
      ∀ a ∈ xs.drop n, parse a = none := by
    rw [filterMap_eq_append_drop (n := n) xs, ← List.filterMap_eq_nil_iff]
    constructor
    · intro hperm
      have := hperm.length_eq
      rw [List.length_append] at this
      exact List.length_eq_zero_iff.1 (by omega)
    · intro hnil
      rw [hnil, List.append_nil]
  rw [hdone]
  constructor
  · exact Complete.done
  · rintro (h | ⟨-, hblock, -, -⟩)
    · exact h
    · simp [drop_eq_nil_of_next_none hn hnext hblock]

/-- A page that is followed by others: the reader has everything when it has everything beyond the
cursor, and nothing with a translation stands between the page and the cursor. -/
theorem perm_of_more_iff (hsorted : xs.Pairwise fun a b => key a ≤ key b) {last : α}
    (hlast : (xs.take n).getLast? = some last) (hblock : ∀ a ∈ xs.take n, (parse a).isSome)
    {ys : List β} (hsub : ys.Subperm ((after key (key last) xs).filterMap parse))
    (hrest : ys.Perm ((after key (key last) xs).filterMap parse) ↔
      Complete key parse n (after key (key last) xs)) :
    ((xs.take n).filterMap parse ++ ys).Perm (xs.filterMap parse) ↔ Complete key parse n xs := by
  rw [after_eq_after_drop hsorted hlast] at hsub hrest
  rw [filterMap_eq_append_drop (n := n) xs, List.perm_append_left_iff]
  have hle : ((after key (key last) (xs.drop n)).filterMap parse).Sublist
      ((xs.drop n).filterMap parse) := (after_sublist key _ _).filterMap parse
  have hsame := length_filterMap_filter_iff parse (fun a => key last < key a) (xs.drop n)
  constructor
  · intro hperm
    -- the two ends have as many elements, so what is in between has as many, too
    have hlen : ((after key (key last) (xs.drop n)).filterMap parse).length =
        ((xs.drop n).filterMap parse).length :=
      le_antisymm hle.length_le (hperm.length_eq ▸ hsub.length_le)
    refine Complete.more hlast hblock (fun a ha hsome => ?_) (hrest.1 ?_)
    · simpa using hsame.1 hlen a ha hsome
    · rwa [hle.eq_of_length hlen]
  · intro hcomplete
    have hboth : (∀ a ∈ xs.drop n, (parse a).isSome → key last < key a) ∧
        Complete key parse n (after key (key last) (xs.drop n)) := by
      rcases hcomplete with h | ⟨hlast', -, hlater, hrest'⟩
      · refine ⟨fun a ha hsome => by simp [h a ha] at hsome, Complete.done fun a ha => ?_⟩
        exact h a (List.mem_of_mem_filter (List.mem_of_mem_drop ha))
      · obtain rfl := Option.some_inj.1 (hlast.symm.trans hlast')
        exact ⟨hlater, hrest'⟩
    rw [← hle.eq_of_length (hsame.2 fun a ha hsome => by simpa using hboth.1 a ha hsome)]
    exact hrest.2 hboth.2

/-- **The reader gets everything exactly when the blocks are complete.** -/
theorem flatten_perm_iff (hn : 0 < n) (hkey : ∀ a b, parse a = some b → keyOf b = key a)
    (fuel : ℕ) :
    ∀ xs : List α, xs.length < fuel → (xs.Pairwise fun a b => key a ≤ key b) →
      ∀ ps, pages key parse keyOf n fuel xs = some ps →
        (ps.flatten.Perm (xs.filterMap parse) ↔ Complete key parse n xs) := by
  induction fuel with
  | zero => exact fun xs h => absurd h (Nat.not_lt_zero _)
  | succ fuel ih =>
      intro xs hfuel hsorted ps hps
      cases hnext : next keyOf n ((xs.take n).filterMap parse) with
      | none =>
          obtain rfl : [(xs.take n).filterMap parse] = ps := by simpa [pages, hnext] using hps
          simpa using perm_of_last_iff hn hnext
      | some cursor =>
          obtain ⟨hblock, last, hlast, rfl⟩ := next_some hkey hnext
          have hshort := length_after_lt key hlast
          have hsorted' := hsorted.sublist (after_sublist key (key last) xs)
          obtain ⟨ps', hps', hsub⟩ := exists_pages hkey fuel
            (after key (key last) xs) (by omega) hsorted'
          obtain rfl : (xs.take n).filterMap parse :: ps' = ps := by
            simp only [pages, hnext] at hps
            rw [hps', Option.map_some] at hps
            exact Option.some_inj.1 hps
          exact perm_of_more_iff hsorted hlast hblock hsub (ih _ (by omega) hsorted' ps' hps')

end Rounds

end PagedQuery
