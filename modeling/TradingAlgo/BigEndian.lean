/-
**Natural numbers as bytes, the most significant byte first.**

The codec of fixed width that network formats use.  It says nothing about what the numbers mean.

Main definitions:

* `BigEndian.ofBytes` — the number of a list of bytes;
* `BigEndian.toBytes` — the bytes of a number, to a given width.

Main results:

* `BigEndian.ofBytes_lt` — `w` bytes hold a number below `256 ^ w`;
* `BigEndian.ofBytes_toBytes` — reading what was written gives the number, modulo `256 ^ w`.
-/

import Mathlib.Data.Nat.Digits.Defs
import Mathlib.Tactic.NormNum.Basic

set_option relaxedAutoImplicit false
set_option autoImplicit false

namespace BigEndian

/-- The number of a list of bytes: its digits to the base 256, the first one the highest. -/
def ofBytes (bytes : List UInt8) : ℕ := Nat.ofDigits 256 (bytes.reverse.map UInt8.toNat)

/-- The `w` bytes of `n`; what does not fit is cut off. -/
def toBytes : ℕ → ℕ → List UInt8
  | 0, _ => []
  | w + 1, n => toBytes w (n / 256) ++ [UInt8.ofNat n]

@[simp] theorem ofBytes_nil : ofBytes [] = 0 := rfl

@[simp] theorem ofBytes_concat (bytes : List UInt8) (b : UInt8) :
    ofBytes (bytes ++ [b]) = b.toNat + 256 * ofBytes bytes := by
  simp [ofBytes, Nat.ofDigits_cons]

@[simp] theorem toBytes_length (w n : ℕ) : (toBytes w n).length = w := by
  induction w generalizing n with
  | zero => rfl
  | succ w ih => simp [toBytes, ih]

theorem ofBytes_lt (bytes : List UInt8) : ofBytes bytes < 256 ^ bytes.length := by
  have hdigits : ∀ x ∈ bytes.reverse.map UInt8.toNat, x < 256 := by
    intro x hx
    obtain ⟨b, -, rfl⟩ := List.mem_map.mp hx
    exact b.toNat_lt
  simpa [ofBytes] using Nat.ofDigits_lt_base_pow_length (by norm_num) hdigits

theorem ofBytes_toBytes (w n : ℕ) : ofBytes (toBytes w n) = n % 256 ^ w := by
  induction w generalizing n with
  | zero => rw [toBytes, ofBytes_nil, pow_zero, Nat.mod_one]
  | succ w ih =>
      have hb : (UInt8.ofNat n).toNat = n % 256 := UInt8.toNat_ofNat'
      rw [toBytes, ofBytes_concat, ih, hb, pow_succ', Nat.mod_mul]

theorem ofBytes_toBytes_of_lt {w n : ℕ} (h : n < 256 ^ w) : ofBytes (toBytes w n) = n := by
  rw [ofBytes_toBytes, Nat.mod_eq_of_lt h]

end BigEndian
