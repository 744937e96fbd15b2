/-
**Fixed-size character arrays.**

The arrays `char[n]` of a C program, filled by clearing them and copying at most `n` bytes of a
string into them, read back up to the first NUL, and loaded as an integer from little-endian
memory.  Strings are lists of bytes: they may hold NUL bytes and may be longer than the array, and
what is then lost is the subject of the lemmas.

Main definitions:

* `CharArray` — an array of `n` bytes;
* `CharArray.ofBytes` — `memset` followed by a `memcpy` of at most `n` bytes;
* `CharArray.view` — the bytes before the first NUL;
* `CharArray.toNat` — the array read as a little-endian number.

Main results:

* `CharArray.view_ofBytes` — a NUL-free string that fits is read back as it was stored;
* `CharArray.ofBytes_view_ofBytes` — a NUL-free string leaves an array that its own view rebuilds;
* `CharArray.toNat_injective` — distinct arrays are distinct numbers.
-/

import Mathlib.Data.List.TakeWhile
import Mathlib.Data.Nat.Digits.Defs
import Mathlib.Data.Nat.Digits.Lemmas
import Mathlib.Tactic

set_option relaxedAutoImplicit false
set_option autoImplicit false

/-- An array of `n` bytes. -/
structure CharArray (n : ℕ) where
  /-- The bytes of the array. -/
  bytes : List UInt8
  /-- There are `n` of them. -/
  length_eq : bytes.length = n
  deriving DecidableEq, Repr

namespace CharArray

variable {n : ℕ}

theorem ext_bytes {a b : CharArray n} (h : a.bytes = b.bytes) : a = b := by
  cases a; cases b; cases h; rfl

/-! ### Storing a string -/

/-- Clear the array, then copy at most `n` bytes of `src` into it. -/
def ofBytes (n : ℕ) (src : List UInt8) : CharArray n where
  bytes := src.take n ++ List.replicate (n - src.length) 0
  length_eq := by simp; omega

@[simp] theorem bytes_ofBytes (n : ℕ) (src : List UInt8) :
    (ofBytes n src).bytes = src.take n ++ List.replicate (n - src.length) 0 := rfl

/-- Storing depends only on the bytes that fit. -/
theorem ofBytes_take (n : ℕ) (src : List UInt8) : ofBytes n (src.take n) = ofBytes n src := by
  refine ext_bytes ?_
  rcases Nat.le_total src.length n with h | h
  · rw [List.take_of_length_le h]
  · have h₀ : n - (src.take n).length = 0 := by simp; omega
    have h₁ : n - src.length = 0 := by omega
    rw [bytes_ofBytes, bytes_ofBytes, h₀, h₁, List.take_take, Nat.min_self]

/-! ### Reading a string back -/

/-- The bytes before the first NUL. -/
def view (a : CharArray n) : List UInt8 := a.bytes.takeWhile (· ≠ 0)

theorem view_length_le (a : CharArray n) : a.view.length ≤ n := by
  have h := (List.takeWhile_prefix (p := fun b : UInt8 => decide (b ≠ 0)) (l := a.bytes)).length_le
  rwa [a.length_eq] at h

theorem zero_notMem_view (a : CharArray n) : (0 : UInt8) ∉ a.view := by
  intro h
  have := List.mem_takeWhile_imp h
  simp at this

theorem takeWhile_append_zeros {src : List UInt8} (h : (0 : UInt8) ∉ src) (m : ℕ) :
    (src ++ List.replicate m 0).takeWhile (· ≠ 0) = src := by
  rw [List.takeWhile_append_of_pos]
  · cases m <;> simp [List.replicate_succ]
  · intro b hb
    have : b ≠ 0 := fun h0 => h (h0 ▸ hb)
    simpa using this

/-- The view of a stored NUL-free string is the part of it that fits. -/
theorem view_ofBytes_take {src : List UInt8} (h : (0 : UInt8) ∉ src) :
    (ofBytes n src).view = src.take n :=
  takeWhile_append_zeros (fun h0 => h (List.mem_of_mem_take h0)) _

/-- **A NUL-free string that fits is read back as it was stored.** -/
theorem view_ofBytes {src : List UInt8} (h : (0 : UInt8) ∉ src) (hn : src.length ≤ n) :
    (ofBytes n src).view = src := by
  rw [view_ofBytes_take h, List.take_of_length_le hn]

/-- A NUL-free string leaves an array that is rebuilt from its own view. -/
theorem ofBytes_view_ofBytes {src : List UInt8} (h : (0 : UInt8) ∉ src) :
    ofBytes n (ofBytes n src).view = ofBytes n src := by
  rw [view_ofBytes_take h, ofBytes_take]

/-! ### The array as a number -/

/-- The array read as a little-endian number. -/
def toNat (a : CharArray n) : ℕ := Nat.ofDigits 256 (a.bytes.map UInt8.toNat)

theorem digits_lt (a : CharArray n) : ∀ d ∈ a.bytes.map UInt8.toNat, d < 256 := by
  intro d hd
  obtain ⟨b, -, rfl⟩ := List.mem_map.1 hd
  exact UInt8.toNat_lt b

theorem toNat_lt (a : CharArray n) : a.toNat < 256 ^ n := by
  have h := Nat.ofDigits_lt_base_pow_length (by norm_num : 1 < 256) a.digits_lt
  rwa [List.length_map, a.length_eq] at h

/-- **Distinct arrays are distinct numbers.** -/
theorem toNat_injective : Function.Injective (toNat : CharArray n → ℕ) := by
  intro a b hab
  have hlen : (a.bytes.map UInt8.toNat).length = (b.bytes.map UInt8.toNat).length := by
    simp [a.length_eq, b.length_eq]
  have hmap := Nat.ofDigits_inj_of_len_eq (by norm_num) hlen a.digits_lt b.digits_lt hab
  have hinj : Function.Injective UInt8.toNat := fun _ _ h => UInt8.toNat_inj.1 h
  exact ext_bytes (hinj.list_map hmap)

end CharArray
