/-
**Timestamps of MessagePack.**

A timestamp is an extension of type -1 in one of three layouts: 32 bits of seconds, 30 bits of
nanoseconds over 34 bits of seconds, or 32 bits of nanoseconds before 64 bits of signed seconds.
`decodeTimestampExt` reads the three without a check of the range, in the arithmetic of
`uint64_t`; what it returns is the instant modulo `2^64`.

Main definitions:

* `Trading.Instant`, `Trading.Layout` — instants, and the layouts with what each can hold;
* `Trading.Layout.encode`, `Trading.Layout.decode` — the two directions of a layout;
* `Trading.timestampOf` — the nanoseconds of an extension, 0 when it has none.

Main results:

* `Trading.decodeTimestampExt_emod` — an instant is decoded modulo `2^64`;
* `Trading.timestamp_decoding` — **an extension is decoded as it should be except for an instant
  of the layout of 96 bits that `uint64_t` cannot hold**, what is encoded is decoded to the same
  instant, and the layouts agree.
-/

import TradingAlgo.BigEndian
import TradingAlgo.MsgpackDecoder

set_option relaxedAutoImplicit false
set_option autoImplicit false

namespace Trading

open BigEndian

/-! ### The layouts -/

/-- A point in time: seconds since the epoch, before it when negative, and nanoseconds. -/
structure Instant where
  seconds : ℤ
  nanoseconds : ℕ
  deriving DecidableEq, Repr

/-- The nanoseconds since the epoch. -/
def Instant.total (t : Instant) : ℤ := t.seconds * 1000000000 + t.nanoseconds

/-- The layouts of a timestamp. -/
inductive Layout
  | timestamp32
  | timestamp64
  | timestamp96
  deriving DecidableEq, Repr

namespace Layout

/-- The number of bytes of a body. -/
def width : Layout → ℕ
  | timestamp32 => 4
  | timestamp64 => 8
  | timestamp96 => 12

/-- The layout of a body, by its length. -/
def ofLength : ℕ → Option Layout
  | 4 => some timestamp32
  | 8 => some timestamp64
  | 12 => some timestamp96
  | _ => none

/-- The instants that a layout has room for. -/
def Holds (t : Instant) : Layout → Prop
  | timestamp32 => 0 ≤ t.seconds ∧ t.seconds < 2 ^ 32 ∧ t.nanoseconds = 0
  | timestamp64 => 0 ≤ t.seconds ∧ t.seconds < 2 ^ 34 ∧ t.nanoseconds < 2 ^ 30
  | timestamp96 => -2 ^ 63 ≤ t.seconds ∧ t.seconds < 2 ^ 63 ∧ t.nanoseconds < 2 ^ 32

/-- The body that holds an instant. -/
def encode (t : Instant) : Layout → List UInt8
  | timestamp32 => toBytes 4 t.seconds.toNat
  | timestamp64 => toBytes 8 (t.nanoseconds * 2 ^ 34 + t.seconds.toNat)
  -- negative seconds in two's complement
  | timestamp96 => toBytes 4 t.nanoseconds ++ toBytes 8 (t.seconds % 2 ^ 64).toNat

/-- A word of 64 bits as a signed number. -/
def signed64 (n : ℕ) : ℤ := if n < 2 ^ 63 then n else n - 2 ^ 64

/-- The instant of a body. -/
def decode (body : List UInt8) : Layout → Instant
  | timestamp32 => ⟨ofBytes body, 0⟩
  | timestamp64 => ⟨(ofBytes body % 2 ^ 34 : ℕ), ofBytes body / 2 ^ 34⟩
  | timestamp96 => ⟨signed64 (ofBytes (body.drop 4)), ofBytes (body.take 4)⟩

end Layout

/-- What an extension stands for: the nanoseconds of a timestamp since the epoch when they are a
number of 64 bits, and 0 for everything else. -/
def timestampOf (extType : UInt8) (body : List UInt8) : ℤ :=
  if extType = 255 then
    match Layout.ofLength body.length with
    | some layout =>
        let nanos := (layout.decode body).total
        if 0 ≤ nanos ∧ nanos < 2 ^ 64 then nanos else 0
    | none => 0
  else 0

/-! ### Encoding and decoding -/

namespace Layout

theorem encode_length (t : Instant) (layout : Layout) :
    (layout.encode t).length = layout.width := by
  cases layout <;> simp [encode, width]

theorem length_of_ofLength {n : ℕ} {layout : Layout} (h : ofLength n = some layout) :
    n = layout.width := by
  unfold ofLength at h
  split at h <;> cases h <;> rfl

/-- A layout gives back every instant that it has room for. -/
theorem decode_encode {t : Instant} {layout : Layout} (h : layout.Holds t) :
    layout.decode (layout.encode t) = t := by
  obtain ⟨seconds, nanoseconds⟩ := t
  cases layout with
  | timestamp32 =>
      obtain ⟨h0, h32, rfl⟩ := h
      simp only at h0 h32
      simp only [decode, encode]
      rw [ofBytes_toBytes_of_lt (by omega), Int.toNat_of_nonneg h0]
  | timestamp64 =>
      obtain ⟨h0, h34, h30⟩ := h
      simp only at h0 h34 h30
      simp only [decode, encode]
      rw [ofBytes_toBytes_of_lt (by omega)]
      congr 1 <;> omega
  | timestamp96 =>
      obtain ⟨hlo, hhi, h32⟩ := h
      simp only at hlo hhi h32
      simp only [decode, encode]
      rw [List.drop_left' (toBytes_length 4 _), List.take_left' (toBytes_length 4 _),
        ofBytes_toBytes_of_lt (by omega), ofBytes_toBytes_of_lt (by omega)]
      have hsigned : signed64 (seconds % 2 ^ 64).toNat = seconds := by
        unfold signed64
        split <;> omega
      rw [hsigned]

/-- Only the layout of 96 bits has instants that are not numbers of 64 bits. -/
theorem decode_total_lt {body : List UInt8} {layout : Layout} (hlen : body.length = layout.width)
    (h96 : layout ≠ .timestamp96) :
    0 ≤ (layout.decode body).total ∧ (layout.decode body).total < 2 ^ 64 := by
  have hlt := ofBytes_lt body
  rw [hlen] at hlt
  cases layout with
  | timestamp32 =>
      simp only [width, decode, Instant.total] at hlt ⊢
      omega
  | timestamp64 =>
      simp only [width, decode, Instant.total] at hlt ⊢
      omega
  | timestamp96 => exact absurd rfl h96

end Layout

/-! ### The arithmetic of the decoder -/

theorem bigEndian_toNat (bytes : List UInt8) :
    (bigEndian bytes).toNat = ofBytes bytes % 2 ^ 64 := by
  induction bytes using List.reverseRecOn with
  | nil => rfl
  | append_singleton bytes b ih =>
      have hstep : bigEndian (bytes ++ [b]) = bigEndian bytes * 256 + b.toUInt64 := by
        simp [bigEndian]
      have hb : b.toNat < 256 := b.toNat_lt
      rw [hstep, ofBytes_concat, UInt64.toNat_add, UInt64.toNat_mul, ih]
      simp
      omega

theorem bigEndian_toNat_of_length (bytes : List UInt8) (h : bytes.length ≤ 8) :
    (bigEndian bytes).toNat = ofBytes bytes := by
  have hlt := ofBytes_lt bytes
  have hpow : 256 ^ bytes.length ≤ 256 ^ 8 := Nat.pow_le_pow_right (by norm_num) h
  rw [bigEndian_toNat, Nat.mod_eq_of_lt (by omega)]

/-- The value of a timestamp, in whatever layout, modulo `2^64`. -/
theorem decodeTimestampExt_emod {body : List UInt8} {layout : Layout}
    (hlen : body.length = layout.width) :
    ((decodeTimestampExt (255 :: body)).toNat : ℤ) = (layout.decode body).total % 2 ^ 64 := by
  have hlt := ofBytes_lt body
  rw [hlen] at hlt
  cases layout with
  | timestamp32 =>
      simp only [Layout.width] at hlen hlt
      have hval := bigEndian_toNat_of_length body (hlen.trans_le (by norm_num))
      have hcode : decodeTimestampExt (255 :: body) = bigEndian body * 1000000000 := by
        simp [decodeTimestampExt, hlen]
      rw [hcode, UInt64.toNat_mul, hval]
      simp [Layout.decode, Instant.total]
  | timestamp64 =>
      simp only [Layout.width] at hlen hlt
      have hval := bigEndian_toNat_of_length body (hlen.trans_le (by norm_num))
      have hcode : decodeTimestampExt (255 :: body) =
          (bigEndian body &&& 0x3FFFFFFFF) * 1000000000 +
            (bigEndian body >>> (34 : UInt64)).toUInt32.toUInt64 := by
        simp [decodeTimestampExt, hlen]
      -- the mask keeps the low 34 bits, and the 30 above them fit in a `uint32_t`
      have hsec : (bigEndian body &&& 0x3FFFFFFFF).toNat = ofBytes body % 2 ^ 34 := by
        rw [UInt64.toNat_and, hval]
        exact Nat.and_two_pow_sub_one_eq_mod _ 34
      have hnsec : (bigEndian body >>> (34 : UInt64)).toUInt32.toUInt64.toNat =
          ofBytes body / 2 ^ 34 := by
        simp [hval, Nat.shiftRight_eq_div_pow]
        omega
      rw [hcode, UInt64.toNat_add, UInt64.toNat_mul, hsec, hnsec]
      simp [Layout.decode, Instant.total]
  | timestamp96 =>
      simp only [Layout.width] at hlen
      have hnsec := bigEndian_toNat_of_length (body.take 4) (by simp)
      have hsec := bigEndian_toNat_of_length (body.drop 4) (by simp [hlen])
      have hcode : decodeTimestampExt (255 :: body) =
          bigEndian (body.drop 4) * 1000000000 + bigEndian (body.take 4) := by
        simp [decodeTimestampExt, hlen]
      rw [hcode, UInt64.toNat_add, UInt64.toNat_mul, hsec, hnsec]
      simp only [Layout.decode, Instant.total, Layout.signed64]
      split
      · simp
      · simp
        omega

theorem decodeTimestampExt_of_type {extType : UInt8} (h : extType ≠ 255) (body : List UInt8) :
    decodeTimestampExt (extType :: body) = 0 := by
  simp [decodeTimestampExt, h]

theorem decodeTimestampExt_of_length {body : List UInt8}
    (h : Layout.ofLength body.length = none) : decodeTimestampExt (255 :: body) = 0 := by
  unfold Layout.ofLength at h
  split at h <;> simp_all [decodeTimestampExt]

/-! ### The decoder against the format -/

/-- The extensions that the decoder reads as it should: all but those with an instant of 96 bits
outside the numbers of 64 bits, save a multiple of `2^64`. -/
def InRange (extType : UInt8) (body : List UInt8) : Prop :=
  extType = 255 → body.length = 12 →
    (0 ≤ (Layout.timestamp96.decode body).total ∧
      (Layout.timestamp96.decode body).total < 2 ^ 64) ∨
    (2 ^ 64 : ℤ) ∣ (Layout.timestamp96.decode body).total

theorem decodeTimestampExt_iff (extType : UInt8) (body : List UInt8) :
    ((decodeTimestampExt (extType :: body)).toNat : ℤ) = timestampOf extType body ↔
      InRange extType body := by
  by_cases htype : extType = 255
  · subst htype
    cases hlayout : Layout.ofLength body.length with
    | none =>
        have hlen : body.length ≠ 12 := by
          intro h12
          rw [h12] at hlayout
          cases hlayout
        simp [InRange, hlen, timestampOf, hlayout, decodeTimestampExt_of_length hlayout]
    | some layout =>
        have hlen := Layout.length_of_ofLength hlayout
        have hspec : timestampOf 255 body =
            if 0 ≤ (layout.decode body).total ∧ (layout.decode body).total < 2 ^ 64 then
              (layout.decode body).total else 0 := by
          simp [timestampOf, hlayout]
        rw [decodeTimestampExt_emod hlen, hspec]
        by_cases h96 : layout = .timestamp96
        · subst h96
          simp only [Layout.width] at hlen
          simp only [InRange, hlen, forall_const]
          split <;> omega
        · have hsmall := Layout.decode_total_lt hlen h96
          have hne : body.length ≠ 12 := by
            rw [hlen]
            cases layout <;> simp_all [Layout.width]
          simp only [if_pos hsmall, InRange, hne, false_implies, implies_true, iff_true]
          omega
  · simp [InRange, htype, timestampOf, decodeTimestampExt_of_type htype]

/-- What is encoded in a layout that has room for it is decoded to the same instant. -/
theorem decodeTimestampExt_encode {t : Instant} {layout : Layout} (h : layout.Holds t) :
    ((decodeTimestampExt (255 :: layout.encode t)).toNat : ℤ) = t.total % 2 ^ 64 := by
  rw [decodeTimestampExt_emod (Layout.encode_length t layout), Layout.decode_encode h]

/-- **Timestamps are decoded as the format says exactly when the instant is in range.**  The
layouts of 32 and 64 bits are always in range, so only that of 96 bits can go wrong: an instant
before the epoch, or too late for 64 bits, wraps round instead of giving 0.  Instants in range
come back from every layout that holds them, and two layouts never disagree. -/
theorem timestamp_decoding (extType : UInt8) (body : List UInt8) :
    (((decodeTimestampExt (extType :: body)).toNat : ℤ) = timestampOf extType body ↔
      InRange extType body) ∧
    (∀ (t : Instant) (layout : Layout), layout.Holds t → 0 ≤ t.total → t.total < 2 ^ 64 →
      ((decodeTimestampExt (255 :: layout.encode t)).toNat : ℤ) = t.total) ∧
    (∀ (t : Instant) (layout layout' : Layout), layout.Holds t → layout'.Holds t →
      decodeTimestampExt (255 :: layout.encode t) =
        decodeTimestampExt (255 :: layout'.encode t)) := by
  refine ⟨decodeTimestampExt_iff extType body, ?_, ?_⟩
  · intro t layout h h0 h64
    rw [decodeTimestampExt_encode h, Int.emod_eq_of_lt h0 h64]
  · intro t layout layout' h h'
    rw [← UInt64.toNat_inj, ← Int.natCast_inj, decodeTimestampExt_encode h,
      decodeTimestampExt_encode h']

/-- One second before the epoch, in 96 bits: the decoder returns `2^64 - 10^9` and not 0. -/
theorem timestamp_decoding_fails :
    ¬ ∀ (extType : UInt8) (body : List UInt8), body ≠ [] →
      ((decodeTimestampExt (extType :: body)).toNat : ℤ) = timestampOf extType body := by
  intro h
  have hlast := h 255 (Layout.timestamp96.encode ⟨-1, 0⟩) (by decide)
  revert hlast
  decide

end Trading
