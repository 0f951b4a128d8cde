import Mathlib

/-!
# Octets and machine integers

This file fixes the byte-level vocabulary of the development: byte sequences,
the little-endian image of a number, and the two's-complement reading of an
integer in 16 and 32 bits.

Every multi-byte field of the wire formats is written by `memcpy` from an
integer on a little-endian machine, so `le` and `ofLe` are the only conversions
needed.  Signed fields are first reduced by `unsigned32` or `unsigned16` and
read back by `int32` or `int16`.
-/

namespace Octets

/-- An octet of a buffer. -/
abbrev Byte := UInt8

/-- A finite sequence of octets. -/
abbrev Bytes := List Byte

/-- The octets of a string literal. -/
def ofString (text : String) : Bytes := text.toList.map fun char => UInt8.ofNat char.toNat

/-- The `width` low octets of a number, least significant first. -/
def le : (width : ℕ) → (value : ℕ) → Bytes
  | 0, _ => []
  | width + 1, value => UInt8.ofNat value :: le width (value / 256)

/-- The number denoted by a little-endian octet sequence. -/
def ofLe : Bytes → ℕ
  | [] => 0
  | octet :: rest => octet.toNat + 256 * ofLe rest

@[simp]
theorem length_le (width value : ℕ) : (le width value).length = width := by
  induction width generalizing value with
  | zero => rfl
  | succ width ih => simp [le, ih]

theorem ofLe_le_mod (width value : ℕ) : ofLe (le width value) = value % 256 ^ width := by
  induction width generalizing value with
  | zero => simp [le, ofLe, Nat.mod_one]
  | succ width ih =>
      have low : (UInt8.ofNat value).toNat = value % 256 := by simp
      simp only [le, ofLe, ih, low]
      exact (pow_succ' 256 width ▸ Nat.mod_mul).symm

theorem ofLe_le {width value : ℕ} (bounded : value < 256 ^ width) :
    ofLe (le width value) = value := by
  rw [ofLe_le_mod, Nat.mod_eq_of_lt bounded]

theorem le_ofLe (octets : Bytes) : le octets.length (ofLe octets) = octets := by
  induction octets with
  | nil => rfl
  | cons octet rest ih =>
      have bounded : octet.toNat < 256 := octet.toNat_lt
      have low : UInt8.ofNat (octet.toNat + 256 * ofLe rest) = octet := by
        apply UInt8.toNat_inj.mp
        simp
      have high : (octet.toNat + 256 * ofLe rest) / 256 = ofLe rest := by omega
      simp only [List.length_cons, ofLe, le, low, high, ih]

theorem ofLe_take_lt {buf : Bytes} {count : ℕ} : ofLe (buf.take count) < 256 ^ count := by
  induction buf generalizing count with
  | nil => simp [ofLe]
  | cons octet rest ih =>
      cases count with
      | zero => simp [ofLe]
      | succ count =>
          have head : octet.toNat < 256 := octet.toNat_lt
          have tail := @ih count
          simp only [List.take_succ_cons, ofLe, pow_succ]
          omega

/-- The two's-complement value of an integer in 32 bits. -/
def int32 (value : ℤ) : ℤ := (value + 2 ^ 31) % 2 ^ 32 - 2 ^ 31

/-- The two's-complement value of an integer in 16 bits. -/
def int16 (value : ℤ) : ℤ := (value + 2 ^ 15) % 2 ^ 16 - 2 ^ 15

/-- The unsigned 32-bit image of an integer. -/
def unsigned32 (value : ℤ) : ℕ := (value % 2 ^ 32).toNat

/-- The values of a signed 32-bit integer. -/
def IsInt32 (value : ℤ) : Prop := -2 ^ 31 ≤ value ∧ value < 2 ^ 31

/-- The values of a signed 16-bit integer. -/
def IsInt16 (value : ℤ) : Prop := -2 ^ 15 ≤ value ∧ value < 2 ^ 15

instance (value : ℤ) : Decidable (IsInt32 value) := inferInstanceAs (Decidable (_ ∧ _))

instance (value : ℤ) : Decidable (IsInt16 value) := inferInstanceAs (Decidable (_ ∧ _))

theorem int32_eq_self {value : ℤ} (range : IsInt32 value) : int32 value = value := by
  simp only [IsInt32] at range
  simp only [int32]
  omega

theorem unsigned32_lt (value : ℤ) : unsigned32 value < 256 ^ 4 := by
  simp only [unsigned32]
  omega

theorem int32_unsigned32 {value : ℤ} (range : IsInt32 value) :
    int32 (unsigned32 value) = value := by
  simp only [IsInt32] at range
  simp only [int32, unsigned32]
  omega

theorem int16_unsigned32_mod {value : ℤ} (range : IsInt16 value) :
    int16 ((unsigned32 value % 256 ^ 2 : ℕ) : ℤ) = value := by
  simp only [IsInt16] at range
  simp only [int16, unsigned32]
  omega

end Octets
