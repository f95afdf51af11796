import Mathlib

/-!
# Bytes

Text and binary data as the sequences of bytes a C++ `std::string` or `std::vector<uint8_t>`
holds, and the fixed-width conversions used on them.
-/

/-- A byte string. -/
abbrev Bytes : Type := List UInt8

namespace Bytes

/-- The bytes of an ASCII literal. -/
def ascii (s : String) : Bytes :=
  s.toList.map fun c => UInt8.ofNat c.toNat

end Bytes

/-- Conversion to a signed 32-bit integer, wrapping modulo `2 ^ 32`. -/
def toInt32 (i : Int) : Int :=
  Int.bmod i (2 ^ 32)

theorem toInt32_range (i : Int) : -2 ^ 31 ≤ toInt32 i ∧ toInt32 i ≤ 2 ^ 31 - 1 := by
  unfold toInt32
  have hlow := Int.le_bmod (x := i) (m := 2 ^ 32) (by decide)
  have hhigh := Int.bmod_lt (x := i) (m := 2 ^ 32) (by decide)
  omega

theorem toInt32_of_range {i : Int} (hlow : -2 ^ 31 ≤ i) (hhigh : i < 2 ^ 31) :
    toInt32 i = i := by
  unfold toInt32
  apply Int.bmod_eq_of_le <;> omega
