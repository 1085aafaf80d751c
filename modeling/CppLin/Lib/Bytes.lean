import Mathlib

namespace CppLin.Bytes

/-- A `std::string`: its bytes, each read as the code point of the same number. -/
abbrev CString := List Char

/-- A `std::vector<uint8_t>`. -/
abbrev Payload := List UInt8

/-- `std::to_string` of a non-negative number. -/
def toCString (n : Nat) : CString := Nat.toDigits 10 n

/-- The 16-bit word whose little-endian bytes are given. -/
def word16 (b0 b1 : UInt8) : UInt16 := b0.toUInt16 ||| (b1.toUInt16 <<< 8)

/-- The 32-bit word whose little-endian bytes are given. -/
def word32 (b0 b1 b2 b3 : UInt8) : UInt32 :=
  b0.toUInt32 ||| (b1.toUInt32 <<< 8) ||| (b2.toUInt32 <<< 16) ||| (b3.toUInt32 <<< 24)

theorem or_shiftLeft_of_lt {a k : Nat} (h : a < 2 ^ k) (b : Nat) :
    a ||| b <<< k = a + 2 ^ k * b := by
  rw [Nat.or_comm, Nat.shiftLeft_eq, Nat.mul_comm, ← Nat.two_pow_add_eq_or_of_lt h, Nat.add_comm]

theorem word16_toNat (b0 b1 : UInt8) : (word16 b0 b1).toNat = b0.toNat + 256 * b1.toNat := by
  have h0 := b0.toNat_lt
  have h1 := b1.toNat_lt
  have s1 : b1.toNat <<< 8 % 2 ^ 16 = b1.toNat <<< 8 := by rw [Nat.shiftLeft_eq]; omega
  simp only [word16, UInt16.toNat_or, UInt16.toNat_shiftLeft, UInt8.toNat_toUInt16,
    UInt16.reduceToNat, Nat.reduceMod, s1]
  exact or_shiftLeft_of_lt h0 _

theorem word32_toNat (b0 b1 b2 b3 : UInt8) : (word32 b0 b1 b2 b3).toNat =
    b0.toNat + 256 * b1.toNat + 65536 * b2.toNat + 16777216 * b3.toNat := by
  have h0 := b0.toNat_lt
  have h1 := b1.toNat_lt
  have h2 := b2.toNat_lt
  have h3 := b3.toNat_lt
  have s1 : b1.toNat <<< 8 % 2 ^ 32 = b1.toNat <<< 8 := by rw [Nat.shiftLeft_eq]; omega
  have s2 : b2.toNat <<< 16 % 2 ^ 32 = b2.toNat <<< 16 := by rw [Nat.shiftLeft_eq]; omega
  have s3 : b3.toNat <<< 24 % 2 ^ 32 = b3.toNat <<< 24 := by rw [Nat.shiftLeft_eq]; omega
  simp only [word32, UInt32.toNat_or, UInt32.toNat_shiftLeft, UInt8.toNat_toUInt32,
    UInt32.reduceToNat, Nat.reduceMod, s1, s2, s3]
  rw [or_shiftLeft_of_lt h0, or_shiftLeft_of_lt (k := 16) (by omega),
    or_shiftLeft_of_lt (k := 24) (by omega)]
  omega

theorem word16_bytes (w : UInt16) : word16 w.toUInt8 (w >>> 8).toUInt8 = w := by
  have hw := w.toNat_lt
  apply UInt16.toNat_inj.mp
  simp only [word16_toNat, UInt16.toNat_toUInt8, UInt16.toNat_shiftRight,
    Nat.shiftRight_eq_div_pow, UInt16.reduceToNat, Nat.reduceMod, Nat.reducePow]
  omega

theorem word32_bytes (w : UInt32) :
    word32 w.toUInt8 (w >>> 8).toUInt8 (w >>> 16).toUInt8 (w >>> 24).toUInt8 = w := by
  have hw := w.toNat_lt
  apply UInt32.toNat_inj.mp
  simp only [word32_toNat, UInt32.toNat_toUInt8, UInt32.toNat_shiftRight,
    Nat.shiftRight_eq_div_pow, UInt32.reduceToNat, Nat.reduceMod, Nat.reducePow]
  omega

theorem bytes_word16 (b0 b1 : UInt8) :
    (word16 b0 b1).toUInt8 = b0 ∧ (word16 b0 b1 >>> 8).toUInt8 = b1 := by
  have h0 := b0.toNat_lt
  have h1 := b1.toNat_lt
  constructor <;> apply UInt8.toNat_inj.mp <;>
    simp only [UInt16.toNat_toUInt8, UInt16.toNat_shiftRight, word16_toNat,
      Nat.shiftRight_eq_div_pow, UInt16.reduceToNat, Nat.reduceMod, Nat.reducePow] <;>
    omega

theorem bytes_word32 (b0 b1 b2 b3 : UInt8) :
    (word32 b0 b1 b2 b3).toUInt8 = b0 ∧ (word32 b0 b1 b2 b3 >>> 8).toUInt8 = b1 ∧
    (word32 b0 b1 b2 b3 >>> 16).toUInt8 = b2 ∧ (word32 b0 b1 b2 b3 >>> 24).toUInt8 = b3 := by
  have h0 := b0.toNat_lt
  have h1 := b1.toNat_lt
  have h2 := b2.toNat_lt
  have h3 := b3.toNat_lt
  refine ⟨?_, ?_, ?_, ?_⟩ <;> apply UInt8.toNat_inj.mp <;>
    simp only [UInt32.toNat_toUInt8, UInt32.toNat_shiftRight, word32_toNat,
      Nat.shiftRight_eq_div_pow, UInt32.reduceToNat, Nat.reduceMod, Nat.reducePow] <;>
    omega

end CppLin.Bytes
