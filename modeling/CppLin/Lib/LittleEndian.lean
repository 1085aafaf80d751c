import CppLin.Lib.Bytes

namespace CppLin.Bytes

def littleEndian (d : Payload) : Nat := Nat.ofDigits 256 (d.map UInt8.toNat)

theorem digits_lt (d : Payload) : ∀ n ∈ d.map UInt8.toNat, n < 256 := by
  intro n hn
  obtain ⟨b, -, rfl⟩ := List.mem_map.mp hn
  exact b.toNat_lt

theorem littleEndian_cons (b : UInt8) (d : Payload) :
    littleEndian (b :: d) = b.toNat + 256 * littleEndian d := Nat.ofDigits_cons

theorem littleEndian_lt (d : Payload) : littleEndian d < 256 ^ d.length := by
  have h := Nat.ofDigits_lt_base_pow_length (b := 256) (by decide) (digits_lt d)
  rwa [List.length_map] at h

theorem littleEndian_drop (d : Payload) (k : Nat) :
    littleEndian (d.drop k) = littleEndian d / 256 ^ k := by
  rw [littleEndian, littleEndian, List.map_drop,
    Nat.ofDigits_div_pow_eq_ofDigits_drop k (by decide) _ (digits_lt d)]

theorem testBit_littleEndian {d : Payload} {n : Nat} (hn : n / 8 < d.length) :
    (littleEndian d).testBit n = (d.getD (n / 8) 0).toNat.testBit (n % 8) := by
  have hpow : 256 ^ (n / 8) = 2 ^ (8 * (n / 8)) := (Nat.pow_mul 2 8 (n / 8)).symm
  have hdrop : d.drop (n / 8) = d.getD (n / 8) 0 :: d.drop (n / 8 + 1) := by
    rw [List.getD_eq_getElem _ _ hn]
    exact List.drop_eq_getElem_cons hn
  calc (littleEndian d).testBit n
      = (littleEndian d / 2 ^ (8 * (n / 8))).testBit (n % 8) := by
        rw [Nat.testBit_div_two_pow, Nat.mod_add_div]
    _ = (littleEndian (d.drop (n / 8))).testBit (n % 8) := by rw [littleEndian_drop, hpow]
    _ = ((d.getD (n / 8) 0).toNat + 2 ^ 8 * littleEndian (d.drop (n / 8 + 1))).testBit (n % 8) := by
        rw [hdrop, littleEndian_cons]
        rfl
    _ = (d.getD (n / 8) 0).toNat.testBit (n % 8) := by
        rw [Nat.add_comm, Nat.testBit_two_pow_mul_add _ (UInt8.toNat_lt _),
          if_pos (Nat.mod_lt n (by decide))]

theorem littleEndian_div_eq_zero {d : Payload} {n : Nat} (hn : d.length ≤ n / 8) :
    littleEndian d / 2 ^ n = 0 := by
  apply Nat.div_eq_of_lt
  calc littleEndian d < 256 ^ d.length := littleEndian_lt d
    _ = 2 ^ (8 * d.length) := (Nat.pow_mul 2 8 d.length).symm
    _ ≤ 2 ^ n := Nat.pow_le_pow_right (by decide) (by omega)

end CppLin.Bytes
