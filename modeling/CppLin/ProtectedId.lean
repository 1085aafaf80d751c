import CppLin.Checksum

/-!
The parity bits of a protected identifier: which bytes are taken for one, and which changes of
the bits on the bus go unnoticed.
-/
namespace CppLin
open Bytes

/-- The change of the identifier with the change of the parity bits that it brings. -/
def carriedChange (e : UInt8) : UInt8 := protectId e ^^^ 0x80

/-- The number of bits that are set. -/
def weight (e : UInt8) : Nat := ((List.range 8).filter fun i => e.toNat.testBit i).length

/-- The identifier and its parity are affine in the bits. -/
theorem protectId_xor (a b : UInt8) :
    protectId (a ^^^ b) = protectId a ^^^ carriedChange b := by
  apply UInt8.eq_of_toBitVec_eq
  apply BitVec.eq_of_getLsbD_eq
  intro i hi
  have hcases : i = 0 ∨ i = 1 ∨ i = 2 ∨ i = 3 ∨ i = 4 ∨ i = 5 ∨ i = 6 ∨ i = 7 := by omega
  rcases hcases with rfl | rfl | rfl | rfl | rfl | rfl | rfl | rfl <;>
    simp [carriedChange, protectId, kLINMaxID] <;> grind

theorem protectId_masked (a : UInt8) : protectId (a &&& kLINMaxID) = protectId a := by
  unfold protectId
  simp only [UInt8.and_assoc, UInt8.and_self]

theorem protectId_low (a : UInt8) : protectId a &&& kLINMaxID = a &&& kLINMaxID := by
  have hle : a &&& kLINMaxID ≤ kLINMaxID := UInt8.and_le_right
  have hspec := (protectId_spec hle).1
  rwa [protectId_masked] at hspec

theorem verifyPid_iff {pid id : UInt8} :
    verifyPid pid = .ok id ↔ protectId pid = pid ∧ id = pid &&& kLINMaxID := by
  unfold verifyPid
  simp only [protectId_masked]
  split_ifs with h
  · simp [h]
  · have hok : protectId pid = pid := not_not.mp h
    simp [hok, eq_comm]

theorem masked_xor (a b : UInt8) :
    (a ^^^ b) &&& kLINMaxID = (a &&& kLINMaxID) ^^^ (b &&& kLINMaxID) := by
  apply UInt8.eq_of_toBitVec_eq
  apply BitVec.eq_of_getLsbD_eq
  intro i hi
  simp only [UInt8.toBitVec_and, UInt8.toBitVec_xor, BitVec.getLsbD_and, BitVec.getLsbD_xor,
    Bool.and_xor_distrib_right]

/-- The identifiers taken are the 64 with their parity, and each is taken for itself. -/
theorem verifyPid_ok_iff {pid id : UInt8} :
    verifyPid pid = .ok id ↔ id ≤ kLINMaxID ∧ pid = protectId id := by
  rw [verifyPid_iff]
  constructor
  · rintro ⟨hpid, rfl⟩
    exact ⟨UInt8.and_le_right, by rw [protectId_masked, hpid]⟩
  · rintro ⟨hid, rfl⟩
    have hlow := (protectId_spec hid).1
    refine ⟨?_, hlow.symm⟩
    rw [← protectId_masked (protectId id), hlow]

/-- A change that goes unnoticed sets two bits at least. -/
theorem two_le_weight {e : UInt8} (hne : e ≠ 0) (he : carriedChange e = e) : 2 ≤ weight e := by
  have hall : ∀ n : Fin 256, UInt8.ofNat n ≠ 0 → carriedChange (UInt8.ofNat n) = UInt8.ofNat n →
      2 ≤ weight (UInt8.ofNat n) := by decide +kernel
  have hspec := hall ⟨e.toNat, e.toNat_lt⟩
  rw [UInt8.ofNat_toNat] at hspec
  exact hspec hne he

/-- A protected identifier with changed bits is taken exactly when the parity bits have changed
with the identifier, the same changes whatever the identifier was; it is then taken for the
changed one. So one wrong bit is always noticed, and the error names the byte. -/
theorem verify_pid_changed (id e : UInt8) :
    (∀ id', verifyPid (protectId id ^^^ e) = .ok id' ↔
      carriedChange e = e ∧ id' = (id ^^^ e) &&& kLINMaxID) ∧
    (e ≠ 0 → weight e < 2 → verifyPid (protectId id ^^^ e) =
      .error ⟨"PID 0x".toList ++ hexByte (protectId id ^^^ e) ++ " parity mismatch".toList⟩) := by
  have hself : protectId (protectId id) = protectId id := by
    rw [← protectId_masked (protectId id), protectId_low, protectId_masked]
  have htaken : ∀ id', verifyPid (protectId id ^^^ e) = .ok id' ↔
      carriedChange e = e ∧ id' = (id ^^^ e) &&& kLINMaxID := by
    intro id'
    rw [verifyPid_iff, protectId_xor, hself, UInt8.xor_right_inj, masked_xor, protectId_low,
      ← masked_xor]
  refine ⟨htaken, fun hne hweight => ?_⟩
  have hnot : carriedChange e ≠ e := fun he => absurd (two_le_weight hne he) (by omega)
  cases hv : verifyPid (protectId id ^^^ e) with
  | ok id' => exact absurd ((htaken id').mp hv).1 hnot
  | error err =>
      simp only [verifyPid] at hv
      split_ifs at hv
      exact hv.symm

end CppLin
