import CppLin.Lib.CarryAround
import CppLin.Virtual.Bus

namespace CppLin
open Bytes CarryAround

/-- The exact sum of the bytes the checksum is taken over. -/
def summed (pid : UInt8) (data : Payload) (ct : ChecksumType) : Nat :=
  (if ct = .enhanced then pid.toNat else 0) + (data.map UInt8.toNat).sum

/-- `sum` in `calc_checksum` once the loop has passed the data. -/
def accumulator (pid : UInt8) (data : Payload) (ct : ChecksumType) : UInt16 :=
  data.foldl checksumStep (if ct = .enhanced then pid.toUInt16 else 0)

theorem calcChecksum_eq (pid : UInt8) (data : Payload) (ct : ChecksumType) :
    calcChecksum pid data ct = 0xFF - (accumulator pid data ct).toUInt8 := rfl

/-- With the register within a byte the 16-bit sum does not overflow. -/
theorem checksumStep_toNat {s : UInt16} (hs : s.toNat ≤ 255) (b : UInt8) :
    (checksumStep s b).toNat = add 255 s.toNat b.toNat := by
  have hb := b.toNat_lt
  have hsum : (s + b.toUInt16).toNat = s.toNat + b.toNat := by
    rw [UInt16.toNat_add, UInt8.toNat_toUInt16, Nat.mod_eq_of_lt (by omega)]
  have hcarry : s + b.toUInt16 > 0xFF ↔ 255 < s.toNat + b.toNat := by
    rw [gt_iff_lt, UInt16.lt_iff_toNat_lt, hsum]
    rfl
  rw [checksumStep, add]
  simp only [hcarry]
  split_ifs with h
  · rw [UInt16.toNat_sub_of_le _ _ (UInt16.le_of_lt (hcarry.mpr h)), hsum]
    rfl
  · exact hsum

theorem foldl_checksumStep_toNat (data : Payload) {s : UInt16} (hs : s.toNat ≤ 255) :
    (data.foldl checksumStep s).toNat = (data.map UInt8.toNat).foldl (add 255) s.toNat := by
  induction data generalizing s with
  | nil => rfl
  | cons b data ih =>
    have hb : b.toNat ≤ 255 := Nat.le_of_lt_succ b.toNat_lt
    have hstep := checksumStep_toNat hs b
    rw [List.foldl_cons, ih (hstep ▸ add_le hs hb), hstep]
    rfl

theorem accumulator_toNat (pid : UInt8) (data : Payload) (ct : ChecksumType) :
    (accumulator pid data ct).toNat = reduce 255 (summed pid data ct) := by
  have hbytes : ∀ b ∈ data.map UInt8.toNat, b ≤ 255 := by
    intro b hb
    obtain ⟨x, -, rfl⟩ := List.mem_map.mp hb
    exact Nat.le_of_lt_succ x.toNat_lt
  have hstart : (if ct = .enhanced then pid.toUInt16 else 0 : UInt16).toNat =
      if ct = .enhanced then pid.toNat else 0 := by
    split_ifs
    · exact UInt8.toNat_toUInt16 pid
    · rfl
  have hle : (if ct = .enhanced then pid.toNat else 0) ≤ 255 := by
    have hpid := pid.toNat_lt
    split_ifs <;> omega
  rw [accumulator, foldl_checksumStep_toNat data (hstart ▸ hle), hstart, summed,
    ← foldl_add_reduce (by decide) hbytes, reduce_of_le hle]

theorem accumulator_le (pid : UInt8) (data : Payload) (ct : ChecksumType) :
    (accumulator pid data ct).toNat ≤ 255 :=
  accumulator_toNat pid data ct ▸ reduce_le (by decide) _

theorem accumulator_toUInt8 (pid : UInt8) (data : Payload) (ct : ChecksumType) :
    (accumulator pid data ct).toUInt8.toNat = (accumulator pid data ct).toNat := by
  have hle := accumulator_le pid data ct
  rw [UInt16.toNat_toUInt8, Nat.mod_eq_of_lt (by omega)]

theorem calcChecksum_toNat (pid : UInt8) (data : Payload) (ct : ChecksumType) :
    (calcChecksum pid data ct).toNat = 255 - reduce 255 (summed pid data ct) := by
  have hcast := accumulator_toUInt8 pid data ct
  rw [accumulator_toNat] at hcast
  have hle : (accumulator pid data ct).toUInt8 ≤ 0xFF := by
    rw [UInt8.le_iff_toNat_le, hcast]
    exact reduce_le (by decide) _
  rw [calcChecksum_eq, UInt8.toNat_sub_of_le _ _ hle, hcast]
  rfl

/-- Two checksums agree when the sums do modulo 255, and are both empty or both not. -/
theorem calcChecksum_eq_iff (pid pid' : UInt8) (data data' : Payload) (ct : ChecksumType) :
    calcChecksum pid data ct = calcChecksum pid' data' ct ↔
      summed pid data ct ≡ summed pid' data' ct [MOD 255] ∧
        (summed pid data ct = 0 ↔ summed pid' data' ct = 0) := by
  have hle := reduce_le (m := 255) (by decide) (summed pid data ct)
  have hle' := reduce_le (m := 255) (by decide) (summed pid' data' ct)
  rw [← reduce_eq_iff, ← UInt8.toNat_inj, calcChecksum_toNat, calcChecksum_toNat]
  omega

/-- The loop never leaves the range of a byte, and the checksum is the sum counted down from
255 with the carry brought around, in whatever order the bytes come. -/
theorem checksum_closed_form (pid : UInt8) (data : Payload) (ct : ChecksumType) :
    (∀ past, past <+: data → (accumulator pid past ct).toNat ≤ 0xFF ∧
      ∀ b : UInt8, (accumulator pid past ct).toNat + b.toNat < 2 ^ 16) ∧
    (accumulator pid data ct).toUInt8.toNat = (accumulator pid data ct).toNat ∧
    (calcChecksum pid data ct).toNat =
      (if summed pid data ct = 0 then 255 else 254 - (summed pid data ct - 1) % 255) ∧
    (∀ data' : Payload, data'.Perm data → calcChecksum pid data' ct = calcChecksum pid data ct) ∧
    checksumStep (accumulator pid data ct) (calcChecksum pid data ct) = 0xFF := by
  refine ⟨?_, accumulator_toUInt8 pid data ct, ?_, ?_, ?_⟩
  · intro past _
    have hle := accumulator_le pid past ct
    refine ⟨hle, fun b => ?_⟩
    have hb := b.toNat_lt
    omega
  · rw [calcChecksum_toNat, reduce]
    split_ifs <;> omega
  · intro data' hperm
    have hsum : summed pid data' ct = summed pid data ct := by
      rw [summed, summed, (hperm.map UInt8.toNat).sum_eq]
    exact (calcChecksum_eq_iff pid pid data' data ct).mpr (hsum ▸ ⟨rfl, Iff.rfl⟩)
  · have hle := accumulator_le pid data ct
    have hsum : (accumulator pid data ct).toNat + (calcChecksum pid data ct).toNat = 255 := by
      rw [calcChecksum_toNat, ← accumulator_toNat]
      omega
    apply UInt16.toNat_inj.mp
    rw [checksumStep_toNat hle, add, hsum, if_neg (Nat.lt_irrefl 255)]
    rfl

theorem summed_replace (pid : UInt8) (before after : Payload) (a : UInt8) (ct : ChecksumType) :
    summed pid (before ++ a :: after) ct = summed pid (before ++ after) ct + a.toNat := by
  simp only [summed, List.map_append, List.map_cons, List.sum_append, List.sum_cons]
  omega

/-- Bytes agree modulo 255 when they are equal or the two that stand for zero. -/
theorem byte_modEq_iff (n : Nat) (a b : UInt8) : n + a.toNat ≡ n + b.toNat [MOD 255] ↔
    a = b ∨ a = 0 ∧ b = 0xFF ∨ a = 0xFF ∧ b = 0 := by
  have ha := a.toNat_lt
  have hb := b.toNat_lt
  have hmod : n + a.toNat ≡ n + b.toNat [MOD 255] ↔ a.toNat ≡ b.toNat [MOD 255] :=
    ⟨Nat.ModEq.add_left_cancel' n, Nat.ModEq.add_left n⟩
  have h0 : (0 : UInt8).toNat = 0 := rfl
  have h255 : (0xFF : UInt8).toNat = 255 := rfl
  rw [hmod]
  simp only [Nat.ModEq, ← UInt8.toNat_inj, h0, h255]
  omega

def flipBit (b : UInt8) (i : Nat) : UInt8 := b ^^^ (1 <<< UInt8.ofNat i)

theorem flipBit_spec (b : UInt8) {i : Nat} (hi : i < 8) :
    b ≠ flipBit b i ∧ ¬ (b = 0 ∧ flipBit b i = 0xFF ∨ b = 0xFF ∧ flipBit b i = 0) := by
  have hbit : ∀ i : Fin 8, (1 : UInt8) <<< UInt8.ofNat i ≠ 0 ∧
      (1 : UInt8) <<< UInt8.ofNat i ≠ 0xFF := by decide
  obtain ⟨hzero, hall⟩ := hbit ⟨i, hi⟩
  have hxor : b ^^^ flipBit b i = 1 <<< UInt8.ofNat i := by
    rw [flipBit, ← UInt8.xor_assoc, UInt8.xor_self, UInt8.zero_xor]
  refine ⟨fun h => hzero ?_, fun h => hall ?_⟩
  · rw [← hxor, ← h, UInt8.xor_self]
  · rcases h with ⟨hb, hf⟩ | ⟨hb, hf⟩
    · rw [← hxor, hf, hb]
      rfl
    · rw [← hxor, hf, hb]
      rfl

theorem verifyChecksum_iff (pid pid' : UInt8) (data data' : Payload) (ct : ChecksumType) :
    verifyChecksum pid' data' (calcChecksum pid data ct) ct = true ↔
      summed pid' data' ct ≡ summed pid data ct [MOD 255] ∧
        (summed pid' data' ct = 0 ↔ summed pid data ct = 0) := by
  rw [verifyChecksum, beq_iff_eq, calcChecksum_eq_iff]

theorem verify_replaced_iff (pid : UInt8) (before after : Payload) {a b : UInt8} (hne : a ≠ b)
    (ct : ChecksumType) :
    verifyChecksum pid (before ++ b :: after) (calcChecksum pid (before ++ a :: after) ct) ct =
      true ↔ (a = 0 ∧ b = 0xFF ∨ a = 0xFF ∧ b = 0) ∧ summed pid (before ++ after) ct ≠ 0 := by
  rw [verifyChecksum_iff, summed_replace, summed_replace, byte_modEq_iff]
  have h0 : (0 : UInt8).toNat = 0 := rfl
  have h255 : (0xFF : UInt8).toNat = 255 := rfl
  constructor
  · rintro ⟨hbytes, hzero⟩
    rcases hbytes with rfl | ⟨rfl, rfl⟩ | ⟨rfl, rfl⟩
    · exact absurd rfl hne
    · exact ⟨.inr ⟨rfl, rfl⟩, fun hrest => by omega⟩
    · exact ⟨.inl ⟨rfl, rfl⟩, fun hrest => by omega⟩
  · rintro ⟨⟨rfl, rfl⟩ | ⟨rfl, rfl⟩, hrest⟩
    · exact ⟨.inr (.inr ⟨rfl, rfl⟩), by omega⟩
    · exact ⟨.inr (.inl ⟨rfl, rfl⟩), by omega⟩

/-- A changed byte passes only where `0x00` and `0xFF` are exchanged over a sum that is not
zero without it; no single bit flipped passes. -/
theorem checksum_detects (pid : UInt8) (before after : Payload) (a b : UInt8) (hne : a ≠ b)
    (ct : ChecksumType) :
    (verifyChecksum pid (before ++ b :: after) (calcChecksum pid (before ++ a :: after) ct) ct =
      true ↔ (a = 0 ∧ b = 0xFF ∨ a = 0xFF ∧ b = 0) ∧ summed pid (before ++ after) ct ≠ 0) ∧
    ∀ i < 8,
      verifyChecksum pid (before ++ flipBit a i :: after)
        (calcChecksum pid (before ++ a :: after) ct) ct = false ∧
      (∀ data, verifyChecksum pid data (flipBit (calcChecksum pid data ct) i) ct = false) ∧
      ∀ data, verifyChecksum (flipBit pid i) data (calcChecksum pid data .enhanced) .enhanced =
        false := by
  refine ⟨verify_replaced_iff pid before after hne ct, ?_⟩
  intro i hi
  refine ⟨?_, fun data => ?_, fun data => ?_⟩
  · obtain ⟨hflip, hpair⟩ := flipBit_spec a hi
    rw [← Bool.not_eq_true, verify_replaced_iff pid before after hflip ct]
    exact fun h => hpair h.1
  · rw [verifyChecksum, beq_eq_false_iff_ne]
    exact (flipBit_spec _ hi).1
  · obtain ⟨hflip, hpair⟩ := flipBit_spec pid hi
    rw [← Bool.not_eq_true, verifyChecksum_iff]
    rintro ⟨hmod, -⟩
    have hsum : ∀ p : UInt8, summed p data .enhanced = (data.map UInt8.toNat).sum + p.toNat :=
      fun p => Nat.add_comm _ _
    rw [hsum, hsum] at hmod
    rcases (byte_modEq_iff _ _ _).mp hmod.symm with h | h
    · exact hflip h
    · exact hpair h

/-- `0x00` becomes `0xFF` beside another byte, and alone. -/
theorem checksum_detects_exchange :
    (verifyChecksum 0x80 ([1] ++ 0xFF :: []) (calcChecksum 0x80 ([1] ++ 0 :: []) .classic) .classic =
      true ↔ ((0 : UInt8) = 0 ∧ (0xFF : UInt8) = 0xFF ∨ (0 : UInt8) = 0xFF ∧ (0xFF : UInt8) = 0) ∧
        summed 0x80 ([1] ++ []) .classic ≠ 0) ∧
    (verifyChecksum 0x80 ([] ++ 0xFF :: []) (calcChecksum 0x80 ([] ++ 0 :: []) .classic) .classic =
      true ↔ ((0 : UInt8) = 0 ∧ (0xFF : UInt8) = 0xFF ∨ (0 : UInt8) = 0xFF ∧ (0xFF : UInt8) = 0) ∧
        summed 0x80 ([] ++ []) .classic ≠ 0) :=
  ⟨(checksum_detects 0x80 [1] [] 0 0xFF (by decide) .classic).1,
    (checksum_detects 0x80 [] [] 0 0xFF (by decide) .classic).1⟩

theorem protectId_spec {id : UInt8} (hid : id ≤ kLINMaxID) :
    protectId id &&& kLINMaxID = id ∧ protectId id ≠ 0 ∧ protectId id ≠ 0xFF := by
  have hall : ∀ n : Fin 64, protectId (UInt8.ofNat n) &&& kLINMaxID = UInt8.ofNat n ∧
      protectId (UInt8.ofNat n) ≠ 0 ∧ protectId (UInt8.ofNat n) ≠ 0xFF := by decide
  have hlt : id.toNat < 64 := Nat.lt_of_le_of_lt (UInt8.le_iff_toNat_le.mp hid) (by decide)
  have hspec := hall ⟨id.toNat, hlt⟩
  rwa [UInt8.ofNat_toNat] at hspec

theorem calcChecksum_protectId_ne {a b : UInt8} (ha : a ≤ kLINMaxID) (hb : b ≤ kLINMaxID)
    (hne : a ≠ b) (data : Payload) :
    calcChecksum (protectId a) data .enhanced ≠ calcChecksum (protectId b) data .enhanced := by
  obtain ⟨hida, ha0, ha255⟩ := protectId_spec ha
  obtain ⟨hidb, hb0, hb255⟩ := protectId_spec hb
  intro heq
  obtain ⟨hmod, -⟩ := (calcChecksum_eq_iff _ _ data data .enhanced).mp heq
  have hsum : ∀ p : UInt8, summed p data .enhanced = (data.map UInt8.toNat).sum + p.toNat :=
    fun p => Nat.add_comm _ _
  rw [hsum, hsum] at hmod
  rcases (byte_modEq_iff _ _ _).mp hmod with h | h | h
  · exact hne (by rw [← hida, ← hidb, h])
  · exact ha0 h.1
  · exact hb0 h.2

theorem Virt.Bus.checksum_of_sendHeader {b b' : Virt.Bus} {id : UInt8} {f : Frame}
    (h : b.sendHeader id = some (b', .ok f)) :
    f.checksum = calcChecksum (protectId id) f.data f.checksumType := by
  have hr := (sendHeader_some h).2
  unfold respond at hr
  split_ifs at hr
  cases hfound : b.responses.lookup id with
  | none =>
    rw [hfound] at hr
    cases hr
  | some e =>
    rw [hfound] at hr
    obtain rfl := Except.ok.inj hr
    rfl

/-- The enhanced checksum of a payload differs from one identifier to the next, so what the
bus emits for one does not verify for another. -/
theorem enhanced_binds_id {a b : UInt8} (ha : a ≤ kLINMaxID) (hb : b ≤ kLINMaxID) (hne : a ≠ b)
    (data : Payload) :
    calcChecksum (protectId a) data .enhanced ≠ calcChecksum (protectId b) data .enhanced ∧
    ∀ (bus bus' : Virt.Bus) (f : Frame), bus.sendHeader a = some (bus', .ok f) →
      f.checksumType = .enhanced →
      verifyChecksum (protectId b) f.data f.checksum f.checksumType = false := by
  refine ⟨calcChecksum_protectId_ne ha hb hne data, ?_⟩
  intro bus bus' f hsend hct
  have hframe : f.checksum = calcChecksum (protectId a) f.data f.checksumType :=
    Virt.Bus.checksum_of_sendHeader hsend
  rw [hframe, hct, verifyChecksum, beq_eq_false_iff_ne]
  exact (calcChecksum_protectId_ne ha hb hne f.data).symm

/-- Emitted for identifier 1, verified for 2. -/
theorem enhanced_binds_id_emitted :
    let f : Frame := Virt.Bus.frameOf 1 { data := [0xAA] }
    verifyChecksum (protectId 2) f.data f.checksum f.checksumType = false := by
  have hsend : (Virt.Bus.create.publish 1 [0xAA]).1.sendHeader 1 =
      some (_, .ok (Virt.Bus.frameOf 1 { data := [0xAA] })) := rfl
  exact (enhanced_binds_id (a := 1) (b := 2) (by decide) (by decide) (by decide) []).2
    _ _ _ hsend rfl

end CppLin
