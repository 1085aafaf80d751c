import CppLin.Ldf.Decode
import CppLin.Lib.LastWrite
import CppLin.Lib.LittleEndian

namespace CppLin.Ldf
open Bytes LastWrite

theorem bitAt_eq_testBit (byte : UInt8) {i : Nat} (hi : i < 8) :
    bitAt byte i = byte.toNat.testBit i := by
  have hmask : ∀ i : Fin 8, ((1 : UInt8) <<< UInt8.ofNat i).toNat = 2 ^ (i : Nat) := by decide
  have hand : (byte &&& (1 <<< UInt8.ofNat i)).toNat = (byte.toNat.testBit i).toNat * 2 ^ i := by
    rw [UInt8.toNat_and, hmask ⟨i, hi⟩, Nat.and_two_pow]
  have h0 : (0 : UInt8).toNat = 0 := rfl
  unfold bitAt
  simp only [ne_eq, ← UInt8.toNat_inj, hand, h0]
  cases byte.toNat.testBit i <;> simp

theorem toNat_or_bit {val : UInt64} {i : Nat} (hi : i < 64) (hval : val.toNat < 2 ^ i) :
    (val ||| (1 <<< UInt64.ofNat i)).toNat = 2 ^ i + val.toNat := by
  have hmask : ∀ i : Fin 64, ((1 : UInt64) <<< UInt64.ofNat i).toNat = 2 ^ (i : Nat) := by decide
  have hadd := Nat.two_pow_add_eq_or_of_lt hval 1
  rw [Nat.mul_one] at hadd
  rw [UInt64.toNat_or, hmask ⟨i, hi⟩, Nat.lor_comm, hadd]

theorem intOfSize_eq {n : Nat} (h : (n : Int) ≤ kIntMax) : intOfSize n = n := by
  unfold kIntMax at h
  exact Int.bmod_eq_of_le (by omega) (by omega)

/-- The loop, once it has read the `i` lowest bits. -/
theorem extractBits_value (offset turns : Nat) {data : Payload}
    (hsize : (data.length : Int) ≤ kIntMax) {i : Nat} {val : UInt64} (hi : i + turns ≤ 64)
    (hend : (offset : Int) + i + turns ≤ kIntMax + 1)
    (hval : val.toNat = littleEndian data / 2 ^ offset % 2 ^ i) :
    ∃ v, extractBits offset data turns i val = .ok v ∧
      v.toNat = littleEndian data / 2 ^ offset % 2 ^ (i + turns) := by
  induction turns generalizing i val with
  | zero => exact ⟨val, rfl, hval⟩
  | succ turns ih =>
    have hpos : ((offset : Int) + (i : Int)).tdiv 8 = ((offset + i) / 8 : Nat) := by
      rw [Int.tdiv_eq_ediv_of_nonneg (by omega)]
      omega
    have hmod : ((offset : Int) + (i : Int)).tmod 8 = ((offset + i) % 8 : Nat) := by
      rw [Int.tmod_eq_emod_of_nonneg (by omega)]
      omega
    have hbits : littleEndian data / 2 ^ offset / 2 ^ i = littleEndian data / 2 ^ (offset + i) := by
      rw [Nat.div_div_eq_div_mul, pow_add]
    have hnext : littleEndian data / 2 ^ offset % 2 ^ (i + 1) =
        val.toNat + 2 ^ i * (littleEndian data / 2 ^ (offset + i) % 2) := by
      rw [Nat.mod_pow_succ, hbits, hval]
    have hlt : val.toNat < 2 ^ i := hval ▸ Nat.mod_lt _ (Nat.two_pow_pos i)
    have hmore : i + 1 + turns = i + (turns + 1) := by omega
    rw [extractBits]
    simp only [hpos, hmod, intOfSize_eq hsize]
    rw [if_neg (by omega)]
    by_cases hpast : data.length ≤ (offset + i) / 8
    · -- behind the payload the bits count as zero
      rw [if_pos (by omega)]
      refine ⟨val, rfl, ?_⟩
      have hzero : littleEndian data / 2 ^ (offset + i) = 0 := littleEndian_div_eq_zero hpast
      have hsmall : littleEndian data / 2 ^ offset < 2 ^ i :=
        (Nat.div_eq_zero_iff_lt (Nat.two_pow_pos i)).mp (hbits.trans hzero)
      rw [hval, Nat.mod_eq_of_lt hsmall, Nat.mod_eq_of_lt]
      exact hsmall.trans_le (Nat.pow_le_pow_right (by decide) (Nat.le_add_right i _))
    · have hin : (offset + i) / 8 < data.length := Nat.not_le.mp hpast
      have hbit : bitAt (data.getD ((offset + i) / 8 : Nat) 0) ((offset + i) % 8 : Nat) =
          decide (littleEndian data / 2 ^ (offset + i) % 2 = 1) := by
        rw [bitAt_eq_testBit _ (Nat.mod_lt _ (by decide)), ← testBit_littleEndian hin,
          Nat.testBit_eq_decide_div_mod_eq]
      rw [if_neg (by omega), if_neg (by omega), if_neg (by omega)]
      simp only [Int.toNat_natCast, hbit, decide_eq_true_eq]
      rw [← hmore]
      split_ifs with hone h64
      · omega
      · refine ih (by omega) (by omega) ?_
        rw [toNat_or_bit (by omega) hlt, hnext, hone, Nat.mul_one, Nat.add_comm]
      · refine ih (by omega) (by omega) ?_
        rw [hnext, (Nat.mod_two_ne_one).mp hone, Nat.mul_zero, Nat.add_zero]

/-- The `width` bits of a payload from the bit `offset` on, as a number. -/
def bitField (data : Payload) (offset width : Nat) : Nat :=
  littleEndian data / 2 ^ offset % 2 ^ width

/-- A reference to a signal of at most 64 bits whose last bit has a position in `int`. -/
def Extracts (ref : SignalRef) (sig : Signal) : Prop :=
  0 ≤ ref.bitOffset.toInt ∧ 0 ≤ sig.bitWidth.toInt ∧ sig.bitWidth.toInt ≤ 64 ∧
    ref.bitOffset.toInt + sig.bitWidth.toInt < 2 ^ 31

instance (ref : SignalRef) (sig : Signal) : Decidable (Extracts ref sig) :=
  inferInstanceAs (Decidable (_ ∧ _))

theorem decodeRef_value {db : DB} {data : Payload} (hsize : data.length < 2 ^ 31)
    {ref : SignalRef} {sig : Signal} (hsig : db.signal ref.name = some sig)
    (href : Extracts ref sig) :
    ∃ val : UInt64, val.toNat = bitField data ref.bitOffset.toInt.toNat sig.bitWidth.toInt.toNat ∧
      ∀ result, db.decodeRef data result ref = .ok (result.insert ref.name val) := by
  obtain ⟨hoffset, hwidth, h64, hend⟩ := href
  have hlast : ref.bitOffset.toInt + sig.bitWidth.toInt ≤ kIntMax := Int.lt_add_one_iff.mp hend
  have hlen : (data.length : Int) ≤ kIntMax := Int.lt_add_one_iff.mp (Int.ofNat_lt.mpr hsize)
  have hzero : (0 : UInt64).toNat =
      littleEndian data / 2 ^ ref.bitOffset.toInt.toNat % 2 ^ 0 := by
    rw [pow_zero, Nat.mod_one]
    rfl
  obtain ⟨val, hval, hvalue⟩ := extractBits_value ref.bitOffset.toInt.toNat
    sig.bitWidth.toInt.toNat hlen (by omega) (by omega) hzero
  rw [Int.toNat_of_nonneg hoffset] at hval
  rw [Nat.zero_add] at hvalue
  refine ⟨val, hvalue, fun result => ?_⟩
  rw [DB.signal] at hsig
  simp only [DB.decodeRef, hsig, hval]
  rfl

theorem foldlM_eq_ok {α β : Type} {f : β → α → Except Undefined β} {g : β → α → β} {l : List α}
    (h : ∀ a ∈ l, ∀ b, f b a = .ok (g b a)) (b : β) : l.foldlM f b = .ok (l.foldl g b) := by
  induction l generalizing b with
  | nil => rfl
  | cons a l ih =>
    rw [List.forall_mem_cons] at h
    rw [List.foldlM_cons, h.1, List.foldl_cons]
    exact ih h.2 (g b a)

/-- The value of a signal is its bit field, and nothing but the signals of the frame is in
the result. -/
theorem decode_value (db : DB) (id : UInt8) (fr : LDFFrame) (hfr : db.frame id = some fr)
    (hnames : (fr.signals.map (·.name)).Nodup)
    (hrefs : ∀ ref ∈ fr.signals, ∃ sig, db.signal ref.name = some sig ∧ Extracts ref sig)
    (data : Payload) (hsize : data.length < 2 ^ 31) :
    ∃ result, db.decode id data = .ok result ∧
      (∀ name, name ∈ result ↔ ∃ ref ∈ fr.signals, ref.name = name) ∧
      ∀ ref ∈ fr.signals, ∀ sig, db.signal ref.name = some sig →
        (result.lookup ref.name).map UInt64.toNat =
          some (bitField data ref.bitOffset.toInt.toNat sig.bitWidth.toInt.toNat) := by
  choose! sig hsig href using hrefs
  choose! val hval hstep using fun ref hmem => decodeRef_value hsize (hsig ref hmem) (href ref hmem)
  have hlookup := lookup_foldl_insert SignalRef.name val ∅ fr.signals
  simp only [AList.lookup_empty, Option.or_none] at hlookup
  refine ⟨fr.signals.foldl (fun m ref => m.insert ref.name (val ref)) ∅, ?_, fun name => ?_,
    fun ref hmem s hs => ?_⟩
  · rw [DB.frame] at hfr
    simp only [DB.decode, hfr]
    exact foldlM_eq_ok (fun ref hmem result => hstep ref hmem result) ∅
  · rw [← AList.lookup_isSome, hlookup, Option.isSome_map, ← Option.ne_none_iff_isSome, ne_eq,
      latest_eq_none_iff]
    simp only [ne_eq, not_forall, not_not, exists_prop]
  · rw [hsig ref hmem] at hs
    obtain rfl := Option.some.inj hs
    rw [hlookup, latest_eq_find? SignalRef.name hnames, find?_key SignalRef.name hnames hmem,
      Option.map_some, Option.map_some, hval ref hmem]

/-- A frame with a signal across a byte boundary and one that ends behind the payload. -/
def crossingDB : DB :=
  { frames_ := AList.insert 1
      { signals := [⟨"A".toList, 4⟩, ⟨"B".toList, 12⟩] } ∅
    signals_ := AList.insert "A".toList { bitWidth := 8 }
      (AList.insert "B".toList { bitWidth := 64 } ∅) }

theorem decode_value_crossing : ∃ result, crossingDB.decode 1 [0xBC, 0xDA] = .ok result ∧
    (result.lookup "A".toList).map UInt64.toNat = some 0xAB ∧
    (result.lookup "B".toList).map UInt64.toNat = some 0xD := by
  obtain ⟨result, hdecode, -, hvalue⟩ := decode_value crossingDB 1
    { signals := [⟨"A".toList, 4⟩, ⟨"B".toList, 12⟩] } rfl (by decide)
    (List.forall_mem_cons.mpr ⟨⟨{ bitWidth := 8 }, rfl, by decide⟩,
      List.forall_mem_singleton.mpr ⟨{ bitWidth := 64 }, rfl, by decide⟩⟩)
    [0xBC, 0xDA] (by decide)
  refine ⟨result, hdecode, ?_, ?_⟩
  · exact hvalue ⟨"A".toList, 4⟩ (by decide) { bitWidth := 8 } rfl
  · exact hvalue ⟨"B".toList, 12⟩ (by decide) { bitWidth := 64 } rfl

end CppLin.Ldf
