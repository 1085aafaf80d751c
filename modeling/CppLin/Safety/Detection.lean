import CppLin.Lib.Remainder
import CppLin.Safety.Receiver

/-!
Which transmission errors the CRC finds. The register of the CRC loop is the
remainder register of `Lib.Remainder`, so two messages of one length carry the
same CRC exactly when their difference leaves nothing.
-/
namespace CppLin.Safety
open Bytes Remainder

/-- The generator `x^16 + x^12 + x^5 + 1` without its leading term. -/
abbrev generator : BitVec 16 := 0x1021#16

/-- The bits of a byte string, each byte's most significant bit first. -/
def bits (d : Payload) : List Bool := d.flatMap fun b => bitsOf b.toBitVec

/-- The bits of a message the CRC loop takes in after the ids, in its order. -/
def crcBits (d : Payload) : List Bool := bits ((d.drop 4).take 4 ++ d.drop kHeaderSize)

theorem bits_cons (b : UInt8) (d : Payload) : bits (b :: d) = bitsOf b.toBitVec ++ bits d := rfl

theorem bits_append (a b : Payload) : bits (a ++ b) = bits a ++ bits b := List.flatMap_append

theorem bits_length (d : Payload) : (bits d).length = 8 * d.length := by
  induction d with
  | nil => rfl
  | cons b d ih =>
    rw [bits_cons, List.length_append, ih, List.length_cons]
    simp [bitsOf]; omega

section register

theorem and_0x8000 (crc : UInt16) : crc &&& 0x8000 ≠ 0 ↔ crc.toBitVec.msb = true := by
  have htop : (crc &&& 0x8000).toBitVec =
      if crc.toBitVec.getLsbD 15 then BitVec.twoPow 16 15 else 0#16 :=
    BitVec.and_twoPow crc.toBitVec 15
  rw [Ne, ← UInt16.toBitVec_inj, htop, BitVec.msb_eq_getLsbD_last]
  cases crc.toBitVec.getLsbD 15 <;> decide

theorem crcBit_toBitVec (crc : UInt16) : (crcBit crc).toBitVec = step generator crc.toBitVec := by
  unfold crcBit step
  by_cases h : crc &&& 0x8000 ≠ 0
  · rw [if_pos h, if_pos ((and_0x8000 crc).mp h)]
    rfl
  · rw [if_neg h, if_neg (mt (and_0x8000 crc).mpr h)]
    rfl

theorem high_byte (b : UInt8) : high (bitsOf b.toBitVec) = (b.toUInt16 <<< 8).toBitVec := by
  apply BitVec.eq_of_getMsbD_eq
  intro i hi
  have hshift : (b.toUInt16 <<< 8).toBitVec = b.toBitVec.setWidth 16 <<< 8 := rfl
  rw [getMsbD_high (by decide) _ i hi, hshift]
  simp [bitsOf, BitVec.getMsbD_eq_getLsbD]
  grind

theorem crcByte_toBitVec (crc : UInt16) (b : UInt8) :
    (crcByte crc b).toBitVec = run generator crc.toBitVec (bitsOf b.toBitVec) := by
  have iterate : ∀ n (c : UInt16), (crcBit^[n] c).toBitVec = (step generator)^[n] c.toBitVec := by
    intro n
    induction n with
    | zero => exact fun c => rfl
    | succ n ih =>
      intro c
      rw [Function.iterate_succ_apply, ih, crcBit_toBitVec, Function.iterate_succ_apply]
  rw [crcByte, iterate, run_eq_iterate _ _ _ (by simp [bitsOf]), high_byte]
  rfl

theorem crc_toBitVec (crc : UInt16) (d : Payload) :
    (d.foldl crcByte crc).toBitVec = run generator crc.toBitVec (bits d) := by
  induction d generalizing crc with
  | nil => rfl
  | cons b d ih =>
    rw [List.foldl_cons, ih, crcByte_toBitVec, bits_cons, run_append]

theorem headerCrc_toBitVec (cfg : Config) {d : Payload} (h : kHeaderSize ≤ d.length) :
    (headerCrc cfg (readCounter d) (d.drop kHeaderSize)).toBitVec =
      run generator (crc16 (idBytes cfg.dataId cfg.sourceId)).toBitVec (crcBits d) := by
  have hcounter : counterBytes (readCounter d) = (d.drop 4).take 4 := by
    conv_rhs => rw [header_split d h]
    have : (d.take 4).length = 4 := by simp [kHeaderSize] at h ⊢; omega
    simp [List.append_assoc, List.take_append, this]
  rw [headerCrc, crc16, List.append_assoc, List.foldl_append, hcounter, crc_toBitVec]
  rfl

end register

section difference

/-- The bytes in which two messages of one length differ, as exclusive or. -/
def difference (a b : Payload) : Payload := List.zipWith (· ^^^ ·) a b

theorem bitsOf_xor {w : Nat} (a b : BitVec w) :
    bitsOf (a ^^^ b) = List.zipWith (· ^^ ·) (bitsOf a) (bitsOf b) := by
  apply List.ext_getElem (by simp [bitsOf])
  intro i h1 h2
  simp [bitsOf]

theorem bits_difference (a b : Payload) (h : a.length = b.length) :
    bits (difference a b) = List.zipWith (· ^^ ·) (bits a) (bits b) := by
  induction a generalizing b with
  | nil => rfl
  | cons x a ih =>
    cases b with
    | nil => simp at h
    | cons y b =>
      rw [bits_cons, bits_cons, List.zipWith_append (by simp [bitsOf]), ← ih b (by simpa using h),
        ← bitsOf_xor]
      rfl

theorem bitsOf_word16 (b0 b1 : UInt8) :
    bitsOf (word16 b0 b1).toBitVec = bitsOf b1.toBitVec ++ bitsOf b0.toBitVec := by
  have hword : (word16 b0 b1).toBitVec = b1.toBitVec ++ b0.toBitVec := by
    apply BitVec.eq_of_getLsbD_eq
    intro i hi
    have : (word16 b0 b1).toBitVec =
      b0.toBitVec.setWidth 16 ||| (b1.toBitVec.setWidth 16 <<< 8) := rfl
    rw [this, BitVec.getLsbD_append]
    simp
    grind
  rw [hword]
  apply List.ext_getElem (by simp [bitsOf])
  intro i h1 h2
  simp [bitsOf, List.getElem_append]
  grind

/-- The error pattern in the order of the code: the bits the CRC loop takes in,
then the CRC, its high byte first. -/
def errorBits (m m' : Payload) : List Bool :=
  List.zipWith (· ^^ ·) (crcBits m) (crcBits m') ++
    bitsOf (readCrc m ^^^ readCrc m').toBitVec

theorem ten_bytes {d : Payload} (h : kHeaderSize ≤ d.length) :
    ∃ b0 b1 b2 b3 b4 b5 b6 b7 b8 b9 p,
      d = b0 :: b1 :: b2 :: b3 :: b4 :: b5 :: b6 :: b7 :: b8 :: b9 :: p := by
  match d, h with
  | b0 :: b1 :: b2 :: b3 :: b4 :: b5 :: b6 :: b7 :: b8 :: b9 :: p, _ =>
    exact ⟨b0, b1, b2, b3, b4, b5, b6, b7, b8, b9, p, rfl⟩

/-- The code sees the flipped bits in another order than the message holds them. -/
theorem errorBits_perm {m m' : Payload} (hlen : m'.length = m.length)
    (hsize : kHeaderSize ≤ m.length) :
    (errorBits m m').Perm (bits ((difference m m').drop 4)) := by
  obtain ⟨_, _, _, _, b4, b5, b6, b7, b8, b9, p, rfl⟩ := ten_bytes hsize
  obtain ⟨_, _, _, _, c4, c5, c6, c7, c8, c9, q, rfl⟩ := ten_bytes (hsize.trans hlen.ge)
  have hrest : (b4 :: b5 :: b6 :: b7 :: p).length = (c4 :: c5 :: c6 :: c7 :: q).length := by
    simpa using hlen.symm
  have hcrc : bitsOf (word16 b8 b9 ^^^ word16 c8 c9).toBitVec =
      bits [b9 ^^^ c9, b8 ^^^ c8] := by
    rw [UInt16.toBitVec_xor, bitsOf_xor, bitsOf_word16, bitsOf_word16,
      List.zipWith_append (by simp [bitsOf]), ← bitsOf_xor, ← bitsOf_xor]
    rfl
  change (List.zipWith _ (bits (b4 :: b5 :: b6 :: b7 :: p)) (bits (c4 :: c5 :: c6 :: c7 :: q)) ++
    bitsOf (word16 b8 b9 ^^^ word16 c8 c9).toBitVec).Perm
      (bits ((b4 ^^^ c4) :: (b5 ^^^ c5) :: (b6 ^^^ c6) :: (b7 ^^^ c7) :: (b8 ^^^ c8) ::
        (b9 ^^^ c9) :: difference p q))
  rw [← bits_difference _ _ hrest, hcrc, ← bits_append]
  apply List.Perm.flatMap_right
  change ((b4 ^^^ c4) :: (b5 ^^^ c5) :: (b6 ^^^ c6) :: (b7 ^^^ c7) :: (difference p q ++
    [b9 ^^^ c9, b8 ^^^ c8])).Perm _
  refine .cons _ (.cons _ (.cons _ (.cons _ ?_)))
  exact List.perm_append_comm.trans (.swap _ _ _)

end difference

section detection

/-- `unwrap` throws `CRCMismatch` for `d`. -/
def Detected (r : Receiver) (d : Payload) : Prop :=
  ∃ e, (r.unwrap d).1 = .error e ∧ e.kind = .crcMismatch

theorem detected_of_crc {r : Receiver} {d : Payload} (hlen : kHeaderSize ≤ d.length)
    (hne : readCrc d ≠ headerCrc r.cfg (readCounter d) (d.drop kHeaderSize)) : Detected r d := by
  have hexpected := readCrc_buildHeader r.cfg (readCounter d) (d.drop kHeaderSize) []
  rw [List.append_nil] at hexpected
  refine ⟨{ kind := .crcMismatch, counter := readCounter d, msg := "CRC mismatch".toList }, ?_, rfl⟩
  simp only [Receiver.unwrap, hexpected]
  rw [if_neg (by omega), if_pos hne]

theorem readCrc_message (cfg : Config) (seq : UInt32) (payload : Payload) :
    readCrc (message cfg seq payload) = headerCrc cfg
      (readCounter (message cfg seq payload)) ((message cfg seq payload).drop kHeaderSize) := by
  rw [message, readCrc_buildHeader, readCounter_buildHeader, drop_header]

theorem detected_of_run {cfg : Config} {seq : UInt32} {payload m' : Payload} {r : Receiver}
    (hcfg : r.cfg = cfg) (hlen : m'.length = (message cfg seq payload).length)
    (hrun : run generator 0#16 (errorBits (message cfg seq payload) m') ≠ 0#16) :
    Detected r m' := by
  have hm : kHeaderSize ≤ (message cfg seq payload).length := by
    simp [message]
  have hm' : kHeaderSize ≤ m'.length := hlen ▸ hm
  have hbits : (crcBits (message cfg seq payload)).length = (crcBits m').length := by
    simp only [crcBits, bits_length, List.length_append, List.length_take, List.length_drop, hlen]
  apply detected_of_crc hm'
  intro heq
  apply hrun
  rw [errorBits, run_append_bitsOf rfl (by decide), UInt16.toBitVec_xor, readCrc_message, heq, hcfg,
    headerCrc_toBitVec cfg hm, headerCrc_toBitVec cfg hm', ← run_xor _ _ _ _ _ hbits,
    BitVec.xor_self]

/-- `m'` differs from `m` only in the counter and the payload, and there only within
sixteen consecutive bits of what the CRC loop takes in. -/
structure BurstError (m m' : Payload) : Prop where
  length : m'.length = m.length
  ids : m'.take 4 = m.take 4
  crc : (m'.drop 8).take 2 = (m.drop 8).take 2
  burst : ∃ s, ∀ i, (crcBits m')[i]? ≠ (crcBits m)[i]? → s ≤ i ∧ i < s + 16
  differs : crcBits m' ≠ crcBits m

/-- `m'` is `m` with `n` bits flipped, none of them in the ids. -/
structure BitErrors (m m' : Payload) (n : Nat) : Prop where
  length : m'.length = m.length
  ids : m'.take 4 = m.take 4
  flipped : (bits (difference m m')).count true = n

theorem BitErrors.count_errorBits {m m' : Payload} {n : Nat} (h : BitErrors m m' n)
    (hsize : kHeaderSize ≤ m.length) : (errorBits m m').count true = n := by
  have hids : (bits ((difference m m').take 4)).count true = 0 := by
    rw [difference, List.take_zipWith, h.ids, List.zipWith_self]
    simp [bits, bitsOf, List.count_eq_zero]
  rw [(errorBits_perm h.length hsize).count_eq, ← h.flipped]
  conv_rhs => rw [← List.take_append_drop 4 (difference m m'), bits_append, List.count_append, hids]
  exact (Nat.zero_add _).symm

theorem errorBits_length {m m' : Payload} (hlen : m'.length = m.length)
    (hsize : kHeaderSize ≤ m.length) : (errorBits m m').length = 8 * (m.length - 4) := by
  rw [(errorBits_perm hlen hsize).length_eq, bits_length, difference]
  simp [hlen]

theorem parity_generator : parity generator = 1 := by decide

theorem prime_factor {p : Nat} (hp : p.Prime) (h : p ∣ 32767) : p = 7 ∨ p = 31 ∨ p = 151 := by
  have h : p ∣ 7 * 31 * 151 := h
  rw [hp.dvd_mul, hp.dvd_mul, Nat.prime_dvd_prime_iff_eq hp (by norm_num),
    Nat.prime_dvd_prime_iff_eq hp (by norm_num), Nat.prime_dvd_prime_iff_eq hp (by norm_num)] at h
  exact or_assoc.mp h

/-- `x` has order `2 ^ 15 - 1` modulo the generator. -/
theorem minimalPeriod_generator : Function.minimalPeriod (step generator) 1#16 = 32767 := by
  have hpower : ∀ digits, Function.IsPeriodicPt (step generator)
      (digits.foldl (fun n b => Nat.bit b n) 0) 1#16 ↔ power generator digits = 1#16 := by
    intro digits
    rw [power_eq_iterate]
    rfl
  apply minimalPeriod_eq
  · exact (hpower (List.replicate 15 true)).mpr (by decide +kernel)
  · intro p hp hdvd
    -- the binary digits of 4681, 1057 and 217
    rcases prime_factor hp hdvd with rfl | rfl | rfl
    · exact mt (hpower [true, false, false, true, false, false, true, false, false, true, false,
        false, true]).mp (by decide +kernel)
    · exact mt (hpower [true, false, false, false, false, true, false, false, false, false,
        true]).mp (by decide +kernel)
    · exact mt (hpower [true, true, false, true, true, false, false, true]).mp (by decide +kernel)

theorem run_bitErrors {m m' : Payload} {n : Nat} (h : BitErrors m m' n)
    (hsize : kHeaderSize ≤ m.length)
    (hn : Odd n ∨ n = 2 ∧ 8 * (m.length - 4) ≤ 32767) :
    run generator 0#16 (errorBits m m') ≠ 0#16 := by
  have hcount := h.count_errorBits hsize
  rcases hn with hodd | ⟨htwo, hshort⟩
  · exact run_odd parity_generator (by decide) (hcount ▸ hodd)
  · apply run_two rfl (by decide) (hcount.trans htwo)
    rwa [minimalPeriod_generator, errorBits_length h.length hsize]

theorem getElem?_zipWith_xor {a b : List Bool} {i : Nat} (hlen : a.length = b.length) :
    (List.zipWith (· ^^ ·) a b)[i]? = some true ↔ b[i]? ≠ a[i]? := by
  rw [List.getElem?_zipWith]
  by_cases hi : i < a.length
  · have hi' : i < b.length := hlen ▸ hi
    rw [List.getElem?_eq_getElem hi, List.getElem?_eq_getElem hi']
    cases a[i] <;> cases b[i] <;> simp
  · simp [List.getElem?_eq_none (not_lt.mp hi), List.getElem?_eq_none (hlen ▸ not_lt.mp hi)]

theorem run_burstError {m m' : Payload} (h : BurstError m m') :
    run generator 0#16 (errorBits m m') ≠ 0#16 := by
  have hbits : (crcBits m).length = (crcBits m').length := by
    simp only [crcBits, bits_length, List.length_append, List.length_take, List.length_drop,
      h.length]
  have hsame : readCrc m = readCrc m' := by
    have getD_drop : ∀ d : Payload, d.getD 8 0 = ((d.drop 8).take 2).getD 0 0 ∧
        d.getD 9 0 = ((d.drop 8).take 2).getD 1 0 := by simp
    rw [readCrc, readCrc, (getD_drop m).1, (getD_drop m).2, (getD_drop m').1, (getD_drop m').2,
      h.crc]
  obtain ⟨s, hnear⟩ := h.burst
  rw [errorBits, hsame, UInt16.xor_self, Ne, run_append_bitsOf rfl (by decide)]
  apply run_within rfl (s := s)
  · exact fun i hi => hnear i ((getElem?_zipWith_xor hbits).mp hi)
  · obtain ⟨i, hi⟩ : ∃ i, (crcBits m')[i]? ≠ (crcBits m)[i]? := by
      by_contra hall
      exact h.differs (List.ext_getElem? fun i => not_not.mp fun hi => hall ⟨i, hi⟩)
    exact List.mem_of_getElem? ((getElem?_zipWith_xor hbits).mpr hi)

/-- Every burst of up to sixteen bits in the counter and the payload is found. -/
theorem unwrap_detects_burst (s : Protector) (payload m' : Payload) (r : Receiver)
    (hcfg : r.cfg = s.cfg) (herror : BurstError (s.protect payload).1 m') : Detected r m' := by
  have hlength : m'.length = (message s.cfg s.seq payload).length := herror.length
  apply detected_of_run hcfg hlength
  exact run_burstError herror

/-- The bits flipped are the last sixteen of the payload. -/
theorem unwrap_detects_burst_payload :
    Detected { cfg := { dataId := 1, sourceId := 2 }, lastSeq := 6, first := false }
      [1, 0, 2, 0, 7, 0, 0, 0, 0x8A, 0xEE, 0xEF, 0xDF] := by
  apply unwrap_detects_burst { cfg := { dataId := 1, sourceId := 2 }, seq := 7 } [0x10, 0x20] _ _ rfl
  have hmessage : (Protector.protect { cfg := { dataId := 1, sourceId := 2 }, seq := 7 }
      [0x10, 0x20]).1 = [1, 0, 2, 0, 7, 0, 0, 0, 0x8A, 0xEE, 0x10, 0x20] := by decide +kernel
  rw [hmessage]
  refine ⟨rfl, rfl, rfl, ⟨32, ?_⟩, by decide +kernel⟩
  have hlen : ∀ d : Payload, d.length = 12 → (crcBits d).length = 48 := by
    intro d hd
    simp [crcBits, bits_length, hd, kHeaderSize]
  intro i hi
  have hsame : ∀ i < 32, (crcBits [1, 0, 2, 0, 7, 0, 0, 0, 0x8A, 0xEE, 0xEF, 0xDF])[i]? =
      (crcBits [1, 0, 2, 0, 7, 0, 0, 0, 0x8A, 0xEE, 0x10, 0x20])[i]? := by decide +kernel
  refine ⟨not_lt.mp fun h => hi (hsame i h), not_le.mp fun h => hi ?_⟩
  rw [List.getElem?_eq_none ((hlen _ rfl).trans_le h), List.getElem?_eq_none ((hlen _ rfl).trans_le h)]

/-- So is every odd number of flipped bits, and any two of them in a message short
enough for the order of `x`. -/
theorem unwrap_detects_bitErrors (s : Protector) (payload m' : Payload) (r : Receiver) (n : Nat)
    (hcfg : r.cfg = s.cfg) (herror : BitErrors (s.protect payload).1 m' n)
    (hn : Odd n ∨ n = 2 ∧ payload.length ≤ 4085) : Detected r m' := by
  have hlen : (s.protect payload).1.length = kHeaderSize + payload.length := by
    simp [Protector.protect]
  have hlength : m'.length = (message s.cfg s.seq payload).length := herror.length
  apply detected_of_run hcfg hlength
  apply run_bitErrors herror (by omega)
  refine hn.imp_right fun h => ⟨h.1, ?_⟩
  rw [hlen, kHeaderSize]
  omega

/-- One bit of the counter and one of the CRC flipped. -/
theorem unwrap_detects_bitErrors_two :
    Detected { cfg := { dataId := 1, sourceId := 2 } }
      [1, 0, 2, 0, 6, 0, 0, 0, 0x8B, 0xEE, 0x10, 0x20] :=
  unwrap_detects_bitErrors { cfg := { dataId := 1, sourceId := 2 }, seq := 7 } [0x10, 0x20] _ _ 2 rfl
    ⟨by decide +kernel, by decide +kernel, by decide +kernel⟩ (Or.inr ⟨rfl, by decide⟩)

end detection
end CppLin.Safety
