import CppLin.Safety.Detection

/-!
What the CRC of the header covers: the identifiers of both ends, so that a message does not
pass for another sender's, and not the two bytes it is stored in.
-/
namespace CppLin.Safety
open Bytes Remainder

theorem bits_injective {a b : Payload} (hlen : a.length = b.length) (h : bits a = bits b) :
    a = b := by
  induction a generalizing b with
  | nil => exact (List.eq_nil_of_length_eq_zero hlen.symm).symm
  | cons x a ih =>
    cases b with
    | nil => simp at hlen
    | cons y b =>
      rw [bits_cons, bits_cons] at h
      obtain ⟨hx, hrest⟩ := List.append_inj h (by simp [bitsOf])
      have hbyte : x.toBitVec = y.toBitVec := by
        rw [← high_bitsOf (by decide) x.toBitVec, hx, high_bitsOf (by decide)]
      rw [UInt8.toBitVec_inj.mp hbyte, ih (by simpa using hlen) hrest]

theorem zipWith_xor_self (bs : List Bool) :
    List.zipWith (· ^^ ·) bs bs = List.replicate bs.length false := by
  induction bs with
  | nil => rfl
  | cons b bs ih => rw [List.zipWith_cons_cons, ih, Bool.xor_self, List.length_cons,
      List.replicate_succ]

/-- A word of sixteen bits exchanged for another changes the CRC, wherever it stands. -/
theorem crc16_ne_of_word (before after : Payload) {a b : Payload} (ha : a.length = 2)
    (hb : b.length = 2) (hne : a ≠ b) :
    crc16 (before ++ a ++ after) ≠ crc16 (before ++ b ++ after) := by
  have hbits : (bits a).length = (bits b).length := by rw [bits_length, bits_length, ha, hb]
  have hdiff : true ∈ List.zipWith (· ^^ ·) (bits a) (bits b) := by
    by_contra hnone
    refine hne (bits_injective (ha.trans hb.symm) (List.ext_getElem? fun i => ?_))
    by_contra hi
    exact hnone (List.mem_of_getElem? ((getElem?_zipWith_xor hbits).mpr (Ne.symm hi)))
  intro heq
  have hcrc := congrArg UInt16.toBitVec heq
  rw [crc16, crc16, crc_toBitVec, crc_toBitVec, ← BitVec.xor_eq_zero_iff, ← run_xor _ _ _ _ _ (by
    simp only [bits_length, List.length_append, ha, hb]), BitVec.xor_self] at hcrc
  simp only [bits_append] at hcrc
  rw [List.zipWith_append (by simp [hbits]), List.zipWith_append rfl, zipWith_xor_self,
    zipWith_xor_self] at hcrc
  exact run_burst rfl _ _ (by simp [bits_length, ha, hb]) hdiff hcrc

/-- A message of a sender that differs in one of the two identifiers is found out. -/
theorem unwrap_detects_identity (s : Protector) (payload : Payload) (r : Receiver)
    (hone : s.cfg.dataId ≠ r.cfg.dataId ∧ s.cfg.sourceId = r.cfg.sourceId ∨
      s.cfg.dataId = r.cfg.dataId ∧ s.cfg.sourceId ≠ r.cfg.sourceId) :
    Detected r (s.protect payload).1 := by
  have word_ne : ∀ {a b : UInt16}, a ≠ b →
      [a.toUInt8, (a >>> 8).toUInt8] ≠ [b.toUInt8, (b >>> 8).toUInt8] := by
    intro a b hne heq
    obtain ⟨hlow, hrest⟩ := List.cons.inj heq
    obtain ⟨hhigh, -⟩ := List.cons.inj hrest
    exact hne (by rw [← word16_bytes a, hlow, hhigh, word16_bytes])
  have hprotect : (s.protect payload).1 = message s.cfg s.seq payload := rfl
  have hsize : kHeaderSize ≤ (message s.cfg s.seq payload).length := by simp [message]
  rw [hprotect]
  refine detected_of_crc hsize ?_
  rw [message, readCrc_buildHeader, readCounter_buildHeader, drop_header, headerCrc, headerCrc]
  have hsplit : ∀ cfg : Config, idBytes cfg.dataId cfg.sourceId ++ counterBytes s.seq ++ payload =
      [cfg.dataId.toUInt8, (cfg.dataId >>> 8).toUInt8] ++
        [cfg.sourceId.toUInt8, (cfg.sourceId >>> 8).toUInt8] ++ (counterBytes s.seq ++ payload) :=
    fun _ => rfl
  rw [hsplit, hsplit]
  rcases hone with ⟨hdata, hsource⟩ | ⟨hdata, hsource⟩
  · rw [hsource, List.append_assoc, List.append_assoc]
    exact crc16_ne_of_word [] _ rfl rfl (word_ne hdata)
  · rw [hdata]
    exact crc16_ne_of_word _ _ rfl rfl (word_ne hsource)

/-- A message of source 2 at a receiver that expects source 3. -/
theorem unwrap_detects_identity_source :
    Detected { cfg := { dataId := 1, sourceId := 3 }, lastSeq := 6, first := false }
      (Protector.protect { cfg := { dataId := 1, sourceId := 2 }, seq := 7 } [0x10, 0x20]).1 :=
  unwrap_detects_identity _ _ _ (.inr ⟨rfl, by decide⟩)

def zeroedHeader (m : Payload) : Payload := m.take 8 ++ [0, 0]

/-- Two zero bytes leave the register as it is when it holds nothing or the quotient of the
generator by `x + 1`. -/
theorem crcByte_zero_zero_iff (crc : UInt16) :
    crcByte (crcByte crc 0) 0 = crc ↔ crc = 0 ∨ crc = 0xF01F := by
  have hbits : bits [0, 0] = List.replicate 16 false := by decide
  have hstep : (crcByte (crcByte crc 0) 0).toBitVec = (step generator)^[16] crc.toBitVec := by
    rw [← run_false, ← hbits, ← crc_toBitVec]
    rfl
  have hperiod : Function.IsPeriodicPt (step generator) 32767 1#16 :=
    minimalPeriod_generator ▸ Function.isPeriodicPt_minimalPeriod _ _
  rw [← UInt16.toBitVec_inj, hstep,
    iterate_eq_self_iff (q := 0xF01F#16) (by decide) rfl hperiod (by decide), ← UInt16.toBitVec_inj,
    ← UInt16.toBitVec_inj]
  rfl

theorem crcByte_injective (b : UInt8) : Function.Injective (crcByte · b) := by
  intro c c' h
  have hrun := congrArg UInt16.toBitVec h
  rw [crcByte_toBitVec, crcByte_toBitVec, run_eq_iterate _ _ _ (by simp [bitsOf]),
    run_eq_iterate _ _ _ (by simp [bitsOf])] at hrun
  have hxor := (step_injective rfl).iterate _ hrun
  exact UInt16.toBitVec_inj.mp ((BitVec.xor_left_inj _).mp hxor)

theorem foldl_crcByte_injective (d : Payload) :
    Function.Injective fun crc => d.foldl crcByte crc := by
  induction d with
  | nil => exact Function.injective_id
  | cons b d ih => exact fun c c' h => crcByte_injective b (ih h)

/-- The CRC a message carries is that of the header with its slot zeroed, and the payload,
exactly where the eight bytes before the slot have one of two CRCs of their own. -/
theorem crc_covers_slot_iff (s : Protector) (payload : Payload) :
    readCrc (s.protect payload).1 = crc16 (zeroedHeader (s.protect payload).1 ++ payload) ↔
      crc16 (idBytes s.cfg.dataId s.cfg.sourceId ++ counterBytes s.seq) = 0 ∨
        crc16 (idBytes s.cfg.dataId s.cfg.sourceId ++ counterBytes s.seq) = 0xF01F := by
  have hcrc : readCrc (s.protect payload).1 = headerCrc s.cfg s.seq payload :=
    readCrc_buildHeader s.cfg s.seq payload payload
  have hslot : zeroedHeader (s.protect payload).1 =
      idBytes s.cfg.dataId s.cfg.sourceId ++ counterBytes s.seq ++ [0, 0] := rfl
  rw [hcrc, hslot, headerCrc, crc16, crc16, crc16, List.foldl_append, List.foldl_append,
    List.foldl_append, (foldl_crcByte_injective payload).eq_iff, ← crcByte_zero_zero_iff, eq_comm]
  rfl

/-- All fields zero, and no payload. -/
theorem not_crc_covers_slot : ¬ ∀ (s : Protector) (payload : Payload),
    readCrc (s.protect payload).1 = crc16 (zeroedHeader (s.protect payload).1 ++ payload) := by
  intro h
  have heq := h { cfg := {} } []
  revert heq
  decide +kernel

end CppLin.Safety
