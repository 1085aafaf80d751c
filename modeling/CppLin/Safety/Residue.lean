import CppLin.Lib.Gf2
import CppLin.Safety.Detection

namespace CppLin.Safety
open Bytes Remainder Polynomial Gf2

/-- The message followed by sixteen zero bits, the initial value added to its
front, modulo the generator; nothing is reflected and nothing added at the end. -/
noncomputable def residue (d : Payload) : Polynomial (ZMod 2) :=
  (ofWord 0xFFFF#16 * X ^ (8 * d.length) + ofBits (bits d) * X ^ 16) %ₘ
    (X ^ 16 + X ^ 12 + X ^ 5 + 1)

theorem modulus_generator : modulus generator = X ^ 16 + X ^ 12 + X ^ 5 + 1 := by
  have hsplit : generator = BitVec.twoPow 16 12 ^^^ BitVec.twoPow 16 5 ^^^ BitVec.twoPow 16 0 := by
    decide
  have hword : ofWord generator = X ^ 12 + X ^ 5 + 1 := by
    rw [hsplit, ofWord_xor, ofWord_xor, ofWord_twoPow 12 (by decide), ofWord_twoPow 5 (by decide),
      ofWord_twoPow 0 (by decide), pow_zero]
  rw [modulus, hword]
  ring

theorem ofWord_crc16 (d : Payload) : ofWord (crc16 d).toBitVec = residue d := by
  have hloop : (crc16 d).toBitVec = run generator 0xFFFF#16 (bits d) := crc_toBitVec 0xFFFF d
  rw [hloop, ofWord_run_eq (by decide), bits_length, modulus_generator, residue]

/-- The CRC in bytes 8–9 of a header is `crc16` of bytes 0–7 and the payload, and
`crc16` of any bytes is the one word that stands for their remainder. -/
theorem crc_agrees (dataId sourceId : UInt16) (counter : UInt32) (payload : Payload) :
    (buildHeader dataId sourceId counter payload).drop 8 =
        [(crc16 ((buildHeader dataId sourceId counter payload).take 8 ++ payload)).toUInt8,
          (crc16 ((buildHeader dataId sourceId counter payload).take 8 ++ payload) >>> 8).toUInt8] ∧
      ∀ (d : Payload) (crc : UInt16), crc16 d = crc ↔ ofWord crc.toBitVec = residue d := by
  constructor
  · have heq := buildHeader_eq ⟨dataId, sourceId⟩ counter payload
    have htake : (buildHeader dataId sourceId counter payload).take 8 =
        idBytes dataId sourceId ++ counterBytes counter := by
      rw [heq]
      rfl
    rw [htake, heq]
    rfl
  · intro d crc
    rw [← ofWord_crc16, ← UInt16.toBitVec_inj]
    constructor
    · intro h
      rw [h]
    · intro h
      exact ofWord_injective h.symm

/-- The check value of this CRC, for the nine digits. -/
example : crc16 [0x31, 0x32, 0x33, 0x34, 0x35, 0x36, 0x37, 0x38, 0x39] = 0x29B1 := by decide +kernel

end CppLin.Safety
