import CppLin.Lib.Bytes

namespace CppLin.Safety
open Bytes

def kHeaderSize : Nat := 10

structure Config where
  dataId : UInt16 := 0
  sourceId : UInt16 := 0
  deriving DecidableEq, Repr

inductive E2EErrorKind where
  | crcMismatch
  | sequenceGap
  | headerTooShort
  deriving DecidableEq, Repr

structure E2EError where
  kind : E2EErrorKind
  counter : UInt32
  msg : CString
  deriving DecidableEq, Repr

/-- The text handed to `std::runtime_error`. -/
def E2EError.what (e : E2EError) : CString := "lin/safety: E2E error: ".toList ++ e.msg

def poly : UInt16 := 0x1021

/-- One turn of the inner loop: a shift, and the generator when the top bit falls out. -/
def crcBit (crc : UInt16) : UInt16 :=
  if crc &&& 0x8000 ≠ 0 then (crc <<< 1) ^^^ poly else crc <<< 1

/-- One turn of the outer loop, the same in `crc16` and in both loops of `build_header`. -/
def crcByte (crc : UInt16) (b : UInt8) : UInt16 := crcBit^[8] (crc ^^^ (b.toUInt16 <<< 8))

def crc16 (data : Payload) : UInt16 := data.foldl crcByte 0xFFFF

/-- Header bytes 0–3. -/
def idBytes (dataId sourceId : UInt16) : Payload :=
  [dataId.toUInt8, (dataId >>> 8).toUInt8, sourceId.toUInt8, (sourceId >>> 8).toUInt8]

/-- Header bytes 4–7. -/
def counterBytes (seq : UInt32) : Payload :=
  [seq.toUInt8, (seq >>> 8).toUInt8, (seq >>> 16).toUInt8, (seq >>> 24).toUInt8]

def buildHeader (dataId sourceId : UInt16) (seq : UInt32) (payload : Payload) : Payload :=
  let hdr := idBytes dataId sourceId ++ counterBytes seq
  let crcVal := payload.foldl crcByte (hdr.foldl crcByte 0xFFFF)
  hdr ++ [crcVal.toUInt8, (crcVal >>> 8).toUInt8]

structure Protector where
  cfg : Config
  seq : UInt32 := 0

def Protector.protect (s : Protector) (payload : Payload) : Payload × Protector :=
  (buildHeader s.cfg.dataId s.cfg.sourceId s.seq payload ++ payload, { s with seq := s.seq + 1 })

structure Receiver where
  cfg : Config
  lastSeq : UInt32 := 0
  first : Bool := true
  deriving DecidableEq, Repr

/-- The counter read from bytes 4–7. -/
def readCounter (data : Payload) : UInt32 :=
  word32 (data.getD 4 0) (data.getD 5 0) (data.getD 6 0) (data.getD 7 0)

/-- The 16-bit word read from bytes 8–9. -/
def readCrc (data : Payload) : UInt16 := word16 (data.getD 8 0) (data.getD 9 0)

def Receiver.unwrap (r : Receiver) (data : Payload) : Except E2EError Payload × Receiver :=
  if data.length < kHeaderSize then
    (.error { kind := .headerTooShort, counter := 0,
              msg := "need ".toList ++ toCString kHeaderSize ++ " bytes, got ".toList ++
                toCString data.length }, r)
  else
    let seq := readCounter data
    let payload := data.drop kHeaderSize
    let expectedHdr := buildHeader r.cfg.dataId r.cfg.sourceId seq payload
    if readCrc data ≠ readCrc expectedHdr then
      (.error { kind := .crcMismatch, counter := seq, msg := "CRC mismatch".toList }, r)
    else if r.first = false ∧ seq ≠ r.lastSeq + 1 then
      -- `last_seq_` is not advanced on a rejected frame
      (.error { kind := .sequenceGap, counter := seq,
                msg := "expected ".toList ++ toCString (r.lastSeq + 1).toNat ++ ", got ".toList ++
                  toCString seq.toNat }, r)
    else (.ok payload, { r with first := false, lastSeq := seq })

/-- The CRC a header of this configuration and counter carries for a payload. -/
def headerCrc (cfg : Config) (seq : UInt32) (payload : Payload) : UInt16 :=
  crc16 (idBytes cfg.dataId cfg.sourceId ++ counterBytes seq ++ payload)

@[simp] theorem idBytes_length (a b : UInt16) : (idBytes a b).length = 4 := rfl
@[simp] theorem counterBytes_length (q : UInt32) : (counterBytes q).length = 4 := rfl

theorem buildHeader_eq (cfg : Config) (seq : UInt32) (p : Payload) :
    buildHeader cfg.dataId cfg.sourceId seq p = idBytes cfg.dataId cfg.sourceId ++
      counterBytes seq ++ [(headerCrc cfg seq p).toUInt8, (headerCrc cfg seq p >>> 8).toUInt8] := by
  simp only [buildHeader, headerCrc, crc16, List.foldl_append]

@[simp] theorem buildHeader_length (a b : UInt16) (q : UInt32) (p : Payload) :
    (buildHeader a b q p).length = kHeaderSize := rfl

theorem readCounter_buildHeader (a b : UInt16) (q : UInt32) (p x : Payload) :
    readCounter (buildHeader a b q p ++ x) = q := word32_bytes q

theorem readCrc_buildHeader (cfg : Config) (q : UInt32) (p x : Payload) :
    readCrc (buildHeader cfg.dataId cfg.sourceId q p ++ x) = headerCrc cfg q p := by
  rw [buildHeader_eq]
  exact word16_bytes (headerCrc cfg q p)

theorem drop_header (a b : UInt16) (q : UInt32) (p x : Payload) :
    (buildHeader a b q p ++ x).drop kHeaderSize = x := rfl

theorem header_split (d : Payload) (h : kHeaderSize ≤ d.length) :
    d = d.take 4 ++ counterBytes (readCounter d) ++
      [(readCrc d).toUInt8, (readCrc d >>> 8).toUInt8] ++ d.drop kHeaderSize := by
  obtain ⟨b0, b1, b2, b3, b4, b5, b6, b7, b8, b9, p, rfl⟩ : ∃ b0 b1 b2 b3 b4 b5 b6 b7 b8 b9 p,
      d = b0 :: b1 :: b2 :: b3 :: b4 :: b5 :: b6 :: b7 :: b8 :: b9 :: p := by
    match d, h with
    | b0 :: b1 :: b2 :: b3 :: b4 :: b5 :: b6 :: b7 :: b8 :: b9 :: p, _ =>
      exact ⟨b0, b1, b2, b3, b4, b5, b6, b7, b8, b9, p, rfl⟩
  obtain ⟨c0, c1, c2, c3⟩ := bytes_word32 b4 b5 b6 b7
  obtain ⟨r0, r1⟩ := bytes_word16 b8 b9
  change _ = [b0, b1, b2, b3] ++ counterBytes (word32 b4 b5 b6 b7) ++
    [(word16 b8 b9).toUInt8, (word16 b8 b9 >>> 8).toUInt8] ++ p
  simp only [counterBytes, c0, c1, c2, c3, r0, r1, List.cons_append, List.nil_append]

/-- What `unwrap` accepts, and the state it leaves behind then. -/
theorem unwrap_ok_iff (r r' : Receiver) (d p : Payload) :
    r.unwrap d = (.ok p, r') ↔ kHeaderSize ≤ d.length ∧ p = d.drop kHeaderSize ∧
      readCrc d = headerCrc r.cfg (readCounter d) p ∧
      (r.first = true ∨ readCounter d = r.lastSeq + 1) ∧
      r' = { r with first := false, lastSeq := readCounter d } := by
  have hc := readCrc_buildHeader r.cfg (readCounter d) (d.drop kHeaderSize) []
  rw [List.append_nil] at hc
  unfold Receiver.unwrap
  simp only [hc]
  split_ifs with hshort hcrc hgap
  · simp; omega
  · simp; grind
  · grind
  · grind

theorem unwrap_error {r : Receiver} {d : Payload} {e : E2EError}
    (h : (r.unwrap d).1 = .error e) : (r.unwrap d).2 = r := by
  unfold Receiver.unwrap at h ⊢
  simp only at h ⊢
  split_ifs at h ⊢ <;> rfl

@[simp] theorem unwrap_cfg (r : Receiver) (d : Payload) : (r.unwrap d).2.cfg = r.cfg := by
  unfold Receiver.unwrap
  simp only
  split_ifs <;> rfl

end CppLin.Safety
