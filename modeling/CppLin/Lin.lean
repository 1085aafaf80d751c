import CppLin.Lib.CNumber
import CppLin.Relay

namespace CppLin
open Bytes CNumber

def kLINMaxDataLen : Nat := 8
def kLINMaxID : UInt8 := 0x3F
def kLINDiagRequestID : UInt8 := 0x3C
def kLINDiagResponseID : UInt8 := 0x3D

inductive ChecksumType where
  | classic
  | enhanced
  deriving DecidableEq, Repr

structure Frame where
  id : UInt8 := 0
  data : Payload := []
  checksum : UInt8 := 0
  checksumType : ChecksumType := .classic
  deriving DecidableEq, Repr

structure Filter where
  id : UInt8 := 0
  all : Bool := false
  deriving DecidableEq, Repr

def Filter.isMatch (fl : Filter) (f : Frame) : Bool := fl.all || f.id == fl.id

structure ScheduleEntry where
  id : UInt8 := 0
  delayMs : UInt32 := 0
  deriving DecidableEq, Repr

structure ErrInvalidFrame where
  reason : CString
  deriving DecidableEq, Repr

def ErrInvalidFrame.what (e : ErrInvalidFrame) : CString := "lin: invalid frame: ".toList ++ e.reason

inductive Errc where
  | invalidFrame
  | noResponse
  deriving DecidableEq, Repr

/-- A non-zero `std::error_code`: its category and its value. -/
inductive ErrorCode where
  | relay (e : Relay.Errc)
  | lin (e : Errc)
  deriving DecidableEq, Repr

def ErrClosed : ErrorCode := .relay .closed

/-- The frame identifiers that must use the classic checksum. -/
def isDiagnostic (id : UInt8) : Bool := id == kLINDiagRequestID || id == kLINDiagResponseID

/-- `%02X` of a byte. -/
def hexByte (b : UInt8) : CString :=
  [(Nat.digitChar (b.toNat / 16)).toUpper, (Nat.digitChar (b.toNat % 16)).toUpper]

def protectId (id : UInt8) : UInt8 :=
  let id := id &&& kLINMaxID
  let p0 := ((id >>> 0) ^^^ (id >>> 1) ^^^ (id >>> 2) ^^^ (id >>> 4)) &&& 0x01
  let p1 := (~~~((id >>> 1) ^^^ (id >>> 3) ^^^ (id >>> 4) ^^^ (id >>> 5))) &&& 0x01
  id ||| (p0 <<< 6) ||| (p1 <<< 7)

def verifyPid (pid : UInt8) : Except ErrInvalidFrame UInt8 :=
  let id := pid &&& kLINMaxID
  if protectId id ≠ pid then
    .error ⟨"PID 0x".toList ++ hexByte pid ++ " parity mismatch".toList⟩
  else .ok id

/-- One turn of the summing loop: the carry is brought around. -/
def checksumStep (sum : UInt16) (b : UInt8) : UInt16 :=
  let sum := sum + b.toUInt16
  if sum > 0xFF then sum - 0xFF else sum

def calcChecksum (pid : UInt8) (data : Payload) (ct : ChecksumType) : UInt8 :=
  let sum : UInt16 := if ct = .enhanced then pid.toUInt16 else 0
  0xFF - (data.foldl checksumStep sum).toUInt8

def verifyChecksum (pid : UInt8) (data : Payload) (received : UInt8) (ct : ChecksumType) : Bool :=
  calcChecksum pid data ct == received

def validateFrame (f : Frame) : Except ErrInvalidFrame Unit :=
  if f.id > kLINMaxID then
    .error ⟨"frame ID 0x".toList ++ hexByte f.id ++ " exceeds maximum 0x3F".toList⟩
  else if f.data = [] then
    .error ⟨"frame data must not be empty".toList⟩
  else if f.data.length > kLINMaxDataLen then
    .error ⟨"frame data length ".toList ++ toCString f.data.length ++ " exceeds maximum ".toList ++
      toCString kLINMaxDataLen⟩
  else if isDiagnostic f.id ∧ f.checksumType ≠ .classic then
    .error ⟨"diagnostic frame 0x".toList ++ hexByte f.id ++ " must use classic checksum".toList⟩
  else .ok ()

theorem validateFrame_ok_iff {f : Frame} : validateFrame f = .ok () ↔
    f.id ≤ kLINMaxID ∧ f.data ≠ [] ∧ f.data.length ≤ kLINMaxDataLen ∧
      (isDiagnostic f.id = true → f.checksumType = .classic) := by
  unfold validateFrame
  split_ifs with hid hdata hlen hdiag
  · simp [UInt8.not_le.mpr hid]
  · simp [hdata]
  · simp [Nat.not_le.mpr hlen]
  · simp [hdiag]
  · simp only [true_iff]
    exact ⟨UInt8.not_lt.mp hid, hdata, Nat.not_lt.mp hlen, by simpa using hdiag⟩

/-- The keys of the two entries a LIN message carries in its map. -/
def checksumTypeKey : CString := "lin.checksum_type".toList
def checksumKey : CString := "lin.checksum".toList

def toMessage (f : Frame) : Relay.Message :=
  { protocol := .lin
    id := toCString f.id.toNat
    payload := f.data
    metaData := (AList.insert checksumKey (toCString f.checksum.toNat)
      (AList.insert checksumTypeKey
        (if f.checksumType = .enhanced then "enhanced".toList else "classic".toList) ∅)) }

/-- The checksum type named in the message; absent or empty counts as classic. -/
def readChecksumType (m : Relay.Message) : Except ErrInvalidFrame ChecksumType :=
  match m.metaData.lookup checksumTypeKey with
  | none => .ok .classic
  | some v =>
      if v = [] ∨ v = "classic".toList then .ok .classic
      else if v = "enhanced".toList then .ok .enhanced
      else .error ⟨"unknown lin.checksum_type: ".toList ++ v⟩

/-- The checksum carried in the message; whatever does not convert is left at zero. -/
def readChecksum (m : Relay.Message) : UInt8 :=
  match m.metaData.lookup checksumKey with
  | none => 0
  | some v =>
      if v = [] then 0
      else match stoull 10 v with
        | .ok n => UInt8.ofNat n
        | .error _ => 0

def fromMessage (m : Relay.Message) : Except ErrInvalidFrame Frame :=
  match stoull 10 m.id with
  | .error _ => .error ⟨"invalid LIN ID: ".toList ++ m.id⟩
  | .ok idVal =>
      if idVal > kLINMaxID.toNat then .error ⟨"invalid LIN ID: ".toList ++ m.id⟩
      else
        match readChecksumType m with
        | .error e => .error e
        | .ok ct =>
            .ok { id := UInt8.ofNat idVal, data := m.payload, checksum := readChecksum m,
                  checksumType := ct }

/-- `IBus`, the part of it that has no channel in its type; `none` is success. -/
class IBus (β : Type) where
  publish : β → UInt8 → Payload → β × Option ErrorCode
  publishClassic : β → UInt8 → Payload → β × Option ErrorCode
  close : β → β × Option ErrorCode

end CppLin
