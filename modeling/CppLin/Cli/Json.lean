import CppLin.Lib.CText
import CppLin.Lin

/-!
The JSON the command line reads and writes: frames in, relay messages out. Fields are
looked up by their key wherever it first stands in the text.
-/
namespace CppLin.Cli
open Bytes CNumber CText

/-- The six bits a character of the base64 alphabet stands for. -/
def b64val (c : Char) : Option UInt32 :=
  if 'A' ≤ c ∧ c ≤ 'Z' then some (UInt32.ofNat (c.toNat - 'A'.toNat))
  else if 'a' ≤ c ∧ c ≤ 'z' then some (UInt32.ofNat (c.toNat - 'a'.toNat + 26))
  else if '0' ≤ c ∧ c ≤ '9' then some (UInt32.ofNat (c.toNat - '0'.toNat + 52))
  else if c = '+' then some 62
  else if c = '/' then some 63
  else none

def kAlpha : CString := "ABCDEFGHIJKLMNOPQRSTUVWXYZabcdefghijklmnopqrstuvwxyz0123456789+/".toList

/-- The character for the six bits of `b` from bit `i` on. -/
def alphaAt (b : UInt32) (i : UInt32) : Char := kAlpha.getD ((b >>> i) &&& 0x3F).toNat '='

def base64Encode : Payload → CString
  | [] => []
  | [x] =>
      let b := x.toUInt32 <<< 16
      [alphaAt b 18, alphaAt b 12, '=', '=']
  | [x, y] =>
      let b := x.toUInt32 <<< 16 ||| y.toUInt32 <<< 8
      [alphaAt b 18, alphaAt b 12, alphaAt b 6, '=']
  | x :: y :: z :: data =>
      let b := x.toUInt32 <<< 16 ||| y.toUInt32 <<< 8 ||| z.toUInt32
      [alphaAt b 18, alphaAt b 12, alphaAt b 6, alphaAt b 0] ++ base64Encode data

/-- The loop of `base64_decode` up to its end or a `=`; characters outside the alphabet
are passed over. -/
def base64Loop (out : Payload) (accum : UInt32) (bits : UInt32) : CString → Payload
  | [] => out
  | c :: s =>
      if c = '=' then out
      else
        match b64val c with
        | none => base64Loop out accum bits s
        | some v =>
            let accum := (accum <<< 6) ||| v
            let bits := bits + 6
            if bits ≥ 8 then
              let bits := bits - 8
              base64Loop (out ++ [((accum >>> bits) &&& 0xFF).toUInt8]) accum bits s
            else base64Loop out accum bits s

def base64Decode (s : CString) : Payload := base64Loop [] 0 0 s

def isBlank (c : Char) : Bool := c = ' ' || c = '\t'

def isBlankOrBreak (c : Char) : Bool := isBlank c || c = '\n' || c = '\r'

def keyText (key : CString) : CString := ['"'] ++ key ++ ['"', ':']

/-- The text after the first occurrence of the key, blanks skipped. -/
def valueOf (s key : CString) : Option CString :=
  (find (keyText key) s).map fun p => (s.drop (p + (keyText key).length)).dropWhile isBlank

def extractU32 (s key : CString) : Option UInt32 :=
  match valueOf s key with
  | none => none
  | some value =>
      match strtoull 10 value with
      | none => none
      | some (v, _) => if v > 0xFFFFFFFF then none else some (UInt32.ofNat v)

/-- What follows a number of the array up to the next element. -/
def nextElement (rest : CString) : CString :=
  match rest.dropWhile isBlank with
  | ',' :: s => s
  | s => s

theorem nextElement_length_le (rest : CString) : (nextElement rest).length ≤ rest.length := by
  have hle := List.length_dropWhile_le isBlank rest
  unfold nextElement
  split
  · rename_i s hs
    rw [hs, List.length_cons] at hle
    omega
  · exact hle

/-- The elements of an array, up to the first that is no number or above 255. -/
def readArray (s : CString) : Payload :=
  match _h : s.dropWhile isBlankOrBreak with
  | [] => []
  | ']' :: _ => []
  | c :: t =>
      match _hv : strtoull 10 (c :: t) with
      | none => []
      | some (b, rest) =>
          if b > 255 then [] else UInt8.ofNat b :: readArray (nextElement rest)
termination_by s.length
decreasing_by
  have hrest := strtoull_length_lt _hv
  have hle := List.length_dropWhile_le isBlankOrBreak s
  rw [_h] at hle
  exact Nat.lt_of_lt_of_le (Nat.lt_of_le_of_lt (nextElement_length_le rest) hrest) hle

/-- A quoted text is decoded as base64. `none` leaves the bytes as they were. -/
def extractBytes (s key : CString) : Option Payload :=
  match valueOf s key with
  | none => none
  | some [] => none
  | some ('"' :: value) => (findChar '"' value).map fun endq => base64Decode (value.take endq)
  | some ('[' :: value) => some (readArray value)
  | some _ => none

structure ParseError where
  what : CString
  deriving DecidableEq, Repr

/-- The identifier and the checksum are cut down to a byte here. -/
def parseFrameJson (json : CString) : Except ParseError Frame :=
  match extractU32 json "id".toList with
  | none => .error ⟨"invalid input JSON: missing or invalid 'id' field".toList⟩
  | some id =>
      .ok {
        id := id.toUInt8
        data := (extractBytes json "data".toList).getD []
        checksumType :=
          match extractU32 json "checksum_type".toList with
          | some 1 => .enhanced
          | _ => .classic
        checksum := ((extractU32 json "checksum".toList).map UInt32.toUInt8).getD 0 }

def quoted (s : CString) : CString := ['"'] ++ s ++ ['"']

/-- The order of `std::string`. -/
def stringLe (a b : CString) : Bool := decide (a ≤ b)

def messageToJson (m : Relay.Message) : CString :=
  let entries := (m.metaData.entries.map fun e => (e.1, e.2)).insertionSort
    fun a b => stringLe a.1 b.1
  let pairs := entries.map fun e => quoted e.1 ++ [':'] ++ quoted e.2
  "\x7b\"protocol\":".toList ++ toCString m.protocol.toNat ++
  ",\"version\":\x7b\"major\":".toList ++ (toString m.version.major).toList ++
  ",\"minor\":".toList ++ (toString m.version.minor).toList ++
  ",\"patch\":".toList ++ (toString m.version.patch).toList ++ "\x7d,".toList ++
  "\"id\":".toList ++ quoted m.id ++ [','] ++
  "\"payload\":".toList ++ quoted (base64Encode m.payload) ++ [','] ++
  "\"timestamp\":\"0001-01-01T00:00:00Z\"".toList ++
  (if m.seq = 0 then [] else ",\"seq\":".toList ++ toCString m.seq.toNat) ++
  (if entries = [] then []
    else ",\"meta\":\x7b".toList ++ List.intercalate [','] pairs ++ "\x7d".toList) ++
  "\x7d".toList

end CppLin.Cli
