import CppLin.Lib.Binary64
import CppLin.Lib.CText
import CppLin.Lin

/-!
The parser of LIN description files. Its cursor is the list of the lines still to be
read; `wild` is what the machine makes of a double that does not fit 64 bits.
-/
namespace CppLin.Ldf
open Bytes CNumber CText

structure SignalRef where
  name : CString
  bitOffset : Int32 := 0
  deriving DecidableEq, Repr

structure LDFFrame where
  name : CString := []
  id : UInt8 := 0
  publisher : CString := []
  length : Int32 := 0
  signals : List SignalRef := []
  deriving DecidableEq, Repr

structure Signal where
  name : CString := []
  bitWidth : Int32 := 0
  initValue : UInt64 := 0
  publisher : CString := []
  subscribers : List CString := []
  deriving DecidableEq, Repr

/-- `speed` is in kbps. -/
structure DB where
  protocolVersion : CString := []
  languageVersion : CString := []
  speed : Binary64 := .finite 0
  masterNode : CString := []
  slaveNodes : List CString := []
  frames_ : AList (fun _ : UInt8 => LDFFrame) := ∅
  signals_ : AList (fun _ : CString => Signal) := ∅
  schedules_ : AList (fun _ : CString => List ScheduleEntry) := ∅

namespace DB

def frame (db : DB) (id : UInt8) : Option LDFFrame := db.frames_.lookup id

def signal (db : DB) (name : CString) : Option Signal := db.signals_.lookup name

def schedule (db : DB) (name : CString) : List ScheduleEntry :=
  (db.schedules_.lookup name).getD []

/-- The first key, in their order, of a frame with that name. -/
def idOf (db : DB) (name : CString) : Option UInt8 :=
  ((List.range 256).map UInt8.ofNat).find? fun k =>
    (db.frames_.lookup k).any fun fr => fr.name = name

end DB

def isMargin (c : Char) : Bool := c = ' ' || c = '\t' || c = '\r' || c = '\n'

def trim (s : CString) : CString := (s.dropWhile isMargin).rdropWhile isMargin

def stripComment (line : CString) : CString :=
  match find "//".toList line with
  | some p => trim (line.take p)
  | none => trim line

def stripSemicolon (s : CString) : CString :=
  let r := trim s
  trim (if r.getLast? = some ';' then r.dropLast else r)

/-- The first token that converts. -/
def extractFloatValue (line : CString) : Binary64 :=
  ((words isSpace line).findSome? fun tok => (stod (stripSemicolon tok)).toOption).getD (.finite 0)

def extractQuotedValue (line : CString) : CString :=
  match findChar '"' line with
  | none => []
  | some start =>
      match findChar '"' (line.drop (start + 1)) with
      | none => []
      | some n => substr line (start + 1) n

def isHex (t : CString) : Bool := 2 < t.length && (t.take 2 = "0x".toList || t.take 2 = "0X".toList)

def parseInt (s : CString) : Except StoError Int :=
  let t := stripSemicolon s
  if isHex t then stoll 16 (t.drop 2) else stoll 10 t

/-- Decimals go through a double, so that `10.0` is read as well. -/
def parseUint (wild : Binary64 → UInt64) (s : CString) : Except StoError UInt64 :=
  let t := stripSemicolon s
  if isHex t then (stoull 16 (t.drop 2)).map UInt64.ofNat
  else
    match stod t with
    | .ok d => .ok (d.toUInt64 wild)
    | .error _ => (stoull 10 t).map UInt64.ofNat

def splitFields (s : CString) : List CString := (getlines ',' s).map trim

def endLine : CString := ['\x7d']

def skipBrace : List CString → List CString
  | [] => []
  | line :: lines => if line.head? = some '\x7b' then lines else line :: lines

/-- One line of the Nodes section. -/
def readNode (line : CString) (db : DB) : DB :=
  if line.take 7 = "Master:".toList then
    let rest := trim (line.drop 7)
    let masterPart :=
      match findChar ',' rest with
      | some comma => rest.take comma
      | none => rest
    { db with masterNode := stripSemicolon masterPart }
  else if line.take 7 = "Slaves:".toList then
    let rest := stripSemicolon (trim (line.drop 7))
    { db with slaveNodes := db.slaveNodes ++ (splitFields rest).filter (· ≠ []) }
  else db

theorem readNode_nodes (line : CString) (db : DB) :
    ∃ master slaves, readNode line db = { db with masterNode := master, slaveNodes := slaves } := by
  rw [readNode]
  split_ifs
  · exact ⟨_, db.slaveNodes, rfl⟩
  · exact ⟨db.masterNode, _, rfl⟩
  · exact ⟨db.masterNode, db.slaveNodes, rfl⟩

def nodeLines : List CString → DB → List CString × DB
  | [], db => ([], db)
  | line :: lines, db =>
      if line = endLine then (lines, db) else nodeLines lines (readNode line db)

def parseNodes (lines : List CString) (db : DB) : List CString × DB := nodeLines (skipBrace lines) db

/-- The width is brought into the range from 0 to 64. -/
def clampWidth (w : Int32) : Int32 := if w < 0 then 0 else if w > 64 then 64 else w

/-- One line of the Signals section: the name, a colon and the fields. -/
def readSignal (wild : Binary64 → UInt64) (line : CString) : Option Signal :=
  let line := stripSemicolon line
  match findChar ':' line with
  | none => none
  | some colon =>
      match splitFields (trim (line.drop (colon + 1))) with
      | width :: init :: publisher :: subscribers =>
          some {
            name := trim (line.take colon)
            bitWidth := clampWidth
              (match parseInt width with
                | .ok n => Int32.ofInt n
                | .error _ => 0)
            initValue :=
              match parseUint wild init with
              | .ok v => v
              | .error _ => 0
            publisher := trim publisher
            subscribers := (subscribers.flatMap splitFields).filter (· ≠ []) }
      | _ => none

def storeSignal (db : DB) (sig : Signal) : DB :=
  { db with signals_ := db.signals_.insert sig.name sig }

def signalLines (wild : Binary64 → UInt64) : List CString → DB → List CString × DB
  | [], db => ([], db)
  | line :: lines, db =>
      if line = endLine then (lines, db)
      else
        match readSignal wild line with
        | some sig => signalLines wild lines (storeSignal db sig)
        | none => signalLines wild lines db

def parseSignals (wild : Binary64 → UInt64) (lines : List CString) (db : DB) :
    List CString × DB :=
  signalLines wild (skipBrace lines) db

/-- The header of a frame: its name and the fields behind the colon. -/
structure Header where
  name : CString
  fields : List CString
  deriving DecidableEq, Repr

/-- A header stands before the last brace of its line. -/
def readHeader (line : CString) : Option Header :=
  let hdr :=
    match rfindChar '\x7b' line with
    | some brace => trim (line.take brace)
    | none => line
  match findChar ':' hdr with
  | none => none
  | some colon =>
      some { name := trim (hdr.take colon), fields := splitFields (trim (hdr.drop (colon + 1))) }

/-- The frame a header declares, before its signals are read. What does not convert, and
everything when there are less than three fields, stays at its default. -/
def Header.frame (h : Header) : LDFFrame :=
  match h.fields with
  | id :: publisher :: length :: _ =>
      { name := h.name
        id :=
          match parseInt id with
          | .ok n => UInt8.ofInt n
          | .error _ => 0
        publisher := trim publisher
        length :=
          match parseInt length with
          | .ok n => Int32.ofInt n
          | .error _ => 0 }
  | _ => { name := h.name }

def readRef (inner : CString) : Option SignalRef :=
  let inner := stripSemicolon inner
  match findChar ',' inner with
  | none => none
  | some comma =>
      some {
        name := trim (inner.take comma)
        bitOffset :=
          match parseInt (trim (inner.drop (comma + 1))) with
          | .ok n => Int32.ofInt n
          | .error _ => 0 }

/-- The signal references up to the closing brace. -/
def parseRefs : List CString → List SignalRef → List CString × List SignalRef
  | [], refs => ([], refs)
  | inner :: lines, refs =>
      if inner = endLine then (lines, refs) else parseRefs lines (refs ++ (readRef inner).toList)

def storeFrame (db : DB) (fr : LDFFrame) : DB :=
  { db with frames_ := db.frames_.insert fr.id fr }

theorem parseRefs_length_le (lines : List CString) (refs : List SignalRef) :
    (parseRefs lines refs).1.length ≤ lines.length := by
  induction lines generalizing refs with
  | nil => exact Nat.le_refl _
  | cons inner lines ih =>
      rw [parseRefs]
      split_ifs
      · exact Nat.le_succ _
      · exact Nat.le_succ_of_le (ih _)

def frameLines : List CString → DB → List CString × DB
  | [], db => ([], db)
  | line :: lines, db =>
      if line = endLine then (lines, db)
      else if '\x7b' ∈ line then
        match readHeader line with
        | none => frameLines lines db
        | some h =>
            have := parseRefs_length_le lines []
            let block := parseRefs lines []
            frameLines block.1 (storeFrame db { h.frame with signals := block.2 })
      else frameLines lines db
termination_by lines => lines.length

def parseFrames (lines : List CString) (db : DB) : List CString × DB :=
  frameLines (skipBrace lines) db

/-- The token behind the first `delay`, in any case, that has one. -/
def findDelay : List CString → Option CString
  | word :: delay :: rest =>
      if lower word = "delay".toList then some delay else findDelay (delay :: rest)
  | _ => none

/-- One line of a schedule table. The frame is looked up by its name among those stored so
far, and 0xFF stands for none. -/
def readEntry (wild : Binary64 → UInt64) (db : DB) (inner : CString) : Option ScheduleEntry :=
  let inner := stripSemicolon inner
  if inner.take 13 = "AssignFrameId".toList then none
  else
    match words isSpace inner with
    | name :: a :: b :: rest =>
        match findDelay (a :: b :: rest) with
        | none => none
        | some delay =>
            let delayMs :=
              match parseUint wild delay with
              | .ok v => v.toUInt32
              | .error _ => 0
            let fid := (db.idOf name).getD 0xFF
            if fid ≤ kLINMaxID then some { id := fid, delayMs } else none
    | _ => none

def parseEntries (wild : Binary64 → UInt64) (db : DB) :
    List CString → List ScheduleEntry → List CString × List ScheduleEntry
  | [], entries => ([], entries)
  | inner :: lines, entries =>
      if inner = endLine then (lines, entries)
      else parseEntries wild db lines (entries ++ (readEntry wild db inner).toList)

def storeSchedule (db : DB) (name : CString) (entries : List ScheduleEntry) : DB :=
  { db with schedules_ := db.schedules_.insert name entries }

theorem parseEntries_length_le (wild : Binary64 → UInt64) (db : DB) (lines : List CString)
    (entries : List ScheduleEntry) :
    (parseEntries wild db lines entries).1.length ≤ lines.length := by
  induction lines generalizing entries with
  | nil => exact Nat.le_refl _
  | cons inner lines ih =>
      rw [parseEntries]
      split_ifs
      · exact Nat.le_succ _
      · exact Nat.le_succ_of_le (ih _)

def tableLines (wild : Binary64 → UInt64) : List CString → DB → List CString × DB
  | [], db => ([], db)
  | line :: lines, db =>
      if line = endLine then (lines, db)
      else if line.getLast? = some '\x7b' then
        have := parseEntries_length_le wild db lines []
        let block := parseEntries wild db lines []
        tableLines wild block.1 (storeSchedule db (trim line.dropLast) block.2)
      else tableLines wild lines db
termination_by lines => lines.length

def parseScheduleTables (wild : Binary64 → UInt64) (lines : List CString) (db : DB) :
    List CString × DB :=
  tableLines wild (skipBrace lines) db

inductive Section where
  | nodes
  | signals
  | frames
  | scheduleTables
  deriving DecidableEq, Repr

inductive TopLine where
  | protocolVersion
  | languageVersion
  | speed
  | begins (s : Section)
  | other
  deriving DecidableEq, Repr

/-- What a line outside the sections is, by the keyword at its head. -/
def topLine (line : CString) : TopLine :=
  if line.take 20 = "LIN_protocol_version".toList then .protocolVersion
  else if line.take 20 = "LIN_language_version".toList then .languageVersion
  else if line.take 9 = "LIN_speed".toList then .speed
  else if line.take 5 = "Nodes".toList then .begins .nodes
  else if line.take 7 = "Signals".toList then .begins .signals
  else if line.take 6 = "Frames".toList then .begins .frames
  else if line.take 15 = "Schedule_tables".toList then .begins .scheduleTables
  else .other

def parseSection (wild : Binary64 → UInt64) (s : Section) (lines : List CString) (db : DB) :
    List CString × DB :=
  match s with
  | .nodes => parseNodes lines db
  | .signals => parseSignals wild lines db
  | .frames => parseFrames lines db
  | .scheduleTables => parseScheduleTables wild lines db

section Length
variable (wild : Binary64 → UInt64)

theorem skipBrace_length_le (lines : List CString) :
    (skipBrace lines).length ≤ lines.length := by
  cases lines with
  | nil => exact Nat.le_refl _
  | cons line lines =>
      rw [skipBrace]
      split_ifs
      · exact Nat.le_succ _
      · exact Nat.le_refl _

theorem nodeLines_length_le (lines : List CString) (db : DB) :
    (nodeLines lines db).1.length ≤ lines.length := by
  induction lines generalizing db with
  | nil => exact Nat.le_refl _
  | cons line lines ih =>
      rw [nodeLines]
      split_ifs
      · exact Nat.le_succ _
      · exact Nat.le_succ_of_le (ih _)

theorem signalLines_length_le (lines : List CString) (db : DB) :
    (signalLines wild lines db).1.length ≤ lines.length := by
  induction lines generalizing db with
  | nil => exact Nat.le_refl _
  | cons line lines ih =>
      rw [signalLines]
      split_ifs
      · exact Nat.le_succ _
      · split <;> exact Nat.le_succ_of_le (ih _)

theorem frameLines_length_le (lines : List CString) (db : DB) :
    (frameLines lines db).1.length ≤ lines.length := by
  fun_induction frameLines lines db with
  | case1 => exact Nat.le_refl _
  | case2 => exact Nat.le_succ _
  | case3 line lines db _ _ _ ih => exact Nat.le_succ_of_le ih
  | case4 line lines db _ _ h _ hle block ih =>
      exact Nat.le_succ_of_le (ih.trans hle)
  | case5 line lines db _ _ ih => exact Nat.le_succ_of_le ih

theorem tableLines_length_le (lines : List CString) (db : DB) :
    (tableLines wild lines db).1.length ≤ lines.length := by
  fun_induction tableLines wild lines db with
  | case1 => exact Nat.le_refl _
  | case2 => exact Nat.le_succ _
  | case3 line lines db _ _ hle block ih => exact Nat.le_succ_of_le (ih.trans hle)
  | case4 line lines db _ _ ih => exact Nat.le_succ_of_le ih

/-- A section leaves the cursor at or behind the place where it began. -/
theorem parseSection_length_le (s : Section) (lines : List CString) (db : DB) :
    (parseSection wild s lines db).1.length ≤ lines.length := by
  have hskip := skipBrace_length_le lines
  cases s with
  | nodes => exact (nodeLines_length_le _ db).trans hskip
  | signals => exact (signalLines_length_le wild _ db).trans hskip
  | frames => exact (frameLines_length_le _ db).trans hskip
  | scheduleTables => exact (tableLines_length_le wild _ db).trans hskip

end Length

def parseTop (wild : Binary64 → UInt64) : List CString → DB → DB
  | [], db => db
  | line :: lines, db =>
      match topLine line with
      | .protocolVersion => parseTop wild lines { db with protocolVersion := extractQuotedValue line }
      | .languageVersion => parseTop wild lines { db with languageVersion := extractQuotedValue line }
      | .speed => parseTop wild lines { db with speed := extractFloatValue line }
      | .begins s =>
          have := parseSection_length_le wild s lines db
          let r := parseSection wild s lines db
          parseTop wild r.1 r.2
      | .other => parseTop wild lines db
termination_by lines => lines.length

/-- The lines of a text that hold something, without their comments and margins. -/
def contentLines (text : CString) : List CString :=
  ((getlines '\n' text).map stripComment).filter (· ≠ [])

def parse (wild : Binary64 → UInt64) (text : CString) : DB := parseTop wild (contentLines text) {}

end CppLin.Ldf
