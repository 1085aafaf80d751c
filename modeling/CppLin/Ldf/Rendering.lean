import CppLin.Ldf.Parser

/-!
LIN descriptions and the texts that render them: the sections one after another, one
declaration a line, with any indentation and comments, and anything between the sections
that does not look like a section.
-/
namespace CppLin.Ldf
open Bytes CNumber CText

def isWordChar (c : Char) : Bool := c.isAlphanum || c == '_'

def IsIdent (s : CString) : Prop :=
  s ≠ [] ∧ (∀ c ∈ s, isWordChar c = true) ∧ ∀ c ∈ s.head?, c.isDigit = false

instance (s : CString) : Decidable (IsIdent s) :=
  decidable_of_iff (s ≠ [] ∧ s.all isWordChar = true ∧ s.head?.all (fun c => !c.isDigit) = true)
    (by simp [IsIdent, Option.all_eq_true])

structure Signal.WellFormed (s : Signal) : Prop where
  name : IsIdent s.name
  width : 0 ≤ s.bitWidth ∧ s.bitWidth ≤ 64
  init : s.initValue.toNat < 2 ^ 53
  publisher : IsIdent s.publisher
  subscribers : ∀ n ∈ s.subscribers, IsIdent n

instance (s : Signal) : Decidable s.WellFormed :=
  decidable_of_iff (IsIdent s.name ∧ (0 ≤ s.bitWidth ∧ s.bitWidth ≤ 64) ∧ s.initValue.toNat < 2 ^ 53 ∧
    IsIdent s.publisher ∧ ∀ n ∈ s.subscribers, IsIdent n)
    ⟨fun ⟨h₁, h₂, h₃, h₄, h₅⟩ => ⟨h₁, h₂, h₃, h₄, h₅⟩, fun ⟨h₁, h₂, h₃, h₄, h₅⟩ => ⟨h₁, h₂, h₃, h₄, h₅⟩⟩

structure LDFFrame.WellFormed (fr : LDFFrame) : Prop where
  name : IsIdent fr.name
  declared : ¬ "AssignFrameId".toList <+: fr.name
  id : fr.id ≤ kLINMaxID
  publisher : IsIdent fr.publisher
  length : 0 ≤ fr.length
  signals : ∀ r ∈ fr.signals, IsIdent r.name ∧ 0 ≤ r.bitOffset

instance (fr : LDFFrame) : Decidable fr.WellFormed :=
  decidable_of_iff (IsIdent fr.name ∧ ¬ "AssignFrameId".toList <+: fr.name ∧ fr.id ≤ kLINMaxID ∧
    IsIdent fr.publisher ∧ 0 ≤ fr.length ∧ ∀ r ∈ fr.signals, IsIdent r.name ∧ 0 ≤ r.bitOffset)
    ⟨fun ⟨h₁, h₂, h₃, h₄, h₅, h₆⟩ => ⟨h₁, h₂, h₃, h₄, h₅, h₆⟩,
      fun ⟨h₁, h₂, h₃, h₄, h₅, h₆⟩ => ⟨h₁, h₂, h₃, h₄, h₅, h₆⟩⟩

/-- A schedule table: frames by their names, with the delays in milliseconds. -/
structure Table where
  name : CString
  entries : List (CString × UInt32)

structure Table.WellFormed (frames : List LDFFrame) (t : Table) : Prop where
  name : IsIdent t.name
  entries : ∀ e ∈ t.entries, ∃ fr ∈ frames, fr.name = e.1

instance (frames : List LDFFrame) (t : Table) : Decidable (t.WellFormed frames) :=
  decidable_of_iff (IsIdent t.name ∧ ∀ e ∈ t.entries, ∃ fr ∈ frames, fr.name = e.1)
    ⟨fun ⟨h₁, h₂⟩ => ⟨h₁, h₂⟩, fun ⟨h₁, h₂⟩ => ⟨h₁, h₂⟩⟩

structure Description where
  master : CString
  slaves : List CString
  signals : List Signal
  frames : List LDFFrame
  tables : List Table
  masterName : IsIdent master
  slaveNames : ∀ n ∈ slaves, IsIdent n
  signalsWellFormed : ∀ s ∈ signals, s.WellFormed
  signalNames : (signals.map Signal.name).Nodup
  framesWellFormed : ∀ fr ∈ frames, fr.WellFormed
  frameNames : (frames.map LDFFrame.name).Nodup
  frameIds : (frames.map LDFFrame.id).Nodup
  tablesWellFormed : ∀ t ∈ tables, t.WellFormed frames
  tableNames : (tables.map Table.name).Nodup

def Description.idOf (d : Description) (name : CString) : UInt8 :=
  ((d.frames.find? fun fr => fr.name = name).map LDFFrame.id).getD 0xFF

/-- A table as the master runs it. -/
def Description.schedule (d : Description) (t : Table) : List ScheduleEntry :=
  t.entries.map fun e => { id := d.idOf e.1, delayMs := e.2 }

/-- The database holds what is described, and nothing else. -/
structure Describes (d : Description) (db : DB) : Prop where
  masterNode : db.masterNode = d.master
  slaveNodes : db.slaveNodes = d.slaves
  signals : ∀ name, db.signals_.lookup name = d.signals.find? fun s => s.name = name
  frames : ∀ id, db.frames_.lookup id = d.frames.find? fun fr => fr.id = id
  schedules : ∀ name, db.schedules_.lookup name =
    (d.tables.find? fun t => t.name = name).map d.schedule

/-! The lines of the sections. -/

def commas : List CString → CString
  | [] => []
  | [f] => f
  | f :: fs => f ++ ", ".toList ++ commas fs

/-- A frame identifier is written in hexadecimal. -/
def hexId (id : UInt8) : CString := "0x".toList ++ hexByte id

/-- The timing of the master stands behind its name. -/
def masterLine (timing : CString) (name : CString) : CString :=
  "Master: ".toList ++ name ++ timing ++ " ;".toList

def slavesLine (names : List CString) : CString := "Slaves: ".toList ++ commas names ++ " ;".toList

/-- A name and, behind a colon, the fields. -/
def declaration (name : CString) (fields : List CString) : CString :=
  name ++ " : ".toList ++ commas fields

def signalFields (s : Signal) : List CString :=
  toCString s.bitWidth.toInt.toNat :: toCString s.initValue.toNat :: s.publisher :: s.subscribers

def signalLine (s : Signal) : CString := declaration s.name (signalFields s) ++ " ;".toList

def headerFields (fr : LDFFrame) : List CString :=
  [hexId fr.id, fr.publisher, toCString fr.length.toInt.toNat]

def headerLine (fr : LDFFrame) : CString :=
  declaration fr.name (headerFields fr) ++ " \x7b".toList

def refLine (r : SignalRef) : CString :=
  commas [r.name, toCString r.bitOffset.toInt.toNat] ++ " ;".toList

def tableLine (name : CString) : CString := name ++ " \x7b".toList

def entryLine (e : CString × UInt32) : CString :=
  e.1 ++ " delay ".toList ++ toCString e.2.toNat ++ " ms ;".toList

def nodesSection (timing : CString) (d : Description) : List CString :=
  ["Nodes \x7b".toList, masterLine timing d.master, slavesLine d.slaves, endLine]

def signalsSection (d : Description) : List CString :=
  "Signals \x7b".toList :: (d.signals.map signalLine ++ [endLine])

def frameBlock (fr : LDFFrame) : List CString :=
  headerLine fr :: (fr.signals.map refLine ++ [endLine])

def framesSection (d : Description) : List CString :=
  "Frames \x7b".toList :: (d.frames.flatMap frameBlock ++ [endLine])

def tableBlock (t : Table) : List CString :=
  tableLine t.name :: (t.entries.map entryLine ++ [endLine])

def tablesSection (d : Description) : List CString :=
  "Schedule_tables \x7b".toList :: (d.tables.flatMap tableBlock ++ [endLine])

/-! The layout of the lines in the text. -/

/-- White space within a line; the carriage return before a line break is such. -/
def Blank (s : CString) : Prop := ∀ c ∈ s, isMargin c = true ∧ c ≠ '\n'

/-- The line holds the content between white space, with or without a comment. -/
def Holds (content line : CString) : Prop :=
  ∃ indent trail comment, Blank indent ∧ Blank trail ∧
    (comment = [] ∨ ∃ remark, '\n' ∉ remark ∧ comment = "//".toList ++ remark) ∧
    line = indent ++ content ++ trail ++ comment

/-- The lines hold the contents in turn; lines that hold nothing may come between. -/
inductive LaidOut : List CString → List CString → Prop
  | nil : LaidOut [] []
  | empty {contents lines line} (hline : Holds [] line) (h : LaidOut contents lines) :
      LaidOut contents (line :: lines)
  | line {contents lines content line} (hline : Holds content line) (h : LaidOut contents lines) :
      LaidOut (content :: contents) (line :: lines)

def sectionKeywords : List CString :=
  ["Nodes".toList, "Signals".toList, "Frames".toList, "Schedule_tables".toList]

/-- A line that does not begin with the keyword of a section. -/
def FreeLine (line : CString) : Prop :=
  '\n' ∉ line ∧ ∀ k ∈ sectionKeywords, ¬ k <+: line.dropWhile isMargin

instance (line : CString) : Decidable (FreeLine line) := inferInstanceAs (Decidable (_ ∧ _))

/-- The timing of the master: nothing, or what follows a comma. -/
def Timing (s : CString) : Prop := (∀ c ∈ s.head?, c = ',') ∧ '/' ∉ s ∧ '\n' ∉ s

instance (s : CString) : Decidable (Timing s) :=
  decidable_of_iff (s.head?.all (· == ',') = true ∧ '/' ∉ s ∧ '\n' ∉ s)
    (by simp [Timing, Option.all_eq_true])

/-- The text renders the description: free lines and the four sections; the last line may end
without a line break. -/
def Renders (d : Description) (text : CString) : Prop :=
  ∃ (timing : CString) (free₀ nodes free₁ signals free₂ frames free₃ tables free₄ : List CString),
    Timing timing ∧ (∀ line ∈ free₀ ++ free₁ ++ free₂ ++ free₃ ++ free₄, FreeLine line) ∧
    LaidOut (nodesSection timing d) nodes ∧ LaidOut (signalsSection d) signals ∧
    LaidOut (framesSection d) frames ∧ LaidOut (tablesSection d) tables ∧
    ∃ lines, lines = free₀ ++ nodes ++ free₁ ++ signals ++ free₂ ++ frames ++ free₃ ++ tables ++ free₄ ∧
      (text = unlines '\n' lines ∨ text ++ ['\n'] = unlines '\n' lines)

end CppLin.Ldf
