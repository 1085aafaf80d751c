import CppLin.Ldf.Headers

/-!
The parser once more, with every operation of it that the library or the language leaves
undefined on some arguments checked where it is applied.
-/
namespace CppLin.Ldf
open Bytes CNumber CText

/-- An operation applied outside its domain. -/
inductive Fault where
  | front
  | back
  | substr
  | conversion
  deriving DecidableEq, Repr

namespace Checked

def front : CString → Except Fault Char
  | [] => .error .front
  | c :: _ => .ok c

def back (s : CString) : Except Fault Char :=
  match s.getLast? with
  | none => .error .back
  | some c => .ok c

def substr (s : CString) (pos n : Nat) : Except Fault CString :=
  if pos ≤ s.length then .ok (CText.substr s pos n) else .error .substr

/-- `s.substr(pos)`. -/
def substrFrom (s : CString) (pos : Nat) : Except Fault CString := substr s pos s.length

/-- `static_cast<uint64_t>`. -/
def toUInt64 (d : Binary64) : Except Fault UInt64 :=
  match d.trunc with
  | some n => if 0 ≤ n ∧ n < 2 ^ 64 then .ok (UInt64.ofNat n.toNat) else .error .conversion
  | none => .error .conversion

/-- `s.find_first_not_of(" \t\r\n")`. -/
def findFirst (s : CString) : Option Nat := s.findIdx? fun c => !isMargin c

/-- `s.find_last_not_of(" \t\r\n")`. -/
def findLast (s : CString) : Option Nat := (findFirst s.reverse).map fun i => s.length - 1 - i

def trim (s : CString) : Except Fault CString :=
  match findFirst s, findLast s with
  | some l, some r => substr s l (r - l + 1)
  | _, _ => .ok []

def stripComment (line : CString) : Except Fault CString :=
  match find "//".toList line with
  | some p => do trim (← substr line 0 p)
  | none => trim line

def stripSemicolon (s : CString) : Except Fault CString := do
  let r ← trim s
  if r ≠ [] then
    let c ← back r
    trim (if c = ';' then r.dropLast else r)
  else trim r

/-- The first token that converts. -/
def extractFloat : List CString → Except Fault Binary64
  | [] => .ok (.finite 0)
  | tok :: toks => do
      match stod (← stripSemicolon tok) with
      | .ok d => .ok d
      | .error _ => extractFloat toks

def extractFloatValue (line : CString) : Except Fault Binary64 := extractFloat (words isSpace line)

def extractQuotedValue (line : CString) : Except Fault CString :=
  match findChar '"' line with
  | none => .ok []
  | some start =>
      match findChar '"' (line.drop (start + 1)) with
      | none => .ok []
      | some n => substr line (start + 1) n

def isHex (t : CString) : Except Fault Bool :=
  if 2 < t.length then do
    let head ← substr t 0 2
    return head = "0x".toList || head = "0X".toList
  else .ok false

/-- The inner result is what the function returns or throws. -/
def parseInt (s : CString) : Except Fault (Except StoError Int) := do
  let t ← stripSemicolon s
  if ← isHex t then return stoll 16 (← substrFrom t 2)
  return stoll 10 t

def parseUint (s : CString) : Except Fault (Except StoError UInt64) := do
  let t ← stripSemicolon s
  if ← isHex t then return (stoull 16 (← substrFrom t 2)).map UInt64.ofNat
  match stod t with
  | .ok d => return .ok (← toUInt64 d)
  | .error _ => return (stoull 10 t).map UInt64.ofNat

def splitFields (s : CString) : Except Fault (List CString) := (getlines ',' s).mapM trim

def skipBrace : List CString → Except Fault (List CString)
  | [] => .ok []
  | line :: lines =>
      if line ≠ [] then do
        let c ← front line
        return if c = '\x7b' then lines else line :: lines
      else .ok (line :: lines)

def readNode (line : CString) (db : DB) : Except Fault DB := do
  if (← substr line 0 7) = "Master:".toList then
    let rest ← trim (← substrFrom line 7)
    let masterPart ←
      match findChar ',' rest with
      | some comma => substr rest 0 comma
      | none => .ok rest
    return { db with masterNode := ← stripSemicolon masterPart }
  else if (← substr line 0 7) = "Slaves:".toList then
    let rest ← stripSemicolon (← trim (← substrFrom line 7))
    return { db with slaveNodes := db.slaveNodes ++ (← splitFields rest).filter (· ≠ []) }
  else return db

def nodeLines : List CString → DB → Except Fault (List CString × DB)
  | [], db => .ok ([], db)
  | line :: lines, db =>
      if line = endLine then .ok (lines, db) else do nodeLines lines (← readNode line db)

def readSignal (line : CString) : Except Fault (Option Signal) := do
  let line ← stripSemicolon line
  match findChar ':' line with
  | none => return none
  | some colon =>
      let name ← trim (← substr line 0 colon)
      let rest ← trim (← substrFrom line (colon + 1))
      match ← splitFields rest with
      | width :: init :: publisher :: subscribers =>
          let bitWidth := clampWidth
            (match ← parseInt width with
              | .ok n => Int32.ofInt n
              | .error _ => 0)
          let initValue :=
            match ← parseUint init with
            | .ok v => v
            | .error _ => 0
          let publisher ← trim publisher
          let subscribers ← subscribers.mapM splitFields
          return some { name, bitWidth, initValue, publisher,
                        subscribers := subscribers.flatten.filter (· ≠ []) }
      | _ => return none

def signalLines : List CString → DB → Except Fault (List CString × DB)
  | [], db => .ok ([], db)
  | line :: lines, db =>
      if line = endLine then .ok (lines, db)
      else do
        match ← readSignal line with
        | some sig => signalLines lines (storeSignal db sig)
        | none => signalLines lines db

def readHeader (line : CString) : Except Fault (Option Header) := do
  let hdr ←
    match rfindChar '\x7b' line with
    | some brace => do trim (← substr line 0 brace)
    | none => .ok line
  match findChar ':' hdr with
  | none => return none
  | some colon =>
      let name ← trim (← substr hdr 0 colon)
      let rest ← trim (← substrFrom hdr (colon + 1))
      return some { name, fields := ← splitFields rest }

def headerFrame (h : Header) : Except Fault LDFFrame :=
  match h.fields with
  | id :: publisher :: length :: _ => do
      let id :=
        match ← parseInt id with
        | .ok n => UInt8.ofInt n
        | .error _ => 0
      let publisher ← trim publisher
      let length :=
        match ← parseInt length with
        | .ok n => Int32.ofInt n
        | .error _ => 0
      return { name := h.name, id, publisher, length }
  | _ => .ok { name := h.name }

def readRef (inner : CString) : Except Fault (Option SignalRef) := do
  let inner ← stripSemicolon inner
  match findChar ',' inner with
  | none => return none
  | some comma =>
      let name ← trim (← substr inner 0 comma)
      let offset ← trim (← substrFrom inner (comma + 1))
      let bitOffset :=
        match ← parseInt offset with
        | .ok n => Int32.ofInt n
        | .error _ => 0
      return some { name, bitOffset }

def parseRefs : List CString → List SignalRef → Except Fault (List CString × List SignalRef)
  | [], refs => .ok ([], refs)
  | inner :: lines, refs =>
      if inner = endLine then .ok (lines, refs)
      else do parseRefs lines (refs ++ (← readRef inner).toList)

def readEntry (db : DB) (inner : CString) : Except Fault (Option ScheduleEntry) := do
  let inner ← stripSemicolon inner
  if (← substr inner 0 13) = "AssignFrameId".toList then return none
  match words isSpace inner with
  | name :: a :: b :: rest =>
      match findDelay (a :: b :: rest) with
      | none => return none
      | some delay =>
          let delayMs :=
            match ← parseUint delay with
            | .ok v => v.toUInt32
            | .error _ => 0
          let fid := (db.idOf name).getD 0xFF
          return if fid ≤ kLINMaxID then some { id := fid, delayMs } else none
  | _ => return none

def parseEntries (db : DB) : List CString → List ScheduleEntry →
    Except Fault (List CString × List ScheduleEntry)
  | [], entries => .ok ([], entries)
  | inner :: lines, entries =>
      if inner = endLine then .ok (lines, entries)
      else do parseEntries db lines (entries ++ (← readEntry db inner).toList)

/-! Where every operation is in its domain, the checked functions are those of the parser. -/

@[simp] theorem ok_bind {α β : Type} (a : α) (f : α → Except Fault β) :
    (Except.ok a >>= f) = f a := rfl

@[simp] theorem pure_ok {α : Type} (a : α) : (pure a : Except Fault α) = .ok a := rfl

theorem mapM_ok {α β : Type} {f : α → Except Fault β} {g : α → β} {l : List α}
    (h : ∀ x, f x = .ok (g x)) : l.mapM f = .ok (l.map g) := by
  induction l with
  | nil => rfl
  | cons x l ih => simp [List.mapM_cons, h, ih]

theorem front_of_ne_nil {s : CString} (h : s ≠ []) : ∃ c, front s = .ok c ∧ s.head? = some c := by
  cases s with
  | nil => exact absurd rfl h
  | cons c s => exact ⟨c, rfl, rfl⟩

theorem back_of_ne_nil {s : CString} (h : s ≠ []) : ∃ c, back s = .ok c ∧ s.getLast? = some c := by
  have hlast := List.getLast?_eq_some_getLast h
  exact ⟨s.getLast h, by rw [back, hlast], hlast⟩

theorem substr_of_le {s : CString} {pos : Nat} (h : pos ≤ s.length) (n : Nat) :
    substr s pos n = .ok (CText.substr s pos n) := if_pos h

@[simp] theorem substr_zero (s : CString) (n : Nat) : substr s 0 n = .ok (s.take n) :=
  substr_of_le (Nat.zero_le _) n

theorem substrFrom_of_le {s : CString} {pos : Nat} (h : pos ≤ s.length) :
    substrFrom s pos = .ok (s.drop pos) := by
  rw [substrFrom, substr_of_le h, CText.substr, List.take_of_length_le (by simp)]

theorem findChar_lt {c : Char} {s : CString} {i : Nat} (h : findChar c s = some i) :
    i < s.length := (List.findIdx?_eq_some_iff_getElem.mp h).1

theorem findFirst_eq (s : CString) : findFirst s =
    if s.dropWhile isMargin = [] then none else some (s.takeWhile isMargin).length := by
  unfold findFirst
  induction s with
  | nil => rfl
  | cons c s ih =>
      rw [List.findIdx?_cons, ih]
      cases hc : isMargin c with
      | true =>
          simp only [List.dropWhile_cons, List.takeWhile_cons, hc, Bool.not_true, if_true]
          split_ifs <;> simp_all
      | false => simp [hc]

theorem findLast_eq {a d : CString} (hd : d.rdropWhile isMargin ≠ []) :
    findLast (a ++ d) = some (a.length + (d.rdropWhile isMargin).length - 1) := by
  have hrest : d.reverse.dropWhile isMargin ≠ [] := by simpa [List.rdropWhile] using hd
  have hsplit := congrArg List.length (List.takeWhile_append_dropWhile (p := isMargin) (l := d.reverse))
  rw [List.length_append, List.length_reverse] at hsplit
  have hpos := List.length_pos_of_ne_nil hrest
  have hfirst : findFirst (a ++ d).reverse = some (d.reverse.takeWhile isMargin).length := by
    have hdrop : (d.reverse ++ a.reverse).dropWhile isMargin ≠ [] := by
      rw [List.dropWhile_append, if_neg (by simp [List.isEmpty_iff, hrest])]
      exact List.append_ne_nil_of_left_ne_nil hrest _
    rw [findFirst_eq, List.reverse_append, if_neg hdrop, List.takeWhile_append, if_neg]
    rw [List.length_reverse]
    omega
  rw [findLast, hfirst, Option.map_some, List.length_append, List.rdropWhile, List.length_reverse]
  congr 1
  omega

@[simp] theorem trim_eq (s : CString) : trim s = .ok (Ldf.trim s) := by
  have hs := List.takeWhile_append_dropWhile (p := isMargin) (l := s)
  unfold trim Ldf.trim
  by_cases hd : s.dropWhile isMargin = []
  · rw [findFirst_eq, if_pos hd, hd]
    rfl
  · have hkept : (s.dropWhile isMargin).rdropWhile isMargin ≠ [] := by
      rw [Ne, List.rdropWhile_eq_nil_iff]
      intro hall
      have hfirst := List.head_dropWhile_not isMargin hd
      rw [hall _ (List.head_mem hd)] at hfirst
      cases hfirst
    have hlast := findLast_eq (a := s.takeWhile isMargin) hkept
    rw [hs] at hlast
    have hlen := congrArg List.length hs
    rw [List.length_append] at hlen
    have hdrop : s.drop (s.takeWhile isMargin).length = s.dropWhile isMargin := by
      have hleft : (s.takeWhile isMargin ++ s.dropWhile isMargin).drop
          (s.takeWhile isMargin).length = s.dropWhile isMargin := List.drop_left
      rwa [hs] at hleft
    have hpos := List.length_pos_of_ne_nil hkept
    have hcount : (s.takeWhile isMargin).length +
        ((s.dropWhile isMargin).rdropWhile isMargin).length - 1 - (s.takeWhile isMargin).length + 1 =
        ((s.dropWhile isMargin).rdropWhile isMargin).length := by omega
    simp only [findFirst_eq, if_neg hd, hlast]
    rw [substr_of_le (by omega), CText.substr, hcount, hdrop,
      ← List.prefix_iff_eq_take.mp (List.rdropWhile_prefix isMargin _)]

@[simp] theorem stripComment_eq (line : CString) :
    stripComment line = .ok (Ldf.stripComment line) := by
  unfold stripComment Ldf.stripComment
  cases find "//".toList line with
  | none => simp
  | some p => simp

@[simp] theorem stripSemicolon_eq (s : CString) :
    stripSemicolon s = .ok (Ldf.stripSemicolon s) := by
  unfold stripSemicolon Ldf.stripSemicolon
  rw [trim_eq, ok_bind]
  by_cases hr : Ldf.trim s = []
  · simp [hr]
  · obtain ⟨c, hc, hlast⟩ := back_of_ne_nil hr
    rw [if_pos hr, hc, ok_bind, trim_eq]
    simp only [hlast, Option.some.injEq]

theorem extractFloat_eq (toks : List CString) : extractFloat toks =
    .ok ((toks.findSome? fun tok => (stod (Ldf.stripSemicolon tok)).toOption).getD (.finite 0)) := by
  induction toks with
  | nil => rfl
  | cons tok toks ih =>
      rw [extractFloat, stripSemicolon_eq, ok_bind, List.findSome?_cons]
      cases stod (Ldf.stripSemicolon tok) with
      | ok d => rfl
      | error e => exact ih

@[simp] theorem extractFloatValue_eq (line : CString) :
    extractFloatValue line = .ok (Ldf.extractFloatValue line) := extractFloat_eq _

@[simp] theorem extractQuotedValue_eq (line : CString) :
    extractQuotedValue line = .ok (Ldf.extractQuotedValue line) := by
  unfold extractQuotedValue Ldf.extractQuotedValue
  cases hstart : findChar '"' line with
  | none => rfl
  | some start =>
      have hlt := findChar_lt hstart
      cases hend : findChar '"' (line.drop (start + 1)) with
      | none => simp only [hend]
      | some n => simp only [hend, substr_of_le hlt]

@[simp] theorem isHex_eq (t : CString) : isHex t = .ok (Ldf.isHex t) := by
  unfold isHex Ldf.isHex
  by_cases h : 2 < t.length
  · simp [h]
  · simp [h]

theorem two_le_of_isHex {t : CString} (h : Ldf.isHex t = true) : 2 ≤ t.length := by
  unfold Ldf.isHex at h
  rw [Bool.and_eq_true, decide_eq_true_iff] at h
  exact h.1.le

@[simp] theorem parseInt_eq (s : CString) : parseInt s = .ok (Ldf.parseInt s) := by
  unfold parseInt Ldf.parseInt
  simp only [stripSemicolon_eq, ok_bind, isHex_eq]
  cases h : Ldf.isHex (Ldf.stripSemicolon s) with
  | true => simp [substrFrom_of_le (two_le_of_isHex h)]
  | false => simp

@[simp] theorem splitFields_eq (s : CString) : splitFields s = .ok (Ldf.splitFields s) :=
  mapM_ok trim_eq

@[simp] theorem skipBrace_eq (lines : List CString) :
    skipBrace lines = .ok (Ldf.skipBrace lines) := by
  cases lines with
  | nil => rfl
  | cons line lines =>
      rw [skipBrace, Ldf.skipBrace]
      by_cases h : line = []
      · simp [h]
      · obtain ⟨c, hc, hhead⟩ := front_of_ne_nil h
        rw [if_pos h, hc, ok_bind, pure_ok, hhead]
        simp only [Option.some.injEq]

theorem length_of_take {s k : CString} {n : Nat} (h : s.take n = k) (hk : k.length = n) :
    n ≤ s.length := by
  have hlen := congrArg List.length h
  rw [List.length_take, hk] at hlen
  omega

@[simp] theorem readNode_eq (line : CString) (db : DB) :
    readNode line db = .ok (Ldf.readNode line db) := by
  unfold readNode Ldf.readNode
  rw [substr_zero, ok_bind]
  by_cases hmaster : line.take 7 = "Master:".toList
  · rw [if_pos hmaster, if_pos hmaster, substrFrom_of_le (length_of_take hmaster rfl), ok_bind,
      trim_eq, ok_bind]
    cases hcomma : findChar ',' (Ldf.trim (line.drop 7)) with
    | none => simp [hcomma]
    | some comma => simp [hcomma]
  · rw [if_neg hmaster, if_neg hmaster, ok_bind]
    by_cases hslaves : line.take 7 = "Slaves:".toList
    · rw [if_pos hslaves, if_pos hslaves, substrFrom_of_le (length_of_take hslaves rfl)]
      simp
    · rw [if_neg hslaves, if_neg hslaves]
      rfl

@[simp] theorem nodeLines_eq (lines : List CString) (db : DB) :
    nodeLines lines db = .ok (Ldf.nodeLines lines db) := by
  induction lines generalizing db with
  | nil => rfl
  | cons line lines ih =>
      rw [nodeLines, Ldf.nodeLines]
      split_ifs
      · rfl
      · rw [readNode_eq, ok_bind, ih]

@[simp] theorem readHeader_eq (line : CString) : readHeader line = .ok (Ldf.readHeader line) := by
  unfold readHeader Ldf.readHeader
  cases hbrace : rfindChar '\x7b' line with
  | none =>
      simp only [ok_bind]
      cases h : findChar ':' line with
      | none => rfl
      | some colon => simp [substrFrom_of_le (findChar_lt h)]
  | some brace =>
      simp only [substr_zero, ok_bind, trim_eq]
      cases h : findChar ':' (Ldf.trim (line.take brace)) with
      | none => rfl
      | some colon => simp [substrFrom_of_le (findChar_lt h)]

@[simp] theorem headerFrame_eq (h : Header) : headerFrame h = .ok h.frame := by
  unfold headerFrame Header.frame
  cases hfields : h.fields with
  | nil => rfl
  | cons id rest =>
      cases rest with
      | nil => rfl
      | cons publisher rest =>
          cases rest with
          | nil => rfl
          | cons length rest =>
              simp only [parseInt_eq, ok_bind, trim_eq]
              rfl

@[simp] theorem readRef_eq (inner : CString) : readRef inner = .ok (Ldf.readRef inner) := by
  unfold readRef Ldf.readRef
  simp only [stripSemicolon_eq, ok_bind]
  cases h : findChar ',' (Ldf.stripSemicolon inner) with
  | none => rfl
  | some comma =>
      simp only [substr_zero, ok_bind, trim_eq, substrFrom_of_le (findChar_lt h), parseInt_eq]
      cases Ldf.parseInt (Ldf.trim ((Ldf.stripSemicolon inner).drop (comma + 1))) with
      | ok n => rfl
      | error e => rfl

@[simp] theorem parseRefs_eq (lines : List CString) (refs : List SignalRef) :
    parseRefs lines refs = .ok (Ldf.parseRefs lines refs) := by
  induction lines generalizing refs with
  | nil => rfl
  | cons inner lines ih =>
      rw [parseRefs, Ldf.parseRefs]
      split_ifs
      · rfl
      · rw [readRef_eq, ok_bind, ih]

theorem parseRefs_ok_length_le {lines : List CString} {refs : List SignalRef}
    {r : List CString × List SignalRef} (h : parseRefs lines refs = .ok r) :
    r.1.length ≤ lines.length := by
  rw [parseRefs_eq] at h
  rw [← Except.ok.inj h]
  exact parseRefs_length_le lines refs

theorem parseEntries_ok_length_le {db : DB} {lines : List CString} {entries : List ScheduleEntry}
    {r : List CString × List ScheduleEntry} (h : parseEntries db lines entries = .ok r) :
    r.1.length ≤ lines.length := by
  induction lines generalizing entries with
  | nil =>
      rw [parseEntries] at h
      rw [← Except.ok.inj h]
  | cons inner lines ih =>
      rw [parseEntries] at h
      split_ifs at h
      · rw [← Except.ok.inj h]
        exact Nat.le_succ _
      · cases hentry : readEntry db inner with
        | error u =>
            rw [hentry] at h
            cases h
        | ok e =>
            rw [hentry] at h
            exact Nat.le_succ_of_le (ih h)

def frameLines : List CString → DB → Except Fault (List CString × DB)
  | [], db => .ok ([], db)
  | line :: lines, db =>
      if line = endLine then .ok (lines, db)
      else if '\x7b' ∈ line then do
        match ← readHeader line with
        | none => frameLines lines db
        | some h =>
            let fr ← headerFrame h
            match hblock : parseRefs lines [] with
            | .error u => .error u
            | .ok block =>
                have := parseRefs_ok_length_le hblock
                frameLines block.1 (storeFrame db { fr with signals := block.2 })
      else frameLines lines db
termination_by lines => lines.length

def tableLines : List CString → DB → Except Fault (List CString × DB)
  | [], db => .ok ([], db)
  | line :: lines, db =>
      if line = endLine then .ok (lines, db)
      else do
        if (← back line) = '\x7b' then
          let tableName ← trim (← substr line 0 (line.length - 1))
          match hblock : parseEntries db lines [] with
          | .error u => .error u
          | .ok block =>
              have := parseEntries_ok_length_le hblock
              tableLines block.1 (storeSchedule db tableName block.2)
        else tableLines lines db
termination_by lines => lines.length

def parseSection (s : Section) (lines : List CString) (db : DB) :
    Except Fault (List CString × DB) := do
  let lines ← skipBrace lines
  match s with
  | .nodes => nodeLines lines db
  | .signals => signalLines lines db
  | .frames => frameLines lines db
  | .scheduleTables => tableLines lines db

/-- The keyword at the head of a line, looked for in the order of `parse_top`. -/
def topLine (line : CString) : Except Fault TopLine := do
  if (← substr line 0 20) = "LIN_protocol_version".toList then return .protocolVersion
  if (← substr line 0 20) = "LIN_language_version".toList then return .languageVersion
  if (← substr line 0 9) = "LIN_speed".toList then return .speed
  if (← substr line 0 5) = "Nodes".toList then return .begins .nodes
  if (← substr line 0 7) = "Signals".toList then return .begins .signals
  if (← substr line 0 6) = "Frames".toList then return .begins .frames
  if (← substr line 0 15) = "Schedule_tables".toList then return .begins .scheduleTables
  return .other

@[simp] theorem frameLines_eq (lines : List CString) (db : DB) :
    frameLines lines db = .ok (Ldf.frameLines lines db) := by
  fun_induction Ldf.frameLines lines db with
  | case1 db => rw [frameLines]
  | case2 lines db => rw [frameLines, if_pos rfl]
  | case3 line lines db hend hbrace hread ih =>
      rw [frameLines, if_neg hend, if_pos hbrace, readHeader_eq, ok_bind, hread]
      exact ih
  | case4 line lines db hend hbrace h hread _ block ih =>
      rw [frameLines, if_neg hend, if_pos hbrace, readHeader_eq, ok_bind, hread]
      simp only [headerFrame_eq, ok_bind]
      split
      case h_1 u hblock =>
        rw [parseRefs_eq] at hblock
        cases hblock
      case h_2 r hblock =>
        rw [parseRefs_eq] at hblock
        obtain rfl := Except.ok.inj hblock
        exact ih
  | case5 line lines db hend hbrace ih =>
      rw [frameLines, if_neg hend, if_neg hbrace]
      exact ih

@[simp] theorem topLine_eq (line : CString) : topLine line = .ok (Ldf.topLine line) := by
  unfold topLine Ldf.topLine
  simp only [substr_zero, ok_bind, pure_ok]
  split_ifs <;> rfl

end Checked

end CppLin.Ldf
