import CppLin.Ldf.Parser
import CppLin.Lib.LastWrite

/-!
The parser taken apart: a reader that goes over the lines once, each according to the place
where it stands, and yields the declarations of the text; and what the declarations mean, one
after another, for the database.
-/
namespace CppLin.Ldf
open Bytes CNumber CText LastWrite

/-- A line of a schedule table: the name of a frame and its delay. -/
abbrev Row := CString × UInt32

inductive Declaration where
  | protocolVersion (v : CString)
  | languageVersion (v : CString)
  | speed (x : Binary64)
  | master (name : CString)
  | slaves (names : List CString)
  | signal (sig : Signal)
  | frame (fr : LDFFrame)
  | table (name : CString) (rows : List Row)
  deriving DecidableEq

/-- A row by the frames that are known; one that names none of a valid identifier is no entry. -/
def DB.entry (db : DB) (row : Row) : Option ScheduleEntry :=
  let fid := (db.idOf row.1).getD 0xFF
  if fid ≤ kLINMaxID then some { id := fid, delayMs := row.2 } else none

def DB.declare (db : DB) : Declaration → DB
  | .protocolVersion v => { db with protocolVersion := v }
  | .languageVersion v => { db with languageVersion := v }
  | .speed x => { db with speed := x }
  | .master name => { db with masterNode := name }
  | .slaves names => { db with slaveNodes := db.slaveNodes ++ names }
  | .signal sig => storeSignal db sig
  | .frame fr => storeFrame db fr
  | .table name rows => storeSchedule db name (rows.filterMap db.entry)

/-- Where the reader stands; within a frame or a table, with what it has of it. -/
inductive Place where
  | top
  | opening (s : Section)
  | inside (s : Section)
  | refs (h : Header) (refs : List SignalRef)
  | entries (name : CString) (rows : List Row)

def readNodeLine (line : CString) : List Declaration :=
  if line.take 7 = "Master:".toList then
    let rest := trim (line.drop 7)
    let masterPart :=
      match findChar ',' rest with
      | some comma => rest.take comma
      | none => rest
    [.master (stripSemicolon masterPart)]
  else if line.take 7 = "Slaves:".toList then
    let rest := stripSemicolon (trim (line.drop 7))
    [.slaves ((splitFields rest).filter (· ≠ []))]
  else []

def readRow (wild : Binary64 → UInt64) (inner : CString) : Option Row :=
  let inner := stripSemicolon inner
  if inner.take 13 = "AssignFrameId".toList then none
  else
    match words isSpace inner with
    | name :: a :: b :: rest =>
        (findDelay (a :: b :: rest)).map fun delay =>
          (name, match parseUint wild delay with
            | .ok v => v.toUInt32
            | .error _ => 0)
    | _ => none

section
variable (wild : Binary64 → UInt64)

/-- A line within a section: where the reader stands behind it, and what it declares. -/
def within (s : Section) (line : CString) : Place × List Declaration :=
  if line = endLine then (.top, [])
  else
    match s with
    | .nodes => (.inside .nodes, readNodeLine line)
    | .signals => (.inside .signals, (readSignal wild line).toList.map .signal)
    | .frames =>
        if '\x7b' ∈ line then
          match readHeader line with
          | some h => (.refs h [], [])
          | none => (.inside .frames, [])
        else (.inside .frames, [])
    | .scheduleTables =>
        if line.getLast? = some '\x7b' then (.entries (trim line.dropLast) [], [])
        else (.inside .scheduleTables, [])

/-- A frame or a table is declared at its end. -/
def feed : Place → CString → Place × List Declaration
  | .top, line =>
      match topLine line with
      | .protocolVersion => (.top, [.protocolVersion (extractQuotedValue line)])
      | .languageVersion => (.top, [.languageVersion (extractQuotedValue line)])
      | .speed => (.top, [.speed (extractFloatValue line)])
      | .begins s => (.opening s, [])
      | .other => (.top, [])
  | .opening s, line => if line.head? = some '\x7b' then (.inside s, []) else within wild s line
  | .inside s, line => within wild s line
  | .refs h refs, line =>
      if line = endLine then (.inside .frames, [.frame { h.frame with signals := refs }])
      else (.refs h (refs ++ (readRef line).toList), [])
  | .entries name rows, line =>
      if line = endLine then (.inside .scheduleTables, [.table name rows])
      else (.entries name (rows ++ (readRow wild line).toList), [])

/-- What is open where the text ends is declared as it is. -/
def finish : Place → List Declaration
  | .refs h refs => [.frame { h.frame with signals := refs }]
  | .entries name rows => [.table name rows]
  | _ => []

/-- The reader behind the lines, and what they have declared. -/
def scan : Place → List CString → Place × List Declaration
  | p, [] => (p, [])
  | p, line :: lines =>
      let r := feed wild p line
      let rest := scan r.1 lines
      (rest.1, r.2 ++ rest.2)

def declarations (p : Place) (lines : List CString) : List Declaration :=
  (scan wild p lines).2 ++ finish (scan wild p lines).1

end

section
variable {wild : Binary64 → UInt64}

theorem declarations_nil (p : Place) : declarations wild p [] = finish p := rfl

theorem declarations_cons (p : Place) (line : CString) (lines : List CString) :
    declarations wild p (line :: lines) =
      (feed wild p line).2 ++ declarations wild (feed wild p line).1 lines := by
  rw [declarations, scan, declarations, List.append_assoc]

theorem readNode_eq (line : CString) (db : DB) :
    readNode line db = (readNodeLine line).foldl DB.declare db := by
  unfold readNode readNodeLine
  split_ifs <;> rfl

theorem readEntry_eq (db : DB) (inner : CString) :
    readEntry wild db inner = (readRow wild inner).bind db.entry := by
  unfold readEntry readRow
  by_cases hassign : (stripSemicolon inner).take 13 = "AssignFrameId".toList
  · simp only [if_pos hassign, Option.bind_none]
  · simp only [if_neg hassign]
    rcases words isSpace (stripSemicolon inner) with _ | ⟨name, _ | ⟨a, _ | ⟨b, rest⟩⟩⟩
    · rfl
    · rfl
    · rfl
    · cases hdelay : findDelay (a :: b :: rest) with
      | none => simp only [hdelay, Option.map_none, Option.bind_none]
      | some delay =>
          simp only [hdelay, Option.map_some, Option.bind_some]
          rfl

/-- From a place on, the lines declare `ds` and then what follows where the parser goes on,
and the parser does what `ds` say. -/
def Declares (wild : Binary64 → UInt64) (p : Place) (lines : List CString) (db : DB)
    (r : List CString × DB) (q : Place) : Prop :=
  ∃ ds, declarations wild p lines = ds ++ declarations wild q r.1 ∧ r.2 = ds.foldl DB.declare db

theorem Declares.cons {p p' q : Place} {line : CString} {lines : List CString} {db : DB}
    {r : List CString × DB} (new : List Declaration) (hfeed : feed wild p line = (p', new))
    (h : Declares wild p' lines (new.foldl DB.declare db) r q) :
    Declares wild p (line :: lines) db r q := by
  obtain ⟨ds, hds, hdb⟩ := h
  refine ⟨new ++ ds, ?_, ?_⟩
  · rw [declarations_cons, hfeed, hds, List.append_assoc]
  · rw [hdb, List.foldl_append]

theorem Declares.refl (p : Place) (lines : List CString) (db : DB) :
    Declares wild p lines db (lines, db) p :=
  ⟨[], rfl, rfl⟩

theorem Declares.end_text {p q : Place} {db : DB} (hp : finish p = finish q) :
    Declares wild p [] db ([], db) q :=
  ⟨[], hp, rfl⟩

theorem declares_opening {s : Section} {lines : List CString} {db : DB} {r : List CString × DB}
    {q : Place} (h : Declares wild (.inside s) (skipBrace lines) db r q) :
    Declares wild (.opening s) lines db r q := by
  cases lines with
  | nil => exact h
  | cons line lines =>
      rw [skipBrace] at h
      split_ifs at h with hbrace
      · exact .cons [] (by rw [feed, if_pos hbrace]) h
      · obtain ⟨ds, hds, hdb⟩ := h
        refine ⟨ds, ?_, hdb⟩
        rw [← hds, declarations_cons, declarations_cons, feed, if_neg hbrace, feed]

theorem declares_nodes (lines : List CString) (db : DB) :
    Declares wild (.inside .nodes) lines db (nodeLines lines db) .top := by
  induction lines generalizing db with
  | nil => exact .end_text rfl
  | cons line lines ih =>
      rw [nodeLines]
      split_ifs with hend
      · exact .cons [] (by rw [feed, within, if_pos hend]) (.refl _ _ _)
      · refine .cons (readNodeLine line) (by rw [feed, within, if_neg hend]) ?_
        rw [← readNode_eq]
        exact ih _

theorem declares_signals (lines : List CString) (db : DB) :
    Declares wild (.inside .signals) lines db (signalLines wild lines db) .top := by
  induction lines generalizing db with
  | nil => exact .end_text rfl
  | cons line lines ih =>
      rw [signalLines]
      split_ifs with hend
      · exact .cons [] (by rw [feed, within, if_pos hend]) (.refl _ _ _)
      · refine .cons ((readSignal wild line).toList.map .signal)
          (by rw [feed, within, if_neg hend]) ?_
        cases readSignal wild line with
        | none => exact ih _
        | some sig => exact ih _

theorem declares_refs (h : Header) (lines : List CString) (refs : List SignalRef) (db : DB) :
    Declares wild (.refs h refs) lines db ((parseRefs lines refs).1,
      storeFrame db { h.frame with signals := (parseRefs lines refs).2 }) (.inside .frames) := by
  induction lines generalizing refs with
  | nil => exact ⟨[.frame { h.frame with signals := refs }], rfl, rfl⟩
  | cons inner lines ih =>
      rw [parseRefs]
      split_ifs with hend
      · exact .cons [.frame { h.frame with signals := refs }]
          (by rw [feed, if_pos hend]) (.refl _ _ _)
      · exact .cons [] (by rw [feed, if_neg hend]) (ih _)

theorem declares_entries (name : CString) (lines : List CString) (rows : List Row) (db : DB) :
    Declares wild (.entries name rows) lines db
      ((parseEntries wild db lines (rows.filterMap db.entry)).1,
        storeSchedule db name (parseEntries wild db lines (rows.filterMap db.entry)).2)
      (.inside .scheduleTables) := by
  induction lines generalizing rows with
  | nil => exact ⟨[.table name rows], rfl, rfl⟩
  | cons inner lines ih =>
      rw [parseEntries]
      split_ifs with hend
      · exact .cons [.table name rows] (by rw [feed, if_pos hend]) (.refl _ _ _)
      · refine .cons [] (by rw [feed, if_neg hend]) ?_
        have hrows : rows.filterMap db.entry ++ (readEntry wild db inner).toList =
            (rows ++ (readRow wild inner).toList).filterMap db.entry := by
          rw [readEntry_eq, List.filterMap_append]
          cases readRow wild inner with
          | none => rfl
          | some row => cases hrow : db.entry row <;> simp [hrow]
        rw [hrows]
        exact ih _

theorem Declares.trans {p q q' : Place} {lines : List CString} {db : DB} {r r' : List CString × DB}
    (h : Declares wild p lines db r q) (h' : Declares wild q r.1 r.2 r' q') :
    Declares wild p lines db r' q' := by
  obtain ⟨ds, hds, hdb⟩ := h
  obtain ⟨ds', hds', hdb'⟩ := h'
  refine ⟨ds ++ ds', ?_, ?_⟩
  · rw [hds, hds', List.append_assoc]
  · rw [hdb', hdb, List.foldl_append]

theorem declares_frames (lines : List CString) (db : DB) :
    Declares wild (.inside .frames) lines db (frameLines lines db) .top := by
  fun_induction frameLines lines db with
  | case1 db => exact .end_text rfl
  | case2 lines db => exact .cons [] (by rw [feed, within, if_pos rfl]) (.refl _ _ _)
  | case3 line lines db hend hbrace hread ih =>
      exact .cons [] (by simp only [feed, within, if_neg hend, if_pos hbrace, hread]) ih
  | case4 line lines db hend hbrace h hread _ block ih =>
      have hfeed : feed wild (.inside .frames) line = (.refs h [], []) := by
        simp only [feed, within, if_neg hend, if_pos hbrace, hread]
      exact .cons [] hfeed ((declares_refs h lines [] db).trans ih)
  | case5 line lines db hend hbrace ih =>
      exact .cons [] (by simp only [feed, within, if_neg hend, if_neg hbrace]) ih

theorem declares_tables (lines : List CString) (db : DB) :
    Declares wild (.inside .scheduleTables) lines db (tableLines wild lines db) .top := by
  fun_induction tableLines wild lines db with
  | case1 db => exact .end_text rfl
  | case2 lines db => exact .cons [] (by rw [feed, within, if_pos rfl]) (.refl _ _ _)
  | case3 line lines db hend hbrace _ block ih =>
      have hfeed : feed wild (.inside .scheduleTables) line =
          (.entries (trim line.dropLast) [], []) := by
        simp only [feed, within, if_neg hend, if_pos hbrace]
      exact .cons [] hfeed ((declares_entries (trim line.dropLast) lines [] db).trans ih)
  | case4 line lines db hend hbrace ih =>
      exact .cons [] (by simp only [feed, within, if_neg hend, if_neg hbrace]) ih

theorem declares_section (s : Section) (lines : List CString) (db : DB) :
    Declares wild (.opening s) lines db (parseSection wild s lines db) .top := by
  apply declares_opening
  cases s with
  | nodes => exact declares_nodes _ db
  | signals => exact declares_signals _ db
  | frames => exact declares_frames _ db
  | scheduleTables => exact declares_tables _ db

/-- The parser's loops do what the declarations say, in their order. -/
theorem parseTop_eq (lines : List CString) (db : DB) :
    parseTop wild lines db = (declarations wild .top lines).foldl DB.declare db := by
  fun_induction parseTop wild lines db with
  | case1 db => rfl
  | case2 line lines db hline ih =>
      rw [ih, declarations_cons, feed, hline]
      rfl
  | case3 line lines db hline ih =>
      rw [ih, declarations_cons, feed, hline]
      rfl
  | case4 line lines db hline ih =>
      rw [ih, declarations_cons, feed, hline]
      rfl
  | case5 line lines db s hline _ r ih =>
      obtain ⟨ds, hds, hdb⟩ := @declares_section wild s lines db
      rw [ih, declarations_cons, feed, hline]
      simp only [List.nil_append]
      rw [hds, List.foldl_append, ← hdb]
  | case6 line lines db hline ih =>
      rw [ih, declarations_cons, feed, hline]
      rfl

end

end CppLin.Ldf
