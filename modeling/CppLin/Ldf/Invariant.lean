import CppLin.Ldf.Parser

namespace CppLin.Ldf
open Bytes CNumber

variable (wild : Binary64 → UInt64)

/-- Every write of the parser keeps the property; each with what the parser knows of it. -/
structure Preserved (I : DB → Prop) : Prop where
  protocolVersion : ∀ db v, I db → I { db with protocolVersion := v }
  languageVersion : ∀ db v, I db → I { db with languageVersion := v }
  speed : ∀ db v, I db → I { db with speed := v }
  node : ∀ line db, I db → I (readNode line db)
  signal : ∀ line sig db, readSignal wild line = some sig → I db → I (storeSignal db sig)
  frame : ∀ line h refs db, readHeader line = some h → I db →
    I (storeFrame db { h.frame with signals := refs })
  schedule : ∀ name entries db, (∀ e ∈ entries, ∃ inner, readEntry wild db inner = some e) →
    I db → I (storeSchedule db name entries)

variable {wild} {I : DB → Prop}

theorem nodeLines_preserved (h : Preserved wild I) (lines : List CString) {db : DB} (hdb : I db) :
    I (nodeLines lines db).2 := by
  induction lines generalizing db with
  | nil => exact hdb
  | cons line lines ih =>
      rw [nodeLines]
      split_ifs
      · exact hdb
      · exact ih (h.node line db hdb)

theorem signalLines_preserved (h : Preserved wild I) (lines : List CString) {db : DB}
    (hdb : I db) : I (signalLines wild lines db).2 := by
  induction lines generalizing db with
  | nil => exact hdb
  | cons line lines ih =>
      rw [signalLines]
      split_ifs
      · exact hdb
      · cases hsig : readSignal wild line with
        | some sig => exact ih (h.signal line sig db hsig hdb)
        | none => exact ih hdb

theorem frameLines_preserved (h : Preserved wild I) (lines : List CString) {db : DB}
    (hdb : I db) : I (frameLines lines db).2 := by
  fun_induction frameLines lines db with
  | case1 db => exact hdb
  | case2 db => exact hdb
  | case3 line lines db _ _ _ ih => exact ih hdb
  | case4 line lines db _ _ hd hread _ block ih => exact ih (h.frame line hd block.2 db hread hdb)
  | case5 line lines db _ _ ih => exact ih hdb

theorem parseEntries_mem {db : DB} {lines : List CString} {entries : List ScheduleEntry}
    (h : ∀ e ∈ entries, ∃ inner, readEntry wild db inner = some e) :
    ∀ e ∈ (parseEntries wild db lines entries).2, ∃ inner, readEntry wild db inner = some e := by
  induction lines generalizing entries with
  | nil => exact h
  | cons inner lines ih =>
      rw [parseEntries]
      split_ifs
      · exact h
      · apply ih
        intro e he
        rcases List.mem_append.mp he with hold | hnew
        · exact h e hold
        · exact ⟨inner, Option.mem_toList.mp hnew⟩

theorem tableLines_preserved (h : Preserved wild I) (lines : List CString) {db : DB}
    (hdb : I db) : I (tableLines wild lines db).2 := by
  fun_induction tableLines wild lines db with
  | case1 db => exact hdb
  | case2 db => exact hdb
  | case3 line lines db _ _ _ block ih =>
      exact ih (h.schedule _ block.2 db (parseEntries_mem (by simp)) hdb)
  | case4 line lines db _ _ ih => exact ih hdb

theorem parseSection_preserved (h : Preserved wild I) (s : Section) (lines : List CString)
    {db : DB} (hdb : I db) : I (parseSection wild s lines db).2 := by
  cases s with
  | nodes => exact nodeLines_preserved h _ hdb
  | signals => exact signalLines_preserved h _ hdb
  | frames => exact frameLines_preserved h _ hdb
  | scheduleTables => exact tableLines_preserved h _ hdb

theorem parseTop_preserved (h : Preserved wild I) (lines : List CString) {db : DB}
    (hdb : I db) : I (parseTop wild lines db) := by
  fun_induction parseTop wild lines db with
  | case1 db => exact hdb
  | case2 line lines db _ ih => exact ih (h.protocolVersion db _ hdb)
  | case3 line lines db _ ih => exact ih (h.languageVersion db _ hdb)
  | case4 line lines db _ ih => exact ih (h.speed db _ hdb)
  | case5 line lines db s _ _ r ih => exact ih (parseSection_preserved h s lines hdb)
  | case6 line lines db _ ih => exact ih hdb

/-- A property every write keeps holds of what the parser returns. -/
theorem parse_invariant (h : Preserved wild I) (h0 : I {}) (text : CString) :
    I (parse wild text) :=
  parseTop_preserved h _ h0

end CppLin.Ldf
