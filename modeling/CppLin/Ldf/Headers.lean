import CppLin.Ldf.Parser
import CppLin.Lib.LastWrite

/-!
The frame headers of a text, told from its lines alone: a line is read according to where
the parser stands, and where it stands does not depend on what it has stored. The frames
the parser stores are those of the headers, each over the one stored at its key before.
-/
namespace CppLin.Ldf
open Bytes CNumber LastWrite

/-- Where a line stands: outside the sections, at the head of a section, within it, or
within a frame or a schedule table. -/
inductive Mode where
  | top
  | opening (s : Section)
  | inside (s : Section)
  | refs
  | entries
  deriving DecidableEq, Repr

namespace Mode

def nextInside (s : Section) (line : CString) : Mode :=
  if line = endLine then .top
  else
    match s with
    | .nodes => .inside .nodes
    | .signals => .inside .signals
    | .frames => if '\x7b' ∈ line ∧ (readHeader line).isSome then .refs else .inside .frames
    | .scheduleTables =>
        if line.getLast? = some '\x7b' then .entries else .inside .scheduleTables

def next : Mode → CString → Mode
  | .top, line =>
      match topLine line with
      | .begins s => .opening s
      | _ => .top
  | .opening s, line => if line.head? = some '\x7b' then .inside s else nextInside s line
  | .inside s, line => nextInside s line
  | .refs, line => if line = endLine then .inside .frames else .refs
  | .entries, line => if line = endLine then .inside .scheduleTables else .entries

/-- The line is the header of a frame. -/
def readsHeader : Mode → CString → Prop
  | .opening .frames, line => line.head? ≠ some '\x7b' ∧ line ≠ endLine ∧ '\x7b' ∈ line
  | .inside .frames, line => line ≠ endLine ∧ '\x7b' ∈ line
  | _, _ => False

instance (m : Mode) (line : CString) : Decidable (m.readsHeader line) := by
  unfold readsHeader
  split <;> infer_instance

end Mode

def headerLines : Mode → List CString → List CString
  | _, [] => []
  | m, line :: lines =>
      if m.readsHeader line then line :: headerLines (m.next line) lines
      else headerLines (m.next line) lines

/-- A header without a colon declares nothing. -/
def headers (m : Mode) (lines : List CString) : List Header :=
  (headerLines m lines).filterMap readHeader

@[simp] theorem headers_nil (m : Mode) : headers m [] = [] := by
  cases m <;> rfl

theorem headers_cons_of_not {m : Mode} {line : CString} (h : ¬ m.readsHeader line)
    (lines : List CString) : headers m (line :: lines) = headers (m.next line) lines := by
  rw [headers, headerLines, if_neg h, headers]

theorem headers_cons_of_none {m : Mode} {line : CString} (h : readHeader line = none)
    (lines : List CString) : headers m (line :: lines) = headers (m.next line) lines := by
  rw [headers, headerLines]
  split_ifs
  · rw [List.filterMap_cons_none h, headers]
  · rw [headers]

theorem headers_cons_of_some {m : Mode} {line : CString} {hd : Header} (h : m.readsHeader line)
    (hread : readHeader line = some hd) (lines : List CString) :
    headers m (line :: lines) = hd :: headers (m.next line) lines := by
  rw [headers, headerLines, if_pos h, List.filterMap_cons_some hread, headers]

/-- The name and the identifier of the frame at each key. -/
def identities (db : DB) (k : UInt8) : Option (CString × UInt8) :=
  (db.frame k).map fun fr => (fr.name, fr.id)

/-- A header is filed under the identifier of its frame. -/
def file (files : UInt8 → Option (CString × UInt8)) (h : Header) :
    UInt8 → Option (CString × UInt8) :=
  Function.update files h.frame.id (some (h.name, h.frame.id))

theorem Header.frame_name (h : Header) : h.frame.name = h.name := by
  unfold Header.frame
  split <;> rfl

theorem identities_storeFrame (db : DB) (h : Header) (refs : List SignalRef) :
    identities (storeFrame db { h.frame with signals := refs }) = file (identities db) h := by
  funext k
  by_cases hk : k = h.frame.id
  · subst hk
    simp [identities, file, DB.frame, storeFrame, h.frame_name]
  · simp [identities, file, DB.frame, storeFrame, hk]

/-- From where a section begins, the headers are those of the section and those behind it,
and the section files its own. -/
def Files (m : Mode) (lines : List CString) (db : DB) (r : List CString × DB) : Prop :=
  ∃ hs, headers m lines = hs ++ headers .top r.1 ∧ identities r.2 = hs.foldl file (identities db)

theorem files_of_same {m : Mode} {lines : List CString} {db : DB} {r : List CString × DB}
    (hh : headers m lines = headers .top r.1) (hi : identities r.2 = identities db) :
    Files m lines db r :=
  ⟨[], hh, hi⟩

theorem headers_opening (s : Section) (lines : List CString) :
    headers (.opening s) lines = headers (.inside s) (skipBrace lines) := by
  cases lines with
  | nil => rfl
  | cons line lines =>
      rw [skipBrace]
      split_ifs with hbrace
      · rw [headers_cons_of_not]
        · rw [Mode.next, if_pos hbrace]
        · cases s <;> simp [Mode.readsHeader, hbrace]
      · have hreads : (Mode.opening s).readsHeader line ↔ (Mode.inside s).readsHeader line := by
          cases s <;> simp [Mode.readsHeader, hbrace]
        have hnext : (Mode.opening s).next line = (Mode.inside s).next line := by
          rw [Mode.next, if_neg hbrace, Mode.next]
        simp only [headers, headerLines, hreads, hnext]

theorem headers_nodes (lines : List CString) (db : DB) :
    headers (.inside .nodes) lines = headers .top (nodeLines lines db).1 := by
  induction lines generalizing db with
  | nil => rfl
  | cons line lines ih =>
      rw [headers_cons_of_not (by simp [Mode.readsHeader]), nodeLines, Mode.next, Mode.nextInside]
      split_ifs
      · rfl
      · exact ih _

theorem identities_nodes (lines : List CString) (db : DB) :
    identities (nodeLines lines db).2 = identities db := by
  induction lines generalizing db with
  | nil => rfl
  | cons line lines ih =>
      rw [nodeLines]
      split_ifs
      · rfl
      · obtain ⟨master, slaves, hnode⟩ := readNode_nodes line db
        rw [ih, hnode]
        rfl

theorem headers_signals (wild : Binary64 → UInt64) (lines : List CString) (db : DB) :
    headers (.inside .signals) lines = headers .top (signalLines wild lines db).1 := by
  induction lines generalizing db with
  | nil => rfl
  | cons line lines ih =>
      rw [headers_cons_of_not (by simp [Mode.readsHeader]), signalLines, Mode.next,
        Mode.nextInside]
      split_ifs
      · rfl
      · split <;> exact ih _

theorem identities_signals (wild : Binary64 → UInt64) (lines : List CString) (db : DB) :
    identities (signalLines wild lines db).2 = identities db := by
  induction lines generalizing db with
  | nil => rfl
  | cons line lines ih =>
      rw [signalLines]
      split_ifs
      · rfl
      · split
        · rw [ih]
          rfl
        · exact ih _

theorem headers_refs (lines : List CString) (refs : List SignalRef) :
    headers .refs lines = headers (.inside .frames) (parseRefs lines refs).1 := by
  induction lines generalizing refs with
  | nil => rfl
  | cons inner lines ih =>
      rw [headers_cons_of_not (by simp [Mode.readsHeader]), parseRefs, Mode.next]
      split_ifs
      · rfl
      · exact ih _

theorem headers_entries (wild : Binary64 → UInt64) (db : DB) (lines : List CString)
    (entries : List ScheduleEntry) :
    headers .entries lines =
      headers (.inside .scheduleTables) (parseEntries wild db lines entries).1 := by
  induction lines generalizing entries with
  | nil => rfl
  | cons inner lines ih =>
      rw [headers_cons_of_not (by simp [Mode.readsHeader]), parseEntries, Mode.next]
      split_ifs
      · rfl
      · exact ih _

theorem files_frames (lines : List CString) (db : DB) :
    Files (.inside .frames) lines db (frameLines lines db) := by
  fun_induction frameLines lines db with
  | case1 db => exact files_of_same rfl rfl
  | case2 lines db =>
      refine files_of_same ?_ rfl
      rw [headers_cons_of_not (by simp [Mode.readsHeader]), Mode.next, Mode.nextInside, if_pos rfl]
  | case3 line lines db hend hbrace hread ih =>
      obtain ⟨hs, hh, hi⟩ := ih
      refine ⟨hs, ?_, hi⟩
      rw [headers_cons_of_none hread, Mode.next, Mode.nextInside, if_neg hend]
      simpa [hread] using hh
  | case4 line lines db hend hbrace h hread _ block ih =>
      obtain ⟨hs, hh, hi⟩ := ih
      refine ⟨h :: hs, ?_, ?_⟩
      · rw [headers_cons_of_some (m := .inside .frames) ⟨hend, hbrace⟩ hread, Mode.next,
          Mode.nextInside, if_neg hend, List.cons_append, ← hh]
        simp only [hbrace, hread, Option.isSome_some, and_self, if_true]
        rw [headers_refs lines []]
      · rw [hi, identities_storeFrame, List.foldl_cons]
  | case5 line lines db hend hbrace ih =>
      obtain ⟨hs, hh, hi⟩ := ih
      refine ⟨hs, ?_, hi⟩
      rw [headers_cons_of_not (by simp [Mode.readsHeader, hbrace]), Mode.next, Mode.nextInside,
        if_neg hend]
      simpa [hbrace] using hh

theorem headers_tables (wild : Binary64 → UInt64) (lines : List CString) (db : DB) :
    headers (.inside .scheduleTables) lines = headers .top (tableLines wild lines db).1 := by
  fun_induction tableLines wild lines db with
  | case1 db => rfl
  | case2 lines db =>
      rw [headers_cons_of_not (by simp [Mode.readsHeader]), Mode.next, Mode.nextInside, if_pos rfl]
  | case3 line lines db hend hbrace _ block ih =>
      rw [headers_cons_of_not (by simp [Mode.readsHeader]), Mode.next, Mode.nextInside,
        if_neg hend, ← ih]
      simp only [if_pos hbrace]
      rw [headers_entries wild db lines []]
  | case4 line lines db hend hbrace ih =>
      rw [headers_cons_of_not (by simp [Mode.readsHeader]), Mode.next, Mode.nextInside,
        if_neg hend, ← ih]
      simp only [if_neg hbrace]

theorem identities_tables (wild : Binary64 → UInt64) (lines : List CString) (db : DB) :
    identities (tableLines wild lines db).2 = identities db := by
  fun_induction tableLines wild lines db with
  | case1 db => rfl
  | case2 lines db => rfl
  | case3 line lines db _ _ _ block ih => exact ih
  | case4 line lines db _ _ ih => exact ih

theorem files_section (wild : Binary64 → UInt64) (s : Section) (lines : List CString) (db : DB) :
    Files (.opening s) lines db (parseSection wild s lines db) := by
  unfold Files
  rw [headers_opening]
  cases s with
  | nodes => exact files_of_same (headers_nodes _ db) (identities_nodes _ db)
  | signals => exact files_of_same (headers_signals wild _ db) (identities_signals wild _ db)
  | frames => exact files_frames _ db
  | scheduleTables => exact files_of_same (headers_tables wild _ db) (identities_tables wild _ db)

theorem headers_top_of {line : CString} {m : Mode} (h : Mode.top.next line = m)
    (lines : List CString) : headers .top (line :: lines) = headers m lines := by
  rw [headers_cons_of_not (by simp [Mode.readsHeader]), h]

/-- The identities after the parse are those before it, with every header of the lines filed
over them in turn. -/
theorem identities_parseTop (wild : Binary64 → UInt64) (lines : List CString) (db : DB) :
    identities (parseTop wild lines db) = (headers .top lines).foldl file (identities db) := by
  fun_induction parseTop wild lines db with
  | case1 db => rfl
  | case2 line lines db hline ih =>
      rw [ih, headers_top_of (m := .top) (by simp [Mode.next, hline])]
      rfl
  | case3 line lines db hline ih =>
      rw [ih, headers_top_of (m := .top) (by simp [Mode.next, hline])]
      rfl
  | case4 line lines db hline ih =>
      rw [ih, headers_top_of (m := .top) (by simp [Mode.next, hline])]
      rfl
  | case5 line lines db s hline _ r ih =>
      obtain ⟨hs, hh, hi⟩ := files_section wild s lines db
      rw [headers_top_of (m := .opening s) (by simp [Mode.next, hline]), hh, List.foldl_append,
        ← hi]
      exact ih
  | case6 line lines db hline ih =>
      rw [ih, headers_top_of (m := .top) (by simp [Mode.next, hline])]

/-- The frame headers of a text. -/
def frameHeaders (text : CString) : List Header := headers .top (contentLines text)

/-- The frame at a key is the one of the last header filed there. -/
theorem identities_parse (wild : Binary64 → UInt64) (text : CString) (k : UInt8) :
    identities (parse wild text) k =
      (latest (fun h => h.frame.id) k (frameHeaders text)).map fun h => (h.name, k) := by
  have hempty : identities {} = fun _ => none := by
    funext k
    simp [identities, DB.frame]
  have hfold := foldl_update_apply (fun h : Header => h.frame.id)
    (fun k h => some (h.name, k)) (fun _ => none) (frameHeaders text) k
  rw [parse, identities_parseTop, hempty]
  refine hfold.trans ?_
  cases latest (fun h => h.frame.id) k (frameHeaders text) <;> rfl

end CppLin.Ldf
