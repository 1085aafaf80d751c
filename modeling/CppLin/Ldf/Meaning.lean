import CppLin.Ldf.Declarations

/-!
What the declarations of a text leave to be looked up, and what is found of them in a text
that is cut off.
-/
namespace CppLin.Ldf
open Bytes CNumber CText LastWrite

namespace Declaration

def asProtocol : Declaration → Option CString
  | .protocolVersion v => some v
  | _ => none

def asLanguage : Declaration → Option CString
  | .languageVersion v => some v
  | _ => none

def asSpeed : Declaration → Option Binary64
  | .speed x => some x
  | _ => none

def asMaster : Declaration → Option CString
  | .master name => some name
  | _ => none

def asSlaves : Declaration → Option (List CString)
  | .slaves names => some names
  | _ => none

def asSignal : Declaration → Option Signal
  | .signal sig => some sig
  | _ => none

def asFrame : Declaration → Option LDFFrame
  | .frame fr => some fr
  | _ => none

end Declaration

/-- The least identifier under which the last frame has that name. -/
def idIn (frs : List LDFFrame) (name : CString) : Option UInt8 :=
  ((List.range 256).map UInt8.ofNat).find? fun k =>
    (latest LDFFrame.id k frs).any fun fr => fr.name = name

def entryIn (frs : List LDFFrame) (row : Row) : Option ScheduleEntry :=
  let fid := (idIn frs row.1).getD 0xFF
  if fid ≤ kLINMaxID then some { id := fid, delayMs := row.2 } else none

/-- The tables of a text, each with the frames before it. -/
def tables (frs : List LDFFrame) : List Declaration → List (CString × List ScheduleEntry)
  | [] => []
  | .frame fr :: ds => tables (frs ++ [fr]) ds
  | .table name rows :: ds => (name, rows.filterMap (entryIn frs)) :: tables frs ds
  | _ :: ds => tables frs ds

/-- The last declaration of a thing is the one that counts, and a table knows the frames that
stand before it. -/
structure Means (ds : List Declaration) (db : DB) : Prop where
  protocolVersion : db.protocolVersion = (ds.filterMap Declaration.asProtocol).getLast?.getD []
  languageVersion : db.languageVersion = (ds.filterMap Declaration.asLanguage).getLast?.getD []
  speed : db.speed = (ds.filterMap Declaration.asSpeed).getLast?.getD (.finite 0)
  masterNode : db.masterNode = (ds.filterMap Declaration.asMaster).getLast?.getD []
  slaveNodes : db.slaveNodes = (ds.filterMap Declaration.asSlaves).flatten
  signal : ∀ name, db.signal name = latest Signal.name name (ds.filterMap Declaration.asSignal)
  frame : ∀ id, db.frame id = latest LDFFrame.id id (ds.filterMap Declaration.asFrame)
  schedule : ∀ name, db.schedules_.lookup name =
    (latest Prod.fst name (tables [] ds)).map Prod.snd

theorem foldl_declare {σ β : Type*} (f : DB → σ) (pick : Declaration → Option β) (g : σ → β → σ)
    (h : ∀ db d, f (db.declare d) = (pick d).elim (f db) (g (f db))) (ds : List Declaration)
    (db : DB) : f (ds.foldl DB.declare db) = (ds.filterMap pick).foldl g (f db) := by
  rw [List.foldl_filterMap]
  refine (List.foldl_hom f fun db d => ?_).symm
  rw [h]
  cases pick d <;> rfl

theorem foldl_last {α : Type*} (l : List α) (x : α) :
    l.foldl (fun _ y => y) x = l.getLast?.getD x := by
  induction l generalizing x with
  | nil => rfl
  | cons y l ih => rw [List.foldl_cons, ih, List.getLast?_cons, Option.getD_some]

theorem foldl_append_flatten {α : Type*} (l : List (List α)) (x : List α) :
    l.foldl (fun x y => x ++ y) x = x ++ l.flatten := by
  induction l generalizing x with
  | nil => rw [List.foldl_nil, List.flatten_nil, List.append_nil]
  | cons y l ih => rw [List.foldl_cons, ih, List.flatten_cons, List.append_assoc]

theorem idOf_eq_idIn {db : DB} {frs : List LDFFrame}
    (h : ∀ id, db.frame id = latest LDFFrame.id id frs) (name : CString) :
    db.idOf name = idIn frs name := by
  rw [DB.idOf, idIn]
  simp only [← h]
  rfl

theorem entry_eq_entryIn {db : DB} {frs : List LDFFrame}
    (h : ∀ id, db.frame id = latest LDFFrame.id id frs) : db.entry = entryIn frs := by
  funext row
  rw [DB.entry, idOf_eq_idIn h, entryIn]

theorem frame_storeFrame {db : DB} {frs : List LDFFrame}
    (h : ∀ id, db.frame id = latest LDFFrame.id id frs) (fr : LDFFrame) (id : UInt8) :
    (storeFrame db fr).frame id = latest LDFFrame.id id (frs ++ [fr]) := by
  by_cases hid : fr.id = id
  · subst hid
    rw [latest_concat_same _ rfl, DB.frame, storeFrame, AList.lookup_insert]
  · rw [latest_concat_other _ hid, ← h, DB.frame, storeFrame, AList.lookup_insert_ne (Ne.symm hid)]
    rfl

/-- The tables are stored as they are resolved on the way. -/
theorem schedules_foldl_declare (ds : List Declaration) {frs : List LDFFrame} {db : DB}
    (h : ∀ id, db.frame id = latest LDFFrame.id id frs) :
    (ds.foldl DB.declare db).schedules_ =
      (tables frs ds).foldl (fun m t => m.insert t.1 t.2) db.schedules_ := by
  induction ds generalizing frs db with
  | nil => rfl
  | cons d ds ih =>
      rw [List.foldl_cons]
      cases d with
      | protocolVersion v => exact ih h
      | languageVersion v => exact ih h
      | speed x => exact ih h
      | master name => exact ih h
      | slaves names => exact ih h
      | signal sig => exact ih h
      | frame fr => exact ih (frame_storeFrame h fr)
      | table name rows =>
          rw [tables, List.foldl_cons, ← entry_eq_entryIn h]
          exact ih h

theorem means_foldl_declare (ds : List Declaration) : Means ds (ds.foldl DB.declare {}) where
  protocolVersion := by
    rw [foldl_declare DB.protocolVersion Declaration.asProtocol (fun _ v => v)
      (fun db d => by cases d <;> rfl), foldl_last]
  languageVersion := by
    rw [foldl_declare DB.languageVersion Declaration.asLanguage (fun _ v => v)
      (fun db d => by cases d <;> rfl), foldl_last]
  speed := by
    rw [foldl_declare DB.speed Declaration.asSpeed (fun _ x => x)
      (fun db d => by cases d <;> rfl), foldl_last]
  masterNode := by
    rw [foldl_declare DB.masterNode Declaration.asMaster (fun _ name => name)
      (fun db d => by cases d <;> rfl), foldl_last]
  slaveNodes := by
    rw [foldl_declare DB.slaveNodes Declaration.asSlaves (fun names more => names ++ more)
      (fun db d => by cases d <;> rfl), foldl_append_flatten, List.nil_append]
  signal name := by
    rw [DB.signal, foldl_declare DB.signals_ Declaration.asSignal
      (fun m sig => m.insert sig.name sig) (fun db d => by cases d <;> rfl),
      lookup_foldl_insert Signal.name fun sig => sig, AList.lookup_empty, Option.or_none,
      Option.map_id']
  frame id := by
    rw [DB.frame, foldl_declare DB.frames_ Declaration.asFrame
      (fun m fr => m.insert fr.id fr) (fun db d => by cases d <;> rfl),
      lookup_foldl_insert LDFFrame.id fun fr => fr, AList.lookup_empty, Option.or_none,
      Option.map_id']
  schedule name := by
    have h0 : ∀ id, DB.frame {} id = latest LDFFrame.id id [] := fun id => AList.lookup_empty id
    rw [schedules_foldl_declare ds h0, lookup_foldl_insert Prod.fst Prod.snd,
      AList.lookup_empty, Option.or_none]

variable {wild : Binary64 → UInt64}

/-- The nested loops of the parser leave what one pass over the lines declares. -/
theorem parse_means (wild : Binary64 → UInt64) (text : CString) :
    Means (declarations wild .top (contentLines text)) (parse wild text) := by
  rw [parse, parseTop_eq]
  exact means_foldl_declare _

/-- A table above the frame it names has no entry for it. -/
example : tables [] (declarations (fun _ => 0) .top (contentLines
      ("Schedule_tables \x7b\nT \x7b\nF delay 10 ms ;\n\x7d\n\x7d\n" ++
        "Frames \x7b\nF : 5, M, 2 \x7b\n\x7d\n\x7d").toList)) = [("T".toList, [])] := by
  decide +kernel

/-! A text that is cut off. -/

/-- What is declared at the place where the text is cut, and what the rest of it declares: a
frame or a table that is open there is the first, and has more to come. -/
inductive Cut : List Declaration → List Declaration → Prop where
  | closed (rest : List Declaration) : Cut [] rest
  | frame (fr : LDFFrame) (more : List SignalRef) (rest : List Declaration) :
      Cut [.frame fr] (.frame { fr with signals := fr.signals ++ more } :: rest)
  | table (name : CString) (rows more : List Row) (rest : List Declaration) :
      Cut [.table name rows] (.table name (rows ++ more) :: rest)

theorem declarations_refs (h : Header) (refs : List SignalRef) (lines : List CString) :
    ∃ more rest, declarations wild (.refs h refs) lines =
      .frame { h.frame with signals := refs ++ more } :: rest := by
  induction lines generalizing refs with
  | nil => exact ⟨[], [], by rw [List.append_nil]; rfl⟩
  | cons line lines ih =>
      rw [declarations_cons, feed]
      split_ifs
      · exact ⟨[], declarations wild (.inside .frames) lines, by rw [List.append_nil]; rfl⟩
      · obtain ⟨more, rest, hrest⟩ := ih (refs ++ (readRef line).toList)
        exact ⟨(readRef line).toList ++ more, rest, by rw [hrest, List.append_assoc]; rfl⟩

theorem declarations_entries (name : CString) (rows : List Row) (lines : List CString) :
    ∃ more rest, declarations wild (.entries name rows) lines =
      .table name (rows ++ more) :: rest := by
  induction lines generalizing rows with
  | nil => exact ⟨[], [], by rw [List.append_nil]; rfl⟩
  | cons line lines ih =>
      rw [declarations_cons, feed]
      split_ifs
      · exact ⟨[], declarations wild (.inside .scheduleTables) lines,
          by rw [List.append_nil]; rfl⟩
      · obtain ⟨more, rest, hrest⟩ := ih (rows ++ (readRow wild line).toList)
        exact ⟨(readRow wild line).toList ++ more, rest, by rw [hrest, List.append_assoc]; rfl⟩

theorem cut_declarations (p : Place) (lines : List CString) :
    Cut (finish p) (declarations wild p lines) := by
  cases p with
  | top => exact .closed _
  | opening s => exact .closed _
  | inside s => exact .closed _
  | refs h refs =>
      obtain ⟨more, rest, hrest⟩ := @declarations_refs wild h refs lines
      rw [hrest]
      exact .frame { h.frame with signals := refs } more rest
  | entries name rows =>
      obtain ⟨more, rest, hrest⟩ := @declarations_entries wild name rows lines
      rw [hrest]
      exact .table name rows more rest

theorem scan_append (p : Place) (lines more : List CString) :
    scan wild p (lines ++ more) =
      ((scan wild (scan wild p lines).1 more).1,
        (scan wild p lines).2 ++ (scan wild (scan wild p lines).1 more).2) := by
  induction lines generalizing p with
  | nil => rfl
  | cons line lines ih => simp only [List.cons_append, scan, ih, List.append_assoc]

theorem contentLines_split (a b : CString) :
    contentLines (a ++ '\n' :: b) = contentLines a ++ contentLines b := by
  obtain ⟨blank, hblank, hlines⟩ := getlines_split '\n' a b
  have hnone : (blank.map stripComment).filter (· ≠ []) = [] := by
    rw [List.filter_eq_nil_iff]
    intro line hline
    obtain ⟨l, hl, rfl⟩ := List.mem_map.mp hline
    rw [hblank l hl]
    decide
  rw [contentLines, hlines, List.map_append, List.map_append, List.filter_append,
    List.filter_append, hnone, List.append_nil, contentLines, contentLines]

/-- The declarations of a text that is cut off are the first of the whole text. -/
theorem declarations_cut (a b : CString) :
    ∃ pre cut rest, Cut cut rest ∧ declarations wild .top (contentLines a) = pre ++ cut ∧
      declarations wild .top (contentLines (a ++ '\n' :: b)) = pre ++ rest := by
  refine ⟨(scan wild .top (contentLines a)).2, _, _,
    @cut_declarations wild (scan wild .top (contentLines a)).1 (contentLines b), rfl, ?_⟩
  rw [contentLines_split, declarations, scan_append, declarations, List.append_assoc]

/-- Nothing is declared twice. -/
@[mk_iff] structure Once (ds : List Declaration) : Prop where
  protocolVersion : (ds.filterMap Declaration.asProtocol).length ≤ 1
  languageVersion : (ds.filterMap Declaration.asLanguage).length ≤ 1
  speed : (ds.filterMap Declaration.asSpeed).length ≤ 1
  master : (ds.filterMap Declaration.asMaster).length ≤ 1
  signals : ((ds.filterMap Declaration.asSignal).map Signal.name).Nodup
  frames : ((ds.filterMap Declaration.asFrame).map LDFFrame.id).Nodup
  tables : ((tables [] ds).map Prod.fst).Nodup

instance (ds : List Declaration) : Decidable (Once ds) := decidable_of_iff' _ (once_iff ds)

/-- What the one has the other has as well: a value that is set is the same there, and only lists
are longer. -/
structure Extends (cut whole : DB) : Prop where
  protocolVersion : cut.protocolVersion = [] ∨ cut.protocolVersion = whole.protocolVersion
  languageVersion : cut.languageVersion = [] ∨ cut.languageVersion = whole.languageVersion
  speed : cut.speed = .finite 0 ∨ cut.speed = whole.speed
  masterNode : cut.masterNode = [] ∨ cut.masterNode = whole.masterNode
  slaveNodes : cut.slaveNodes <+: whole.slaveNodes
  signal : ∀ name sig, cut.signal name = some sig → whole.signal name = some sig
  frame : ∀ id fr, cut.frame id = some fr →
    ∃ more, whole.frame id = some { fr with signals := fr.signals ++ more }
  schedule : ∀ name, cut.schedule name <+: whole.schedule name

theorem latest_of_mem {κ ω : Type*} [DecidableEq κ] {key : ω → κ} {ws : List ω}
    (h : (ws.map key).Nodup) {w : ω} (hw : w ∈ ws) : latest key (key w) ws = some w := by
  rw [latest_eq_find? key h, find?_key key h hw]

theorem tables_append (frs : List LDFFrame) (ds more : List Declaration) :
    tables frs (ds ++ more) =
      tables frs ds ++ tables (frs ++ ds.filterMap Declaration.asFrame) more := by
  induction ds generalizing frs with
  | nil => simp [tables]
  | cons d ds ih =>
      cases d with
      | frame fr => simpa [tables, Declaration.asFrame] using ih (frs ++ [fr])
      | table name rows => exact congrArg _ (ih frs)
      | protocolVersion v => exact ih frs
      | languageVersion v => exact ih frs
      | speed x => exact ih frs
      | master name => exact ih frs
      | slaves names => exact ih frs
      | signal sig => exact ih frs

/-- Only a frame or a table can be open where a text is cut. -/
theorem filterMap_cut {α : Type*} {cut rest : List Declaration} (h : Cut cut rest)
    {pick : Declaration → Option α} (hframe : ∀ fr, pick (.frame fr) = none)
    (htable : ∀ name rows, pick (.table name rows) = none) : cut.filterMap pick = [] := by
  cases h with
  | closed rest => rfl
  | frame fr more rest => rw [List.filterMap_cons, hframe, List.filterMap_nil]
  | table name rows more rest => rw [List.filterMap_cons, htable, List.filterMap_nil]

/-- What is declared once at most is not set before the cut, or is set there for good. -/
theorem last_cut {α : Type*} {pick : Declaration → Option α} {pre cut rest : List Declaration}
    (hcut : cut.filterMap pick = []) (honce : ((pre ++ rest).filterMap pick).length ≤ 1) (x : α) :
    ((pre ++ cut).filterMap pick).getLast?.getD x = x ∨
      ((pre ++ cut).filterMap pick).getLast?.getD x =
        ((pre ++ rest).filterMap pick).getLast?.getD x := by
  rw [List.filterMap_append, List.length_append] at honce
  rw [List.filterMap_append, List.filterMap_append, hcut, List.append_nil]
  by_cases hpre : pre.filterMap pick = []
  · rw [hpre]
    exact .inl rfl
  · have hlen := List.length_pos_iff.mpr hpre
    have hrest : rest.filterMap pick = [] := by
      rw [← List.length_eq_zero_iff]
      omega
    rw [hrest, List.append_nil]
    exact .inr rfl

theorem asFrame_cut {cut rest : List Declaration} (h : Cut cut rest) {fr : LDFFrame}
    (hfr : fr ∈ cut.filterMap Declaration.asFrame) :
    ∃ more, { fr with signals := fr.signals ++ more } ∈ rest.filterMap Declaration.asFrame := by
  cases h with
  | closed rest => cases hfr
  | frame fr' more rest =>
      obtain rfl := List.mem_singleton.mp hfr
      exact ⟨more, List.mem_cons_self⟩
  | table name rows more rest => cases hfr

theorem tables_cut {cut rest : List Declaration} (h : Cut cut rest) (frs : List LDFFrame)
    {t : CString × List ScheduleEntry} (ht : t ∈ tables frs cut) :
    ∃ more, (t.1, t.2 ++ more) ∈ tables frs rest := by
  cases h with
  | closed rest => cases ht
  | frame fr' more rest => cases ht
  | table name rows more rest =>
      obtain rfl := List.mem_singleton.mp ht
      refine ⟨more.filterMap (entryIn frs), ?_⟩
      rw [tables, List.filterMap_append]
      exact List.mem_cons_self

theorem extends_cut {pre cut rest : List Declaration} {small whole : DB} (h : Cut cut rest)
    (hsmall : Means (pre ++ cut) small) (hwhole : Means (pre ++ rest) whole)
    (honce : Once (pre ++ rest)) : Extends small whole where
  protocolVersion := by
    rw [hsmall.protocolVersion, hwhole.protocolVersion]
    exact last_cut (filterMap_cut h (fun _ => rfl) fun _ _ => rfl) honce.protocolVersion []
  languageVersion := by
    rw [hsmall.languageVersion, hwhole.languageVersion]
    exact last_cut (filterMap_cut h (fun _ => rfl) fun _ _ => rfl) honce.languageVersion []
  speed := by
    rw [hsmall.speed, hwhole.speed]
    exact last_cut (filterMap_cut h (fun _ => rfl) fun _ _ => rfl) honce.speed (.finite 0)
  masterNode := by
    rw [hsmall.masterNode, hwhole.masterNode]
    exact last_cut (filterMap_cut h (fun _ => rfl) fun _ _ => rfl) honce.master []
  slaveNodes := by
    have hnone : cut.filterMap Declaration.asSlaves = [] :=
      filterMap_cut h (fun _ => rfl) fun _ _ => rfl
    rw [hsmall.slaveNodes, hwhole.slaveNodes, List.filterMap_append, List.filterMap_append, hnone,
      List.append_nil, List.flatten_append]
    exact List.prefix_append _ _
  signal name sig hsig := by
    have hnone : cut.filterMap Declaration.asSignal = [] :=
      filterMap_cut h (fun _ => rfl) fun _ _ => rfl
    rw [hsmall.signal, List.filterMap_append, hnone, List.append_nil] at hsig
    obtain ⟨hmem, rfl⟩ := latest_spec _ hsig
    rw [hwhole.signal]
    refine latest_of_mem honce.signals ?_
    rw [List.filterMap_append]
    exact List.mem_append_left _ hmem
  frame id fr hfr := by
    rw [hsmall.frame] at hfr
    obtain ⟨hmem, rfl⟩ := latest_spec _ hfr
    obtain ⟨more, hmore⟩ : ∃ more, { fr with signals := fr.signals ++ more } ∈
        (pre ++ rest).filterMap Declaration.asFrame := by
      rw [List.filterMap_append] at hmem ⊢
      rcases List.mem_append.mp hmem with hpre | hcut
      · refine ⟨[], List.mem_append_left _ ?_⟩
        rwa [List.append_nil]
      · obtain ⟨more, hmore⟩ := asFrame_cut h hcut
        exact ⟨more, List.mem_append_right _ hmore⟩
    refine ⟨more, ?_⟩
    rw [hwhole.frame]
    exact latest_of_mem honce.frames hmore
  schedule name := by
    rw [DB.schedule, DB.schedule, hsmall.schedule, hwhole.schedule]
    cases hlast : latest Prod.fst name (tables [] (pre ++ cut)) with
    | none => exact List.nil_prefix
    | some t =>
        obtain ⟨hmem, rfl⟩ := latest_spec _ hlast
        obtain ⟨more, hmore⟩ : ∃ more, (t.1, t.2 ++ more) ∈ tables [] (pre ++ rest) := by
          rw [tables_append] at hmem ⊢
          rcases List.mem_append.mp hmem with hpre | hcut
          · refine ⟨[], List.mem_append_left _ ?_⟩
            rwa [List.append_nil]
          · obtain ⟨more, hmore⟩ := tables_cut h _ hcut
            exact ⟨more, List.mem_append_right _ hmore⟩
        rw [latest_of_mem honce.tables hmore]
        exact List.prefix_append _ _

/-- A file that breaks off behind one of its lines yields nothing that the whole file does not
say, when the whole file declares nothing twice. -/
theorem parse_truncated (wild : Binary64 → UInt64) (a b : CString)
    (h : Once (declarations wild .top (contentLines (a ++ '\n' :: b)))) :
    Extends (parse wild a) (parse wild (a ++ '\n' :: b)) := by
  obtain ⟨pre, cut, rest, hcut, ha, hab⟩ := @declarations_cut wild a b
  have hsmall := parse_means wild a
  have hwhole := parse_means wild (a ++ '\n' :: b)
  rw [ha] at hsmall
  rw [hab] at hwhole h
  exact extends_cut hcut hsmall hwhole h

def brokenOff : CString :=
  ("LIN_speed = 19.2 kbps ;\nNodes \x7b\nMaster: M, 5 ms, 0.1 ms ;\nSlaves: A ;\n\x7d\n" ++
    "Signals \x7b\nS : 8, 0, M, A ;\n\x7d\nFrames \x7b\nF : 5, M, 2 \x7b\nS, 0 ;").toList

def missing : CString := "T, 8 ;\n\x7d\n\x7d".toList

theorem parse_truncated_frame :
    (parse (fun _ => 0) brokenOff).frames_.keys = [5] ∧
      (parse (fun _ => 0) brokenOff).masterNode = "M".toList ∧
      Extends (parse (fun _ => 0) brokenOff)
        (parse (fun _ => 0) (brokenOff ++ '\n' :: missing)) :=
  ⟨by decide +kernel, by decide +kernel,
    parse_truncated (fun _ => 0) brokenOff missing (by decide +kernel)⟩

end CppLin.Ldf
