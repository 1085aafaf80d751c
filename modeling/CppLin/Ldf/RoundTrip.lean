import CppLin.Lib.LastWrite
import CppLin.Ldf.Lines

/-!
Parsing inverts rendering. The layout of the text leaves the contents of its lines, each
section reads its own lines up to the closing brace, and what stands between the sections
touches none of the tables.
-/
namespace CppLin.Ldf
open Bytes CNumber CText

/-! What is left of a line. -/

/-- Nothing in the text opens a comment or ends the line. -/
structure Plain (s : CString) : Prop where
  slash : '/' ∉ s
  newline : '\n' ∉ s

theorem Plain.append {a b : CString} (ha : Plain a) (hb : Plain b) : Plain (a ++ b) := by
  constructor
  · rw [List.mem_append]
    exact not_or.mpr ⟨ha.slash, hb.slash⟩
  · rw [List.mem_append]
    exact not_or.mpr ⟨ha.newline, hb.newline⟩

theorem Word.plain {s : CString} (h : Word s) : Plain s :=
  ⟨h.not_mem (by decide), h.not_mem (by decide)⟩

theorem plain_commas {fs : List CString} (h : ∀ f ∈ fs, Word f) : Plain (commas fs) where
  slash := not_mem_commas (by decide) fun f hf => (h f hf).plain.slash
  newline := not_mem_commas (by decide) fun f hf => (h f hf).plain.newline

theorem Blank.plain {s : CString} (h : Blank s) : Plain s where
  slash hmem := absurd (h _ hmem).1 (by decide)
  newline hmem := (h _ hmem).2 rfl

/-- What a line may hold. -/
structure Clean (s : CString) : Prop where
  plain : Plain s
  trimmed : Trimmed s

theorem stripComment_of_holds {content line : CString} (h : Holds content line)
    (hc : Clean content) : stripComment line = content := by
  obtain ⟨indent, trail, comment, hindent, htrail, hcomment, rfl⟩ := h
  have hbody := ((hindent.plain.append hc.plain).append htrail.plain).slash
  have htrim : trim (indent ++ content ++ trail) = content := by
    rw [trim_pad (fun c hc => (hindent c hc).1) (fun c hc => (htrail c hc).1),
      trim_of_trimmed hc.trimmed]
  rw [stripComment]
  rcases hcomment with rfl | ⟨remark, -, rfl⟩
  · have hnone : find "//".toList (indent ++ content ++ trail ++ []) = none := by
      rw [List.append_nil]
      exact find_of_not_mem hbody
    rw [hnone, List.append_nil]
    exact htrim
  · have hsome : find "//".toList (indent ++ content ++ trail ++ ("//".toList ++ remark)) =
        some (indent ++ content ++ trail).length := find_append hbody remark
    simp only [hsome, List.take_left]
    exact htrim

theorem Holds.newline {content line : CString} (h : Holds content line) (hc : Plain content) :
    '\n' ∉ line := by
  obtain ⟨indent, trail, comment, hindent, htrail, hcomment, rfl⟩ := h
  have hbody := ((hindent.plain.append hc).append htrail.plain).newline
  rw [List.mem_append]
  refine not_or.mpr ⟨hbody, ?_⟩
  rcases hcomment with rfl | ⟨remark, hremark, rfl⟩
  · exact List.not_mem_nil
  · rw [List.mem_append]
    exact not_or.mpr ⟨by decide, hremark⟩

def contentsOf (lines : List CString) : List CString := (lines.map stripComment).filter (· ≠ [])

theorem contentsOf_append (lines lines' : List CString) :
    contentsOf (lines ++ lines') = contentsOf lines ++ contentsOf lines' := by
  rw [contentsOf, List.map_append, List.filter_append]
  rfl

theorem contentsOf_cons_nil {line : CString} (h : stripComment line = []) (lines : List CString) :
    contentsOf (line :: lines) = contentsOf lines := by
  simp [contentsOf, h]

theorem contentsOf_cons {line : CString} (h : stripComment line ≠ []) (lines : List CString) :
    contentsOf (line :: lines) = stripComment line :: contentsOf lines := by
  simp [contentsOf, h]

theorem clean_nil : Clean [] := ⟨⟨by simp, by simp⟩, ⟨by simp, by simp⟩⟩

theorem contentsOf_laidOut {contents lines : List CString} (h : LaidOut contents lines)
    (hc : ∀ content ∈ contents, Clean content ∧ content ≠ []) :
    contentsOf lines = contents ∧ ∀ line ∈ lines, '\n' ∉ line := by
  induction h with
  | nil => exact ⟨rfl, by simp⟩
  | empty hline _ ih =>
      obtain ⟨hcontents, hlines⟩ := ih hc
      refine ⟨?_, ?_⟩
      · rw [contentsOf_cons_nil (stripComment_of_holds hline clean_nil), hcontents]
      · exact List.forall_mem_cons.mpr ⟨hline.newline clean_nil.plain, hlines⟩
  | line hline _ ih =>
      obtain ⟨⟨hclean, hne⟩, hrest⟩ := List.forall_mem_cons.mp hc
      obtain ⟨hcontents, hlines⟩ := ih hrest
      have hstrip := stripComment_of_holds hline hclean
      refine ⟨?_, ?_⟩
      · rw [contentsOf_cons (hstrip ▸ hne), hstrip, hcontents]
      · exact List.forall_mem_cons.mpr ⟨hline.newline hclean.plain, hlines⟩

theorem contentLines_unlines {lines : List CString} (h : ∀ line ∈ lines, '\n' ∉ line) :
    contentLines (unlines '\n' lines) = contentsOf lines := by
  have hlines := getlines_unlines h []
  rw [List.append_nil, getlines_nil, List.append_nil] at hlines
  rw [contentLines, hlines, contentsOf]

/-- The line break at the end of the text may be missing. -/
theorem contentLines_of_lines {lines : List CString} {text : CString}
    (h : ∀ line ∈ lines, '\n' ∉ line)
    (htext : text = unlines '\n' lines ∨ text ++ ['\n'] = unlines '\n' lines) :
    contentLines text = contentsOf lines := by
  rcases htext with rfl | htext
  · exact contentLines_unlines h
  rcases List.eq_nil_or_concat lines with rfl | ⟨init, last, rfl⟩
  · simp [unlines] at htext
  rw [List.concat_eq_append] at h htext ⊢
  have hsplit : text = unlines '\n' init ++ last := by
    have hunlines : unlines '\n' (init ++ [last]) = (unlines '\n' init ++ last) ++ ['\n'] := by
      simp [unlines]
    exact List.append_cancel_right (htext.trans hunlines)
  have hinit := getlines_unlines (fun line hl => h line (List.mem_append_left [last] hl)) last
  have hlast : '\n' ∉ last := h last (by simp)
  rw [contentLines, hsplit, hinit, List.map_append, List.filter_append, contentsOf_append]
  congr 1
  by_cases hnil : last = []
  · subst hnil
    rfl
  · rw [getlines_last hlast hnil, contentsOf]

/-! The lines of a rendered description are clean. -/

theorem clean_line {a m b : CString} (ha : ∃ c, a.head? = some c ∧ isMargin c = false)
    (hb : ∃ c, b.getLast? = some c ∧ isMargin c = false) (pa : Plain a) (pm : Plain m)
    (pb : Plain b) : Clean (a ++ m ++ b) ∧ a ++ m ++ b ≠ [] := by
  obtain ⟨c, hc, hcm⟩ := ha
  obtain ⟨d, hd, hdm⟩ := hb
  have hhead : (a ++ m ++ b).head? = some c := by simp [hc]
  have hlast : (a ++ m ++ b).getLast? = some d := by simp [hd]
  refine ⟨⟨(pa.append pm).append pb, ⟨?_, ?_⟩⟩, ?_⟩
  · intro x hx
    rw [hhead] at hx
    obtain rfl := Option.some.inj hx
    exact hcm
  · intro x hx
    rw [hlast] at hx
    obtain rfl := Option.some.inj hx
    exact hdm
  · intro hnil
    rw [hnil] at hhead
    cases hhead

theorem semicolon_ends : ∃ c, " ;".toList.getLast? = some c ∧ isMargin c = false :=
  ⟨';', rfl, by decide⟩

theorem brace_ends : ∃ c, " \x7b".toList.getLast? = some c ∧ isMargin c = false :=
  ⟨'\x7b', rfl, by decide⟩

theorem Word.begins {s : CString} (h : Word s) : ∃ c, s.head? = some c ∧ isMargin c = false := by
  obtain ⟨c, hc, hword⟩ := h.head_append []
  rw [List.append_nil] at hc
  exact ⟨c, hc, not_margin_of_isWordChar hword⟩

theorem clean_endLine : Clean endLine ∧ endLine ≠ [] :=
  ⟨⟨⟨by decide, by decide⟩, ⟨by simp [endLine, isMargin], by simp [endLine, isMargin]⟩⟩, by decide⟩

theorem clean_declaration {name tail : CString} {fields : List CString} (hn : Word name)
    (hf : ∀ f ∈ fields, Word f) (ht : ∃ c, tail.getLast? = some c ∧ isMargin c = false)
    (pt : Plain tail) :
    Clean (declaration name fields ++ tail) ∧ declaration name fields ++ tail ≠ [] := by
  have hline := clean_line hn.begins ht hn.plain
    (Plain.append (show Plain " : ".toList from ⟨by decide, by decide⟩) (plain_commas hf)) pt
  rwa [← List.append_assoc name] at hline

theorem plain_semicolon : Plain " ;".toList := ⟨by decide, by decide⟩

theorem plain_brace : Plain " \x7b".toList := ⟨by decide, by decide⟩

theorem clean_opening {name : CString} (hn : Word name) :
    Clean (name ++ " \x7b".toList) ∧ name ++ " \x7b".toList ≠ [] := by
  have hline := clean_line hn.begins brace_ends hn.plain clean_nil.plain plain_brace
  rwa [List.append_nil] at hline

theorem word_nodes : Word "Nodes".toList := ⟨by simp, by simp [isWordChar]⟩

theorem word_signals : Word "Signals".toList := ⟨by simp, by simp [isWordChar]⟩

theorem word_frames : Word "Frames".toList := ⟨by simp, by simp [isWordChar]⟩

theorem word_scheduleTables : Word "Schedule_tables".toList := ⟨by simp, by simp [isWordChar]⟩

theorem clean_nodesSection {timing : CString} (ht : Timing timing) (d : Description) :
    ∀ content ∈ nodesSection timing d, Clean content ∧ content ≠ [] := by
  have hmaster := clean_line (a := "Master: ".toList) ⟨'M', rfl, by decide⟩ semicolon_ends
    ⟨by decide, by decide⟩ (d.masterName.word.plain.append ⟨ht.2.1, ht.2.2⟩) plain_semicolon
  have hslaves := clean_line (a := "Slaves: ".toList) ⟨'S', rfl, by decide⟩ semicolon_ends
    ⟨by decide, by decide⟩ (plain_commas fun n hn => (d.slaveNames n hn).word) plain_semicolon
  rw [← List.append_assoc] at hmaster
  simp only [nodesSection, List.forall_mem_cons]
  exact ⟨clean_opening word_nodes, hmaster, hslaves,
    clean_endLine, by simp⟩

theorem clean_signalsSection (d : Description) :
    ∀ content ∈ signalsSection d, Clean content ∧ content ≠ [] := by
  simp only [signalsSection, List.forall_mem_cons, List.forall_mem_append, List.forall_mem_map]
  refine ⟨clean_opening word_signals, fun s hs => ?_,
    clean_endLine, by simp⟩
  have hwf := d.signalsWellFormed s hs
  exact clean_declaration hwf.name.word hwf.fields semicolon_ends plain_semicolon

theorem clean_frameBlock {fr : LDFFrame} (h : fr.WellFormed) :
    ∀ content ∈ frameBlock fr, Clean content ∧ content ≠ [] := by
  simp only [frameBlock, List.forall_mem_cons, List.forall_mem_append, List.forall_mem_map]
  refine ⟨clean_declaration h.name.word h.fields brace_ends plain_brace, fun r hr => ?_,
    clean_endLine, by simp⟩
  have hname := (h.signals r hr).1.word
  have hline := clean_line hname.begins semicolon_ends hname.plain
    (Plain.append (show Plain ", ".toList from ⟨by decide, by decide⟩)
      (word_toCString r.bitOffset.toInt.toNat).plain) plain_semicolon
  rwa [← List.append_assoc r.name] at hline

theorem clean_framesSection (d : Description) :
    ∀ content ∈ framesSection d, Clean content ∧ content ≠ [] := by
  simp only [framesSection, List.forall_mem_cons, List.forall_mem_append]
  refine ⟨clean_opening word_frames, fun content hc => ?_,
    clean_endLine, by simp⟩
  obtain ⟨fr, hfr, hmem⟩ := List.mem_flatMap.mp hc
  exact clean_frameBlock (d.framesWellFormed fr hfr) content hmem

theorem clean_tableBlock {frames : List LDFFrame} (hframes : ∀ fr ∈ frames, fr.WellFormed)
    {t : Table} (h : t.WellFormed frames) :
    ∀ content ∈ tableBlock t, Clean content ∧ content ≠ [] := by
  simp only [tableBlock, List.forall_mem_cons, List.forall_mem_append, List.forall_mem_map]
  refine ⟨clean_opening h.name.word, fun e he => ?_, clean_endLine, by simp⟩
  obtain ⟨fr, hfr, hfrname⟩ := h.entries e he
  have hword : Word e.1 := hfrname ▸ (hframes fr hfr).name.word
  have hline := clean_line hword.begins (b := " ms ;".toList) ⟨';', rfl, by decide⟩ hword.plain
    (Plain.append (show Plain " delay ".toList from ⟨by decide, by decide⟩)
      (word_toCString e.2.toNat).plain) ⟨by decide, by decide⟩
  rwa [← List.append_assoc e.1] at hline

theorem clean_tablesSection (d : Description) :
    ∀ content ∈ tablesSection d, Clean content ∧ content ≠ [] := by
  simp only [tablesSection, List.forall_mem_cons, List.forall_mem_append]
  refine ⟨clean_opening word_scheduleTables, fun content hc => ?_,
    clean_endLine, by simp⟩
  obtain ⟨t, ht, hmem⟩ := List.mem_flatMap.mp hc
  exact clean_tableBlock d.framesWellFormed (d.tablesWellFormed t ht) content hmem

/-! What stands between the sections. -/

theorem begins_keyword {line : CString} {s : Section} (h : topLine line = .begins s) :
    ∃ k ∈ sectionKeywords, k <+: line := by
  have hpre : ∀ {k : CString} {n : Nat}, line.take n = k → k <+: line := fun hk =>
    hk ▸ List.take_prefix _ line
  rw [topLine] at h
  split_ifs at h with h₁ h₂ h₃ hnodes hsignals hframes htables
  · exact ⟨_, by simp [sectionKeywords], hpre hnodes⟩
  · exact ⟨_, by simp [sectionKeywords], hpre hsignals⟩
  · exact ⟨_, by simp [sectionKeywords], hpre hframes⟩
  · exact ⟨_, by simp [sectionKeywords], hpre htables⟩

theorem dropWhile_mono {p : Char → Bool} {a b : CString} (h : a <+: b) :
    a.dropWhile p <+: b.dropWhile p := by
  obtain ⟨t, rfl⟩ := h
  rw [List.dropWhile_append]
  split_ifs with hnil
  · rw [List.isEmpty_iff.mp hnil]
    exact List.nil_prefix
  · exact List.prefix_append _ _

/-- Stripping a comment takes away from the end, once the indentation is gone. -/
theorem stripComment_head (line : CString) : stripComment line <+: line.dropWhile isMargin := by
  rw [stripComment]
  split
  · next p _ =>
      exact (List.rdropWhile_prefix _ _).trans (dropWhile_mono (List.take_prefix p line))
  · exact List.rdropWhile_prefix _ _

theorem FreeLine.not_begins {line : CString} (h : FreeLine line) (s : Section) :
    topLine (stripComment line) ≠ .begins s := by
  intro hb
  obtain ⟨k, hk, hpre⟩ := begins_keyword hb
  exact h.2 k hk (hpre.trans (stripComment_head line))

/-- The two databases hold the same nodes and tables. -/
structure Agree (db db' : DB) : Prop where
  masterNode : db'.masterNode = db.masterNode
  slaveNodes : db'.slaveNodes = db.slaveNodes
  signals : db'.signals_ = db.signals_
  frames : db'.frames_ = db.frames_
  schedules : db'.schedules_ = db.schedules_

theorem Agree.refl (db : DB) : Agree db db := ⟨rfl, rfl, rfl, rfl, rfl⟩

theorem Agree.of_eq {db db₁ db₂ : DB} (h : Agree db₁ db₂) (hm : db₁.masterNode = db.masterNode)
    (hs : db₁.slaveNodes = db.slaveNodes) (hg : db₁.signals_ = db.signals_)
    (hf : db₁.frames_ = db.frames_) (ht : db₁.schedules_ = db.schedules_) : Agree db db₂ :=
  ⟨h.masterNode.trans hm, h.slaveNodes.trans hs, h.signals.trans hg, h.frames.trans hf,
    h.schedules.trans ht⟩

section Sections
variable (wild : Binary64 → UInt64)

/-- A line between the sections can only change the header of the database. -/
theorem parseTop_line {line : CString} (h : ∀ s, topLine line ≠ .begins s) (lines : List CString)
    (db : DB) : ∃ db', parseTop wild (line :: lines) db = parseTop wild lines db' ∧ Agree db db' := by
  rw [parseTop]
  cases hline : topLine line with
  | protocolVersion => exact ⟨_, rfl, ⟨rfl, rfl, rfl, rfl, rfl⟩⟩
  | languageVersion => exact ⟨_, rfl, ⟨rfl, rfl, rfl, rfl, rfl⟩⟩
  | speed => exact ⟨_, rfl, ⟨rfl, rfl, rfl, rfl, rfl⟩⟩
  | begins s => exact absurd hline (h s)
  | other => exact ⟨_, rfl, Agree.refl db⟩

theorem parseTop_free {lines : List CString} (h : ∀ line ∈ lines, FreeLine line)
    (rest : List CString) (db : DB) :
    ∃ db', parseTop wild (contentsOf lines ++ rest) db = parseTop wild rest db' ∧ Agree db db' := by
  induction lines generalizing db with
  | nil => exact ⟨db, rfl, Agree.refl db⟩
  | cons line lines ih =>
      obtain ⟨hline, hlines⟩ := List.forall_mem_cons.mp h
      by_cases hnil : stripComment line = []
      · rw [contentsOf_cons_nil hnil]
        exact ih hlines db
      · obtain ⟨db₁, hfirst, ha⟩ :=
          parseTop_line wild hline.not_begins (contentsOf lines ++ rest) db
        obtain ⟨db₂, hrest, hb⟩ := ih hlines db₁
        rw [contentsOf_cons hnil, List.cons_append]
        exact ⟨db₂, hfirst.trans hrest,
          hb.of_eq ha.masterNode ha.slaveNodes ha.signals ha.frames ha.schedules⟩

theorem parseTop_begins {line : CString} {s : Section} (h : topLine line = .begins s)
    {lines rest : List CString} {db db' : DB} (hs : parseSection wild s lines db = (rest, db')) :
    parseTop wild (line :: lines) db = parseTop wild rest db' := by
  rw [parseTop]
  simp only [h, hs]

/-! The sections. -/

theorem word_master : Word "Master".toList := ⟨by simp, by simp [isWordChar]⟩

theorem word_slaves : Word "Slaves".toList := ⟨by simp, by simp [isWordChar]⟩

theorem skipBrace_word {s : CString} (h : Word s) (t : CString) (lines : List CString) :
    skipBrace ((s ++ t) :: lines) = (s ++ t) :: lines := by
  obtain ⟨c, hc, hword⟩ := h.head_append t
  rw [skipBrace, hc, if_neg]
  rintro hbrace
  obtain rfl := Option.some.inj hbrace
  exact absurd hword (by decide)

theorem parseTop_nodes {timing : CString} (ht : Timing timing) (d : Description)
    (rest : List CString) (db : DB) :
    parseTop wild (nodesSection timing d ++ rest) db = parseTop wild rest
      { db with masterNode := d.master, slaveNodes := db.slaveNodes ++ d.slaves } := by
  have hslaves := readNode_slavesLine (fun n hn => (d.slaveNames n hn).word)
  have hmaster := readNode_masterLine ht d.masterName.word
  refine parseTop_begins wild (s := .nodes) (by decide) ?_
  change parseNodes (masterLine timing d.master :: slavesLine d.slaves :: endLine :: rest) db = _
  have hskip : skipBrace (masterLine timing d.master :: slavesLine d.slaves :: endLine :: rest) =
      masterLine timing d.master :: slavesLine d.slaves :: endLine :: rest :=
    skipBrace_word word_master (": ".toList ++ d.master ++ timing ++ " ;".toList) _
  have hm : masterLine timing d.master ≠ endLine :=
    word_master.ne_endLine (": ".toList ++ d.master ++ timing ++ " ;".toList)
  have hs : slavesLine d.slaves ≠ endLine :=
    word_slaves.ne_endLine (": ".toList ++ commas d.slaves ++ " ;".toList)
  rw [parseNodes, hskip, nodeLines, if_neg hm, hmaster, nodeLines, if_neg hs, hslaves, nodeLines,
    if_pos rfl]

theorem declaration_append (name : CString) (fields : List CString) (t : CString) :
    declaration name fields ++ t = name ++ (" : ".toList ++ commas fields ++ t) := by
  rw [declaration, List.append_assoc, List.append_assoc, List.append_assoc]

theorem Signal.WellFormed.ne_endLine {s : Signal} (h : s.WellFormed) : signalLine s ≠ endLine := by
  rw [signalLine, declaration_append]
  exact h.name.word.ne_endLine _

theorem signalLines_section {signals : List Signal} (h : ∀ s ∈ signals, s.WellFormed)
    (rest : List CString) (db : DB) :
    signalLines wild (signals.map signalLine ++ endLine :: rest) db =
      (rest, signals.foldl storeSignal db) := by
  induction signals generalizing db with
  | nil => rw [List.map_nil, List.nil_append, signalLines, if_pos rfl, List.foldl_nil]
  | cons s signals ih =>
      obtain ⟨hs, hrest⟩ := List.forall_mem_cons.mp h
      rw [List.map_cons, List.cons_append, signalLines, if_neg hs.ne_endLine,
        readSignal_signalLine hs, List.foldl_cons]
      exact ih hrest (storeSignal db s)

theorem storeSignals (signals : List Signal) (db : DB) : signals.foldl storeSignal db =
    { db with signals_ := signals.foldl (fun m s => m.insert s.name s) db.signals_ } := by
  induction signals generalizing db with
  | nil => rfl
  | cons s signals ih => rw [List.foldl_cons, ih, List.foldl_cons, storeSignal]

theorem parseTop_signals (d : Description) (rest : List CString) (db : DB) :
    parseTop wild (signalsSection d ++ rest) db =
      parseTop wild rest (d.signals.foldl storeSignal db) := by
  rw [signalsSection, List.cons_append, List.append_assoc, List.singleton_append]
  refine parseTop_begins wild (s := .signals) (by decide) ?_
  have hskip : skipBrace (d.signals.map signalLine ++ endLine :: rest) =
      d.signals.map signalLine ++ endLine :: rest := by
    cases hsignals : d.signals with
    | nil => rfl
    | cons s signals =>
        have hs := d.signalsWellFormed s (by simp [hsignals])
        rw [List.map_cons, List.cons_append, signalLine, declaration_append,
          skipBrace_word hs.name.word]
  rw [parseSection, parseSignals, hskip, signalLines_section wild d.signalsWellFormed]

theorem parseRefs_refLines {refs : List SignalRef}
    (h : ∀ r ∈ refs, IsIdent r.name ∧ 0 ≤ r.bitOffset) (rest : List CString) (acc : List SignalRef) :
    parseRefs (refs.map refLine ++ endLine :: rest) acc = (rest, acc ++ refs) := by
  induction refs generalizing acc with
  | nil => rw [List.map_nil, List.nil_append, parseRefs, if_pos rfl, List.append_nil]
  | cons r refs ih =>
      obtain ⟨hr, hrest⟩ := List.forall_mem_cons.mp h
      have hline : refLine r ≠ endLine := by
        rw [refLine, commas_cons_cons, List.append_assoc, List.append_assoc]
        exact hr.1.word.ne_endLine _
      rw [List.map_cons, List.cons_append, parseRefs, if_neg hline, readRef_refLine hr, ih hrest,
        Option.toList_some, List.append_assoc, List.singleton_append]

theorem LDFFrame.WellFormed.ne_endLine {fr : LDFFrame} (h : fr.WellFormed) :
    headerLine fr ≠ endLine := by
  rw [headerLine, declaration_append]
  exact h.name.word.ne_endLine _

theorem brace_mem_headerLine (fr : LDFFrame) : '\x7b' ∈ headerLine fr := by
  rw [headerLine, List.mem_append]
  exact .inr (by decide)

theorem frameLines_section {frames : List LDFFrame} (h : ∀ fr ∈ frames, fr.WellFormed)
    (rest : List CString) (db : DB) :
    frameLines (frames.flatMap frameBlock ++ endLine :: rest) db =
      (rest, frames.foldl storeFrame db) := by
  induction frames generalizing db with
  | nil => rw [List.flatMap_nil, List.nil_append, frameLines, if_pos rfl, List.foldl_nil]
  | cons fr frames ih =>
      obtain ⟨hfr, hrest⟩ := List.forall_mem_cons.mp h
      obtain ⟨hd, hread, hframe⟩ := readHeader_headerLine hfr
      have hblock : (fr :: frames).flatMap frameBlock ++ endLine :: rest = headerLine fr ::
          (fr.signals.map refLine ++ endLine :: (frames.flatMap frameBlock ++ endLine :: rest)) := by
        rw [List.flatMap_cons, frameBlock]
        simp
      have hrefs := parseRefs_refLines hfr.signals (frames.flatMap frameBlock ++ endLine :: rest) []
      rw [List.nil_append] at hrefs
      rw [hblock, frameLines, if_neg hfr.ne_endLine, if_pos (brace_mem_headerLine fr)]
      simp only [hread, hrefs, hframe, List.foldl_cons]
      exact ih hrest (storeFrame db fr)

theorem storeFrames (frames : List LDFFrame) (db : DB) : frames.foldl storeFrame db =
    { db with frames_ := frames.foldl (fun m fr => m.insert fr.id fr) db.frames_ } := by
  induction frames generalizing db with
  | nil => rfl
  | cons fr frames ih => rw [List.foldl_cons, ih, List.foldl_cons, storeFrame]

theorem parseTop_frames (d : Description) (rest : List CString) (db : DB) :
    parseTop wild (framesSection d ++ rest) db =
      parseTop wild rest (d.frames.foldl storeFrame db) := by
  rw [framesSection, List.cons_append, List.append_assoc, List.singleton_append]
  refine parseTop_begins wild (s := .frames) (by decide) ?_
  have hskip : skipBrace (d.frames.flatMap frameBlock ++ endLine :: rest) =
      d.frames.flatMap frameBlock ++ endLine :: rest := by
    cases hframes : d.frames with
    | nil => rfl
    | cons fr frames =>
        have hfr := d.framesWellFormed fr (by simp [hframes])
        rw [List.flatMap_cons, frameBlock, List.cons_append, List.cons_append, headerLine,
          declaration_append, skipBrace_word hfr.name.word]
  rw [parseSection, parseFrames, hskip, frameLines_section d.framesWellFormed]

theorem entryLine_ne_endLine {e : CString × UInt32} (h : Word e.1) : entryLine e ≠ endLine := by
  rw [entryLine, List.append_assoc, List.append_assoc]
  exact h.ne_endLine _

/-- The entries of a table are read by the frames stored when the table is reached. -/
theorem parseEntries_entryLines {d : Description} {db : DB}
    (hids : ∀ fr ∈ d.frames, db.idOf fr.name = some fr.id ∧ d.idOf fr.name = fr.id)
    {entries : List (CString × UInt32)} (h : ∀ e ∈ entries, ∃ fr ∈ d.frames, fr.name = e.1)
    (rest : List CString) (acc : List ScheduleEntry) :
    parseEntries wild db (entries.map entryLine ++ endLine :: rest) acc =
      (rest, acc ++ entries.map fun e => { id := d.idOf e.1, delayMs := e.2 }) := by
  induction entries generalizing acc with
  | nil =>
      rw [List.map_nil, List.nil_append, parseEntries, if_pos rfl, List.map_nil, List.append_nil]
  | cons e entries ih =>
      obtain ⟨⟨fr, hfr, hname⟩, hrest⟩ := List.forall_mem_cons.mp h
      obtain ⟨hid, hdesc⟩ := hids fr hfr
      have hwf := d.framesWellFormed fr hfr
      rw [hname] at hid hdesc
      rw [List.map_cons, List.cons_append, parseEntries,
        if_neg (entryLine_ne_endLine (hname ▸ hwf.name.word)), readEntry_entryLine hwf hname hid,
        ih hrest, Option.toList_some, List.append_assoc, List.singleton_append, List.map_cons, hdesc]

theorem tableLine_ne_endLine {name : CString} (h : Word name) : tableLine name ≠ endLine :=
  h.ne_endLine _

def Description.storeTable (d : Description) (db : DB) (t : Table) : DB :=
  storeSchedule db t.name (d.schedule t)

theorem tableLines_section {d : Description} {tables : List Table}
    (h : ∀ t ∈ tables, t.WellFormed d.frames) (rest : List CString) {db : DB}
    (hids : ∀ fr ∈ d.frames, db.idOf fr.name = some fr.id ∧ d.idOf fr.name = fr.id) :
    tableLines wild (tables.flatMap tableBlock ++ endLine :: rest) db =
      (rest, tables.foldl d.storeTable db) := by
  induction tables generalizing db with
  | nil => rw [List.flatMap_nil, List.nil_append, tableLines, if_pos rfl, List.foldl_nil]
  | cons t tables ih =>
      obtain ⟨ht, hrest⟩ := List.forall_mem_cons.mp h
      have hn := ht.name.word
      have hblock : (t :: tables).flatMap tableBlock ++ endLine :: rest = tableLine t.name ::
          (t.entries.map entryLine ++ endLine :: (tables.flatMap tableBlock ++ endLine :: rest)) := by
        rw [List.flatMap_cons, tableBlock]
        simp
      have hentries := parseEntries_entryLines wild hids ht.entries
        (tables.flatMap tableBlock ++ endLine :: rest) []
      rw [List.nil_append] at hentries
      have hopen : tableLine t.name = (t.name ++ [' ']) ++ ['\x7b'] := by
        rw [tableLine, List.append_assoc]
        rfl
      have hlast : (tableLine t.name).getLast? = some '\x7b' := by
        rw [hopen, List.getLast?_concat]
      have hname : trim (tableLine t.name).dropLast = t.name := by
        rw [hopen, List.dropLast_concat, blank_concat, trim_of_trimmed hn.trimmed]
      rw [hblock, tableLines, if_neg (tableLine_ne_endLine hn), if_pos hlast]
      simp only [hentries, hname, List.foldl_cons]
      -- A table changes no frame, so the names stand for the same frames below it.
      exact ih hrest hids

theorem storeTables (d : Description) (tables : List Table) (db : DB) :
    tables.foldl d.storeTable db =
      { db with schedules_ := tables.foldl (fun m t => m.insert t.name (d.schedule t)) db.schedules_ } := by
  induction tables generalizing db with
  | nil => rfl
  | cons t tables ih =>
      rw [List.foldl_cons, ih, List.foldl_cons, Description.storeTable, storeSchedule]

theorem parseTop_tables (d : Description) (rest : List CString) {db : DB}
    (hids : ∀ fr ∈ d.frames, db.idOf fr.name = some fr.id ∧ d.idOf fr.name = fr.id) :
    parseTop wild (tablesSection d ++ rest) db =
      parseTop wild rest (d.tables.foldl d.storeTable db) := by
  rw [tablesSection, List.cons_append, List.append_assoc, List.singleton_append]
  refine parseTop_begins wild (s := .scheduleTables) (by decide) ?_
  have hskip : skipBrace (d.tables.flatMap tableBlock ++ endLine :: rest) =
      d.tables.flatMap tableBlock ++ endLine :: rest := by
    cases htables : d.tables with
    | nil => rfl
    | cons t tables =>
        have ht := d.tablesWellFormed t (by simp [htables])
        rw [List.flatMap_cons, tableBlock, List.cons_append, List.cons_append, tableLine,
          skipBrace_word ht.name.word]
  rw [parseSection, parseScheduleTables, hskip, tableLines_section wild d.tablesWellFormed rest hids]

end Sections

/-! The tables that result. -/

theorem idOf_of_mem {d : Description} {db : DB}
    (h : ∀ id, db.frames_.lookup id = d.frames.find? fun fr => fr.id = id) {fr : LDFFrame}
    (hfr : fr ∈ d.frames) : db.idOf fr.name = some fr.id ∧ d.idOf fr.name = fr.id := by
  have hself := LastWrite.find?_key LDFFrame.id d.frameIds hfr
  constructor
  · refine LastWrite.find?_unique ?_ ?_ fun k _ hk => ?_
    · exact List.mem_map.mpr ⟨fr.id.toNat, List.mem_range.mpr fr.id.toNat_lt, UInt8.ofNat_toNat⟩
    · rw [h, hself]
      simp
    · obtain ⟨fr', hlookup, hname⟩ := (Option.any_eq_true _ _).mp hk
      rw [h] at hlookup
      have hid : fr'.id = k := by simpa using List.find?_some hlookup
      have hsame : fr' = fr := List.inj_on_of_nodup_map d.frameNames
        (List.mem_of_find?_eq_some hlookup) hfr (by simpa using hname)
      rw [← hid, hsame]
  · rw [Description.idOf, LastWrite.find?_key LDFFrame.name d.frameNames hfr]
    rfl

theorem lookup_stored {κ ω β : Type} [DecidableEq κ] {key : ω → κ} (val : ω → β) {ws : List ω}
    (h : (ws.map key).Nodup) (k : κ) :
    (ws.foldl (fun m w => m.insert (key w) (val w)) (∅ : AList fun _ : κ => β)).lookup k =
      (ws.find? fun w => key w = k).map val := by
  rw [LastWrite.lookup_foldl_insert, AList.lookup_empty, Option.or_none,
    LastWrite.latest_eq_find? key h]

/-- The contents of the four sections, with those of the free lines around them. -/
def sectionContents (d : Description) (timing : CString)
    (free₀ free₁ free₂ free₃ free₄ : List CString) : List CString :=
  contentsOf free₀ ++ (nodesSection timing d ++ (contentsOf free₁ ++ (signalsSection d ++
    (contentsOf free₂ ++ (framesSection d ++ (contentsOf free₃ ++ (tablesSection d ++
    contentsOf free₄)))))))

/-- What the parser sees of a text that renders a description. -/
theorem contentLines_renders {d : Description} {text : CString} (h : Renders d text) :
    ∃ timing free₀ free₁ free₂ free₃ free₄, Timing timing ∧
      (∀ line ∈ free₀ ++ free₁ ++ free₂ ++ free₃ ++ free₄, FreeLine line) ∧
      contentLines text = sectionContents d timing free₀ free₁ free₂ free₃ free₄ := by
  obtain ⟨timing, free₀, nodes, free₁, signals, free₂, frames, free₃, tables, free₄, ht, hfree,
    hnodes, hsignals, hframes, htables, lines, rfl, htext⟩ := h
  refine ⟨timing, free₀, free₁, free₂, free₃, free₄, ht, hfree, ?_⟩
  obtain ⟨cnodes, nnodes⟩ := contentsOf_laidOut hnodes (clean_nodesSection ht d)
  obtain ⟨csignals, nsignals⟩ := contentsOf_laidOut hsignals (clean_signalsSection d)
  obtain ⟨cframes, nframes⟩ := contentsOf_laidOut hframes (clean_framesSection d)
  obtain ⟨ctables, ntables⟩ := contentsOf_laidOut htables (clean_tablesSection d)
  have hnewline : ∀ line ∈ free₀ ++ free₁ ++ free₂ ++ free₃ ++ free₄, '\n' ∉ line :=
    fun line hl => (hfree line hl).1
  simp only [List.forall_mem_append] at hnewline
  rw [contentLines_of_lines _ htext]
  · simp only [contentsOf_append, cnodes, csignals, cframes, ctables, List.append_assoc,
      sectionContents]
  · simp only [List.forall_mem_append]
    obtain ⟨⟨⟨⟨n₀, n₁⟩, n₂⟩, n₃⟩, n₄⟩ := hnewline
    exact ⟨⟨⟨⟨⟨⟨⟨⟨n₀, nnodes⟩, n₁⟩, nsignals⟩, n₂⟩, nframes⟩, n₃⟩, ntables⟩, n₄⟩

/-- The sections are read in turn, each into its own table of the database, and the free lines
between them leave the tables alone. -/
theorem parseTop_sections {d : Description} {timing : CString}
    {free₀ free₁ free₂ free₃ free₄ : List CString} (ht : Timing timing)
    (hfree : ∀ line ∈ free₀ ++ free₁ ++ free₂ ++ free₃ ++ free₄, FreeLine line)
    (wild : Binary64 → UInt64) :
    Describes d (parseTop wild (sectionContents d timing free₀ free₁ free₂ free₃ free₄) {}) := by
  simp only [List.forall_mem_append] at hfree
  obtain ⟨⟨⟨⟨hfree₀, hfree₁⟩, hfree₂⟩, hfree₃⟩, hfree₄⟩ := hfree
  obtain ⟨db₀, e₀, a₀⟩ := parseTop_free wild hfree₀ _ {}
  rw [sectionContents, e₀, parseTop_nodes wild ht]
  obtain ⟨db₁, e₁, a₁⟩ := parseTop_free wild hfree₁ _
    { db₀ with masterNode := d.master, slaveNodes := db₀.slaveNodes ++ d.slaves }
  rw [e₁, parseTop_signals, storeSignals]
  obtain ⟨db₂, e₂, a₂⟩ := parseTop_free wild hfree₂ _
    { db₁ with signals_ := d.signals.foldl (fun m s => m.insert s.name s) db₁.signals_ }
  rw [e₂, parseTop_frames, storeFrames]
  obtain ⟨db₃, e₃, a₃⟩ := parseTop_free wild hfree₃ _
    { db₂ with frames_ := d.frames.foldl (fun m fr => m.insert fr.id fr) db₂.frames_ }
  have hframes : ∀ id, db₃.frames_.lookup id = d.frames.find? fun fr => fr.id = id := by
    intro id
    rw [a₃.frames, a₂.frames, a₁.frames, a₀.frames, lookup_stored (fun fr => fr) d.frameIds]
    exact Option.map_id'
  rw [e₃, parseTop_tables wild d _ fun fr hfr => idOf_of_mem hframes hfr, storeTables]
  obtain ⟨db₄, e₄, a₄⟩ := parseTop_free wild hfree₄ []
    { db₃ with schedules_ :=
        d.tables.foldl (fun m t => m.insert t.name (d.schedule t)) db₃.schedules_ }
  rw [List.append_nil] at e₄
  rw [e₄, parseTop]
  constructor
  · rw [a₄.masterNode, a₃.masterNode, a₂.masterNode, a₁.masterNode]
  · rw [a₄.slaveNodes, a₃.slaveNodes, a₂.slaveNodes, a₁.slaveNodes, a₀.slaveNodes]
    exact List.nil_append _
  · intro name
    rw [a₄.signals, a₃.signals, a₂.signals, a₁.signals, a₀.signals,
      lookup_stored (fun s => s) d.signalNames]
    exact Option.map_id'
  · intro id
    rw [a₄.frames]
    exact hframes id
  · intro name
    rw [a₄.schedules, a₃.schedules, a₂.schedules, a₁.schedules, a₀.schedules,
      lookup_stored d.schedule d.tableNames]

/-- Parsing a text that renders a description gives the description. -/
theorem parse_renders {d : Description} {text : CString} (h : Renders d text)
    (wild : Binary64 → UInt64) : Describes d (parse wild text) := by
  obtain ⟨timing, free₀, free₁, free₂, free₃, free₄, ht, hfree, hcontents⟩ := contentLines_renders h
  rw [parse, hcontents]
  exact parseTop_sections ht hfree wild

theorem LaidOut.indented {contents lines : List CString} (n : Nat) {content : CString}
    (h : LaidOut contents lines) :
    LaidOut (content :: contents) ((List.replicate n ' ' ++ content) :: lines) := by
  have hindent : Blank (List.replicate n ' ') := by
    intro c hc
    rw [List.eq_of_mem_replicate hc]
    decide
  refine .line ⟨List.replicate n ' ', [], [], hindent, by simp [Blank], .inl rfl, ?_⟩ h
  rw [List.append_nil, List.append_nil]

def sampleDescription : Description where
  master := "BCM".toList
  slaves := ["MotorControl".toList, "SeatPos".toList]
  signals := [
    { name := "MotorSpeed".toList, bitWidth := 8, initValue := 0,
      publisher := "MotorControl".toList, subscribers := ["BCM".toList] },
    { name := "SeatPosition".toList, bitWidth := 16, initValue := 0,
      publisher := "SeatPos".toList, subscribers := ["BCM".toList] }]
  frames := [
    { name := "MotorFrame".toList, id := 0x10, publisher := "MotorControl".toList, length := 2,
      signals := [{ name := "MotorSpeed".toList, bitOffset := 0 }] },
    { name := "SeatFrame".toList, id := 0x20, publisher := "SeatPos".toList, length := 4,
      signals := [{ name := "SeatPosition".toList, bitOffset := 0 }] }]
  tables := [
    { name := "NormalSchedule".toList,
      entries := [("MotorFrame".toList, 10), ("SeatFrame".toList, 20)] }]
  masterName := by decide +kernel
  slaveNames := by decide +kernel
  signalsWellFormed := by decide +kernel
  signalNames := by decide +kernel
  framesWellFormed := by decide +kernel
  frameNames := by decide +kernel
  frameIds := by decide +kernel
  tablesWellFormed := by decide +kernel
  tableNames := by decide +kernel

def sampleLines : List CString :=
  ["".toList,
    "LIN_description_file ;".toList,
    "LIN_protocol_version = \"2.1\" ;".toList,
    "LIN_language_version = \"2.1\" ;".toList,
    "LIN_speed = 19.2 kbps ;".toList,
    "".toList,
    "Nodes \x7b".toList,
    "  Master: BCM, 1 ms, 0.1 ms ;".toList,
    "  Slaves: MotorControl, SeatPos ;".toList,
    "\x7d".toList,
    "".toList,
    "Signals \x7b".toList,
    "  MotorSpeed : 8, 0, MotorControl, BCM ;".toList,
    "  SeatPosition : 16, 0, SeatPos, BCM ;".toList,
    "\x7d".toList,
    "".toList,
    "Frames \x7b".toList,
    "  MotorFrame : 0x10, MotorControl, 2 \x7b".toList,
    "    MotorSpeed, 0 ;".toList,
    "  \x7d".toList,
    "  SeatFrame : 0x20, SeatPos, 4 \x7b".toList,
    "    SeatPosition, 0 ;".toList,
    "  \x7d".toList,
    "\x7d".toList,
    "".toList,
    "Schedule_tables \x7b".toList,
    "  NormalSchedule \x7b".toList,
    "    MotorFrame delay 10 ms ;".toList,
    "    SeatFrame delay 20 ms ;".toList,
    "  \x7d".toList,
    "\x7d".toList]

theorem renders_sample : Renders sampleDescription (unlines '\n' sampleLines) := by
  refine ⟨", 1 ms, 0.1 ms".toList,
    [[], "LIN_description_file ;".toList, "LIN_protocol_version = \"2.1\" ;".toList,
      "LIN_language_version = \"2.1\" ;".toList, "LIN_speed = 19.2 kbps ;".toList, []],
    _, [[]], _, [[]], _, [[]], _, [], by decide +kernel, by decide +kernel,
    .indented 0 (.indented 2 (.indented 2 (.indented 0 .nil))),
    .indented 0 (.indented 2 (.indented 2 (.indented 0 .nil))),
    .indented 0 (.indented 2 (.indented 4 (.indented 2 (.indented 2 (.indented 4 (.indented 2
      (.indented 0 .nil))))))),
    .indented 0 (.indented 2 (.indented 4 (.indented 4 (.indented 2 (.indented 0 .nil))))),
    _, rfl, .inl (congrArg _ ?_)⟩
  decide +kernel

theorem parse_renders_sample :
    Describes sampleDescription (parse (fun _ => 0) (unlines '\n' sampleLines)) :=
  parse_renders renders_sample (fun _ => 0)

end CppLin.Ldf
