import CppLin.Ldf.Checked

/-!
When the parser stays within the domains of its operations. Its lines are never empty and
no position lies behind the end of a string, so all that can go wrong is the conversion of
a double; the numerals it is applied to are told from the text alone.
-/
namespace CppLin.Ldf
open Bytes CNumber CText

/-- The token is read as a double whose integer part does not fit 64 bits. -/
def OutOfRange (tok : CString) : Prop :=
  isHex (stripSemicolon tok) = false ∧ ∃ d, stod (stripSemicolon tok) = .ok d ∧
    ∀ n, d.trunc = some n → ¬ (0 ≤ n ∧ n < 2 ^ 64)

/-- The initial value in a line of the Signals section with a colon and three fields. -/
def initToken (line : CString) : Option CString :=
  let line := stripSemicolon line
  match findChar ':' line with
  | none => none
  | some colon =>
      match splitFields (trim (line.drop (colon + 1))) with
      | _ :: init :: _ :: _ => some init
      | _ => none

/-- The delay in a line of a schedule table. -/
def delayToken (inner : CString) : Option CString :=
  let inner := stripSemicolon inner
  if inner.take 13 = "AssignFrameId".toList then none
  else
    match words isSpace inner with
    | _ :: a :: b :: rest => findDelay (a :: b :: rest)
    | _ => none

/-- The numeral on a line that goes through a double. -/
def Mode.uintToken : Mode → CString → Option CString
  | .opening .signals, line =>
      if line.head? = some '\x7b' ∨ line = endLine then none else initToken line
  | .inside .signals, line => if line = endLine then none else initToken line
  | .entries, line => if line = endLine then none else delayToken line
  | _, _ => none

def uintTokens : Mode → List CString → List CString
  | _, [] => []
  | m, line :: lines => (m.uintToken line).toList ++ uintTokens (m.next line) lines

@[simp] theorem uintTokens_nil (m : Mode) : uintTokens m [] = [] := by
  cases m <;> rfl

theorem uintTokens_cons (m : Mode) (line : CString) (lines : List CString) :
    uintTokens m (line :: lines) = (m.uintToken line).toList ++ uintTokens (m.next line) lines := by
  cases m <;> rfl

/-- The computation gives the value where the condition holds, and otherwise fails at a
conversion. -/
structure Yields {α : Type} (good : Prop) (e : Except Fault α) (v : α) : Prop where
  ok : good → e = .ok v
  fails : ¬ good → e = .error .conversion

namespace Yields

variable {α β : Type} {good good' : Prop} {e : Except Fault α} {v : α}

theorem of_ok (h : e = .ok v) (hg : good) : Yields good e v := ⟨fun _ => h, fun hn => absurd hg hn⟩

theorem congr (h : Yields good e v) (hg : good ↔ good') : Yields good' e v :=
  ⟨fun hg' => h.ok (hg.mpr hg'), fun hn => h.fails fun h' => hn (hg.mp h')⟩

theorem bind (h : Yields good e v) {f : α → Except Fault β} {w : β} (hf : Yields good' (f v) w) :
    Yields (good ∧ good') (e >>= f) w := by
  constructor
  · rintro ⟨hg, hg'⟩
    rw [h.ok hg]
    exact hf.ok hg'
  · intro hn
    by_cases hg : good
    · rw [h.ok hg]
      exact hf.fails fun hg' => hn ⟨hg, hg'⟩
    · rw [h.fails hg]
      rfl

theorem eq_of_ok (h : Yields good e v) {w : α} (hw : e = .ok w) : good ∧ w = v := by
  by_cases hg : good
  · exact ⟨hg, Except.ok.inj (hw.symm.trans (h.ok hg))⟩
  · rw [h.fails hg] at hw
    cases hw

end Yields

namespace Checked

theorem toUInt64_yields (d : Binary64) (wild : Binary64 → UInt64) :
    Yields (∃ n, d.trunc = some n ∧ 0 ≤ n ∧ n < 2 ^ 64) (toUInt64 d) (d.toUInt64 wild) := by
  unfold toUInt64 Binary64.toUInt64
  cases d.trunc with
  | none => exact ⟨fun h => by simp at h, fun _ => rfl⟩
  | some n =>
      by_cases hn : 0 ≤ n ∧ n < 2 ^ 64
      · simp only [if_pos hn]
        exact .of_ok rfl ⟨n, rfl, hn⟩
      · simp only [if_neg hn]
        refine ⟨?_, fun _ => rfl⟩
        rintro ⟨m, hm, hrange⟩
        rw [Option.some.inj hm] at hn
        exact absurd hrange hn

theorem parseUint_yields (wild : Binary64 → UInt64) (tok : CString) :
    Yields (¬ OutOfRange tok) (parseUint tok) (Ldf.parseUint wild tok) := by
  unfold parseUint Ldf.parseUint OutOfRange
  simp only [stripSemicolon_eq, ok_bind, isHex_eq]
  cases hhex : Ldf.isHex (Ldf.stripSemicolon tok) with
  | true => exact .of_ok (by simp [substrFrom_of_le (two_le_of_isHex hhex)]) (by simp)
  | false =>
      cases hstod : stod (Ldf.stripSemicolon tok) with
      | error e => exact .of_ok (by simp) (by simp)
      | ok d =>
          have hconv := (toUInt64_yields d wild).bind (f := fun v => (.ok (.ok v) :
            Except Fault (Except StoError UInt64))) (.of_ok rfl trivial)
          refine hconv.congr ?_
          simp only [and_true, true_and, Except.ok.injEq, exists_eq_left', not_forall, not_not]
          constructor
          · rintro ⟨n, hn, hrange⟩
            exact ⟨n, hn, hrange⟩
          · rintro ⟨n, hn, hrange⟩
            exact ⟨n, hn, hrange⟩

theorem readSignal_yields (wild : Binary64 → UInt64) (line : CString) :
    Yields (∀ tok ∈ initToken line, ¬ OutOfRange tok) (readSignal line)
      (Ldf.readSignal wild line) := by
  unfold readSignal Ldf.readSignal initToken
  simp only [stripSemicolon_eq, ok_bind]
  cases hcolon : findChar ':' (Ldf.stripSemicolon line) with
  | none => exact .of_ok rfl (by simp)
  | some colon =>
      simp only [substr_zero, ok_bind, trim_eq, substrFrom_of_le (findChar_lt hcolon),
        splitFields_eq]
      generalize Ldf.splitFields (Ldf.trim ((Ldf.stripSemicolon line).drop (colon + 1))) = fields
      rcases fields with _ | ⟨width, _ | ⟨init, _ | ⟨publisher, subscribers⟩⟩⟩
      · exact .of_ok rfl (by simp)
      · exact .of_ok rfl (by simp)
      · exact .of_ok rfl (by simp)
      · simp only [parseInt_eq, ok_bind, mapM_ok splitFields_eq]
        refine ((parseUint_yields wild init).bind (.of_ok ?_ trivial)).congr (by simp)
        rw [List.flatMap_def]
        rfl

theorem readEntry_yields (wild : Binary64 → UInt64) (db : DB) (inner : CString) :
    Yields (∀ tok ∈ delayToken inner, ¬ OutOfRange tok) (readEntry db inner)
      (Ldf.readEntry wild db inner) := by
  unfold readEntry Ldf.readEntry delayToken
  simp only [stripSemicolon_eq, ok_bind, substr_zero]
  by_cases hassign : (Ldf.stripSemicolon inner).take 13 = "AssignFrameId".toList
  · simp only [if_pos hassign]
    exact .of_ok rfl (by simp)
  · simp only [if_neg hassign]
    generalize words isSpace (Ldf.stripSemicolon inner) = parts
    rcases parts with _ | ⟨name, _ | ⟨a, _ | ⟨b, rest⟩⟩⟩
    · exact .of_ok rfl (by simp)
    · exact .of_ok rfl (by simp)
    · exact .of_ok rfl (by simp)
    · cases hdelay : findDelay (a :: b :: rest) with
      | none => exact .of_ok (by simp [hdelay]) (by simp [hdelay])
      | some delay =>
          simp only [hdelay]
          refine ((parseUint_yields wild delay).bind (.of_ok ?_ trivial)).congr (by simp)
          rfl

end Checked

/-- A part of the parse that reads the first of the lines: the tokens of all of them are its
own and those of the rest, where it leaves off in mode `m'`, and its own decide whether it
is defined. -/
def Reads {β : Type} (m m' : Mode) (lines : List CString)
    (e : Except Fault (List CString × β)) (r : List CString × β) : Prop :=
  ∃ toks, uintTokens m lines = toks ++ uintTokens m' r.1 ∧ Yields (∀ tok ∈ toks, ¬ OutOfRange tok) e r

section
variable {β : Type} {m m' : Mode} {lines : List CString}
  {e : Except Fault (List CString × β)} {r : List CString × β}

theorem reads_of_ok (htoks : uintTokens m lines = uintTokens m' r.1) (h : e = .ok r) :
    Reads m m' lines e r :=
  ⟨[], htoks, .of_ok h (by simp)⟩

theorem Reads.line {α : Type} {m₁ : Mode} {line : CString} {x : Except Fault α} {v : α}
    {f : α → Except Fault (List CString × β)} (hnext : m.next line = m₁)
    (hx : Yields (∀ tok ∈ m.uintToken line, ¬ OutOfRange tok) x v)
    (hf : Reads m₁ m' lines (f v) r) : Reads m m' (line :: lines) (x >>= f) r := by
  obtain ⟨toks, htoks, hyields⟩ := hf
  refine ⟨(m.uintToken line).toList ++ toks, ?_, ?_⟩
  · rw [uintTokens_cons, hnext, htoks, List.append_assoc]
  · refine (hx.bind hyields).congr ?_
    simp only [List.mem_append, Option.mem_toList, Option.mem_def, or_imp, forall_and]

theorem Reads.skip {m₁ : Mode} {line : CString} (hnext : m.next line = m₁)
    (hnone : m.uintToken line = none) (h : Reads m₁ m' lines e r) :
    Reads m m' (line :: lines) e r := by
  obtain ⟨toks, htoks, hyields⟩ := h
  refine ⟨toks, ?_, hyields⟩
  rw [uintTokens_cons, hnext, htoks, hnone]
  rfl

theorem Reads.andThen {α : Type} {m₁ : Mode} {x : Except Fault (List CString × α)}
    {v : List CString × α} {f : List CString × α → Except Fault (List CString × β)}
    (hx : Reads m m₁ lines x v) (hf : Reads m₁ m' v.1 (f v) r) :
    Reads m m' lines (x >>= f) r := by
  obtain ⟨toks, htoks, hyields⟩ := hx
  obtain ⟨toks', htoks', hyields'⟩ := hf
  refine ⟨toks ++ toks', ?_, ?_⟩
  · rw [htoks, htoks', List.append_assoc]
  · refine (hyields.bind hyields').congr ?_
    simp only [List.mem_append, or_imp, forall_and]

end

section Suffix
variable (wild : Binary64 → UInt64)

theorem skipBrace_suffix (lines : List CString) : skipBrace lines <:+ lines := by
  cases lines with
  | nil => exact List.suffix_refl _
  | cons line lines =>
      rw [skipBrace]
      split_ifs
      · exact List.suffix_cons line lines
      · exact List.suffix_refl _

theorem nodeLines_suffix (lines : List CString) (db : DB) : (nodeLines lines db).1 <:+ lines := by
  induction lines generalizing db with
  | nil => exact List.suffix_refl _
  | cons line lines ih =>
      rw [nodeLines]
      split_ifs
      · exact List.suffix_cons line lines
      · exact (ih _).trans (List.suffix_cons line lines)

theorem signalLines_suffix (lines : List CString) (db : DB) :
    (signalLines wild lines db).1 <:+ lines := by
  induction lines generalizing db with
  | nil => exact List.suffix_refl _
  | cons line lines ih =>
      rw [signalLines]
      split_ifs
      · exact List.suffix_cons line lines
      · split <;> exact (ih _).trans (List.suffix_cons line lines)

theorem parseRefs_suffix (lines : List CString) (refs : List SignalRef) :
    (parseRefs lines refs).1 <:+ lines := by
  induction lines generalizing refs with
  | nil => exact List.suffix_refl _
  | cons inner lines ih =>
      rw [parseRefs]
      split_ifs
      · exact List.suffix_cons inner lines
      · exact (ih _).trans (List.suffix_cons inner lines)

theorem frameLines_suffix (lines : List CString) (db : DB) : (frameLines lines db).1 <:+ lines := by
  fun_induction frameLines lines db with
  | case1 => exact List.suffix_refl _
  | case2 lines db => exact List.suffix_cons endLine lines
  | case3 line lines db _ _ _ ih => exact ih.trans (List.suffix_cons line lines)
  | case4 line lines db _ _ h _ _ block ih =>
      exact (ih.trans (parseRefs_suffix lines [])).trans (List.suffix_cons line lines)
  | case5 line lines db _ _ ih => exact ih.trans (List.suffix_cons line lines)

theorem parseEntries_suffix (db : DB) (lines : List CString) (entries : List ScheduleEntry) :
    (parseEntries wild db lines entries).1 <:+ lines := by
  induction lines generalizing entries with
  | nil => exact List.suffix_refl _
  | cons inner lines ih =>
      rw [parseEntries]
      split_ifs
      · exact List.suffix_cons inner lines
      · exact (ih _).trans (List.suffix_cons inner lines)

theorem tableLines_suffix (lines : List CString) (db : DB) :
    (tableLines wild lines db).1 <:+ lines := by
  fun_induction tableLines wild lines db with
  | case1 => exact List.suffix_refl _
  | case2 lines db => exact List.suffix_cons endLine lines
  | case3 line lines db _ _ _ block ih =>
      exact (ih.trans (parseEntries_suffix wild db lines [])).trans (List.suffix_cons line lines)
  | case4 line lines db _ _ ih => exact ih.trans (List.suffix_cons line lines)

theorem parseSection_suffix (s : Section) (lines : List CString) (db : DB) :
    (parseSection wild s lines db).1 <:+ lines := by
  have hskip := skipBrace_suffix lines
  cases s with
  | nodes => exact (nodeLines_suffix _ db).trans hskip
  | signals => exact (signalLines_suffix wild _ db).trans hskip
  | frames => exact (frameLines_suffix _ db).trans hskip
  | scheduleTables => exact (tableLines_suffix wild _ db).trans hskip

end Suffix

namespace Checked

variable (wild : Binary64 → UInt64)

theorem nodeLines_reads (lines : List CString) (db : DB) :
    Reads (.inside .nodes) .top lines (nodeLines lines db) (Ldf.nodeLines lines db) := by
  induction lines generalizing db with
  | nil => exact reads_of_ok rfl rfl
  | cons line lines ih =>
      by_cases hend : line = endLine
      · rw [nodeLines, Ldf.nodeLines, if_pos hend, if_pos hend]
        exact .skip (by rw [Mode.next, Mode.nextInside, if_pos hend]) rfl (reads_of_ok rfl rfl)
      · rw [nodeLines, Ldf.nodeLines, if_neg hend, if_neg hend, readNode_eq, ok_bind]
        exact .skip (by rw [Mode.next, Mode.nextInside, if_neg hend]) rfl (ih _)

theorem signalLines_reads (lines : List CString) (db : DB) :
    Reads (.inside .signals) .top lines (signalLines lines db) (Ldf.signalLines wild lines db) := by
  induction lines generalizing db with
  | nil => exact reads_of_ok rfl rfl
  | cons line lines ih =>
      by_cases hend : line = endLine
      · rw [signalLines, Ldf.signalLines, if_pos hend, if_pos hend]
        exact .skip (by rw [Mode.next, Mode.nextInside, if_pos hend])
          (by rw [Mode.uintToken, if_pos hend]) (reads_of_ok rfl rfl)
      · rw [signalLines, Ldf.signalLines, if_neg hend, if_neg hend]
        have hline : Yields (∀ tok ∈ (Mode.inside .signals).uintToken line, ¬ OutOfRange tok)
            (readSignal line) (Ldf.readSignal wild line) := by
          rw [Mode.uintToken, if_neg hend]
          exact readSignal_yields wild line
        refine .line (by rw [Mode.next, Mode.nextInside, if_neg hend]) hline ?_
        cases Ldf.readSignal wild line with
        | some sig => exact ih _
        | none => exact ih _

theorem parseRefs_reads (lines : List CString) (refs : List SignalRef) :
    Reads .refs (.inside .frames) lines (parseRefs lines refs) (Ldf.parseRefs lines refs) := by
  induction lines generalizing refs with
  | nil => exact reads_of_ok rfl rfl
  | cons inner lines ih =>
      by_cases hend : inner = endLine
      · rw [parseRefs, Ldf.parseRefs, if_pos hend, if_pos hend]
        exact .skip (by rw [Mode.next, if_pos hend]) rfl (reads_of_ok rfl rfl)
      · rw [parseRefs, Ldf.parseRefs, if_neg hend, if_neg hend, readRef_eq, ok_bind]
        exact .skip (by rw [Mode.next, if_neg hend]) rfl (ih _)

theorem parseEntries_reads (db : DB) (lines : List CString) (entries : List ScheduleEntry) :
    Reads .entries (.inside .scheduleTables) lines (parseEntries db lines entries)
      (Ldf.parseEntries wild db lines entries) := by
  induction lines generalizing entries with
  | nil => exact reads_of_ok rfl rfl
  | cons inner lines ih =>
      by_cases hend : inner = endLine
      · rw [parseEntries, Ldf.parseEntries, if_pos hend, if_pos hend]
        exact .skip (by rw [Mode.next, if_pos hend]) (by rw [Mode.uintToken, if_pos hend])
          (reads_of_ok rfl rfl)
      · rw [parseEntries, Ldf.parseEntries, if_neg hend, if_neg hend]
        have hline : Yields (∀ tok ∈ Mode.entries.uintToken inner, ¬ OutOfRange tok)
            (readEntry db inner) (Ldf.readEntry wild db inner) := by
          rw [Mode.uintToken, if_neg hend]
          exact readEntry_yields wild db inner
        exact .line (by rw [Mode.next, if_neg hend]) hline (ih _)

theorem frameLines_reads (lines : List CString) (db : DB) :
    Reads (.inside .frames) .top lines (frameLines lines db) (Ldf.frameLines lines db) := by
  rw [frameLines_eq]
  fun_induction Ldf.frameLines lines db with
  | case1 db => exact reads_of_ok rfl rfl
  | case2 lines db =>
      exact .skip (by rw [Mode.next, Mode.nextInside, if_pos rfl]) rfl (reads_of_ok rfl rfl)
  | case3 line lines db hend hbrace hread ih =>
      exact .skip (by simp [Mode.next, Mode.nextInside, hend, hread]) rfl ih
  | case4 line lines db hend hbrace h hread _ block ih =>
      have hblock := (parseRefs_reads lines []).andThen
        (f := fun _ => .ok (Ldf.frameLines block.1 (storeFrame db { h.frame with signals := block.2 })))
        ih
      rw [parseRefs_eq, ok_bind] at hblock
      refine .skip (m := .inside .frames) ?_ rfl hblock
      simp [Mode.next, Mode.nextInside, hend, hbrace, hread]
  | case5 line lines db hend hbrace ih =>
      exact .skip (by simp [Mode.next, Mode.nextInside, hend, hbrace]) rfl ih

theorem tableLines_block {line : CString} {lines : List CString} {db : DB} (hend : line ≠ endLine)
    (hback : back line = .ok '\x7b') : tableLines (line :: lines) db = (do
      let block ← parseEntries db lines []
      tableLines block.1 (storeSchedule db (Ldf.trim line.dropLast) block.2)) := by
  rw [tableLines, if_neg hend, hback, ok_bind, if_pos rfl, substr_zero, ok_bind, trim_eq, ok_bind,
    ← List.dropLast_eq_take]
  split
  case h_1 u hblock =>
    simp only [hblock]
    rfl
  case h_2 r hblock => simp only [hblock, ok_bind]

theorem tableLines_reads (lines : List CString) (db : DB) (hlines : ∀ line ∈ lines, line ≠ []) :
    Reads (.inside .scheduleTables) .top lines (tableLines lines db)
      (Ldf.tableLines wild lines db) := by
  fun_induction Ldf.tableLines wild lines db with
  | case1 db =>
      rw [tableLines]
      exact reads_of_ok rfl rfl
  | case2 lines db =>
      rw [tableLines, if_pos rfl]
      exact .skip (by rw [Mode.next, Mode.nextInside, if_pos rfl]) rfl (reads_of_ok rfl rfl)
  | case3 line lines db hend hbrace _ block ih =>
      obtain ⟨c, hc, hlast⟩ := back_of_ne_nil (hlines line List.mem_cons_self)
      obtain rfl : c = '\x7b' := Option.some.inj (hlast.symm.trans hbrace)
      have hblock := (parseEntries_reads wild db lines []).andThen
        (f := fun b => tableLines b.1 (storeSchedule db (Ldf.trim line.dropLast) b.2))
        (ih fun l hl => hlines l (List.mem_cons_of_mem line ((parseEntries_suffix wild db lines []).subset hl)))
      rw [tableLines_block hend hc]
      refine .skip ?_ rfl hblock
      simp [Mode.next, Mode.nextInside, hend, hbrace]
  | case4 line lines db hend hbrace ih =>
      obtain ⟨c, hc, hlast⟩ := back_of_ne_nil (hlines line List.mem_cons_self)
      have hother : c ≠ '\x7b' := fun he => hbrace (he ▸ hlast)
      rw [tableLines, if_neg hend, hc, ok_bind, if_neg hother]
      refine .skip ?_ rfl (ih fun l hl => hlines l (List.mem_cons_of_mem line hl))
      simp [Mode.next, Mode.nextInside, hend, hbrace]

theorem reads_opening {β : Type} {s : Section} {lines : List CString}
    {e : Except Fault (List CString × β)} {r : List CString × β}
    (h : Reads (.inside s) .top (Ldf.skipBrace lines) e r) : Reads (.opening s) .top lines e r := by
  cases lines with
  | nil =>
      obtain ⟨toks, htoks, hyields⟩ := h
      exact ⟨toks, htoks, hyields⟩
  | cons line lines =>
      rw [Ldf.skipBrace] at h
      by_cases hbrace : line.head? = some '\x7b'
      · rw [if_pos hbrace] at h
        refine .skip (by rw [Mode.next, if_pos hbrace]) ?_ h
        cases s <;> simp [Mode.uintToken, hbrace]
      · rw [if_neg hbrace] at h
        obtain ⟨toks, htoks, hyields⟩ := h
        refine ⟨toks, ?_, hyields⟩
        have htoken : (Mode.opening s).uintToken line = (Mode.inside s).uintToken line := by
          cases s <;> simp [Mode.uintToken, hbrace]
        have hnext : (Mode.opening s).next line = (Mode.inside s).next line := by
          rw [Mode.next, if_neg hbrace, Mode.next]
        rw [← htoks, uintTokens_cons, uintTokens_cons, htoken, hnext]

theorem parseSection_reads (s : Section) (lines : List CString) (db : DB)
    (hlines : ∀ line ∈ lines, line ≠ []) :
    Reads (.opening s) .top lines (parseSection s lines db) (Ldf.parseSection wild s lines db) := by
  rw [parseSection, skipBrace_eq, ok_bind]
  apply reads_opening
  cases s with
  | nodes => exact nodeLines_reads _ db
  | signals => exact signalLines_reads wild _ db
  | frames => exact frameLines_reads _ db
  | scheduleTables =>
      exact tableLines_reads wild _ db fun l hl => hlines l ((skipBrace_suffix lines).subset hl)

theorem tableLines_ok_length_le {lines : List CString} {db : DB} {r : List CString × DB}
    (h : tableLines lines db = .ok r) : r.1.length ≤ lines.length := by
  induction hn : lines.length using Nat.strong_induction_on generalizing lines db with
  | _ n ih =>
      cases lines with
      | nil =>
          rw [tableLines] at h
          rw [← Except.ok.inj h, ← hn]
      | cons line lines =>
          rw [List.length_cons] at hn
          by_cases hend : line = endLine
          · rw [tableLines, if_pos hend] at h
            rw [← Except.ok.inj h, ← hn]
            exact Nat.le_succ _
          cases hback : back line with
          | error u =>
              rw [tableLines, if_neg hend, hback] at h
              cases h
          | ok c =>
              by_cases hc : c = '\x7b'
              · rw [tableLines_block hend (hc ▸ hback)] at h
                cases hblock : parseEntries db lines [] with
                | error u =>
                    rw [hblock] at h
                    cases h
                | ok block =>
                    rw [hblock, ok_bind] at h
                    have hle := parseEntries_ok_length_le hblock
                    exact (ih block.1.length (by omega) h rfl).trans (by omega)
              · rw [tableLines, if_neg hend, hback, ok_bind, if_neg hc] at h
                exact (ih lines.length (by omega) h rfl).trans (by omega)

theorem parseSection_ok_length_le {s : Section} {lines : List CString} {db : DB}
    {r : List CString × DB} (h : parseSection s lines db = .ok r) : r.1.length ≤ lines.length := by
  have hskip := skipBrace_length_le lines
  rw [parseSection, skipBrace_eq, ok_bind] at h
  cases s with
  | nodes =>
      simp only [nodeLines_eq, Except.ok.injEq] at h
      exact h ▸ (nodeLines_length_le _ db).trans hskip
  | signals =>
      obtain ⟨toks, -, hyields⟩ := signalLines_reads (fun _ => 0) (Ldf.skipBrace lines) db
      rw [(hyields.eq_of_ok h).2]
      exact (signalLines_length_le _ _ db).trans hskip
  | frames =>
      simp only [frameLines_eq, Except.ok.injEq] at h
      exact h ▸ (frameLines_length_le _ db).trans hskip
  | scheduleTables => exact (tableLines_ok_length_le h).trans hskip

def parseTop : List CString → DB → Except Fault DB
  | [], db => .ok db
  | line :: lines, db => do
      match ← topLine line with
      | .protocolVersion => parseTop lines { db with protocolVersion := ← extractQuotedValue line }
      | .languageVersion => parseTop lines { db with languageVersion := ← extractQuotedValue line }
      | .speed => parseTop lines { db with speed := ← extractFloatValue line }
      | .begins s =>
          match hsection : parseSection s lines db with
          | .error u => .error u
          | .ok r =>
              have := parseSection_ok_length_le hsection
              parseTop r.1 r.2
      | .other => parseTop lines db
termination_by lines => lines.length

def contentLines (text : CString) : Except Fault (List CString) := do
  return (← (getlines '\n' text).mapM stripComment).filter (· ≠ [])

def parse (text : CString) : Except Fault DB := do parseTop (← contentLines text) {}

theorem parseTop_yields (lines : List CString) (db : DB) (hlines : ∀ line ∈ lines, line ≠ []) :
    Yields (∀ tok ∈ uintTokens .top lines, ¬ OutOfRange tok) (parseTop lines db)
      (Ldf.parseTop wild lines db) := by
  have next : ∀ {line : CString} {lines : List CString} {t : TopLine}, Ldf.topLine line = t →
      (∀ s, t ≠ .begins s) → uintTokens .top (line :: lines) = uintTokens .top lines := by
    intro line lines t ht hs
    rw [uintTokens_cons, Mode.next, ht]
    cases t with
    | begins s => exact absurd rfl (hs s)
    | _ => rfl
  fun_induction Ldf.parseTop wild lines db with
  | case1 db =>
      rw [parseTop]
      exact .of_ok rfl (by simp)
  | case2 line lines db hline ih =>
      rw [parseTop, topLine_eq, ok_bind, hline, next hline (by simp)]
      simp only [extractQuotedValue_eq, ok_bind]
      exact ih fun l hl => hlines l (List.mem_cons_of_mem line hl)
  | case3 line lines db hline ih =>
      rw [parseTop, topLine_eq, ok_bind, hline, next hline (by simp)]
      simp only [extractQuotedValue_eq, ok_bind]
      exact ih fun l hl => hlines l (List.mem_cons_of_mem line hl)
  | case4 line lines db hline ih =>
      rw [parseTop, topLine_eq, ok_bind, hline, next hline (by simp)]
      simp only [extractFloatValue_eq, ok_bind]
      exact ih fun l hl => hlines l (List.mem_cons_of_mem line hl)
  | case5 line lines db s hline _ r ih =>
      have hrest : ∀ l ∈ lines, l ≠ [] := fun l hl => hlines l (List.mem_cons_of_mem line hl)
      obtain ⟨toks, htoks, hsection⟩ := parseSection_reads wild s lines db hrest
      have hparse : parseTop (line :: lines) db =
          parseSection s lines db >>= fun r => parseTop r.1 r.2 := by
        rw [parseTop, topLine_eq, ok_bind, hline]
        dsimp only
        split
        case h_1 u hu =>
          simp only [hu]
          rfl
        case h_2 r hr => simp only [hr, ok_bind]
      have htop : uintTokens .top (line :: lines) = toks ++ uintTokens .top r.1 := by
        rw [uintTokens_cons, Mode.next, hline, ← htoks]
        rfl
      rw [hparse, htop]
      refine (hsection.bind (ih fun l hl => hrest l ((parseSection_suffix wild s lines db).subset hl))).congr ?_
      simp only [List.mem_append, or_imp, forall_and]
  | case6 line lines db hline ih =>
      rw [parseTop, topLine_eq, ok_bind, hline, next hline (by simp)]
      exact ih fun l hl => hlines l (List.mem_cons_of_mem line hl)

theorem contentLines_eq (text : CString) : contentLines text = .ok (Ldf.contentLines text) := by
  rw [contentLines, mapM_ok stripComment_eq]
  rfl

end Checked

/-- The numerals of a text that go through a double: the initial values of its signals and
the delays of its schedule tables. -/
def numerals (text : CString) : List CString := uintTokens .top (contentLines text)

theorem parse_yields (wild : Binary64 → UInt64) (text : CString) :
    Yields (∀ tok ∈ numerals text, ¬ OutOfRange tok) (Checked.parse text) (parse wild text) := by
  rw [Checked.parse, Checked.contentLines_eq, Checked.ok_bind]
  refine Checked.parseTop_yields wild _ _ ?_
  intro line hline
  simpa using (List.mem_filter.mp hline).2

/-- Parsing a text comes to an end with every operation in its domain exactly when none of the
numerals that go through a double is out of range; what it comes to then is the parse. Only
the conversion of a double can be undefined. -/
theorem parse_defined_iff (text : CString) :
    ((∃ db, Checked.parse text = .ok db) ↔ ∀ tok ∈ numerals text, ¬ OutOfRange tok) ∧
    (∀ db, Checked.parse text = .ok db → ∀ wild, db = parse wild text) ∧
    ∀ u, Checked.parse text = .error u → u = .conversion := by
  have hyields := parse_yields
  refine ⟨?_, ?_, ?_⟩
  · constructor
    · rintro ⟨db, hdb⟩
      exact ((hyields (fun _ => 0) text).eq_of_ok hdb).1
    · intro hgood
      exact ⟨_, (hyields (fun _ => 0) text).ok hgood⟩
  · intro db hdb wild
    exact ((hyields wild text).eq_of_ok hdb).2
  · intro u hu
    by_cases hgood : ∀ tok ∈ numerals text, ¬ OutOfRange tok
    · rw [(hyields (fun _ => 0) text).ok hgood] at hu
      cases hu
    · rw [(hyields (fun _ => 0) text).fails hgood] at hu
      exact (Except.error.inj hu).symm

/-- A signal whose initial value is negative. -/
theorem not_parse_defined : ¬ ∀ text : CString, ∃ db, Checked.parse text = .ok db := by
  intro h
  let text : CString := "Signals \x7b\n a : 8, -1, P ;\n\x7d\n".toList
  have htokens : numerals text = ["-1".toList] := by decide +kernel
  have hstod : stod (stripSemicolon "-1".toList) = .ok (.finite (-1)) := by decide +kernel
  have hrange : OutOfRange "-1".toList := by
    refine ⟨by decide, _, hstod, ?_⟩
    intro n hn
    obtain rfl : (-1 : ℤ) = n := Option.some.inj hn
    decide
  obtain ⟨db, hdb⟩ := h text
  have hgood := ((parse_yields (fun _ => 0) text).eq_of_ok hdb).1
  rw [htokens] at hgood
  exact hgood _ List.mem_cons_self hrange

end CppLin.Ldf
