import CppLin.Ldf.Rendering

/-!
The lines of a rendered description read back: margins, comments and semicolons fall away,
and each reader gives the declaration its line was written from.
-/
namespace CppLin.Ldf
open Bytes CNumber CText

/-! Words: what stands between the separators. -/

structure Word (s : CString) : Prop where
  nonempty : s ≠ []
  chars : ∀ c ∈ s, isWordChar c = true

theorem not_margin_of_isWordChar {c : Char} (h : isWordChar c = true) : isMargin c = false := by
  by_contra hm
  rw [Bool.not_eq_false] at hm
  simp only [isMargin, Bool.or_eq_true, decide_eq_true_eq] at hm
  rcases hm with ((rfl | rfl) | rfl) | rfl <;> exact absurd h (by decide)

theorem not_isSpace_of_isWordChar {c : Char} (h : isWordChar c = true) : isSpace c = false := by
  by_contra hs
  rw [Bool.not_eq_false] at hs
  simp only [isSpace, Bool.or_eq_true, beq_iff_eq, Bool.and_eq_true, decide_eq_true_eq] at hs
  rcases hs with rfl | ⟨hlo, hhi⟩
  · exact absurd h (by decide)
  · have hc := Char.ofNat_toNat c
    interval_cases c.toNat <;> subst hc <;> exact absurd h (by decide)

theorem IsIdent.word {s : CString} (h : IsIdent s) : Word s := ⟨h.1, h.2.1⟩

theorem word_decimal {s : CString} (h : IsDecimal s) : Word s := by
  obtain ⟨hne, hdig⟩ := h
  exact ⟨hne, fun c hc => by simp [isWordChar, Char.isAlphanum, hdig c hc]⟩

theorem word_toCString (n : Nat) : Word (toCString n) := word_decimal (toCString_isDecimal n)

theorem Word.not_mem {s : CString} (h : Word s) {x : Char} (hx : isWordChar x = false) : x ∉ s :=
  fun hmem => by
    rw [h.chars x hmem] at hx
    cases hx

theorem Word.head_append {s : CString} (h : Word s) (t : CString) :
    ∃ c, (s ++ t).head? = some c ∧ isWordChar c = true := by
  obtain ⟨c, s', rfl⟩ := List.exists_cons_of_ne_nil h.nonempty
  exact ⟨c, rfl, h.chars c List.mem_cons_self⟩

theorem Word.ne_endLine {s : CString} (h : Word s) (t : CString) : s ++ t ≠ endLine := by
  obtain ⟨c, hc, hword⟩ := h.head_append t
  intro he
  rw [he] at hc
  obtain rfl := Option.some.inj hc
  exact absurd hword (by decide)

/-! Margins. -/

/-- No margin at either end. -/
structure Trimmed (s : CString) : Prop where
  head : ∀ c ∈ s.head?, isMargin c = false
  last : ∀ c ∈ s.getLast?, isMargin c = false

theorem trim_pad {a b : CString} (ha : ∀ c ∈ a, isMargin c = true)
    (hb : ∀ c ∈ b, isMargin c = true) (s : CString) : trim (a ++ s ++ b) = trim s := by
  have hrev : ∀ c ∈ b.reverse, isMargin c = true := fun c hc => hb c (List.mem_reverse.mp hc)
  rw [trim, trim, List.append_assoc, List.dropWhile_append_of_pos ha, List.dropWhile_append]
  split_ifs with hs
  · rw [List.isEmpty_iff.mp hs, List.dropWhile_eq_nil_iff.mpr hb]
  · rw [List.rdropWhile, List.rdropWhile, List.reverse_append, List.dropWhile_append_of_pos hrev]

theorem trim_of_trimmed {s : CString} (h : Trimmed s) : trim s = s := by
  have hdrop : s.dropWhile isMargin = s := by
    cases s with
    | nil => rfl
    | cons c s => exact List.dropWhile_cons_of_neg (by simp [h.head c rfl])
  rw [trim, hdrop]
  rcases List.eq_nil_or_concat s with rfl | ⟨t, c, rfl⟩
  · rfl
  · rw [List.concat_eq_append] at h ⊢
    exact List.rdropWhile_concat_neg _ _ _ (by simp [h.last c (by simp)])

theorem Word.trimmed {s : CString} (h : Word s) : Trimmed s where
  head c hc := not_margin_of_isWordChar (h.chars c (List.mem_of_mem_head? hc))
  last c hc := not_margin_of_isWordChar (h.chars c (List.mem_of_mem_getLast? hc))

theorem trimmed_append {a b : CString} (ha : Trimmed a) (hane : a ≠ []) (m : CString)
    (hb : Trimmed b) (hbne : b ≠ []) : Trimmed (a ++ m ++ b) := by
  constructor
  · rw [List.append_assoc, List.head?_append_of_ne_nil _ hane]
    exact ha.head
  · rw [List.getLast?_append_of_ne_nil _ hbne]
    exact hb.last

theorem trim_semicolon (s : CString) : trim (s ++ [';']) = s.dropWhile isMargin ++ [';'] := by
  have hdrop : (s ++ [';']).dropWhile isMargin = s.dropWhile isMargin ++ [';'] := by
    rw [List.dropWhile_append]
    split_ifs with hs
    · rw [List.isEmpty_iff.mp hs]
      rfl
    · rfl
  rw [trim, hdrop]
  exact List.rdropWhile_concat_neg _ _ _ (by decide)

theorem stripSemicolon_semicolon (s : CString) : stripSemicolon (s ++ [';']) = trim s := by
  simp only [stripSemicolon, trim_semicolon, List.getLast?_concat, if_true, List.dropLast_concat]
  rw [trim, List.dropWhile_idempotent, trim]

theorem stripSemicolon_trim (s : CString) : stripSemicolon (trim (s ++ [';'])) = trim s := by
  rw [trim_semicolon, stripSemicolon_semicolon, trim, List.dropWhile_idempotent, trim]

theorem stripSemicolon_of_trimmed {s : CString} (h : Trimmed s) (hlast : s.getLast? ≠ some ';') :
    stripSemicolon s = s := by
  simp only [stripSemicolon, trim_of_trimmed h, if_neg hlast]

theorem stripSemicolon_word {s : CString} (h : Word s) : stripSemicolon s = s :=
  stripSemicolon_of_trimmed h.trimmed fun he =>
    h.not_mem (by decide) (List.mem_of_mem_getLast? he)

theorem blank_cons (s : CString) : trim (' ' :: s) = trim s := by
  have hpad := trim_pad (a := [' ']) (b := []) (by simp [isMargin]) (by simp) s
  rwa [List.append_nil] at hpad

theorem blank_concat (s : CString) : trim (s ++ [' ']) = trim s :=
  trim_pad (a := []) (b := [' ']) (by simp) (by simp [isMargin]) s

theorem stripSemicolon_blank (s : CString) : stripSemicolon (s ++ " ;".toList) = trim s := by
  have hsplit : s ++ " ;".toList = (s ++ [' ']) ++ [';'] := by
    rw [List.append_assoc]
    rfl
  rw [hsplit, stripSemicolon_semicolon, blank_concat]

/-! Fields between commas. -/

theorem commas_cons_cons (f g : CString) (fs : List CString) :
    commas (f :: g :: fs) = f ++ ", ".toList ++ commas (g :: fs) := rfl

theorem trimmed_commas {fs : List CString} (h : ∀ f ∈ fs, Word f) : Trimmed (commas fs) := by
  induction fs with
  | nil => exact ⟨by simp [commas], by simp [commas]⟩
  | cons f fs ih =>
      have hf := h f List.mem_cons_self
      cases fs with
      | nil => exact hf.trimmed
      | cons g fs =>
          have hrest := ih fun x hx => h x (List.mem_cons_of_mem f hx)
          refine trimmed_append hf.trimmed hf.nonempty _ hrest ?_
          intro hnil
          cases fs with
          | nil => exact (h g (by simp)).nonempty hnil
          | cons k fs => simp [commas_cons_cons] at hnil

theorem not_mem_commas {x : Char} (hx : x ∉ ", ".toList) {fs : List CString}
    (h : ∀ f ∈ fs, x ∉ f) : x ∉ commas fs := by
  induction fs with
  | nil => exact List.not_mem_nil
  | cons f fs ih =>
      have hf := h f List.mem_cons_self
      have hrest := ih fun g hg => h g (List.mem_cons_of_mem f hg)
      cases fs with
      | nil => exact hf
      | cons g fs =>
          rw [commas_cons_cons, List.mem_append, List.mem_append]
          exact not_or.mpr ⟨not_or.mpr ⟨hf, hx⟩, hrest⟩

theorem splitFields_pad (pad : CString) (hpad : ∀ c ∈ pad, isMargin c = true) (hcomma : ',' ∉ pad)
    {f : CString} {fs : List CString} (h : ∀ g ∈ f :: fs, Word g) :
    splitFields (pad ++ commas (f :: fs)) = f :: fs := by
  induction fs generalizing pad f with
  | nil =>
      have hf := h f List.mem_cons_self
      have hmem : ',' ∉ pad ++ f := by
        rw [List.mem_append]
        exact not_or.mpr ⟨hcomma, hf.not_mem (by decide)⟩
      have htrim := trim_pad (b := []) hpad (by simp) f
      rw [List.append_nil] at htrim
      rw [splitFields, commas, getlines_last hmem (by simp [hf.nonempty]), List.map_singleton,
        htrim, trim_of_trimmed hf.trimmed]
  | cons g fs ih =>
      have hf := h f List.mem_cons_self
      have hmem : ',' ∉ pad ++ f := by
        rw [List.mem_append]
        exact not_or.mpr ⟨hcomma, hf.not_mem (by decide)⟩
      have htrim := trim_pad (b := []) hpad (by simp) f
      rw [List.append_nil] at htrim
      have hsplit : pad ++ commas (f :: g :: fs) =
          (pad ++ f) ++ ',' :: ([' '] ++ commas (g :: fs)) := by
        rw [commas_cons_cons, List.append_assoc, List.append_assoc]
        rfl
      have hrest := ih [' '] (by simp [isMargin]) (by simp)
        fun x hx => h x (List.mem_cons_of_mem f hx)
      rw [splitFields] at hrest
      rw [splitFields, hsplit, getlines_cons hmem, List.map_cons, hrest, htrim,
        trim_of_trimmed hf.trimmed]

theorem splitFields_commas {fs : List CString} (h : ∀ f ∈ fs, Word f) :
    splitFields (commas fs) = fs := by
  cases fs with
  | nil => rfl
  | cons f fs => exact splitFields_pad [] (by simp) (by simp) h

theorem splitFields_word {f : CString} (h : Word f) : splitFields f = [f] :=
  splitFields_commas (List.forall_mem_singleton.mpr h)

theorem filter_words {fs : List CString} (h : ∀ f ∈ fs, Word f) : fs.filter (· ≠ []) = fs :=
  List.filter_eq_self.mpr fun f hf => by simp [(h f hf).nonempty]

theorem declaration_split {name : CString} {fs : List CString} (hn : Word name)
    (hf : ∀ f ∈ fs, Word f) :
    ∃ colon, findChar ':' (declaration name fs) = some colon ∧
      trim ((declaration name fs).take colon) = name ∧
      splitFields (trim ((declaration name fs).drop (colon + 1))) = fs := by
  have hsplit : declaration name fs = (name ++ [' ']) ++ ':' :: (' ' :: commas fs) := by
    rw [declaration, List.append_assoc, List.append_assoc]
    rfl
  have hmem : ':' ∉ name ++ [' '] := by
    rw [List.mem_append]
    exact not_or.mpr ⟨hn.not_mem (by decide), by decide⟩
  refine ⟨(name ++ [' ']).length, ?_, ?_, ?_⟩
  · rw [hsplit, findChar_append hmem]
  · rw [hsplit, List.take_left, blank_concat, trim_of_trimmed hn.trimmed]
  · rw [hsplit, ← List.drop_drop, List.drop_left, List.drop_one, List.tail_cons, blank_cons,
      trim_of_trimmed (trimmed_commas hf), splitFields_commas hf]

theorem trimmed_declaration {name : CString} {fs : List CString} (hn : Word name)
    (hf : ∀ f ∈ fs, Word f) (hne : fs ≠ []) :
    Trimmed (declaration name fs) := by
  obtain ⟨f, fs', rfl⟩ := List.exists_cons_of_ne_nil hne
  refine trimmed_append hn.trimmed hn.nonempty _ (trimmed_commas hf) ?_
  cases fs' with
  | nil => exact (hf f List.mem_cons_self).nonempty
  | cons g fs' => simp [commas_cons_cons]

/-! Numbers. -/

theorem not_isHex_decimal {s : CString} (h : IsDecimal s) : isHex s = false := by
  obtain ⟨-, hdig⟩ := h
  have hne : ∀ {k : CString} {x : Char}, x ∈ k → x.isDigit = false → s.take 2 ≠ k := by
    rintro k x hmem hx rfl
    rw [hdig x (List.mem_of_mem_take hmem)] at hx
    cases hx
  have hlower : s.take 2 ≠ "0x".toList := hne (x := 'x') (by decide) (by decide)
  have hupper : s.take 2 ≠ "0X".toList := hne (x := 'X') (by decide) (by decide)
  simp only [isHex, hlower, hupper, decide_false, Bool.or_self, Bool.and_false]

theorem not_isHex_toCString (n : Nat) : isHex (toCString n) = false :=
  not_isHex_decimal (toCString_isDecimal n)

theorem parseInt_toCString {n : Nat} (h : n < 2 ^ 63) : parseInt (toCString n) = .ok n := by
  rw [parseInt, stripSemicolon_word (word_toCString n)]
  simp only [not_isHex_toCString, Bool.false_eq_true, if_false]
  exact stoll_toCString h

theorem parseInt_int32 {w : Int32} (h : 0 ≤ w) :
    ∃ n : Int, parseInt (toCString w.toInt.toNat) = .ok n ∧ Int32.ofInt n = w := by
  have hpos : 0 ≤ w.toInt := Int32.le_iff_toInt_le.mp h
  have hlt := w.toInt_lt
  refine ⟨w.toInt.toNat, parseInt_toCString (by omega), ?_⟩
  rw [Int.toNat_of_nonneg hpos, Int32.ofInt_toInt]

theorem parseUint_toCString {n : Nat} (h : n < 2 ^ 53) (wild : Binary64 → UInt64) :
    parseUint wild (toCString n) = .ok (UInt64.ofNat n) := by
  simp only [parseUint, stripSemicolon_word (word_toCString n), not_isHex_toCString,
    Bool.false_eq_true, if_false, stod_toCString h]
  rw [Binary64.toUInt64_natCast (by omega)]

theorem isWordChar_hexDigit : ∀ k < 16, isWordChar (Nat.digitChar k).toUpper = true := by decide

theorem word_hexId (id : UInt8) : Word (hexId id) := by
  have hid := id.toNat_lt
  refine ⟨by simp [hexId], fun c hc => ?_⟩
  rw [hexId, List.mem_append, show "0x".toList = ['0', 'x'] from rfl, List.mem_pair] at hc
  rcases hc with (rfl | rfl) | hdigit
  · decide
  · decide
  · rw [hexByte, List.mem_pair] at hdigit
    rcases hdigit with rfl | rfl
    · exact isWordChar_hexDigit _ (by omega)
    · exact isWordChar_hexDigit _ (by omega)

theorem parseInt_hexId_fin :
    ∀ n : Fin 64, (parseInt (hexId (UInt8.ofNat n))).toOption = some (n : Int) := by
  decide +kernel

theorem parseInt_hexId {id : UInt8} (h : id ≤ kLINMaxID) :
    parseInt (hexId id) = .ok (id.toNat : Int) := by
  have hle : id.toNat ≤ 63 := UInt8.le_iff_toNat_le.mp h
  have hval := parseInt_hexId_fin ⟨id.toNat, by omega⟩
  simp only [UInt8.ofNat_toNat] at hval
  cases he : parseInt (hexId id) with
  | error e => simp [he, Except.toOption] at hval
  | ok n =>
      rw [he] at hval
      exact congrArg _ (Option.some.inj hval)

/-! The readers of the sections. -/

theorem readNode_masterLine {timing name : CString} (ht : Timing timing) (hn : Word name) (db : DB) :
    readNode (masterLine timing name) db = { db with masterNode := name } := by
  have htake : (masterLine timing name).take 7 = "Master:".toList := rfl
  have hdrop : (masterLine timing name).drop 7 = ' ' :: (name ++ timing ++ " ;".toList) := rfl
  have htrimmed : Trimmed (name ++ timing ++ " ;".toList ) := by
    have hend := trimmed_append hn.trimmed hn.nonempty (timing ++ [' '])
      (show Trimmed [';'] from ⟨by simp [isMargin], by simp [isMargin]⟩) (by simp)
    rwa [← List.append_assoc, List.append_assoc _ [' ']] at hend
  simp only [readNode, htake, if_true, hdrop, blank_cons, trim_of_trimmed htrimmed]
  cases timing with
  | nil =>
      have hcomma : ',' ∉ name ++ [] ++ " ;".toList := by
        rw [List.append_nil, List.mem_append]
        exact not_or.mpr ⟨hn.not_mem (by decide), by decide⟩
      simp only [findChar_of_not_mem hcomma]
      rw [List.append_nil, stripSemicolon_blank, trim_of_trimmed hn.trimmed]
  | cons c t =>
      obtain rfl : c = ',' := ht.1 c rfl
      have hsplit : name ++ ',' :: t ++ " ;".toList = name ++ ',' :: (t ++ " ;".toList) := by simp
      simp only [hsplit, findChar_append (hn.not_mem (x := ',') (by decide)), List.take_left]
      rw [stripSemicolon_word hn]

theorem readNode_slavesLine {names : List CString} (h : ∀ n ∈ names, Word n) (db : DB) :
    readNode (slavesLine names) db = { db with slaveNodes := db.slaveNodes ++ names } := by
  have hmaster : "Slaves:".toList ≠ "Master:".toList := by decide
  have htake : (slavesLine names).take 7 = "Slaves:".toList := rfl
  have hdrop : (slavesLine names).drop 7 = (' ' :: commas names ++ [' ']) ++ [';'] := by
    change ' ' :: (commas names ++ " ;".toList) = _
    simp
  simp only [readNode, htake, hmaster, if_false, if_true, hdrop]
  rw [stripSemicolon_trim, blank_concat, blank_cons, trim_of_trimmed (trimmed_commas h),
    splitFields_commas h, filter_words h]

theorem clampWidth_of_mem {w : Int32} (h : 0 ≤ w ∧ w ≤ 64) : clampWidth w = w := by
  rw [clampWidth, if_neg (Int32.not_lt.mpr h.1), if_neg (Int32.not_lt.mpr h.2)]

theorem Signal.WellFormed.fields {s : Signal} (h : s.WellFormed) :
    ∀ f ∈ signalFields s, Word f := by
  simp only [signalFields, List.forall_mem_cons]
  exact ⟨word_toCString _, word_toCString _, h.publisher.word, fun n hn => (h.subscribers n hn).word⟩

theorem readSignal_signalLine {s : Signal} (h : s.WellFormed) (wild : Binary64 → UInt64) :
    readSignal wild (signalLine s) = some s := by
  have hn := h.name.word
  obtain ⟨colon, hfind, hname, hfields⟩ := declaration_split hn h.fields
  obtain ⟨w, hw, hwidth⟩ := parseInt_int32 h.width.1
  have hinit := parseUint_toCString h.init wild
  have hstrip : stripSemicolon (signalLine s) = declaration s.name (signalFields s) := by
    rw [signalLine, stripSemicolon_blank,
      trim_of_trimmed (trimmed_declaration hn h.fields (List.cons_ne_nil _ _))]
  have hsubs : (s.subscribers.flatMap splitFields).filter (· ≠ []) = s.subscribers := by
    have hwords : ∀ n ∈ s.subscribers, Word n := fun n hn => (h.subscribers n hn).word
    have hflat : s.subscribers.flatMap splitFields = s.subscribers.flatMap fun n => [n] :=
      List.flatMap_congr fun n hn => splitFields_word (hwords n hn)
    rw [hflat, List.flatMap_singleton', filter_words hwords]
  simp only [readSignal, hstrip, hfind, hfields, hname]
  simp only [signalFields, hw, hwidth, clampWidth_of_mem h.width, hinit,
    UInt64.ofNat_toNat, trim_of_trimmed h.publisher.word.trimmed, hsubs]

theorem LDFFrame.WellFormed.fields {fr : LDFFrame} (h : fr.WellFormed) :
    ∀ f ∈ headerFields fr, Word f := by
  simp only [headerFields, List.forall_mem_cons]
  exact ⟨word_hexId fr.id, h.publisher.word, word_toCString _, by simp⟩

/-- The header of a frame gives the frame, up to its signals. -/
theorem readHeader_headerLine {fr : LDFFrame} (h : fr.WellFormed) :
    ∃ hd, readHeader (headerLine fr) = some hd ∧ { hd.frame with signals := fr.signals } = fr := by
  have hn := h.name.word
  obtain ⟨colon, hfind, hname, hfields⟩ := declaration_split hn h.fields
  obtain ⟨n, hlen, hlength⟩ := parseInt_int32 h.length
  have hsplit : headerLine fr =
      (declaration fr.name (headerFields fr) ++ [' ']) ++ '\x7b' :: [] := by
    rw [headerLine, List.append_assoc _ [' ']]
    rfl
  have hbrace := rfindChar_append (c := '\x7b') List.not_mem_nil
    (declaration fr.name (headerFields fr) ++ [' '])
  refine ⟨⟨fr.name, headerFields fr⟩, ?_, ?_⟩
  · simp only [readHeader, hsplit, hbrace, List.take_left, blank_concat,
      trim_of_trimmed (trimmed_declaration hn h.fields (List.cons_ne_nil _ _)), hfind, hname, hfields]
  · have hid : UInt8.ofInt (fr.id.toNat : Int) = fr.id := by
      have hlt := fr.id.toNat_lt
      have hmod : ((fr.id.toNat : Int) % 2 ^ 8).toNat = fr.id.toNat := by omega
      rw [UInt8.ofInt, hmod, UInt8.ofNat_toNat]
    simp only [Header.frame, headerFields, parseInt_hexId h.id, hid, hlen, hlength,
      trim_of_trimmed h.publisher.word.trimmed]

theorem refWords {r : SignalRef} (h : IsIdent r.name ∧ 0 ≤ r.bitOffset) :
    ∀ f ∈ [r.name, toCString r.bitOffset.toInt.toNat], Word f := by
  simp only [List.forall_mem_cons]
  exact ⟨h.1.word, word_toCString _, by simp⟩

theorem readRef_refLine {r : SignalRef} (h : IsIdent r.name ∧ 0 ≤ r.bitOffset) :
    readRef (refLine r) = some r := by
  have hn := h.1.word
  obtain ⟨n, hoff, hoffset⟩ := parseInt_int32 h.2
  have hsplit : commas [r.name, toCString r.bitOffset.toInt.toNat] =
      r.name ++ ',' :: (' ' :: toCString r.bitOffset.toInt.toNat) := by
    rw [commas_cons_cons, List.append_assoc]
    rfl
  have hstrip : stripSemicolon (refLine r) =
      r.name ++ ',' :: (' ' :: toCString r.bitOffset.toInt.toNat) := by
    rw [refLine, stripSemicolon_blank, trim_of_trimmed (trimmed_commas (refWords h)), hsplit]
  have hdrop : (r.name ++ ',' :: (' ' :: toCString r.bitOffset.toInt.toNat)).drop
      (r.name.length + 1) = ' ' :: toCString r.bitOffset.toInt.toNat := by
    rw [← List.drop_drop, List.drop_left]
    rfl
  simp only [readRef, hstrip, findChar_append (hn.not_mem (x := ',') (by decide)), List.take_left,
    hdrop, blank_cons, trim_of_trimmed hn.trimmed, trim_of_trimmed (word_toCString _).trimmed, hoff,
    hoffset]

/-- What begins with a word begins with the keyword only if the word does. -/
theorem Word.prefix_of_append {w k t : CString} (hk : ' ' ∉ k) (h : k <+: w ++ ' ' :: t) :
    k <+: w := by
  rcases List.prefix_or_prefix_of_prefix h (List.prefix_append w (' ' :: t)) with hpre | ⟨r, rfl⟩
  · exact hpre
  · have hr := (List.prefix_append_right_inj w).mp h
    cases r with
    | nil => rw [List.append_nil]
    | cons c r =>
        obtain rfl := (List.cons_prefix_cons.mp hr).1
        simp at hk

theorem lower_delay : lower "delay".toList = "delay".toList := by decide

theorem word_delay : Word "delay".toList := ⟨by simp, by simp [isWordChar]⟩

theorem word_ms : Word "ms".toList := ⟨by simp, by simp [isWordChar]⟩

/-- An entry finds the frame its name stands for. -/
theorem readEntry_entryLine {e : CString × UInt32} {fr : LDFFrame} {db : DB} (h : fr.WellFormed)
    (hname : fr.name = e.1) (hid : db.idOf e.1 = some fr.id) (wild : Binary64 → UInt64) :
    readEntry wild db (entryLine e) = some { id := fr.id, delayMs := e.2 } := by
  have hn : Word e.1 := hname ▸ h.name.word
  have hlt := e.2.toNat_lt
  have hnum := word_toCString e.2.toNat
  have hspace : ∀ {s : CString}, Word s → ∀ c ∈ s, isSpace c = false := fun hs c hc =>
    not_isSpace_of_isWordChar (hs.chars c hc)
  have hstrip : stripSemicolon (entryLine e) =
      e.1 ++ ' ' :: ("delay".toList ++ ' ' :: (toCString e.2.toNat ++ ' ' :: "ms".toList)) := by
    have hsplit : entryLine e = (e.1 ++ ' ' :: ("delay".toList ++ ' ' :: (toCString e.2.toNat ++
        ' ' :: "ms".toList))) ++ " ;".toList := by
      simp [entryLine]
    have htrimmed := trimmed_append hn.trimmed hn.nonempty
      (' ' :: ("delay".toList ++ ' ' :: (toCString e.2.toNat ++ [' '])))
      word_ms.trimmed word_ms.nonempty
    rw [hsplit, stripSemicolon_blank]
    simpa using trim_of_trimmed htrimmed
  have hdeclared : ¬ (e.1 ++ ' ' :: ("delay".toList ++ ' ' :: (toCString e.2.toNat ++
      ' ' :: "ms".toList))).take 13 = "AssignFrameId".toList := by
    intro htake
    have hpre : "AssignFrameId".toList <+: e.1 ++ ' ' :: _ := htake ▸ List.take_prefix 13 _
    exact h.declared (hname ▸ Word.prefix_of_append (by decide) hpre)
  have hwords : words isSpace (e.1 ++ ' ' :: ("delay".toList ++ ' ' :: (toCString e.2.toNat ++
      ' ' :: "ms".toList))) = [e.1, "delay".toList, toCString e.2.toNat, "ms".toList] := by
    rw [words_cons (hspace hn) hn.nonempty (by decide),
      words_cons (hspace word_delay) word_delay.nonempty (by decide),
      words_cons (hspace hnum) hnum.nonempty (by decide),
      words_last (hspace word_ms) word_ms.nonempty]
  have hdelay := parseUint_toCString (n := e.2.toNat) (by omega) wild
  have hms : (UInt64.ofNat e.2.toNat).toUInt32 = e.2 := by
    apply UInt32.toNat_inj.mp
    rw [UInt64.toNat_toUInt32, UInt64.toNat_ofNat']
    omega
  simp only [readEntry, hstrip, if_neg hdeclared, hwords, findDelay, lower_delay, if_true, hdelay,
    hms, hid, Option.getD_some, if_pos h.id]

end CppLin.Ldf
