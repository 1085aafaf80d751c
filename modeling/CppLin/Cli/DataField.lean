import CppLin.Cli.DataText

namespace CppLin.Cli
open Bytes CNumber CText

/-- A member of a JSON object: the white space before its colon, the white space behind it, and
the value. -/
structure Member where
  gap : CString
  ws : CString
  value : DataValue

/-- The text has one data member. -/
def HasData (s : CString) (m : Member) : Prop :=
  ∃ pre rest, NamedAt s "data".toList pre m.gap (m.ws ++ (m.value.text ++ rest)) ∧ Blank m.ws ∧
    ∀ pre' gap' value', NamedAt s "data".toList pre' gap' value' → pre' = pre

def MayHaveData (s : CString) : Option Member → Prop
  | none => ∀ pre gap value, ¬ NamedAt s "data".toList pre gap value
  | some m => HasData s m

/-- Where the checks pass the text, its payload is what its data member stands for. -/
def TakenWhole (s : CString) (d : Option Member) : Prop :=
  ∀ f, Accepts s f → ∃ m ∈ d, m.value.Denotes f.data

/-- The checks find nothing wrong with the text except perhaps its payload. -/
def Passes (s : CString) : Prop :=
  ∃ id, extractU32 s "id".toList = some id ∧ id.toUInt8 ≤ kLINMaxID ∧
    (isDiagnostic id.toUInt8 = true → extractU32 s "checksum_type".toList ≠ some 1)

/-- The lookup reaches the value of the member. -/
def Member.Reached (m : Member) : Prop := m.gap = [] ∧ m.ws.all isBlank = true

/-- The checks refuse the text, whatever its data member stands for. -/
def Refused (s : CString) (d : Option Member) : Prop :=
  ¬ Passes s ∨ ∀ m ∈ d, ¬ m.Reached ∨ m.value.count = 0 ∨ 8 < m.value.count

/-- An array of bytes or a text in canonical base64, written in a way the lookup reads. -/
def WellTaken (v : DataValue) : Prop := (∃ data, v.Denotes data) ∧ v.Readable

/-- The first quote behind the opening one ends the text for the lookup. -/
theorem cut_quote (ps : List Piece) (rest : CString) :
    ∃ t, ps.flatMap Piece.text ++ '"' :: rest = cut ps ++ '"' :: t := by
  have hsplit := List.takeWhile_append_dropWhile (p := fun c => c ≠ '"')
    (l := ps.flatMap Piece.text)
  cases hdrop : (ps.flatMap Piece.text).dropWhile fun c => c ≠ '"' with
  | nil =>
    rw [hdrop, List.append_nil] at hsplit
    exact ⟨rest, by rw [cut, hsplit]⟩
  | cons c t =>
    have hc : c = '"' := by
      have hstop := List.head?_dropWhile_not (fun c => decide (c ≠ '"')) (ps.flatMap Piece.text)
      rw [hdrop] at hstop
      simpa using hstop
    refine ⟨t ++ '"' :: rest, ?_⟩
    rw [← hsplit, hdrop, hc, List.append_assoc, List.cons_append, cut]

theorem extractBytes_other {s key t : CString} {c : Char} (hquote : c ≠ '"') (hbracket : c ≠ '[')
    (h : valueOf s key = some (c :: t)) : extractBytes s key = none := by
  rw [extractBytes, h]
  split
  · rfl
  · rfl
  · rename_i heq
    exact absurd (List.cons.inj (Option.some.inj heq)).1 hquote
  · rename_i heq
    exact absurd (List.cons.inj (Option.some.inj heq)).1 hbracket
  · rfl

theorem extractBytes_value {s key rest : CString} {v : DataValue}
    (h : valueOf s key = some (v.text ++ rest)) : (extractBytes s key).getD [] = v.taken := by
  cases v with
  | string ps =>
    have htext : (DataValue.string ps).text ++ rest =
        '"' :: (ps.flatMap Piece.text ++ '"' :: rest) := by simp [DataValue.text]
    obtain ⟨t, ht⟩ := cut_quote ps rest
    have hquote : '"' ∉ cut ps := fun hmem => by simpa using List.mem_takeWhile_imp hmem
    rw [htext, ht] at h
    simp only [extractBytes, h, findChar_append hquote, Option.map_some, List.take_left,
      Option.getD_some]
    rfl
  | array gap hgap items =>
    have htext : (DataValue.array gap hgap items).text ++ rest =
        '[' :: (gap ++ (itemsText items ++ ']' :: rest)) := by simp [DataValue.text]
    rw [htext] at h
    simp only [extractBytes, h, Option.getD_some]
    exact readArray_items hgap items rest
  | other c hc tail =>
    rw [extractBytes_other hc.1 hc.2.1 h]
    rfl

/-- The payload of a text is what the lookup makes of its data member, if it reaches it. -/
theorem payloadOf_of_hasData {s : CString} {m : Member} (h : HasData s m) :
    (m.Reached ∧ payloadOf s = m.value.taken) ∨ (¬ m.Reached ∧ payloadOf s = []) := by
  obtain ⟨pre, rest, hnamed, hws, honce⟩ := h
  by_cases hgap : m.gap = []
  · rw [hgap] at hnamed
    have hvalue := valueOf_of_named hnamed honce
    obtain ⟨hall, hskip⟩ | ⟨hall, c, line, hline, hskip⟩ :=
      dropWhile_blank hws (m.value.text ++ rest)
    · rw [hskip, m.value.dropWhile_text rest] at hvalue
      exact .inl ⟨⟨hgap, hall⟩, extractBytes_value hvalue⟩
    · have hlost : ¬ m.Reached := by
        intro hreach
        rw [hreach.2] at hall
        cases hall
      have hbreak : c ≠ '"' ∧ c ≠ '[' := by
        constructor <;> rintro rfl <;> exact absurd (hline _ List.mem_cons_self) (by decide)
      refine .inr ⟨hlost, ?_⟩
      rw [payloadOf, extractBytes_other hbreak.1 hbreak.2 (hvalue.trans (congrArg some hskip))]
      rfl
  · refine .inr ⟨fun hreach => hgap hreach.1, ?_⟩
    rw [payloadOf, extractBytes, valueOf_of_gap hnamed hgap honce, Option.getD_none]

/-- The checks pass a text that has a payload of one to eight bytes and nothing wrong besides. -/
theorem accepts_iff_payload (s : CString) (data : Payload) :
    (∃ f, Accepts s f ∧ f.data = data) ↔
      Passes s ∧ payloadOf s = data ∧ data ≠ [] ∧ data.length ≤ 8 := by
  cases hid : extractU32 s "id".toList with
  | none =>
    have hparse : ∀ f, parseFrameJson s ≠ .ok f := by
      intro f hf
      rw [parseFrameJson, hid] at hf
      cases hf
    constructor
    · rintro ⟨f, hf, -⟩
      exact absurd hf.1 (hparse f)
    · rintro ⟨⟨id, hsome, -⟩, -⟩
      rw [hid] at hsome
      cases hsome
  | some id =>
    have hparse := parseFrameJson_of_id hid
    have hvalid : validateFrame (frameOf s id.toNat) = .ok () ↔ id.toUInt8 ≤ kLINMaxID ∧
        payloadOf s ≠ [] ∧ (payloadOf s).length ≤ 8 ∧
          (isDiagnostic id.toUInt8 = true → extractU32 s "checksum_type".toList ≠ some 1) := by
      have hlow : (frameOf s id.toNat).id = id.toUInt8 := by simp only [frameOf, UInt32.ofNat_toNat]
      have htype : (frameOf s id.toNat).checksumType = .classic ↔
          extractU32 s "checksum_type".toList ≠ some 1 := by
        simp only [frameOf, ite_eq_right_iff, reduceCtorEq, imp_false, ne_eq]
      rw [validateFrame_ok_iff, hlow, htype]
      exact Iff.rfl
    constructor
    · rintro ⟨f, ⟨hf, hv⟩, rfl⟩
      obtain rfl := Except.ok.inj (hparse.symm.trans hf)
      obtain ⟨hmax, hne, hlen, hdiag⟩ := hvalid.mp hv
      exact ⟨⟨id, hid, hmax, hdiag⟩, rfl, hne, hlen⟩
    · rintro ⟨⟨id', hid', hmax, hdiag⟩, rfl, hne, hlen⟩
      obtain rfl := Option.some.inj (hid.symm.trans hid')
      exact ⟨_, ⟨hparse, hvalid.mpr ⟨hmax, hne, hlen, hdiag⟩⟩, rfl⟩

/-- The data member is taken whole or refused exactly when the text is refused anyway or the value
is well formed and written in a way the lookup reads. -/
theorem data_taken_whole_iff {s : CString} {d : Option Member} (h : MayHaveData s d) :
    TakenWhole s d ↔ Refused s d ∨ ∀ m ∈ d, WellTaken m.value := by
  constructor
  · intro hwhole
    by_contra hnot
    obtain ⟨hrefused, hwell⟩ := not_or.mp hnot
    obtain ⟨hpasses, hcount⟩ := not_or.mp hrefused
    push Not at hpasses hcount
    obtain ⟨m, rfl, hreach, hzero, hlen⟩ := hcount
    obtain ⟨-, hpayload⟩ | ⟨hlost, -⟩ := payloadOf_of_hasData h
    · rw [← m.value.length_taken] at hzero hlen
      obtain ⟨f, hf, hdata⟩ := (accepts_iff_payload s m.value.taken).mpr
        ⟨hpasses, hpayload, by simpa using hzero, hlen⟩
      obtain ⟨m', hm', hdenotes⟩ := hwhole f hf
      obtain rfl := Option.some.inj hm'
      rw [hdata] at hdenotes
      refine hwell fun m' hm' => ?_
      obtain rfl := Option.some.inj hm'
      exact ⟨⟨_, hdenotes⟩, DataValue.readable_of_denotes_taken hdenotes⟩
    · exact hlost hreach
  · intro hcond f hf
    obtain ⟨hpasses, hpayload, hne, hlen⟩ := (accepts_iff_payload s f.data).mp ⟨f, hf, rfl⟩
    cases d with
    | none =>
      have hnone : payloadOf s = [] := by rw [payloadOf, extractBytes, valueOf_of_absent h]; rfl
      exact absurd (hpayload.symm.trans hnone) hne
    | some m =>
      refine ⟨m, rfl, ?_⟩
      obtain ⟨hreach, htaken⟩ | ⟨-, hempty⟩ := payloadOf_of_hasData h
      · rw [htaken] at hpayload
        rcases hcond with (hrefused | hcount) | hwell
        · exact absurd hpasses hrefused
        · have hlength := m.value.length_taken
          rw [hpayload] at hlength
          rcases hcount m rfl with hlost | hzero | height
          · exact absurd hreach hlost
          · exact absurd (List.length_eq_zero_iff.mp (hlength.trans hzero)) hne
          · omega
        · obtain ⟨⟨data, hdenotes⟩, hread⟩ := hwell m rfl
          rw [← hpayload, DataValue.taken_of_denotes hdenotes hread]
          exact hdenotes
      · exact absurd (hpayload.symm.trans hempty) hne

def shortData : Member where
  gap := []
  ws := []
  value := .array [] (by simp [Blank])
    [{ element := .integer false "1".toList (by decide) },
      { element := .integer false "300".toList (by decide) }]

def shortDataText : CString :=
  "\x7b\"id\":16,\"data\":[1,300],\"checksum\":0,\"checksum_type\":1\x7d".toList

theorem shortDataText_data : MayHaveData shortDataText (some shortData) :=
  ⟨"\x7b\"id\":16,".toList, ",\"checksum\":0,\"checksum_type\":1\x7d".toList,
    ⟨by decide +kernel, by simp [shortData, Blank]⟩, by simp [shortData, Blank],
    once_of_place (by decide +kernel)⟩

theorem data_taken_whole_short : TakenWhole shortDataText (some shortData) ↔
    (Refused shortDataText (some shortData) ∨
      ∀ m ∈ some shortData, WellTaken m.value) :=
  data_taken_whole_iff shortDataText_data

/-- The array `[1,300]` is taken for `[1]`. -/
theorem not_data_taken_whole : ¬ ∀ (s : CString) (d : Option Member),
    MayHaveData s d → TakenWhole s d := by
  intro h
  have hpayload : payloadOf shortDataText = [1] := by decide +kernel
  have hid : extractU32 shortDataText "id".toList = some 16 := by decide +kernel
  have hpasses : Passes shortDataText := ⟨16, hid, by decide, by decide⟩
  obtain ⟨f, hf, hdata⟩ := (accepts_iff_payload shortDataText [1]).mpr
    ⟨hpasses, hpayload, by decide, by decide⟩
  obtain ⟨m, hm, hdenotes⟩ := h shortDataText (some shortData) shortDataText_data f hf
  obtain rfl := Option.some.inj hm
  rw [hdata] at hdenotes
  exact absurd (List.Forall₂.length_eq hdenotes) (by decide)

end CppLin.Cli
