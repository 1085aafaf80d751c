import CppLin.Cli.Base64
import CppLin.Cli.Convert
import CppLin.Lib.JsonText

namespace CppLin.Cli
open Bytes CNumber CText JsonText

/-- The members of a frame object. -/
inductive Field where
  | id
  | data
  | checksum
  | checksumType
  deriving DecidableEq, Repr

def Field.key : Field → CString
  | .id => "id".toList
  | .data => "data".toList
  | .checksum => "checksum".toList
  | .checksumType => "checksum_type".toList

def IsNumber (n : Nat) (text : CString) : Prop := IsDecimal text ∧ Nat.ofDigitChars 10 text 0 = n

/-- What may stand behind a colon or a comma. -/
def Spaces (gap : CString) : Prop := ∀ c ∈ gap, isBlank c = true

/-- The elements of an array of bytes, with spaces behind the commas. -/
inductive Elements : Payload → CString → Prop
  | last {b text} (h : IsNumber b.toNat text) : Elements [b] text
  | cons {b bs text gap rest} (h : IsNumber b.toNat text) (hgap : Spaces gap)
      (hrest : Elements bs rest) : Elements (b :: bs) (text ++ ',' :: (gap ++ rest))

/-- The texts a field of the frame may have as its value. -/
inductive ValueText (f : Frame) : Field → CString → Prop
  | id {text} (h : IsNumber f.id.toNat text) : ValueText f .id text
  | base64 : ValueText f .data (quoted (base64Encode f.data))
  | array {text} (h : Elements f.data text) : ValueText f .data ('[' :: text ++ [']'])
  | checksum {text} (h : IsNumber f.checksum.toNat text) : ValueText f .checksum text
  | checksumType {text} (h : IsNumber (if f.checksumType = .enhanced then 1 else 0) text) :
      ValueText f .checksumType text

/-- The members of an object in the given order, with spaces behind the colons and the commas. -/
inductive Members (f : Frame) : List Field → CString → Prop
  | last {field gap text} (hgap : Spaces gap) (h : ValueText f field text) :
      Members f [field] (keyText field.key ++ (gap ++ text))
  | cons {field fields gap text gap' rest} (hgap : Spaces gap) (h : ValueText f field text)
      (hgap' : Spaces gap') (hrest : Members f fields rest) :
      Members f (field :: fields) (keyText field.key ++ (gap ++ (text ++ ',' :: (gap' ++ rest))))

/-- The texts of the frame as a JSON object. -/
def FrameText (f : Frame) (s : CString) : Prop :=
  ∃ fields body, fields.Perm [.id, .data, .checksum, .checksumType] ∧ Members f fields body ∧
    s = '\x7b' :: body ++ ['\x7d']

/-! The lookup of a key passes over everything that is not that key with its colon. -/

theorem valueOf_here (key t : CString) :
    valueOf (keyText key ++ t) key = some (t.dropWhile isBlank) := by
  have hfind : find (keyText key) (keyText key ++ t) = some 0 := by
    have h : find ('"' :: (key ++ ['"', ':'])) ([] ++ ('"' :: (key ++ ['"', ':']) ++ t)) = some 0 :=
      find_append List.not_mem_nil t
    simpa [keyText] using h
  rw [valueOf, hfind, Option.map_some, Nat.zero_add, List.drop_left]

theorem valueOf_skip {key s : CString} {c : Char} (h : ¬ keyText key <+: c :: s) :
    valueOf (c :: s) key = valueOf s key := by
  have hfind : find (keyText key) (c :: s) = (find (keyText key) s).map (· + 1) := by
    rw [find, if_neg (by rwa [List.isPrefixOf_iff_prefix])]
  rw [valueOf, hfind, valueOf, Option.map_map]
  congr 1
  funext p
  rw [Function.comp_apply, Nat.add_right_comm, List.drop_succ_cons]

theorem valueOf_plain {a : CString} (h : '"' ∉ a) (s key : CString) :
    valueOf (a ++ s) key = valueOf s key := by
  induction a with
  | nil => rfl
  | cons c a ih =>
      rw [List.mem_cons, not_or] at h
      rw [List.cons_append, valueOf_skip, ih h.2]
      intro hpre
      exact h.1 (List.cons_prefix_cons.mp hpre).1

/-- What a key is like: letters, none of them a quote. -/
structure Word (key : CString) : Prop where
  quote : '"' ∉ key
  head : ∃ c ∈ key.head?, c ≠ ':' ∧ c ≠ ',' ∧ c ≠ '\x7d'

theorem Field.key_word (field : Field) : Word field.key := by
  cases field <;> exact ⟨by decide, _, rfl, by decide⟩

/-- Two texts without a quote, both followed by one. -/
theorem quoted_prefix {a b s t : CString} (ha : '"' ∉ a) (hb : '"' ∉ b)
    (h : a ++ '"' :: s <+: b ++ '"' :: t) : a = b ∧ s <+: t := by
  induction a generalizing b with
  | nil =>
      cases b with
      | nil => exact ⟨rfl, (List.cons_prefix_cons.mp h).2⟩
      | cons c b =>
          rw [List.mem_cons, not_or] at hb
          exact absurd (List.cons_prefix_cons.mp h).1 hb.1
  | cons c a ih =>
      rw [List.mem_cons, not_or] at ha
      cases b with
      | nil => exact absurd (List.cons_prefix_cons.mp h).1.symm ha.1
      | cons d b =>
          rw [List.mem_cons, not_or] at hb
          obtain ⟨rfl, hrest⟩ := List.cons_prefix_cons.mp h
          obtain ⟨rfl, hst⟩ := ih ha.2 hb.2 hrest
          exact ⟨rfl, hst⟩

/-- A text in quotes is passed over, unless it is the key and a colon follows. -/
theorem valueOf_quoted {key a t : CString} (hkey : Word key) (ha : '"' ∉ a)
    (hother : a ≠ key ∨ ∀ c ∈ t.head?, c ≠ ':')
    (ht : ∀ c ∈ t.head?, c = ':' ∨ c = ',' ∨ c = '\x7d') :
    valueOf ('"' :: a ++ '"' :: t) key = valueOf t key := by
  have hopen : ¬ keyText key <+: '"' :: (a ++ '"' :: t) := by
    intro h
    have hpre : key ++ '"' :: [':'] <+: a ++ '"' :: t := (List.cons_prefix_cons.mp h).2
    obtain ⟨rfl, hcolon⟩ := quoted_prefix hkey.quote ha hpre
    rcases hother with hne | hnone
    · exact hne rfl
    · obtain ⟨u, rfl⟩ := hcolon
      exact hnone ':' rfl rfl
  have hclose : ¬ keyText key <+: '"' :: t := by
    intro h
    obtain ⟨c, hc, hcolon, hcomma, hbrace⟩ := hkey.head
    obtain ⟨key', rfl⟩ : ∃ key', key = c :: key' := by
      cases key with
      | nil => cases hc
      | cons d key' => exact ⟨key', by rw [Option.some.inj hc]⟩
    have hpre : c :: key' ++ ['"', ':'] <+: t := (List.cons_prefix_cons.mp h).2
    obtain ⟨u, rfl⟩ := hpre
    rcases ht c rfl with he | he | he
    · exact hcolon he
    · exact hcomma he
    · exact hbrace he
  rw [List.cons_append, valueOf_skip hopen, valueOf_plain ha, valueOf_skip hclose]

theorem valueOf_otherKey {key key' : CString} (hkey : Word key) (hkey' : '"' ∉ key')
    (hne : key' ≠ key) (t : CString) : valueOf (keyText key' ++ t) key = valueOf t key := by
  have htext : keyText key' ++ t = '"' :: key' ++ '"' :: (':' :: t) := by simp [keyText]
  rw [htext, valueOf_quoted hkey hkey' (.inl hne) (by simp)]
  exact valueOf_plain (a := [':']) (by simp) t key

theorem IsNumber.quote {n : Nat} {text : CString} (h : IsNumber n text) : '"' ∉ text := by
  intro hmem
  exact absurd (h.1.2 _ hmem) (by decide)

theorem Spaces.nil : Spaces [] := List.forall_mem_nil _

theorem Spaces.quote {gap : CString} (h : Spaces gap) : '"' ∉ gap := by
  intro hmem
  exact absurd (h _ hmem) (by decide)

theorem Elements.quote {bs : Payload} {text : CString} (h : Elements bs text) : '"' ∉ text := by
  induction h with
  | last h => exact h.quote
  | cons h hgap hrest ih =>
      simp only [List.mem_append, List.mem_cons, not_or]
      exact ⟨h.quote, by decide, hgap.quote, ih⟩

theorem base64Encode_quote (data : Payload) : '"' ∉ base64Encode data :=
  fun hmem => (base64Encode_plain data _ hmem).1 rfl

/-- Behind a value stands a comma or the closing brace. -/
def Ends (rest : CString) : Prop := ∃ c t, rest = c :: t ∧ (c = ',' ∨ c = '\x7d')

theorem Ends.head {rest : CString} (h : Ends rest) : ∀ c ∈ rest.head?, c = ',' ∨ c = '\x7d' := by
  obtain ⟨c, t, rfl, hc⟩ := h
  intro d hd
  rwa [← Option.some.inj hd]

theorem ValueText.skip {f : Frame} {field : Field} {text : CString} (h : ValueText f field text)
    {key rest : CString} (hkey : Word key) (hrest : Ends rest) :
    valueOf (text ++ rest) key = valueOf rest key := by
  cases h with
  | id h => exact valueOf_plain h.quote rest key
  | checksum h => exact valueOf_plain h.quote rest key
  | checksumType h => exact valueOf_plain h.quote rest key
  | @array text h =>
      refine valueOf_plain ?_ rest key
      simp only [List.mem_append, List.mem_cons, not_or]
      exact ⟨⟨by decide, h.quote⟩, by decide, List.not_mem_nil⟩
  | base64 =>
      have htext : quoted (base64Encode f.data) ++ rest =
          '"' :: base64Encode f.data ++ '"' :: rest := by simp [quoted]
      rw [htext]
      refine valueOf_quoted hkey (base64Encode_quote f.data) (.inr ?_) ?_
      · intro c hc
        rcases hrest.head c hc with rfl | rfl <;> decide
      · exact fun c hc => .inr (hrest.head c hc)

theorem ValueText.head {f : Frame} {field : Field} {text : CString} (h : ValueText f field text) :
    ∃ c t, text = c :: t ∧ isBlank c = false := by
  have number : ∀ {n text}, IsNumber n text → ∃ c t, text = c :: t ∧ isBlank c = false := by
    rintro n text ⟨⟨hne, hdigits⟩, -⟩
    obtain ⟨c, t, rfl⟩ := List.exists_cons_of_ne_nil hne
    refine ⟨c, t, rfl, Bool.eq_false_iff.mpr fun hb => ?_⟩
    have hc := hdigits c List.mem_cons_self
    simp only [isBlank, Bool.or_eq_true, decide_eq_true_eq] at hb
    rcases hb with rfl | rfl <;> exact absurd hc (by decide)
  cases h with
  | id h => exact number h
  | checksum h => exact number h
  | checksumType h => exact number h
  | array h => exact ⟨'[', _, rfl, by decide⟩
  | base64 => exact ⟨'"', _, rfl, by decide⟩

theorem dropWhile_spaces {gap text rest : CString} (hgap : Spaces gap)
    (htext : ∃ c t, text = c :: t ∧ isBlank c = false) :
    (gap ++ (text ++ rest)).dropWhile isBlank = text ++ rest := by
  obtain ⟨c, t, rfl, hc⟩ := htext
  rw [List.dropWhile_append_of_pos hgap, List.cons_append, List.dropWhile_cons_of_neg (by simp [hc])]

/-- In every order of the members the lookup of a key finds the value of its own. -/
theorem Members.valueOf_key {f : Frame} {fields : List Field} {body : CString}
    (h : Members f fields body) (hnd : (fields.map Field.key).Nodup) {field : Field}
    (hfield : field ∈ fields) {tail : CString} (htail : Ends tail) :
    ∃ text rest, ValueText f field text ∧ Ends rest ∧
      valueOf (body ++ tail) field.key = some (text ++ rest) := by
  induction h with
  | @last field' gap text hgap h =>
      obtain rfl := List.mem_singleton.mp hfield
      refine ⟨text, tail, h, htail, ?_⟩
      rw [List.append_assoc, List.append_assoc, valueOf_here, dropWhile_spaces hgap h.head]
  | @cons field' fields gap text gap' rest hgap h hgap' hrest ih =>
      simp only [List.append_assoc, List.cons_append]
      rw [List.map_cons, List.nodup_cons] at hnd
      by_cases he : field = field'
      · subst he
        refine ⟨text, ',' :: (gap' ++ (rest ++ tail)), h, ⟨_, _, rfl, .inl rfl⟩, ?_⟩
        rw [valueOf_here, dropWhile_spaces hgap h.head]
      · have hin := (List.mem_cons.mp hfield).resolve_left he
        have hkey : field'.key ≠ field.key := fun hk => hnd.1 (hk ▸ List.mem_map_of_mem hin)
        have hends : Ends (',' :: (gap' ++ (rest ++ tail))) := ⟨_, _, rfl, .inl rfl⟩
        have hcomma : valueOf (',' :: (gap' ++ (rest ++ tail))) field.key =
            valueOf (rest ++ tail) field.key :=
          (valueOf_plain (a := [',']) (by decide) _ _).trans (valueOf_plain hgap'.quote _ _)
        rw [valueOf_otherKey field.key_word field'.key_word.quote hkey,
          valueOf_plain hgap.quote, h.skip field.key_word hends, hcomma]
        exact ih hnd.2 hin

theorem FrameText.valueOf_key {f : Frame} {s : CString} (h : FrameText f s) (field : Field) :
    ∃ text rest, ValueText f field text ∧ Ends rest ∧ valueOf s field.key = some (text ++ rest) := by
  obtain ⟨fields, body, hperm, hbody, rfl⟩ := h
  have hnd : (fields.map Field.key).Nodup :=
    (hperm.map Field.key).nodup_iff.mpr (by decide)
  have hfield : field ∈ fields := hperm.mem_iff.mpr (by cases field <;> decide)
  have hend : Ends ['\x7d'] := ⟨_, _, rfl, .inr rfl⟩
  obtain ⟨text, rest, hvalue, hrest, hfound⟩ :=
    hbody.valueOf_key hnd hfield hend
  refine ⟨text, rest, hvalue, hrest, ?_⟩
  have hbrace := valueOf_plain (a := ['\x7b']) (by decide) (body ++ ['\x7d']) field.key
  exact hbrace.trans hfound

theorem isNumber_toCString (n : Nat) : IsNumber n (toCString n) :=
  ⟨toCString_isDecimal n, ofDigitChars_toCString n⟩

theorem IsNumber.strtoull {n : Nat} {text rest : CString} (h : IsNumber n text)
    (hrest : ∀ c ∈ rest.head?, c.isDigit = false) (hn : n < 2 ^ 64) :
    strtoull 10 (text ++ rest) = some (n, rest) := by
  have hread := strtoull_decimal (List.forall_mem_nil _) h.1 hrest
  rwa [List.nil_append, h.2, Nat.min_eq_left (by omega)] at hread

theorem extractU32_number {s key text rest : CString} {n : Nat} (h : IsNumber n text)
    (hrest : ∀ c ∈ rest.head?, c.isDigit = false) (hfound : valueOf s key = some (text ++ rest))
    (hn : n < 2 ^ 32) : extractU32 s key = some (UInt32.ofNat n) := by
  have hread := h.strtoull hrest (by omega)
  simp only [extractU32, hfound, hread]
  exact if_neg (by omega)

theorem Ends.not_digit {rest : CString} (h : Ends rest) : ∀ c ∈ rest.head?, c.isDigit = false := by
  intro c hc
  rcases h.head c hc with rfl | rfl <;> decide

theorem strtoull_eq_none {c : Char} {s : CString} (hspace : isSpace c = false) (hminus : c ≠ '-')
    (hplus : c ≠ '+') (hdigit : c.isDigit = false) : strtoull 10 (c :: s) = none := by
  have hskip : (c :: s).dropWhile isSpace = c :: s :=
    List.dropWhile_cons_of_neg (by rw [hspace]; decide)
  have hsign : skipSign (c :: s) = (false, c :: s) := by
    unfold skipSign
    split <;> simp_all
  have htake : (c :: s).takeWhile Char.isDigit = [] :=
    List.takeWhile_cons_of_neg (by rw [hdigit]; decide)
  simp only [strtoull, scanNumeral, hskip, hsign, skipPrefix_ten, isDigitIn_ten, htake, if_true,
    Option.map_none]

/-- The loop over the elements, from white space and the character `c` on. -/
theorem readArray_step {gap : CString} (hgap : Blank gap) {c : Char} (hc : isBlankOrBreak c = false)
    (s : CString) : readArray (gap ++ c :: s) =
      match strtoull 10 (c :: s) with
      | none => []
      | some (b, rest) =>
          if b > 255 then [] else UInt8.ofNat b :: readArray (nextElement rest) := by
  have hskip : (gap ++ c :: s).dropWhile isBlankOrBreak = c :: s := by
    rw [List.dropWhile_append_of_pos hgap, List.dropWhile_cons_of_neg (by rw [hc]; decide)]
  rw [readArray]
  split
  · rename_i heq
    rw [hskip] at heq
    cases heq
  · rename_i heq
    rw [hskip] at heq
    obtain ⟨rfl, rfl⟩ := List.cons.inj heq
    rw [strtoull_eq_none (by decide) (by decide) (by decide) (by decide)]
  · rename_i d t hne heq
    rw [hskip] at heq
    obtain ⟨rfl, rfl⟩ := List.cons.inj heq
    split
    · rename_i hnone
      rw [hnone]
    · rename_i b rest hsome
      rw [hsome]

theorem readArray_number {gap text rest : CString} {b : UInt8} (hgap : Spaces gap)
    (h : IsNumber b.toNat text) (hrest : ∀ c ∈ rest.head?, c.isDigit = false) :
    readArray (gap ++ (text ++ rest)) = b :: readArray (nextElement rest) := by
  have hb := b.toNat_lt
  have hread := h.strtoull hrest (by omega)
  obtain ⟨c, t, rfl⟩ := List.exists_cons_of_ne_nil h.1.1
  have hc : isBlankOrBreak c = false := not_blank_of_isDigit (h.1.2 c List.mem_cons_self)
  have hblank : Blank gap := fun d hd => by rw [isBlankOrBreak, hgap d hd, Bool.true_or, Bool.true_or]
  rw [List.cons_append] at hread ⊢
  rw [readArray_step hblank hc, hread]
  dsimp only
  rw [if_neg (by omega), UInt8.ofNat_toNat]

theorem nextElement_other {c : Char} (hblank : isBlank c = false) (hcomma : c ≠ ',')
    (rest : CString) : nextElement (c :: rest) = c :: rest := by
  rw [nextElement, List.dropWhile_cons_of_neg (by rw [hblank]; decide)]
  split
  · rename_i heq
    exact absurd (List.cons.inj heq).1 hcomma
  · rfl

theorem nextElement_close (rest : CString) : nextElement (']' :: rest) = ']' :: rest :=
  nextElement_other (by decide) (by decide) rest

theorem nextElement_comma (rest : CString) : nextElement (',' :: rest) = rest := by
  rw [nextElement, List.dropWhile_cons_of_neg (by decide)]
  rfl

theorem readArray_close (rest : CString) : readArray (']' :: rest) = [] := by
  rw [readArray]
  have hskip : (']' :: rest).dropWhile isBlankOrBreak = ']' :: rest :=
    List.dropWhile_cons_of_neg (by decide)
  split
  · rfl
  · rfl
  · rename_i c t hne heq
    rw [hskip] at heq
    obtain ⟨rfl, -⟩ := List.cons.inj heq
    exact (hne rfl).elim

theorem Elements.readArray {bs : Payload} {text : CString} (h : Elements bs text)
    {gap : CString} (hgap : Spaces gap) (rest : CString) :
    readArray (gap ++ (text ++ ']' :: rest)) = bs := by
  induction h generalizing gap with
  | last h =>
      rw [readArray_number hgap h (by simp), nextElement_close, readArray_close]
  | cons h hgap' hrest ih =>
      rw [List.append_assoc, List.cons_append, readArray_number hgap h (by simp),
        nextElement_comma, List.append_assoc, ih hgap']

/-- Either way of writing the data is read back. -/
theorem extractBytes_data {f : Frame} {s text rest : CString} (h : ValueText f .data text)
    (hfound : valueOf s "data".toList = some (text ++ rest)) :
    extractBytes s "data".toList = some f.data := by
  cases h with
  | base64 =>
      have htext : quoted (base64Encode f.data) ++ rest =
          '"' :: (base64Encode f.data ++ '"' :: rest) := by simp [quoted]
      rw [htext] at hfound
      simp only [extractBytes, hfound, findChar_append (base64Encode_quote f.data),
        Option.map_some, List.take_left, base64Decode_encode]
  | @array text h =>
      have htext : '[' :: text ++ [']'] ++ rest = '[' :: (text ++ ']' :: rest) := by simp
      have hread := h.readArray Spaces.nil rest
      rw [htext] at hfound
      rw [List.nil_append] at hread
      simp only [extractBytes, hfound, hread]

/-- Whatever the order of its fields and the form of its data, a frame text is read as its
frame. -/
theorem parseFrameJson_frameText {f : Frame} {s : CString} (h : FrameText f s) :
    parseFrameJson s = .ok f := by
  have hid : extractU32 s "id".toList = some (UInt32.ofNat f.id.toNat) := by
    obtain ⟨text, rest, htext, hrest, hfound⟩ := h.valueOf_key .id
    have hlt := f.id.toNat_lt
    cases htext with
    | id hn => exact extractU32_number hn hrest.not_digit hfound (by omega)
  have hdata : extractBytes s "data".toList = some f.data := by
    obtain ⟨text, rest, htext, -, hfound⟩ := h.valueOf_key .data
    exact extractBytes_data htext hfound
  have htype : extractU32 s "checksum_type".toList =
      some (UInt32.ofNat (if f.checksumType = .enhanced then 1 else 0)) := by
    obtain ⟨text, rest, htext, hrest, hfound⟩ := h.valueOf_key .checksumType
    cases htext with
    | checksumType hn => exact extractU32_number hn hrest.not_digit hfound (by split_ifs <;> decide)
  have hchecksum : extractU32 s "checksum".toList = some (UInt32.ofNat f.checksum.toNat) := by
    obtain ⟨text, rest, htext, hrest, hfound⟩ := h.valueOf_key .checksum
    have hlt := f.checksum.toNat_lt
    cases htext with
    | checksum hn => exact extractU32_number hn hrest.not_digit hfound (by omega)
  obtain ⟨id, data, checksum, checksumType⟩ := f
  simp only [parseFrameJson, hid, hdata, htype, hchecksum, Option.getD_some, Option.map_some]
  have hbyte : ∀ b : UInt8, (UInt32.ofNat b.toNat).toUInt8 = b := by
    intro b
    have hlt := b.toNat_lt
    apply UInt8.toNat_inj.mp
    rw [toUInt8_ofNat_toNat (by omega), Nat.mod_eq_of_lt hlt]
  rw [hbyte, hbyte]
  cases checksumType <;> rfl

def messageMembers (f : Frame) : List (CString × CString) :=
  [("protocol".toList, toCString 3),
    ("version".toList, objectText [("major".toList, toCString 0), ("minor".toList, toCString 0),
      ("patch".toList, toCString 0)]),
    ("id".toList, quoted (toCString f.id.toNat)),
    ("payload".toList, quoted (base64Encode f.data)),
    ("timestamp".toList, quoted "0001-01-01T00:00:00Z".toList),
    ("meta".toList, objectText [(checksumKey, quoted (toCString f.checksum.toNat)),
      (checksumTypeKey,
        quoted (if f.checksumType = .enhanced then "enhanced".toList else "classic".toList))])]

theorem toMessage_entries (f : Frame) : (toMessage f).metaData.entries =
    [⟨checksumKey, toCString f.checksum.toNat⟩, ⟨checksumTypeKey,
      if f.checksumType = .enhanced then "enhanced".toList else "classic".toList⟩] := by
  have hne : checksumKey ≠ checksumTypeKey := by decide
  rw [toMessage, AList.entries_insert_of_notMem, AList.entries_insert_of_notMem]
  · rfl
  · exact AList.notMem_empty _
  · rw [AList.mem_insert]
    exact fun h => h.elim hne (AList.notMem_empty _)

theorem stringLe_append (a b : CString) : stringLe a (a ++ b) = true := by
  rw [stringLe, decide_eq_true_eq]
  cases b with
  | nil => rw [List.append_nil]
  | cons c b =>
      have h : List.Lex (· < ·) (a ++ []) (a ++ c :: b) := List.Lex.append_left _ List.Lex.nil a
      rw [List.append_nil] at h
      exact le_of_lt h

theorem checksumKey_le : stringLe checksumKey checksumTypeKey = true := by
  have hkey : checksumTypeKey = checksumKey ++ "_type".toList := rfl
  rw [hkey]
  exact stringLe_append _ _

theorem sorted_entries (a b : CString) : List.insertionSort
    (fun a b : CString × CString => stringLe a.1 b.1) [(checksumKey, a), (checksumTypeKey, b)] =
      [(checksumKey, a), (checksumTypeKey, b)] := by
  simp only [List.insertionSort_cons, List.insertionSort_nil, List.orderedInsert, checksumKey_le,
    if_true]

theorem messageToJson_toMessage (f : Frame) :
    messageToJson (toMessage f) = objectText (messageMembers f) := by
  have hseq : (if (toMessage f).seq = 0 then []
      else ",\"seq\":".toList ++ toCString (toMessage f).seq.toNat) = [] := if_pos rfl
  have hmajor : (toMessage f).version.major = 0 := rfl
  have hminor : (toMessage f).version.minor = 0 := rfl
  have hpatch : (toMessage f).version.patch = 0 := rfl
  have hzero : (toString (0 : Int)).toList = toCString 0 := rfl
  have hprotocol : (toMessage f).protocol.toNat = 3 := rfl
  have hid : (toMessage f).id = toCString f.id.toNat := rfl
  have hpayload : (toMessage f).payload = f.data := rfl
  -- the literals of the source run over several members: each is cut at its keys
  have l₁ : "\x7b\"protocol\":".toList = '\x7b' :: '"' :: ("protocol".toList ++ ['"', ':']) := rfl
  have l₂ : ",\"version\":\x7b\"major\":".toList =
      ',' :: '"' :: ("version".toList ++ '"' :: ':' :: '\x7b' :: '"' ::
        ("major".toList ++ ['"', ':'])) := rfl
  have l₃ : ",\"minor\":".toList = ',' :: '"' :: ("minor".toList ++ ['"', ':']) := rfl
  have l₄ : ",\"patch\":".toList = ',' :: '"' :: ("patch".toList ++ ['"', ':']) := rfl
  have l₅ : "\x7d,".toList = ['\x7d', ','] := rfl
  have l₆ : "\"id\":".toList = '"' :: ("id".toList ++ ['"', ':']) := rfl
  have l₇ : "\"payload\":".toList = '"' :: ("payload".toList ++ ['"', ':']) := rfl
  have l₈ : "\"timestamp\":\"0001-01-01T00:00:00Z\"".toList =
      '"' :: ("timestamp".toList ++ '"' :: ':' :: '"' ::
        ("0001-01-01T00:00:00Z".toList ++ ['"'])) := rfl
  have l₉ : ",\"meta\":\x7b".toList = ',' :: '"' :: ("meta".toList ++ ['"', ':', '\x7b']) := rfl
  have l₀ : "\x7d".toList = ['\x7d'] := rfl
  unfold messageToJson
  simp only [hmajor, hminor, hpatch, hzero, hprotocol, hid, hpayload, l₁, l₂, l₃, l₄, l₅, l₆, l₇,
    l₈, l₉, l₀, quoted, toMessage_entries, List.map_cons, List.map_nil, sorted_entries, hseq,
    reduceCtorEq, if_false, objectText, messageMembers, memberText, List.intercalate,
    List.intersperse, List.flatten_cons, List.flatten_nil, List.append_assoc, List.cons_append,
    List.nil_append, List.append_nil]

def messageJson (f : Frame) : Json :=
  .obj [("protocol".toList, .nat 3),
    ("version".toList,
      .obj [("major".toList, .nat 0), ("minor".toList, .nat 0), ("patch".toList, .nat 0)]),
    ("id".toList, .str (toCString f.id.toNat)),
    ("payload".toList, .str (base64Encode f.data)),
    ("timestamp".toList, .str "0001-01-01T00:00:00Z".toList),
    ("meta".toList, .obj [(checksumKey, .str (toCString f.checksum.toNat)),
      (checksumTypeKey,
        .str (if f.checksumType = .enhanced then "enhanced".toList else "classic".toList))])]

theorem reads_quoted {s : CString} (h : ∀ c ∈ s, isPlain c = true) : Reads 1 (quoted s) (.str s) := by
  have htext : quoted s = '"' :: s ++ ['"'] := rfl
  rw [htext]
  exact reads_str h

theorem toCString_plain (n : Nat) : ∀ c ∈ toCString n, isPlain c = true := by
  intro c hc
  have hdigit := (toCString_isDecimal n).2 c hc
  simp only [Char.isDigit, Bool.and_eq_true, decide_eq_true_eq, ge_iff_le, UInt32.le_iff_toNat_le]
    at hdigit
  have hlow : 48 ≤ c.toNat := hdigit.1
  have hquote : c ≠ '"' := by rintro rfl; exact absurd hlow (by decide)
  have hslash : c ≠ '\\' := by rintro rfl; exact absurd hdigit.2 (by decide)
  simp only [isPlain, hquote, hslash, ne_eq, not_false_eq_true, decide_true, Bool.and_self,
    Bool.true_and, decide_eq_true_eq]
  omega

theorem base64Encode_isPlain (data : Payload) : ∀ c ∈ base64Encode data, isPlain c = true := by
  intro c hc
  obtain ⟨hquote, hslash, hlow⟩ := base64Encode_plain data c hc
  simp only [isPlain, hquote, hslash, hlow, ne_eq, not_false_eq_true, decide_true, Bool.and_self]

theorem version_reads : Reads 5 (objectText [("major".toList, toCString 0),
    ("minor".toList, toCString 0), ("patch".toList, toCString 0)])
    (.obj [("major".toList, .nat 0), ("minor".toList, .nat 0), ("patch".toList, .nat 0)]) := by
  have hmajor := List.all_eq_true.mp (by decide : ("major".toList).all isPlain = true)
  have hminor := List.all_eq_true.mp (by decide : ("minor".toList).all isPlain = true)
  have hpatch := List.all_eq_true.mp (by decide : ("patch".toList).all isPlain = true)
  refine reads_obj (n := 1) (List.cons_ne_nil _ _) ?_
    (.cons (reads_nat 0) (.cons (reads_nat 0) (.cons (reads_nat 0) .nil)))
  simp only [List.forall_mem_cons]
  exact ⟨hmajor, hminor, hpatch, fun _ h => absurd h List.not_mem_nil⟩

theorem meta_reads {a b : CString} (ha : ∀ c ∈ a, isPlain c = true)
    (hb : ∀ c ∈ b, isPlain c = true) :
    Reads 4 (objectText [(checksumKey, quoted a), (checksumTypeKey, quoted b)])
      (.obj [(checksumKey, .str a), (checksumTypeKey, .str b)]) := by
  have hkey := List.all_eq_true.mp (by decide : checksumKey.all isPlain = true)
  have htype := List.all_eq_true.mp (by decide : checksumTypeKey.all isPlain = true)
  refine reads_obj (n := 1) (List.cons_ne_nil _ _) ?_
    (.cons (reads_quoted ha) (.cons (reads_quoted hb) .nil))
  simp only [List.forall_mem_cons]
  exact ⟨hkey, htype, fun _ h => absurd h List.not_mem_nil⟩

theorem messageMembers_plain (f : Frame) :
    ∀ m ∈ messageMembers f, ∀ c ∈ m.1, isPlain c = true := by
  have hprotocol := List.all_eq_true.mp (by decide : ("protocol".toList).all isPlain = true)
  have hversion := List.all_eq_true.mp (by decide : ("version".toList).all isPlain = true)
  have hid := List.all_eq_true.mp (by decide : ("id".toList).all isPlain = true)
  have hpayload := List.all_eq_true.mp (by decide : ("payload".toList).all isPlain = true)
  have htime := List.all_eq_true.mp (by decide : ("timestamp".toList).all isPlain = true)
  have hmeta := List.all_eq_true.mp (by decide : ("meta".toList).all isPlain = true)
  simp only [messageMembers, List.forall_mem_cons]
  exact ⟨hprotocol, hversion, hid, hpayload, htime, hmeta, fun _ h => absurd h List.not_mem_nil⟩

theorem checksumText_plain (t : ChecksumType) :
    ∀ c ∈ if t = .enhanced then "enhanced".toList else "classic".toList, isPlain c = true := by
  have henhanced := List.all_eq_true.mp (by decide : ("enhanced".toList).all isPlain = true)
  have hclassic := List.all_eq_true.mp (by decide : ("classic".toList).all isPlain = true)
  split_ifs
  · exact henhanced
  · exact hclassic

/-- The message text is a JSON text, and its value is known. -/
theorem read_message (f : Frame) : read (messageToJson (toMessage f)) = some (messageJson f) := by
  have htime := List.all_eq_true.mp (by decide : ("0001-01-01T00:00:00Z".toList).all isPlain = true)
  have hreads : Reads 12 (objectText (messageMembers f)) (messageJson f) := by
    refine reads_obj (n := 5) (List.cons_ne_nil _ _) (messageMembers_plain f)
      (.cons ?_ (.cons version_reads (.cons ?_ (.cons ?_ (.cons ?_ (.cons ?_ .nil))))))
    · exact (reads_nat 3).mono (by decide)
    · exact (reads_quoted (toCString_plain f.id.toNat)).mono (by decide)
    · exact (reads_quoted (base64Encode_isPlain f.data)).mono (by decide)
    · exact (reads_quoted htime).mono (by decide)
    · exact (meta_reads (toCString_plain f.checksum.toNat)
        (checksumText_plain f.checksumType)).mono (by decide)
  have hlength : 12 ≤ (messageToJson (toMessage f)).length := by
    have hhead : "\x7b\"protocol\":".toList.length = 12 := by decide
    unfold messageToJson
    simp only [List.append_assoc]
    rw [List.length_append, hhead]
    exact Nat.le_add_right 12 _
  rw [messageToJson_toMessage] at hlength ⊢
  exact read_of_reads hreads hlength

/-- A byte, from a string of its decimal digits. -/
def byteOf (v : Json) : Option UInt8 := do
  let s ← v.text
  match strtoull 10 s with
  | some (n, []) => if n < 256 then some (UInt8.ofNat n) else none
  | _ => none

def checksumTypeOf (v : Json) : Option ChecksumType := do
  let s ← v.text
  if s = "enhanced".toList then some .enhanced
  else if s = "classic".toList then some .classic
  else none

/-- The frame a relay message carries, from the message as a JSON value. -/
def frameOfJson (message : Json) : Option Frame := do
  let metaData ← message.member "meta".toList
  return {
    id := ← byteOf (← message.member "id".toList)
    data := base64Decode (← (← message.member "payload".toList).text)
    checksum := ← byteOf (← metaData.member checksumKey)
    checksumType := ← checksumTypeOf (← metaData.member checksumTypeKey) }

theorem byteOf_toCString (b : UInt8) : byteOf (.str (toCString b.toNat)) = some b := by
  have hlt := b.toNat_lt
  have hread : strtoull 10 (toCString b.toNat ++ []) = some (b.toNat, []) :=
    (isNumber_toCString b.toNat).strtoull (by simp) (by omega)
  rw [List.append_nil] at hread
  simp only [byteOf, Json.text, Option.bind_eq_bind, Option.bind_some, hread]
  rw [if_pos (by omega), UInt8.ofNat_toNat]

theorem checksumTypeOf_text (t : ChecksumType) : checksumTypeOf
    (.str (if t = .enhanced then "enhanced".toList else "classic".toList)) = some t := by
  have hne : "classic".toList ≠ "enhanced".toList := by decide
  cases t
  · simp only [checksumTypeOf, Json.text, reduceCtorEq, if_false, Option.bind_eq_bind,
      Option.bind_some, if_neg hne, if_true]
  · simp only [checksumTypeOf, Json.text, if_true, Option.bind_eq_bind, Option.bind_some]

theorem frameOfJson_messageJson (f : Frame) : frameOfJson (messageJson f) = some f := by
  have hid : (messageJson f).member "id".toList = some (.str (toCString f.id.toNat)) := rfl
  have hpayload : (messageJson f).member "payload".toList = some (.str (base64Encode f.data)) := rfl
  have hmeta : (messageJson f).member "meta".toList =
      some (.obj [(checksumKey, .str (toCString f.checksum.toNat)), (checksumTypeKey,
        .str (if f.checksumType = .enhanced then "enhanced".toList else "classic".toList))]) := rfl
  have hchecksum : ∀ a b : Json, (Json.obj [(checksumKey, a), (checksumTypeKey, b)]).member
      checksumKey = some a := fun _ _ => rfl
  have htype : ∀ a b : Json, (Json.obj [(checksumKey, a), (checksumTypeKey, b)]).member
      checksumTypeKey = some b := fun _ _ => rfl
  simp only [frameOfJson, hid, hpayload, hmeta, hchecksum, htype, Option.bind_eq_bind,
    Option.bind_some, byteOf_toCString, checksumTypeOf_text, Json.text, base64Decode_encode]
  rfl

/-- Converting is faithful: a valid frame comes back from each of its texts, passes the check,
and comes back from the text of its message. -/
theorem convert_faithful {f : Frame} {s : CString} (hid : f.id ≤ kLINMaxID) (hne : f.data ≠ [])
    (hlen : f.data.length ≤ kLINMaxDataLen)
    (hdiag : isDiagnostic f.id = true → f.checksumType = .classic) (hs : FrameText f s) :
    parseFrameJson s = .ok f ∧ validateFrame f = .ok () ∧
      (read (messageToJson (toMessage f))).bind frameOfJson = some f := by
  refine ⟨parseFrameJson_frameText hs, validateFrame_ok_iff.mpr ⟨hid, hne, hlen, hdiag⟩, ?_⟩
  rw [read_message, Option.bind_some, frameOfJson_messageJson]

/-- The fields in another order, spaces among them, and the data as an array. -/
theorem convert_faithful_array :
    parseFrameJson ("\x7b\"data\": [170, 187],\"checksum_type\": 1, \"id\":16,".toList ++
        "\"checksum\":73\x7d".toList) = .ok ⟨16, [0xAA, 0xBB], 73, .enhanced⟩ ∧
      validateFrame ⟨16, [0xAA, 0xBB], 73, .enhanced⟩ = .ok () ∧
      (read (messageToJson (toMessage ⟨16, [0xAA, 0xBB], 73, .enhanced⟩))).bind frameOfJson =
        some ⟨16, [0xAA, 0xBB], 73, .enhanced⟩ := by
  have hone : Spaces [' '] := by simp [Spaces, isBlank]
  have hfields : Members ⟨16, [0xAA, 0xBB], 73, .enhanced⟩ [.data, .checksumType, .id, .checksum]
      _ :=
    .cons hone (.array (.cons (isNumber_toCString 170) hone (.last (isNumber_toCString 187)))) .nil
      (.cons hone (.checksumType (isNumber_toCString 1)) hone
        (.cons .nil (.id (isNumber_toCString 16)) .nil
          (.last .nil (.checksum (isNumber_toCString 73)))))
  exact convert_faithful (by decide) (by decide) (by decide) (by decide)
    ⟨_, _, by decide, hfields, by decide⟩

end CppLin.Cli
