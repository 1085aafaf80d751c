import CppLin.Cli.Faithful

/-!
The JSON values the data member of a frame text may have, as they are written, and what the
lookup of the bytes makes of each of them.
-/
namespace CppLin.Cli
open Bytes CNumber CText

/-- A character of a JSON string, as it stands or escaped. -/
inductive Piece where
  | plain (c : Char) (h : c ≠ '"' ∧ c ≠ '\\')
  | escape (c : Char) (h : c ∈ "\"\\/bfnrt".toList)
  | unicode (ds : CString) (h : ds.length = 4 ∧ ∀ c ∈ ds, isDigitIn 16 c = true)

namespace Piece

def text : Piece → CString
  | plain c _ => [c]
  | escape c _ => ['\\', c]
  | unicode ds _ => '\\' :: 'u' :: ds

def unit : Piece → Nat
  | plain c _ => c.toNat
  | escape c _ =>
      if c = 'b' then 8 else if c = 't' then 9 else if c = 'n' then 10 else if c = 'f' then 12
      else if c = 'r' then 13 else c.toNat
  | unicode ds _ => numeralVal 16 ds

def isUnicode : Piece → Bool
  | unicode _ _ => true
  | _ => false

end Piece

/-- An element of a JSON array: an integer, a number with a fraction or an exponent, or a value
that is no number, by its first character. -/
inductive Element where
  | integer (neg : Bool) (ds : CString) (h : IsDecimal ds)
  | fraction (neg : Bool) (ds : CString) (h : IsDecimal ds) (c : Char) (hc : c ∈ ".eE".toList)
      (tail : CString)
  | other (c : Char) (hc : c ∈ "\"[\x7btfn".toList) (tail : CString)

def numberText (neg : Bool) (ds : CString) : CString := (if neg then ['-'] else []) ++ ds

namespace Element

def text : Element → CString
  | integer neg ds _ => numberText neg ds
  | fraction neg ds _ c _ tail => numberText neg ds ++ c :: tail
  | other c _ tail => c :: tail

def int? : Element → Option Int
  | integer neg ds _ =>
      some (if neg then -(Nat.ofDigitChars 10 ds 0 : Int) else Nat.ofDigitChars 10 ds 0)
  | _ => none

end Element

/-- An element with the white space around it. -/
structure Item where
  before : CString := []
  element : Element
  after : CString := []
  hbefore : Blank before := by simp [Blank]
  hafter : Blank after := by simp [Blank]

def Item.text (i : Item) : CString := i.before ++ i.element.text ++ i.after

def itemsText : List Item → CString
  | [] => []
  | [i] => i.text
  | i :: items => i.text ++ ',' :: itemsText items

inductive DataValue where
  | string (ps : List Piece)
  | array (gap : CString) (hgap : Blank gap) (items : List Item)
  | other (c : Char) (hc : c ≠ '"' ∧ c ≠ '[' ∧ isBlankOrBreak c = false) (tail : CString)

namespace DataValue

def text : DataValue → CString
  | string ps => '"' :: ps.flatMap Piece.text ++ ['"']
  | array gap _ items => '[' :: (gap ++ itemsText items) ++ [']']
  | other c _ tail => c :: tail

/-- The bytes a value stands for: an array of integers, or a text in canonical base64. -/
def Denotes : DataValue → Payload → Prop
  | string ps, data => ps.map Piece.unit = (base64Encode data).map Char.toNat
  | array _ _ items, data =>
      List.Forall₂ (fun i (b : UInt8) => i.element.int? = some (b.toNat : Int)) items data
  | other _ _ _, _ => False

end DataValue

/-! Arrays. -/

/-- What `strtoull` returns for an integer. -/
def wrapped (neg : Bool) (n : Nat) : Nat :=
  if 2 ^ 64 ≤ n then 2 ^ 64 - 1 else if neg then (2 ^ 64 - n) % 2 ^ 64 else n

/-- The number goes into the payload: it is within a byte, or negative and congruent to one
modulo 2^64. -/
def numberEnters (neg : Bool) (n : Nat) : Bool :=
  if neg then n = 0 ∨ 2 ^ 64 - 255 ≤ n ∧ n < 2 ^ 64 else n ≤ 255

theorem numberEnters_eq_false_iff (neg : Bool) (n : Nat) :
    numberEnters neg n = false ↔ wrapped neg n > 255 := by
  unfold numberEnters wrapped
  cases neg <;> simp only [if_true, if_false, Bool.false_eq_true, decide_eq_false_iff_not] <;>
    split_ifs <;> omega

theorem strtoull_number {ds rest : CString} (neg : Bool) (hds : IsDecimal ds)
    (hrest : ∀ c ∈ rest.head?, c.isDigit = false) :
    strtoull 10 (numberText neg ds ++ rest) =
      some (wrapped neg (Nat.ofDigitChars 10 ds 0), rest) := by
  have hsign : IsSign (if neg then ['-'] else []) neg := by
    cases neg
    · exact .none
    · exact .minus
  have hscan := scanNumeral_signed (List.forall_mem_nil _) hsign hds hrest
  rw [List.nil_append] at hscan
  rw [strtoull, numberText, hscan]
  rfl

theorem readArray_stop {gap : CString} (hgap : Blank gap) {c : Char} (hspace : isSpace c = false)
    (hminus : c ≠ '-') (hplus : c ≠ '+') (hdigit : c.isDigit = false) (s : CString) :
    readArray (gap ++ c :: s) = [] := by
  have hc : isBlankOrBreak c = false := by
    rw [Bool.eq_false_iff]
    intro hb
    rw [isSpace_of_blank hb] at hspace
    cases hspace
  rw [readArray_step hgap hc, strtoull_eq_none hspace hminus hplus hdigit]

theorem readArray_numeral {gap ds rest : CString} {neg : Bool} (hgap : Blank gap)
    (hds : IsDecimal ds) (hrest : ∀ c ∈ rest.head?, c.isDigit = false) :
    readArray (gap ++ (numberText neg ds ++ rest)) =
      if numberEnters neg (Nat.ofDigitChars 10 ds 0) = false then []
      else
        UInt8.ofNat (wrapped neg (Nat.ofDigitChars 10 ds 0)) :: readArray (nextElement rest) := by
  have hnumber := strtoull_number neg hds hrest
  obtain ⟨c, t, htext, hc⟩ : ∃ c t, numberText neg ds = c :: t ∧ isBlankOrBreak c = false := by
    cases neg with
    | true => exact ⟨'-', ds, rfl, by decide⟩
    | false =>
      obtain ⟨d, ds', rfl⟩ := List.exists_cons_of_ne_nil hds.1
      exact ⟨d, ds', rfl, not_blank_of_isDigit (hds.2 d List.mem_cons_self)⟩
  rw [htext, List.cons_append] at hnumber
  rw [htext, List.cons_append, readArray_step hgap hc, hnumber]
  exact if_congr (numberEnters_eq_false_iff neg _).symm rfl rfl

/-- White space on one line is skipped whole, other white space up to its first line break. -/
theorem dropWhile_blank {ws : CString} (hws : Blank ws) (rest : CString) :
    (ws.all isBlank = true ∧ (ws ++ rest).dropWhile isBlank = rest.dropWhile isBlank) ∨
      (ws.all isBlank = false ∧ ∃ c line, Blank (c :: line) ∧
        (ws ++ rest).dropWhile isBlank = c :: (line ++ rest)) := by
  cases hall : ws.all isBlank with
  | true => exact .inl ⟨rfl, List.dropWhile_append_of_pos (List.all_eq_true.mp hall)⟩
  | false =>
    obtain ⟨c, line, hline⟩ : ∃ c line, ws.dropWhile isBlank = c :: line := by
      refine List.exists_cons_of_ne_nil fun hnil => ?_
      rw [List.all_eq_true.mpr (List.dropWhile_eq_nil_iff.mp hnil)] at hall
      cases hall
    refine .inr ⟨rfl, c, line, fun b hb => ?_, by rw [List.dropWhile_append, hline]; rfl⟩
    rw [← hline] at hb
    exact hws b ((List.dropWhile_sublist isBlank).mem hb)

/-- Behind an element, white space on its line is passed over, and a comma there; from a line
break on everything is left for the next turn. -/
theorem nextElement_blank {after : CString} (hafter : Blank after) (rest : CString) :
    (after.all isBlank = true ∧ nextElement (after ++ rest) = nextElement rest) ∨
      (after.all isBlank = false ∧
        ∃ line, Blank line ∧ nextElement (after ++ rest) = line ++ rest) := by
  obtain ⟨hall, hskip⟩ | ⟨hall, c, line, hline, hskip⟩ := dropWhile_blank hafter rest
  · exact .inl ⟨hall, by rw [nextElement, hskip, nextElement]⟩
  · have hcomma : c ≠ ',' := by
      rintro rfl
      exact absurd (hline ',' List.mem_cons_self) (by decide)
    refine .inr ⟨hall, c :: line, hline, ?_⟩
    rw [nextElement, hskip]
    split
    · rename_i heq
      exact absurd (List.cons.inj heq).1 hcomma
    · rfl

/-- A comma is passed over only on the line of the element before it. -/
theorem readArray_comma {after : CString} (hafter : Blank after) (t : CString) :
    readArray (nextElement (after ++ ',' :: t)) =
      if after.all isBlank = true then readArray t else [] := by
  obtain ⟨hall, hnext⟩ | ⟨hall, line, hline, hnext⟩ := nextElement_blank hafter (',' :: t)
  · rw [hnext, nextElement_comma, if_pos hall]
  · rw [hnext, if_neg (by rw [hall]; decide)]
    exact readArray_stop hline (by decide) (by decide) (by decide) (by decide) t

theorem readArray_bracket {after : CString} (hafter : Blank after) (rest : CString) :
    readArray (nextElement (after ++ ']' :: rest)) = [] := by
  obtain ⟨-, hnext⟩ | ⟨-, line, hline, hnext⟩ := nextElement_blank hafter (']' :: rest)
  · rw [hnext, nextElement_close, readArray_close]
  · rw [hnext]
    exact readArray_stop hline (by decide) (by decide) (by decide) (by decide) rest

def Element.enters : Element → Bool
  | .integer neg ds _ | .fraction neg ds _ _ _ _ => numberEnters neg (Nat.ofDigitChars 10 ds 0)
  | .other _ _ _ => false

/-- The elements that go into the payload: up to the first that does not, and none behind one
that is no integer or has a line break before its comma. -/
def survivors : List Item → Nat
  | [] => 0
  | i :: items =>
      if i.element.enters = false then 0
      else if i.element.int? ≠ none ∧ i.after.all isBlank = true then 1 + survivors items
      else 1

def Element.byte : Element → UInt8
  | .integer neg ds _ | .fraction neg ds _ _ _ _ =>
      UInt8.ofNat (wrapped neg (Nat.ofDigitChars 10 ds 0))
  | .other _ _ _ => 0

theorem head_not_digit {after tail : CString} (hafter : Blank after)
    (htail : ∀ c ∈ tail.head?, c = ',' ∨ c = ']') :
    ∀ c ∈ (after ++ tail).head?, c.isDigit = false := by
  intro c hc
  cases after with
  | nil => rcases htail c hc with rfl | rfl <;> decide
  | cons b after =>
    obtain rfl := Option.some.inj hc
    exact not_isDigit_of_blank (hafter b List.mem_cons_self)

theorem readArray_element {gap after tail : CString} (hgap : Blank gap) (hafter : Blank after)
    (htail : ∀ c ∈ tail.head?, c = ',' ∨ c = ']') (e : Element) :
    readArray (gap ++ (e.text ++ (after ++ tail))) =
      if e.enters = false then []
      else e.byte :: if e.int? ≠ none then readArray (nextElement (after ++ tail)) else [] := by
  cases e with
  | integer neg ds h =>
    have hint : (Element.integer neg ds h).int? ≠ none := Option.some_ne_none _
    rw [Element.text, readArray_numeral hgap h (head_not_digit hafter htail), if_pos hint]
    rfl
  | fraction neg ds h c hc rest =>
    have hmark : ∀ c ∈ ".eE".toList, isSpace c = false ∧ c ≠ '-' ∧ c ≠ '+' ∧ c.isDigit = false ∧
        isBlank c = false ∧ c ≠ ',' := by simp [isSpace, isBlank]
    obtain ⟨hspace, hminus, hplus, hdigit, hblank, hcomma⟩ := hmark c hc
    have htext : (Element.fraction neg ds h c hc rest).text ++ (after ++ tail) =
        numberText neg ds ++ (c :: (rest ++ (after ++ tail))) := by simp [Element.text]
    have hstop : readArray ([] ++ c :: (rest ++ (after ++ tail))) = [] :=
      readArray_stop (List.forall_mem_nil _) hspace hminus hplus hdigit _
    rw [List.nil_append] at hstop
    have hint : ¬ (Element.fraction neg ds h c hc rest).int? ≠ none := fun hne => hne rfl
    rw [htext, readArray_numeral hgap h (by simpa using hdigit), nextElement_other hblank hcomma,
      hstop, if_neg hint]
    rfl
  | other c hc rest =>
    have hmark : ∀ c ∈ "\"[\x7btfn".toList, isSpace c = false ∧ c ≠ '-' ∧ c ≠ '+' ∧
        c.isDigit = false := by simp [isSpace]
    obtain ⟨hspace, hminus, hplus, hdigit⟩ := hmark c hc
    exact readArray_stop hgap hspace hminus hplus hdigit _

def takenBytes : List Item → Payload
  | [] => []
  | i :: items =>
      if i.element.enters = false then []
      else i.element.byte ::
        if i.element.int? ≠ none ∧ i.after.all isBlank = true then takenBytes items else []

theorem length_takenBytes (items : List Item) : (takenBytes items).length = survivors items := by
  induction items with
  | nil => rfl
  | cons i items ih =>
    rw [takenBytes, survivors]
    split_ifs
    · rfl
    · rw [List.length_cons, ih, Nat.add_comm]
    · rfl

theorem readArray_items {gap : CString} (hgap : Blank gap) (items : List Item) (rest : CString) :
    readArray (gap ++ (itemsText items ++ ']' :: rest)) = takenBytes items := by
  have hbefore : ∀ {gap} (_ : Blank gap) (i : Item), Blank (gap ++ i.before) := fun h i c hc =>
    (List.mem_append.mp hc).elim (h c) (i.hbefore c)
  induction items using itemsText.induct generalizing gap with
  | case1 =>
    exact readArray_stop hgap (by decide) (by decide) (by decide) (by decide) rest
  | case2 i =>
    have htext : gap ++ (itemsText [i] ++ ']' :: rest) =
        gap ++ i.before ++ (i.element.text ++ (i.after ++ ']' :: rest)) := by
      simp [itemsText, Item.text]
    rw [htext, readArray_element (hbefore hgap i) i.hafter (by simp), readArray_bracket i.hafter,
      takenBytes, takenBytes, ite_self, ite_self]
  | case3 i items hne ih =>
    have htext : gap ++ (itemsText (i :: items) ++ ']' :: rest) = gap ++ i.before ++
        (i.element.text ++ (i.after ++ ',' :: (itemsText items ++ ']' :: rest))) := by
      rw [itemsText]
      · simp [Item.text]
      · exact hne
    have hrest := ih (List.forall_mem_nil _)
    rw [List.nil_append] at hrest
    rw [htext, readArray_element (hbefore hgap i) i.hafter (by simp), readArray_comma i.hafter,
      hrest, takenBytes, ite_and]

theorem Element.byte_of_int? {e : Element} {b : UInt8} (h : e.int? = some (b.toNat : Int)) :
    e.enters = true ∧ e.byte = b := by
  have hlt := b.toNat_lt
  cases e with
  | integer neg ds hds =>
    have hint : (if neg then -(Nat.ofDigitChars 10 ds 0 : Int) else Nat.ofDigitChars 10 ds 0) =
        b.toNat := Option.some.inj h
    generalize hn : Nat.ofDigitChars 10 ds 0 = n at hint
    have hvalue : numberEnters neg n = true ∧ wrapped neg n = b.toNat := by
      unfold numberEnters wrapped
      cases neg <;>
        simp only [if_true, if_false, Bool.false_eq_true, decide_eq_true_eq] at hint ⊢ <;>
        refine ⟨by omega, ?_⟩ <;> split_ifs <;> omega
    simp only [Element.enters, Element.byte, hn, hvalue, UInt8.ofNat_toNat, and_self]
  | fraction neg ds hds c hc tail => cases h
  | other c hc tail => cases h

theorem takenBytes_of_denotes {items : List Item} {data : Payload}
    (h : List.Forall₂ (fun i (b : UInt8) => i.element.int? = some (b.toNat : Int)) items data)
    (hline : ∀ i ∈ items.dropLast, i.after.all isBlank = true) : takenBytes items = data := by
  induction h with
  | nil => rfl
  | @cons i b items data hi hrest ih =>
    obtain ⟨henters, hbyte⟩ := Element.byte_of_int? hi
    have hint : i.element.int? ≠ none := by
      rw [hi]
      exact Option.some_ne_none _
    rw [takenBytes, if_neg (by rw [henters]; decide), hbyte]
    cases items with
    | nil =>
      cases hrest
      rw [takenBytes, ite_self]
    | cons j items =>
      rw [List.dropLast_cons_of_ne_nil (List.cons_ne_nil j items), List.forall_mem_cons] at hline
      rw [if_pos ⟨hint, hline.1⟩, ih hline.2]

theorem oneLine_of_length {items : List Item} (h : (takenBytes items).length = items.length) :
    ∀ i ∈ items.dropLast, i.after.all isBlank = true := by
  induction items with
  | nil => exact List.forall_mem_nil _
  | cons i items ih =>
    cases items with
    | nil => exact List.forall_mem_nil _
    | cons j items =>
      rw [takenBytes] at h
      split_ifs at h with henters hgo
      · rw [List.dropLast_cons_of_ne_nil (List.cons_ne_nil j items), List.forall_mem_cons]
        exact ⟨hgo.2, ih (Nat.succ.inj h)⟩
      · cases h

/-! Strings. -/

/-- The text the decoder is given: up to the first quote, escaped or not. -/
def cut (ps : List Piece) : CString := (ps.flatMap Piece.text).takeWhile fun c => c ≠ '"'

/-- The pieces before the first `=` that stands as it is. -/
def unpadded (ps : List Piece) : List Piece := ps.takeWhile fun p => p.text ≠ ['=']

theorem cut_cons {p : Piece} (h : '"' ∉ p.text) (ps : List Piece) :
    cut (p :: ps) = p.text ++ cut ps := by
  rw [cut, List.flatMap_cons, List.takeWhile_append_of_pos, cut]
  intro c hc
  simpa using ne_of_mem_of_not_mem hc h

theorem letter_of_isDigitIn {c : Char} (h : isDigitIn 16 c = true) :
    c ≠ '=' ∧ c ≠ '"' ∧ (b64val c).isSome = true := by
  have hsmall : ∀ n < 128, isDigitIn 16 (Char.ofNat n) = true →
      Char.ofNat n ≠ '=' ∧ Char.ofNat n ≠ '"' ∧ (b64val (Char.ofNat n)).isSome = true := by
    decide +kernel
  have hlt : c.toNat < 128 := by
    rw [isDigitIn, digitVal, decide_eq_true_eq] at h
    split_ifs at h <;> omega
  have hc := hsmall c.toNat hlt
  rw [Char.ofNat_toNat] at hc
  exact hc h

/-- A character of an encoded text, as it may be written. -/
theorem Piece.text_cases {p : Piece} {c : Char} (h : p.unit = c.toNat)
    (hc : c = '=' ∨ (b64val c).isSome = true) :
    p.isUnicode = true ∨ p.isUnicode = false ∧ (p.text = [c] ∨ p.text = ['\\', c] ∧ c ≠ '=') := by
  cases p with
  | plain d hd =>
    obtain rfl : d = c := Char.toNat_inj.mp h
    exact .inr ⟨rfl, .inl rfl⟩
  | escape d hd =>
    refine .inr ⟨rfl, .inr ?_⟩
    have hof := congrArg Char.ofNat h
    rw [Char.ofNat_toNat] at hof
    subst hof
    revert hc
    simp only [unit, text]
    have hd' : d = '"' ∨ d = '\\' ∨ d = '/' ∨ d = 'b' ∨ d = 'f' ∨ d = 'n' ∨ d = 'r' ∨ d = 't' := by
      simpa using hd
    rcases hd' with rfl | rfl | rfl | rfl | rfl | rfl | rfl | rfl <;> decide
  | unicode ds hds => exact .inl rfl

theorem Piece.unit_of_pad {p : Piece} (h : p.text = ['=']) : p.unit = '='.toNat := by
  cases p with
  | plain c hc => rw [unit, (List.cons.inj h).1]
  | escape c hc => exact absurd (List.cons.inj h).1 (by decide)
  | unicode ds hds => exact absurd (List.cons.inj h).1 (by decide)

theorem letters_cut_letter {p : Piece} {c : Char} (htext : p.text = [c] ∨ p.text = ['\\', c])
    (hpad : c ≠ '=') (hc : (b64val c).isSome = true) (ps : List Piece) :
    letters (cut (p :: ps)) = c :: letters (cut ps) := by
  have hquote : c ≠ '"' := by
    rintro rfl
    cases hc
  have hslash : letters ('\\' :: c :: cut ps) = letters (c :: cut ps) :=
    letters_skip (by decide) (by decide) _
  rcases htext with htext | htext
  · rw [cut_cons (by simpa [htext] using hquote.symm), htext, List.singleton_append,
      letters_keep hpad hc]
  · rw [cut_cons (by simpa [htext] using hquote.symm), htext, List.cons_append,
      List.singleton_append, hslash, letters_keep hpad hc]

/-- An escaped code unit counts five letters: the `u` and the digits. -/
theorem letters_cut_unicode {p : Piece} (hp : p.isUnicode = true) (ps : List Piece) :
    (letters (cut (p :: ps))).length = 5 + (letters (cut ps)).length := by
  cases p with
  | plain c hc => cases hp
  | escape c hc => cases hp
  | unicode ds hds =>
    have hquote : '"' ∉ (Piece.unicode ds hds).text := by
      simp only [Piece.text, List.mem_cons, not_or]
      exact ⟨by decide, by decide, fun hmem => (letter_of_isDigitIn (hds.2 _ hmem)).2.1 rfl⟩
    have hdigits : ∀ c ∈ 'u' :: ds, c ≠ '=' ∧ (b64val c).isSome = true := by
      refine List.forall_mem_cons.mpr ⟨by decide, fun c hc => ?_⟩
      obtain ⟨hpad, -, hsome⟩ := letter_of_isDigitIn (hds.2 c hc)
      exact ⟨hpad, hsome⟩
    have hslash : letters ('\\' :: ('u' :: ds ++ cut ps)) = letters ('u' :: ds ++ cut ps) :=
      letters_skip (by decide) (by decide) _
    rw [cut_cons hquote, Piece.text, List.cons_append, hslash, letters_append hdigits,
      List.length_append, List.length_cons, hds.1]

theorem unpadded_cons {p : Piece} (h : p.text ≠ ['=']) (ps : List Piece) :
    unpadded (p :: ps) = p :: unpadded ps := by
  rw [unpadded, List.takeWhile_cons_of_pos (by simpa using h), unpadded]

/-- With no escaped code unit before its padding an encoded text is read as it is. -/
theorem letters_cut {ps : List Piece} {v : CString} (h : ps.map Piece.unit = v.map Char.toNat)
    (hv : ∀ c ∈ v, c = '=' ∨ (b64val c).isSome = true)
    (hplain : ∀ p ∈ unpadded ps, p.isUnicode = false) : letters (cut ps) = letters v := by
  induction ps generalizing v with
  | nil =>
    obtain rfl : v = [] := List.map_eq_nil_iff.mp h.symm
    rfl
  | cons p ps ih =>
    obtain ⟨c, v, rfl⟩ : ∃ c v', v = c :: v' := by
      cases v with
      | nil => cases h
      | cons c v => exact ⟨c, v, rfl⟩
    obtain ⟨hunit, hrest⟩ := List.cons.inj h
    rw [List.forall_mem_cons] at hv
    by_cases hpad : p.text = ['=']
    · have hc : c = '=' := Char.toNat_inj.mp (hunit.symm.trans (Piece.unit_of_pad hpad))
      rw [cut_cons (by rw [hpad]; decide), hpad, List.singleton_append, letters_pad, hc,
        letters_pad]
    · rw [unpadded_cons hpad, List.forall_mem_cons] at hplain
      have htext := ((Piece.text_cases hunit hv.1).resolve_left (by rw [hplain.1]; decide)).2
      have hc : c ≠ '=' := by
        rcases htext with htext | ⟨-, hne⟩
        · rintro rfl
          exact hpad htext
        · exact hne
      have hsome := hv.1.resolve_left hc
      rw [letters_cut_letter (htext.imp_right And.left) hc hsome, letters_keep hc hsome,
        ih hrest hv.2 hplain.2]

/-- Each escaped code unit before the padding is read as four letters too many. -/
theorem le_length_letters_cut {ps : List Piece} {a pads : CString}
    (h : ps.map Piece.unit = (a ++ pads).map Char.toNat) (hpads : ∀ c ∈ pads, c = '=')
    (ha : ∀ c ∈ a, c ≠ '=' ∧ (b64val c).isSome = true) :
    a.length + 4 * (unpadded ps).countP Piece.isUnicode ≤ (letters (cut ps)).length := by
  induction ps generalizing a pads with
  | nil =>
    have hnil : a ++ pads = [] := List.map_eq_nil_iff.mp h.symm
    rw [(List.append_eq_nil_iff.mp hnil).1]
    exact Nat.zero_le _
  | cons p ps ih =>
    cases a with
    | nil =>
      cases pads with
      | nil => cases h
      | cons c pads =>
        obtain ⟨hunit, hrest⟩ := List.cons.inj h
        rw [List.forall_mem_cons] at hpads
        by_cases hpad : p.text = ['=']
        · rw [unpadded, List.takeWhile_cons_of_neg (by simpa using hpad)]
          exact Nat.zero_le _
        · have hp : p.isUnicode = true := by
            refine (Piece.text_cases hunit (.inl hpads.1)).resolve_right ?_
            rintro ⟨-, htext | ⟨-, hne⟩⟩
            · exact hpad (hpads.1 ▸ htext)
            · exact hne hpads.1
          have hle := ih (a := []) hrest hpads.2 (List.forall_mem_nil _)
          rw [unpadded_cons hpad, List.countP_cons_of_pos hp, letters_cut_unicode hp]
          omega
    | cons c a =>
      obtain ⟨hunit, hrest⟩ := List.cons.inj h
      rw [List.forall_mem_cons] at ha
      have hpad : p.text ≠ ['='] := fun hpad =>
        ha.1.1 (Char.toNat_inj.mp (hunit.symm.trans (Piece.unit_of_pad hpad)))
      have hle := ih hrest hpads ha.2
      rw [unpadded_cons hpad, List.length_cons]
      obtain hp | ⟨hp, htext⟩ := Piece.text_cases hunit (.inr ha.1.2)
      · rw [List.countP_cons_of_pos hp, letters_cut_unicode hp]
        omega
      · rw [List.countP_cons_of_neg (by rw [hp]; decide),
          letters_cut_letter (htext.imp_right And.left) ha.1.1 ha.1.2, List.length_cons]
        omega

namespace DataValue

/-- The bytes the lookup makes of the value. -/
def taken : DataValue → Payload
  | string ps => base64Decode (cut ps)
  | array _ _ items => takenBytes items
  | other _ _ _ => []

def count : DataValue → Nat
  | string ps => 6 * (letters (cut ps)).length / 8
  | array _ _ items => survivors items
  | other _ _ _ => 0

/-- The value is written in a way the lookup reads: no code unit escaped before the padding of a
string, every comma of an array on the line of the element before it. -/
def Readable : DataValue → Prop
  | string ps => ∀ p ∈ unpadded ps, p.isUnicode = false
  | array _ _ items => ∀ i ∈ items.dropLast, i.after.all isBlank = true
  | other _ _ _ => True

/-- A value begins with its first character, not with a space. -/
theorem dropWhile_text (v : DataValue) (rest : CString) :
    (v.text ++ rest).dropWhile isBlank = v.text ++ rest := by
  cases v with
  | string ps => exact List.dropWhile_cons_of_neg (by decide)
  | array gap hgap items => exact List.dropWhile_cons_of_neg (by decide)
  | other c hc tail =>
    refine List.dropWhile_cons_of_neg ?_
    have hblank := hc.2.2
    rw [isBlankOrBreak, Bool.or_eq_false_iff, Bool.or_eq_false_iff] at hblank
    rw [hblank.1.1]
    decide

theorem length_taken (v : DataValue) : v.taken.length = v.count := by
  cases v with
  | string ps => exact length_base64Decode (cut ps)
  | array gap hgap items => exact length_takenBytes items
  | other c hc tail => rfl

theorem taken_of_denotes {v : DataValue} {data : Payload} (h : v.Denotes data)
    (hread : v.Readable) : v.taken = data := by
  cases v with
  | string ps =>
    have hv : ∀ c ∈ base64Encode data, c = '=' ∨ (b64val c).isSome = true := by
      obtain ⟨pads, heq, hpads, hletters⟩ := base64Encode_letters data
      rw [heq]
      intro c hc
      rcases List.mem_append.mp hc with hc | hc
      · exact .inr (hletters c hc).2
      · exact .inl (hpads c hc)
    rw [taken, ← base64Decode_letters, letters_cut h hv hread, base64Decode_letters,
      base64Decode_encode]
  | array gap hgap items => exact takenBytes_of_denotes h hread
  | other c hc tail => exact absurd h id

/-- A value that stands for the bytes the lookup makes of it is written that way. -/
theorem readable_of_denotes_taken {v : DataValue} (h : v.Denotes v.taken) : v.Readable := by
  cases v with
  | string ps =>
    obtain ⟨pads, heq, hpads, hletters⟩ := base64Encode_letters (base64Decode (cut ps))
    have hunits : ps.map Piece.unit =
        (letters (base64Encode (base64Decode (cut ps))) ++ pads).map Char.toNat := heq ▸ h
    have hle := le_length_letters_cut hunits hpads hletters
    -- four letters are three bytes, and the decoded text is as long as what it encodes
    have hcut := length_base64Decode (cut ps)
    have hdecode := length_base64Decode (base64Encode (base64Decode (cut ps)))
    rw [base64Decode_encode] at hdecode
    have hcount : (unpadded ps).countP Piece.isUnicode = 0 := by omega
    intro p hp
    rw [← Bool.not_eq_true]
    exact List.countP_eq_zero.mp hcount p hp
  | array gap hgap items => exact oneLine_of_length (List.Forall₂.length_eq h).symm
  | other c hc tail => trivial

end DataValue

end CppLin.Cli
