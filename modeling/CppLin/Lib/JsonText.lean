import CppLin.Lib.CNumber

namespace CppLin.JsonText
open Bytes CNumber

inductive Json where
  | nat (n : Nat)
  | str (s : CString)
  | obj (members : List (CString × Json))

def Json.member (key : CString) : Json → Option Json
  | .obj members => (members.find? fun m => m.1 = key).map Prod.snd
  | _ => none

def Json.text : Json → Option CString
  | .str s => some s
  | _ => none

/-- What may stand in a string as it is: no quote, no backslash, no control character. -/
def isPlain (c : Char) : Bool := c ≠ '"' && c ≠ '\\' && 32 ≤ c.toNat

/-- A string from behind its opening quote, and what follows the closing one. -/
def readString (s : CString) : Option (CString × CString) :=
  match s.dropWhile isPlain with
  | '"' :: rest => some (s.takeWhile isPlain, rest)
  | _ => none

/-- A natural number with no needless zero in front of it. -/
def readNat (s : CString) : Option (Nat × CString) :=
  let ds := s.takeWhile Char.isDigit
  let n := Nat.ofDigitChars 10 ds 0
  if toCString n = ds then some (n, s.dropWhile Char.isDigit) else none

mutual

def readValue : Nat → CString → Option (Json × CString)
  | _, [] => none
  | 0, _ => none
  | n + 1, c :: s =>
      if c = '"' then (readString s).map fun x => (.str x.1, x.2)
      else if c = '\x7b' then (readMembers n s).map fun x => (.obj x.1, x.2)
      else (readNat (c :: s)).map fun x => (.nat x.1, x.2)

/-- The members of an object from its opening brace or a comma on. -/
def readMembers : Nat → CString → Option (List (CString × Json) × CString)
  | n + 1, '"' :: s =>
      match readString s with
      | some (key, ':' :: s) =>
          match readValue n s with
          | some (v, ',' :: s) => (readMembers n s).map fun x => ((key, v) :: x.1, x.2)
          | some (v, '\x7d' :: s) => some ([(key, v)], s)
          | _ => none
      | _ => none
  | _, _ => none

end

def read (s : CString) : Option Json :=
  match readValue s.length s with
  | some (v, []) => some v
  | _ => none

/-- From `n` on the reader takes `v` off the front of `text` whatever comes behind it, a digit
apart. -/
def Reads (n : Nat) (text : CString) (v : Json) : Prop :=
  ∀ k ≥ n, ∀ rest, (∀ c ∈ rest.head?, c.isDigit = false) →
    readValue k (text ++ rest) = some (v, rest)

theorem Reads.mono {n m : Nat} {text : CString} {v : Json} (h : Reads n text v) (hnm : n ≤ m) :
    Reads m text v := fun k hk => h k (hnm.trans hk)

theorem readString_plain {s : CString} (h : ∀ c ∈ s, isPlain c = true) (rest : CString) :
    readString (s ++ '"' :: rest) = some (s, rest) := by
  have hquote : ¬ isPlain '"' = true := by decide
  rw [readString, List.dropWhile_append_of_pos h, List.dropWhile_cons_of_neg hquote,
    List.takeWhile_append_of_pos h, List.takeWhile_cons_of_neg hquote, List.append_nil]
  rfl

theorem reads_str {s : CString} (h : ∀ c ∈ s, isPlain c = true) :
    Reads 1 ('"' :: s ++ ['"']) (.str s) := by
  intro k hk rest _
  obtain ⟨k, rfl⟩ := Nat.exists_eq_add_of_le' hk
  simp only [List.cons_append, List.append_assoc, List.nil_append, readValue, if_true,
    readString_plain h, Option.map_some]

theorem reads_nat (n : Nat) : Reads 1 (toCString n) (.nat n) := by
  intro k hk rest hrest
  obtain ⟨k, rfl⟩ := Nat.exists_eq_add_of_le' hk
  obtain ⟨hne, hdigits⟩ := toCString_isDecimal n
  obtain ⟨d, ds, hds⟩ := List.exists_cons_of_ne_nil hne
  have hd : d.isDigit = true := hdigits d (hds ▸ List.mem_cons_self)
  have hquote : d ≠ '"' := by rintro rfl; exact absurd hd (by decide)
  have hbrace : d ≠ '\x7b' := by rintro rfl; exact absurd hd (by decide)
  have hstop : rest.takeWhile Char.isDigit = [] ∧ rest.dropWhile Char.isDigit = rest := by
    cases rest with
    | nil => exact ⟨rfl, rfl⟩
    | cons c rest =>
        have hc : ¬ c.isDigit = true := by rw [hrest c rfl]; decide
        exact ⟨List.takeWhile_cons_of_neg hc, List.dropWhile_cons_of_neg hc⟩
  have hnat : readNat (toCString n ++ rest) = some (n, rest) := by
    simp only [readNat, List.takeWhile_append_of_pos hdigits, List.dropWhile_append_of_pos hdigits,
      hstop.1, hstop.2, List.append_nil, ofDigitChars_toCString, if_true]
  rw [hds, List.cons_append] at hnat ⊢
  rw [readValue, if_neg hquote, if_neg hbrace, hnat, Option.map_some]

/-- A member as it stands in an object. -/
def memberText (key value : CString) : CString := '"' :: key ++ '"' :: ':' :: value

/-- The text of an object, given by the keys and the texts of the values of its members. -/
def objectText (members : List (CString × CString)) : CString :=
  '\x7b' :: List.intercalate [','] (members.map fun m => memberText m.1 m.2) ++ ['\x7d']

theorem readMembers_last {key value : CString} {v : Json} {n : Nat}
    (hkey : ∀ c ∈ key, isPlain c = true) (hv : Reads n value v) (rest : CString) :
    readMembers (n + 1) (memberText key value ++ '\x7d' :: rest) = some ([(key, v)], rest) := by
  have hvalue := hv n le_rfl ('\x7d' :: rest) (by simp)
  simp only [memberText, List.cons_append, List.append_assoc, readMembers, readString_plain hkey,
    hvalue]

theorem readMembers_cons {key value : CString} {v : Json} {n : Nat}
    (hkey : ∀ c ∈ key, isPlain c = true) (hv : Reads n value v) {more rest : CString}
    {members : List (CString × Json)} (hmore : readMembers n more = some (members, rest)) :
    readMembers (n + 1) (memberText key value ++ ',' :: more) =
      some ((key, v) :: members, rest) := by
  have hvalue := hv n le_rfl (',' :: more) (by simp)
  simp only [memberText, List.cons_append, List.append_assoc, readMembers, readString_plain hkey,
    hvalue, hmore, Option.map_some]

theorem readMembers_intercalate {members : List (CString × CString)} {values : List Json} {n : Nat}
    (hne : members ≠ []) (hkeys : ∀ m ∈ members, ∀ c ∈ m.1, isPlain c = true)
    (hvalues : List.Forall₂ (fun m v => Reads n m.2 v) members values) (rest : CString) :
    readMembers (n + members.length)
      (List.intercalate [','] (members.map fun m => memberText m.1 m.2) ++ '\x7d' :: rest) =
      some ((members.map Prod.fst).zip values, rest) := by
  induction hvalues with
  | nil => exact absurd rfl hne
  | @cons m v members values hv hvalues ih =>
      cases members with
      | nil =>
          cases hvalues
          simpa [List.intercalate] using readMembers_last (hkeys m List.mem_cons_self) hv rest
      | cons m' members =>
          have hmore := ih (List.cons_ne_nil _ _) fun x hx => hkeys x (List.mem_cons_of_mem m hx)
          have hhere := readMembers_cons (hkeys m List.mem_cons_self)
            (hv.mono (Nat.le_add_right n (m' :: members).length)) hmore
          simpa [List.intercalate, ← Nat.add_assoc] using hhere

theorem reads_obj {members : List (CString × CString)} {values : List Json} {n : Nat}
    (hne : members ≠ []) (hkeys : ∀ m ∈ members, ∀ c ∈ m.1, isPlain c = true)
    (hvalues : List.Forall₂ (fun m v => Reads n m.2 v) members values) :
    Reads (n + members.length + 1) (objectText members)
      (.obj ((members.map Prod.fst).zip values)) := by
  intro k hk rest _
  obtain ⟨k, rfl⟩ := Nat.exists_eq_add_of_le hk
  have hmono := hvalues.imp fun _ _ h => h.mono (Nat.le_add_right n k)
  have hmembers := readMembers_intercalate hne hkeys hmono rest
  have hfuel : n + members.length + 1 + k = n + k + members.length + 1 := by omega
  rw [hfuel, objectText, List.cons_append, List.cons_append, List.append_assoc, readValue,
    if_neg (by decide), if_pos rfl, List.singleton_append, hmembers, Option.map_some]

theorem read_of_reads {n : Nat} {text : CString} {v : Json} (h : Reads n text v)
    (hn : n ≤ text.length) : read text = some v := by
  have hall := h text.length hn [] (by simp)
  rw [List.append_nil] at hall
  rw [read, hall]

end CppLin.JsonText
