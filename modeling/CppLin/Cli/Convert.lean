import CppLin.Cli.Json

/-!
The convert command: a frame in JSON on the standard input becomes a relay message in
JSON on the standard output, and which numbers the message carries for those in the text.
-/
namespace CppLin.Cli
open Bytes CNumber CText

/-- What a command leaves behind: its two output streams and its exit code. -/
structure Outcome where
  stdout : CString := []
  stderr : CString := []
  exitCode : Nat
  deriving DecidableEq, Repr

/-- The command once the input is read. -/
def convertText (input : CString) : Outcome :=
  match parseFrameJson input with
  | .error e => { stderr := e.what ++ ['\n'], exitCode := 1 }
  | .ok f =>
      match validateFrame f with
      | .error e =>
          { stderr := "ErrInvalidFrame: ".toList ++ e.what ++ ['\n'], exitCode := 1 }
      | .ok () =>
          { stdout := messageToJson { toMessage f with timestamp := 0 } ++ ['\n'], exitCode := 0 }

/-- The lines of the standard input are joined without their line breaks. -/
def cmdConvert (protocol stdin : CString) : Outcome :=
  if protocol ≠ "LIN".toList then
    { stderr := "ErrUnsupportedProtocol\n".toList, exitCode := 2 }
  else convertText (getlines '\n' stdin).flatten

theorem cmdConvert_lin (stdin : CString) :
    cmdConvert "LIN".toList stdin = convertText (stdin.filter (· ≠ '\n')) := by
  rw [cmdConvert, if_neg (by simp), getlines_flatten]

def Blank (gap : CString) : Prop := ∀ c ∈ gap, isBlankOrBreak c = true

/-- In `s`, after `pre`, the quoted key stands before a colon, with `gap` between them. -/
def NamedAt (s key pre gap value : CString) : Prop :=
  s = pre ++ quoted key ++ gap ++ ':' :: value ∧ Blank gap

/-- A decimal integer, white space before it allowed, up to the end of a JSON value. -/
def IsInteger (value : CString) (n : Nat) : Prop :=
  ∃ ws ds rest, value = ws ++ ds ++ rest ∧ Blank ws ∧ IsDecimal ds ∧
    Nat.ofDigitChars 10 ds 0 = n ∧
    ∀ c ∈ rest.head?, isBlankOrBreak c = true ∨ c = ',' ∨ c = '\x7d'

/-- The text has one member of that name, and its value is the integer `n`. -/
def HasInteger (s key gap : CString) (n : Nat) : Prop :=
  ∃ pre value, NamedAt s key pre gap value ∧ IsInteger value n ∧
    ∀ pre' gap' value', NamedAt s key pre' gap' value' → pre' = pre

/-- The member is absent, or an integer with the white space before its colon. -/
def MayHaveInteger (s key : CString) : Option (CString × Nat) → Prop
  | none => ∀ pre gap value, ¬ NamedAt s key pre gap value
  | some (gap, n) => HasInteger s key gap n

theorem not_blank_of_isDigit {c : Char} (h : c.isDigit = true) : isBlankOrBreak c = false := by
  cases hb : isBlankOrBreak c with
  | false => rfl
  | true =>
      simp only [isBlankOrBreak, isBlank, Bool.or_eq_true, decide_eq_true_eq] at hb
      rcases hb with ((rfl | rfl) | rfl) | rfl <;> exact absurd h (by decide)

theorem not_isDigit_of_blank {c : Char} (h : isBlankOrBreak c = true) : c.isDigit = false := by
  cases hdigit : c.isDigit with
  | false => rfl
  | true =>
      rw [not_blank_of_isDigit hdigit] at h
      cases h

theorem isSpace_of_blank {c : Char} (h : isBlankOrBreak c = true) : isSpace c = true := by
  simp only [isBlankOrBreak, isBlank, Bool.or_eq_true, decide_eq_true_eq] at h
  rcases h with ((rfl | rfl) | rfl) | rfl <;> decide

/-- With nothing before the colon the lookup finds the one member of that name. -/
theorem valueOf_of_named {s key pre value : CString} (h : NamedAt s key pre [] value)
    (honce : ∀ pre' gap' value', NamedAt s key pre' gap' value' → pre' = pre) :
    valueOf s key = some (value.dropWhile isBlank) := by
  have hs : s = pre ++ keyText key ++ value := by
    rw [h.1, List.append_nil]
    simp [keyText, quoted]
  cases hf : find (keyText key) s with
  | none => exact absurd hs (not_occurs_of_find hf pre value)
  | some p =>
      obtain ⟨pre', value', hs', rfl⟩ := find_split hf
      have hpre : pre' = pre := honce pre' [] value' ⟨by rw [hs']; simp [keyText, quoted], by simp [Blank]⟩
      rw [valueOf, hf, Option.map_some, hpre, hs, ← List.length_append, List.drop_left]

theorem valueOf_of_gap {s key pre gap value : CString} (h : NamedAt s key pre gap value)
    (hgap : gap ≠ [])
    (honce : ∀ pre' gap' value', NamedAt s key pre' gap' value' → pre' = pre) :
    valueOf s key = none := by
  cases hf : find (keyText key) s with
  | none => rw [valueOf, hf, Option.map_none]
  | some p =>
      obtain ⟨pre', value', hs', -⟩ := find_split hf
      have hnamed : NamedAt s key pre' [] value' := ⟨by rw [hs']; simp [keyText, quoted], by simp [Blank]⟩
      obtain rfl := honce pre' [] value' hnamed
      obtain ⟨c, gap, rfl⟩ := List.exists_cons_of_ne_nil hgap
      have heq := h.1.symm.trans hnamed.1
      simp only [List.append_assoc, List.append_cancel_left_eq, List.cons_append, List.nil_append,
        List.cons.injEq] at heq
      have hc := h.2 c List.mem_cons_self
      rw [heq.1] at hc
      exact absurd hc (by decide)

theorem isInteger_dropWhile {value : CString} {n : Nat} (h : IsInteger value n) :
    ∃ v rest, strtoull 10 (value.dropWhile isBlank) = some (v, rest) ∧ v = min n (2 ^ 64 - 1) := by
  obtain ⟨ws, ds, rest, rfl, hws, hds, rfl, hrest⟩ := h
  obtain ⟨d, ds', rfl⟩ := List.exists_cons_of_ne_nil hds.1
  have hd := hds.2 d List.mem_cons_self
  have hskip : (ws ++ (d :: ds') ++ rest).dropWhile isBlank =
      ws.dropWhile isBlank ++ (d :: ds') ++ rest := by
    have hnot := not_blank_of_isDigit hd
    rw [isBlankOrBreak, Bool.or_eq_false_iff, Bool.or_eq_false_iff] at hnot
    rw [List.append_assoc, List.append_assoc, List.dropWhile_append]
    split_ifs with hemp
    · rw [List.isEmpty_iff.mp hemp, List.nil_append]
      exact List.dropWhile_cons_of_neg (by rw [hnot.1.1]; decide)
    · rfl
  have hspace : ∀ c ∈ ws.dropWhile isBlank, isSpace c = true := fun c hc =>
    isSpace_of_blank (hws c ((List.dropWhile_sublist _).mem hc))
  have hend : ∀ c ∈ rest.head?, c.isDigit = false := by
    intro c hc
    rcases hrest c hc with hb | rfl | rfl
    · exact not_isDigit_of_blank hb
    · decide
    · decide
  exact ⟨_, _, by rw [hskip, strtoull_decimal hspace hds hend], rfl⟩

/-- A 32-bit integer is read when nothing stands before its colon, and not at all otherwise. -/
theorem extractU32_of_hasInteger {s key gap : CString} {n : Nat} (h : HasInteger s key gap n)
    (hn : n < 2 ^ 32) :
    extractU32 s key = if gap = [] then some (UInt32.ofNat n) else none := by
  obtain ⟨pre, value, hnamed, hint, honce⟩ := h
  split_ifs with hgap
  · subst hgap
    obtain ⟨v, rest, hv, rfl⟩ := isInteger_dropWhile hint
    have hmin : min n (2 ^ 64 - 1) = n := by omega
    rw [hmin] at hv
    simp only [extractU32, valueOf_of_named hnamed honce, hv]
    exact if_neg (by omega)
  · rw [extractU32, valueOf_of_gap hnamed hgap honce]

theorem valueOf_of_absent {s key : CString} (h : ∀ pre gap value, ¬ NamedAt s key pre gap value) :
    valueOf s key = none := by
  cases hf : find (keyText key) s with
  | none => rw [valueOf, hf, Option.map_none]
  | some p =>
      obtain ⟨pre, value, hs, -⟩ := find_split hf
      exact absurd ⟨by rw [hs]; simp [keyText, quoted], by simp [Blank]⟩ (h pre [] value)

theorem extractU32_of_absent {s key : CString} (h : MayHaveInteger s key none) :
    extractU32 s key = none := by
  rw [extractU32, valueOf_of_absent h]

/-- The checks of the command pass the text, as the frame `f`. -/
def Accepts (s : CString) (f : Frame) : Prop :=
  parseFrameJson s = .ok f ∧ validateFrame f = .ok ()

theorem convertText_of_accepts {s : CString} {f : Frame} (h : Accepts s f) :
    convertText s = { stdout := messageToJson (toMessage f) ++ ['\n'], exitCode := 0 } := by
  simp only [convertText, h.1, h.2]
  rfl

theorem convertText_of_rejects {s : CString} (h : ∀ f, ¬ Accepts s f) :
    (convertText s).exitCode = 1 ∧ (convertText s).stdout = [] := by
  unfold convertText
  cases hp : parseFrameJson s with
  | error e => exact ⟨rfl, rfl⟩
  | ok f =>
      cases hv : validateFrame f with
      | error e => exact ⟨by simp only [hv], by simp only [hv]⟩
      | ok u => exact absurd ⟨hp, hv⟩ (h f)

/-- A text whose identifier is `n` and whose checksum is `c` becomes a message that carries
these numbers, both in range, or it is rejected; an absent checksum counts as zero. -/
structure NeverAliases (s : CString) (n : Nat) (c : Option Nat) : Prop where
  carries : ∀ f, Accepts s f → n ≤ 63 ∧ c.getD 0 ≤ 255 ∧
    (toMessage f).id = toCString n ∧
    (toMessage f).metaData.lookup checksumKey = some (toCString (c.getD 0)) ∧
    convertText s = { stdout := messageToJson (toMessage f) ++ ['\n'], exitCode := 0 }
  rejects : (∀ f, ¬ Accepts s f) → (convertText s).exitCode = 1 ∧ (convertText s).stdout = []

def payloadOf (s : CString) : Payload := (extractBytes s "data".toList).getD []

/-- What the checks find wrong with a text whose identifier is `n`: the white space before
its colon, or something about the frame with the low byte of `n` as its identifier. -/
def Objectionable (s gap : CString) (n : Nat) : Prop :=
  gap ≠ [] ∨ 63 < n % 256 ∨ payloadOf s = [] ∨ 8 < (payloadOf s).length ∨
    ((n % 256 = 0x3C ∨ n % 256 = 0x3D) ∧ extractU32 s "checksum_type".toList = some 1)

theorem toUInt8_ofNat_toNat {n : Nat} (hn : n < 2 ^ 32) :
    (UInt32.ofNat n).toUInt8.toNat = n % 256 := by
  rw [UInt32.toNat_toUInt8, UInt32.toNat_ofNat_of_lt' hn]

theorem isDiagnostic_iff (id : UInt8) :
    isDiagnostic id = true ↔ id.toNat = 0x3C ∨ id.toNat = 0x3D := by
  simp [isDiagnostic, kLINDiagRequestID, kLINDiagResponseID, ← UInt8.toNat_inj]

def frameOf (s : CString) (n : Nat) : Frame :=
  { id := (UInt32.ofNat n).toUInt8
    data := payloadOf s
    checksumType := if extractU32 s "checksum_type".toList = some 1 then .enhanced else .classic
    checksum := ((extractU32 s "checksum".toList).map UInt32.toUInt8).getD 0 }

theorem parseFrameJson_of_id {s : CString} {id : UInt32}
    (hid : extractU32 s "id".toList = some id) : parseFrameJson s = .ok (frameOf s id.toNat) := by
  rw [parseFrameJson, hid]
  simp only [frameOf, payloadOf, UInt32.ofNat_toNat, Except.ok.injEq, Frame.mk.injEq, true_and]
  split
  · rename_i h
    rw [if_pos h]
  · rename_i h
    rw [if_neg h]

theorem parseFrameJson_eq {s gap : CString} {n : Nat} (hid : HasInteger s "id".toList gap n)
    (hn : n < 2 ^ 32) (hgap : gap = []) : parseFrameJson s = .ok (frameOf s n) := by
  have hread := extractU32_of_hasInteger hid hn
  rw [if_pos hgap] at hread
  rw [parseFrameJson_of_id hread, UInt32.toNat_ofNat_of_lt' hn]

theorem validateFrame_frameOf {s : CString} {n : Nat} (hn : n < 2 ^ 32) :
    validateFrame (frameOf s n) = .ok () ↔ ¬ Objectionable s [] n := by
  have hval := toUInt8_ofNat_toNat hn
  rw [validateFrame_ok_iff, isDiagnostic_iff, UInt8.le_iff_toNat_le]
  simp only [frameOf, hval, Objectionable, not_or, not_and, ne_eq, not_true, not_false_eq_true,
    true_and, Nat.not_lt, kLINMaxDataLen]
  simp only [ite_eq_right_iff, reduceCtorEq, imp_false]
  exact Iff.rfl

theorem accepts_iff {s gap : CString} {n : Nat} (hid : HasInteger s "id".toList gap n)
    (hn : n < 2 ^ 32) (f : Frame) :
    Accepts s f ↔ ¬ Objectionable s gap n ∧ f = frameOf s n := by
  by_cases hgap : gap = []
  · subst hgap
    rw [Accepts, parseFrameJson_eq hid hn rfl, ← validateFrame_frameOf hn]
    constructor
    · rintro ⟨hf, hv⟩
      obtain rfl := Except.ok.inj hf
      exact ⟨hv, rfl⟩
    · rintro ⟨hv, rfl⟩
      exact ⟨rfl, hv⟩
  · have herror : ∀ f, parseFrameJson s ≠ .ok f := by
      intro f
      rw [parseFrameJson, extractU32_of_hasInteger hid hn, if_neg hgap]
      exact nofun
    exact ⟨fun h => absurd h.1 (herror f), fun h => absurd (.inl hgap) h.1⟩

/-- The checksum a message carries for the one in the text: its low byte when nothing stands
before its colon, and zero otherwise. -/
def carriedChecksum : Option (CString × Nat) → Nat
  | none => 0
  | some (gap, c) => if gap = [] then c % 256 else 0

theorem checksum_toMessage {s : CString} {n : Nat} {c : Option (CString × Nat)}
    (hcs : MayHaveInteger s "checksum".toList c) (hc : ∀ x ∈ c, x.2 < 2 ^ 32) :
    (toMessage (frameOf s n)).metaData.lookup checksumKey =
      some (toCString (carriedChecksum c)) := by
  have hlookup : (toMessage (frameOf s n)).metaData.lookup checksumKey =
      some (toCString (frameOf s n).checksum.toNat) := AList.lookup_insert _
  have hchecksum : (frameOf s n).checksum =
      ((extractU32 s "checksum".toList).map UInt32.toUInt8).getD 0 := rfl
  rw [hlookup, hchecksum]
  cases c with
  | none =>
      rw [extractU32_of_absent hcs]
      rfl
  | some x =>
      obtain ⟨gap, v⟩ := x
      rw [extractU32_of_hasInteger hcs (hc _ rfl), carriedChecksum]
      split_ifs
      · exact congrArg (some ∘ toCString) (toUInt8_ofNat_toNat (hc _ rfl))
      · rfl

/-- The checksum is in range and carried as it is. -/
def ChecksumIntact (c : Option (CString × Nat)) : Prop :=
  ∀ gap v, c = some (gap, v) → v = 0 ∨ gap = [] ∧ v ≤ 255

theorem checksumIntact_iff (c : Option (CString × Nat)) : ChecksumIntact c ↔
    (c.map Prod.snd).getD 0 ≤ 255 ∧ carriedChecksum c = (c.map Prod.snd).getD 0 := by
  cases c with
  | none => simp [ChecksumIntact, carriedChecksum]
  | some x =>
      obtain ⟨gap, v⟩ := x
      by_cases hgap : gap = []
      · simp only [ChecksumIntact, carriedChecksum, hgap, Option.some.injEq, Prod.mk.injEq,
          Option.map_some, Option.getD_some, if_true]
        constructor
        · intro h
          have hv := h [] v ⟨rfl, rfl⟩
          omega
        · rintro ⟨hle, -⟩ g w ⟨rfl, rfl⟩
          exact .inr ⟨rfl, hle⟩
      · simp only [ChecksumIntact, carriedChecksum, if_neg hgap, Option.some.injEq,
          Prod.mk.injEq, Option.map_some, Option.getD_some]
        constructor
        · intro h
          obtain hv | ⟨hg, -⟩ := h gap v ⟨rfl, rfl⟩
          · omega
          · exact absurd hg hgap
        · rintro ⟨-, hv⟩ g w ⟨rfl, rfl⟩
          exact .inl hv.symm

/-- No number is aliased in a text exactly when the checks object to it anyway or its numbers
are in range, the checksum one that is read at all or zero. -/
theorem convert_exact_iff {s gap : CString} {n : Nat} {c : Option (CString × Nat)}
    (hid : HasInteger s "id".toList gap n) (hn : n < 2 ^ 32)
    (hcs : MayHaveInteger s "checksum".toList c) (hc : ∀ x ∈ c, x.2 < 2 ^ 32) :
    NeverAliases s n (c.map Prod.snd) ↔
      (Objectionable s gap n ∨ n ≤ 63 ∧ ChecksumIntact c) := by
  have hcarried := checksum_toMessage (n := n) hcs hc
  constructor
  · intro h
    by_contra hnot
    obtain ⟨hobj, hrange⟩ := not_or.mp hnot
    obtain ⟨hn63, hle, -, hlookup, -⟩ := h.carries _ ((accepts_iff hid hn _).mpr ⟨hobj, rfl⟩)
    rw [hcarried, Option.some.injEq, toCString_inj] at hlookup
    exact hrange ⟨hn63, (checksumIntact_iff c).mpr ⟨hle, hlookup⟩⟩
  · intro h
    refine ⟨fun f hf => ?_, convertText_of_rejects⟩
    obtain ⟨hobj, rfl⟩ := (accepts_iff hid hn f).mp hf
    obtain ⟨hn63, hintact⟩ := h.resolve_left hobj
    obtain ⟨hle, heq⟩ := (checksumIntact_iff c).mp hintact
    have hid' := toUInt8_ofNat_toNat hn
    rw [Nat.mod_eq_of_lt (by omega)] at hid'
    exact ⟨hn63, hle, congrArg toCString hid', by rw [hcarried, heq], convertText_of_accepts hf⟩

theorem named_at_place {s key pre gap value : CString} (h : NamedAt s key pre gap value) :
    pre.length ∈ List.range s.length ∧ pre = s.take pre.length ∧
      (quoted key).isPrefixOf (s.drop pre.length) = true := by
  obtain ⟨hs, -⟩ := h
  have hs' : s = pre ++ (quoted key ++ (gap ++ ':' :: value)) := by
    rw [hs, List.append_assoc, List.append_assoc]
  refine ⟨?_, ?_, ?_⟩
  · rw [List.mem_range, hs']
    simp [quoted]
  · rw [hs', List.take_left]
  · rw [hs', List.drop_left]
    exact List.isPrefixOf_iff_prefix.mpr (List.prefix_append _ _)

/-- A key that is quoted at one place only is named at no other. -/
theorem once_of_place {s key pre : CString}
    (h : ∀ i ∈ List.range s.length, (quoted key).isPrefixOf (s.drop i) = true → s.take i = pre) :
    ∀ pre' gap' value', NamedAt s key pre' gap' value' → pre' = pre := by
  intro pre' gap' value' hn
  obtain ⟨hlen, hpre, hkey⟩ := named_at_place hn
  rw [hpre]
  exact h _ hlen hkey

theorem absent_of_places {s key : CString}
    (h : ∀ i ∈ List.range s.length, (quoted key).isPrefixOf (s.drop i) = false) :
    MayHaveInteger s key none := by
  intro pre gap value hn
  obtain ⟨hlen, -, hkey⟩ := named_at_place hn
  rw [h _ hlen] at hkey
  cases hkey

def wideIdText : CString := "\x7b\"id\":261,\"data\":[1]\x7d".toList

theorem wideIdText_id : HasInteger wideIdText "id".toList [] 261 :=
  ⟨['\x7b'], "261,\"data\":[1]\x7d".toList, ⟨by decide +kernel, by simp [Blank]⟩,
    ⟨[], "261".toList, ",\"data\":[1]\x7d".toList, by decide +kernel, by simp [Blank],
      by decide, by decide +kernel, by simp⟩,
    once_of_place (by decide +kernel)⟩

theorem wideIdText_checksum : MayHaveInteger wideIdText "checksum".toList none :=
  absent_of_places (by decide +kernel)

theorem convert_exact_iff_wide : NeverAliases wideIdText 261 none ↔
    (Objectionable wideIdText [] 261 ∨ 261 ≤ 63 ∧ ChecksumIntact none) :=
  convert_exact_iff wideIdText_id (by decide) wideIdText_checksum (by simp)

/-- The identifier 261 is taken for 5. -/
theorem not_convert_exact : ¬ ∀ (s gap : CString) (n : Nat) (c : Option (CString × Nat)),
    HasInteger s "id".toList gap n → n < 2 ^ 32 → MayHaveInteger s "checksum".toList c →
    (∀ x ∈ c, x.2 < 2 ^ 32) → NeverAliases s n (c.map Prod.snd) := by
  intro h
  have haliases := h wideIdText [] 261 none wideIdText_id (by decide) wideIdText_checksum (by simp)
  have hdata : payloadOf wideIdText = [1] := by decide +kernel
  have hobj : ¬ Objectionable wideIdText [] 261 := by
    rw [Objectionable, hdata]
    simp
  have haccepts := (accepts_iff wideIdText_id (by decide) _).mpr ⟨hobj, rfl⟩
  exact absurd (haliases.carries _ haccepts).1 (by decide)

end CppLin.Cli
