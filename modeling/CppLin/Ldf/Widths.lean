import CppLin.Ldf.Numerals

/-!
The width a signal line declares: the text up to the first comma, read as a number of 64 bits,
narrowed to an `int` and only then brought into the range from 0 to 64.
-/
namespace CppLin.Ldf
open Bytes CNumber CText

/-- The text is a decimal or a hexadecimal integer, a sign before it or none. -/
inductive IsInteger : CString → Int → Prop
  | decimal {sign neg ds} (hsign : IsSign sign neg) (hds : IsDecimal ds) :
      IsInteger (sign ++ ds)
        (if neg then -(Nat.ofDigitChars 10 ds 0 : Int) else Nat.ofDigitChars 10 ds 0)
  | hex {sign neg x hs} (hsign : IsSign sign neg) (hx : x = 'x' ∨ x = 'X')
      (hhs : IsHexadecimal hs) :
      IsInteger (sign ++ '0' :: x :: hs)
        (if neg then -(numeralVal 16 hs : Int) else numeralVal 16 hs)

/-- After its colon the line has this text up to the first comma, margins around it left out. -/
def DeclaresWidth (line token : CString) : Prop :=
  ∃ before ws ws' rest, line = before ++ ':' :: (ws ++ token ++ ws' ++ ',' :: rest) ∧
    ':' ∉ before ∧ (∀ c ∈ ws, isMargin c = true) ∧ ∀ c ∈ ws', isMargin c = true

/-- A sign stands before the prefix of a hexadecimal numeral. -/
def signedPrefix : CString → Bool
  | c :: '0' :: x :: _ => (c = '+' || c = '-') && (x = 'x' || x = 'X')
  | _ => false

/-- The low 32 bits of a number, taken with their sign, are on the same side of the range from 0
to 64 as the number itself, or it is negative and out of 64 bits. -/
def NarrowsAlike (n : Int) : Prop :=
  if n ≤ 0 then n < -2 ^ 63 ∨ n.bmod (2 ^ 32) ≤ 0
  else if n < 64 then True
  else n < 2 ^ 63 ∧ 64 ≤ n.bmod (2 ^ 32)

instance (n : Int) : Decidable (NarrowsAlike n) :=
  inferInstanceAs (Decidable (if n ≤ 0 then _ else if n < 64 then _ else _))

/-- Where the width is kept: behind a sign the prefix ends the numeral, at its zero. -/
def WidthKept (token : CString) (n : Int) : Prop :=
  if signedPrefix token then n ≤ 0 else NarrowsAlike n

instance (token : CString) (n : Int) : Decidable (WidthKept token n) :=
  inferInstanceAs (Decidable (if signedPrefix token then _ else _))

theorem narrowsAlike_of_int {n : Int} (hlo : -2 ^ 31 ≤ n) (hhi : n < 2 ^ 31) :
    NarrowsAlike n := by
  have hself : n.bmod (2 ^ 32) = n := Int.bmod_eq_of_le (by omega) (by omega)
  unfold NarrowsAlike
  rw [hself]
  split_ifs <;> omega

theorem clampWidth_toInt (w : Int32) : (clampWidth w).toInt = min 64 (max 0 w.toInt) := by
  unfold clampWidth
  split_ifs with h0 h64
  · have hneg : w.toInt < 0 := Int32.lt_iff_toInt_lt.mp h0
    change (0 : Int) = _
    omega
  · have hbig : 64 < w.toInt := Int32.lt_iff_toInt_lt.mp h64
    change (64 : Int) = _
    omega
  · have hlow : 0 ≤ w.toInt := Int32.le_iff_toInt_le.mp (Int32.not_lt.mp h0)
    have hhigh : w.toInt ≤ 64 := Int32.le_iff_toInt_le.mp (Int32.not_lt.mp h64)
    omega

theorem clamp_narrowed_iff {n : Int} (hlo : -2 ^ 63 ≤ n) (hhi : n < 2 ^ 63) :
    min 64 (max 0 (n.bmod (2 ^ 32))) = min 64 (max 0 n) ↔ NarrowsAlike n := by
  unfold NarrowsAlike
  split_ifs with h0 h64
  · omega
  · have hself : n.bmod (2 ^ 32) = n := Int.bmod_eq_of_le (by omega) (by omega)
    rw [hself]
    exact iff_of_true rfl trivial
  · omega

/-- A number out of 64 bits is not converted, and the width stays zero. -/
theorem clamp_zero_iff {n : Int} (hout : n < -2 ^ 63 ∨ 2 ^ 63 ≤ n) :
    0 = min 64 (max 0 n) ↔ NarrowsAlike n := by
  unfold NarrowsAlike
  split_ifs <;> omega

/-! The text of the line. -/

section
variable {x : Char} (hx : isMargin x = false) (a b : CString)
include hx

theorem dropWhile_margin_append :
    (a ++ x :: b).dropWhile isMargin = a.dropWhile isMargin ++ x :: b := by
  rw [List.dropWhile_append]
  split_ifs with h
  · rw [List.isEmpty_iff.mp h, List.dropWhile_cons_of_neg (by rw [hx]; decide), List.nil_append]
  · rfl

/-- A character that is no margin holds what is before it against `trim`. -/
theorem trim_keeps : ∃ b', trim (a ++ x :: b) = a.dropWhile isMargin ++ x :: b' := by
  have hrev := dropWhile_margin_append hx b.reverse (a.dropWhile isMargin).reverse
  refine ⟨(b.reverse.dropWhile isMargin).reverse, ?_⟩
  rw [trim, dropWhile_margin_append hx, List.rdropWhile]
  have hshape : (a.dropWhile isMargin ++ x :: b).reverse =
      b.reverse ++ x :: (a.dropWhile isMargin).reverse := by simp
  rw [hshape, hrev]
  simp

theorem stripSemicolon_keeps (hsemi : x ≠ ';') :
    ∃ b', stripSemicolon (a ++ x :: b) = a.dropWhile isMargin ++ x :: b' := by
  obtain ⟨b₁, h₁⟩ := trim_keeps hx a b
  have hcut : ∃ b₂, (if (trim (a ++ x :: b)).getLast? = some ';'
      then (trim (a ++ x :: b)).dropLast else trim (a ++ x :: b)) =
      a.dropWhile isMargin ++ x :: b₂ := by
    rw [h₁]
    split_ifs with hlast
    · refine ⟨b₁.dropLast, ?_⟩
      cases b₁ with
      | nil =>
          rw [List.getLast?_append_of_ne_nil _ (List.cons_ne_nil _ _)] at hlast
          exact absurd (Option.some.inj hlast) hsemi
      | cons y b₁ =>
          rw [List.dropLast_append_of_ne_nil (List.cons_ne_nil _ _)]
          rfl
    · exact ⟨b₁, rfl⟩
  obtain ⟨b₂, h₂⟩ := hcut
  obtain ⟨b₃, h₃⟩ := trim_keeps hx (a.dropWhile isMargin) b₂
  refine ⟨b₃, ?_⟩
  rw [stripSemicolon, h₂, h₃, List.dropWhile_idempotent]

end

/-- A text that is read as it stands: no margin, no separator at its ends or in it. -/
structure Token (s : CString) : Prop where
  trimmed : Trimmed s
  nonempty : s ≠ []
  comma : ',' ∉ s
  last : s.getLast? ≠ some ';'

theorem token_signed {sign : CString} {neg : Bool} (hsign : IsSign sign neg) {w : CString}
    (hw : Word w) : Token (sign ++ w) := by
  have hlast : (sign ++ w).getLast? = w.getLast? :=
    List.getLast?_append_of_ne_nil _ hw.nonempty
  refine ⟨⟨?_, ?_⟩, ?_, ?_, ?_⟩
  · intro c hc
    cases hsign with
    | none => exact hw.trimmed.head c hc
    | plus => obtain rfl := Option.some.inj hc; decide
    | minus => obtain rfl := Option.some.inj hc; decide
  · rw [hlast]
    exact hw.trimmed.last
  · exact List.append_ne_nil_of_right_ne_nil _ hw.nonempty
  · rw [List.mem_append]
    refine not_or.mpr ⟨?_, hw.not_mem (by decide)⟩
    cases hsign <;> decide
  · rw [hlast]
    exact fun he => hw.not_mem (by decide) (List.mem_of_mem_getLast? he)

theorem IsInteger.token {s : CString} {n : Int} (h : IsInteger s n) : Token s := by
  cases h with
  | decimal hsign hds => exact token_signed hsign (word_decimal hds)
  | hex hsign hx hhs => exact token_signed hsign (word_prefixed hx hhs)

theorem first_field {line token : CString} (h : DeclaresWidth line token) (ht : Token token) :
    ∃ colon, findChar ':' (stripSemicolon line) = some colon ∧
      ∃ fields, splitFields (trim ((stripSemicolon line).drop (colon + 1))) = token :: fields := by
  obtain ⟨before, ws, ws', rest, rfl, hcolon, hws, hws'⟩ := h
  have hnocomma : ∀ {m : CString}, (∀ c ∈ m, isMargin c = true) → ',' ∉ m := by
    intro m hm hmem
    exact absurd (hm _ hmem) (by decide)
  have hline : before ++ ':' :: (ws ++ token ++ ws' ++ ',' :: rest) =
      (before ++ ':' :: (ws ++ token ++ ws')) ++ ',' :: rest := by simp
  obtain ⟨rest₁, h₁⟩ := stripSemicolon_keeps (x := ',') (by decide)
    (before ++ ':' :: (ws ++ token ++ ws')) rest (by decide)
  rw [dropWhile_margin_append (x := ':') (by decide)] at h₁
  rw [hline, h₁, List.append_assoc, List.cons_append]
  have hbefore : ':' ∉ before.dropWhile isMargin := fun hmem =>
    hcolon (List.dropWhile_suffix _ |>.subset hmem)
  refine ⟨_, findChar_append hbefore _, ?_⟩
  obtain ⟨rest₂, h₂⟩ := trim_keeps (x := ',') (by decide) (ws ++ token ++ ws') rest₁
  rw [← List.drop_drop, List.drop_left, List.drop_one, List.tail_cons, h₂]
  have hfield : ',' ∉ (ws ++ token ++ ws').dropWhile isMargin := by
    intro hmem
    have hmem' := List.dropWhile_suffix isMargin |>.subset hmem
    simp only [List.mem_append] at hmem'
    rcases hmem' with (hmem' | hmem') | hmem'
    · exact hnocomma hws hmem'
    · exact ht.comma hmem'
    · exact hnocomma hws' hmem'
  have htrim : trim ((ws ++ token ++ ws').dropWhile isMargin) = token := by
    have hpad := trim_pad hws hws' token
    rw [trim_of_trimmed ht.trimmed, trim] at hpad
    rw [trim, List.dropWhile_idempotent, hpad]
  rw [splitFields, getlines_cons hfield, List.map_cons, htrim]
  exact ⟨_, rfl⟩

theorem stored_width {wild : Binary64 → UInt64} {line token : CString} {sig : Signal}
    (h : DeclaresWidth line token) (ht : Token token) (hsig : readSignal wild line = some sig) :
    (∀ n, parseInt token = .ok n → sig.bitWidth.toInt = min 64 (max 0 (n.bmod (2 ^ 32)))) ∧
      ∀ e, parseInt token = .error e → sig.bitWidth.toInt = 0 := by
  obtain ⟨colon, hcolon, fields, hfields⟩ := first_field h ht
  simp only [readSignal, hcolon, hfields] at hsig
  rcases fields with _ | ⟨init, _ | ⟨publisher, subscribers⟩⟩
  · cases hsig
  · cases hsig
  obtain rfl := Option.some.inj hsig
  constructor
  · intro n hn
    simp only [hn, clampWidth_toInt, Int32.toInt_ofInt]
    rfl
  · intro e he
    simp only [he]
    rfl

/-! What the number is read as. -/

theorem not_isHex_cons {c : Char} (hc : c ≠ '0') (s : CString) : isHex (c :: s) = false := by
  have hne : ∀ k : CString, (c :: s).take 2 ≠ '0' :: k := by
    intro k he
    rw [List.take_succ_cons] at he
    exact hc (List.cons.inj he).1
  have hlower : (c :: s).take 2 ≠ "0x".toList := hne ['x']
  have hupper : (c :: s).take 2 ≠ "0X".toList := hne ['X']
  simp only [isHex, hlower, hupper, decide_false, Bool.or_self, Bool.and_false]

theorem parseInt_decimal {sign ds : CString} {neg : Bool} (hsign : IsSign sign neg)
    (hds : IsDecimal ds) {v : Int}
    (hv : v = if neg then -(Nat.ofDigitChars 10 ds 0 : Int) else Nat.ofDigitChars 10 ds 0) :
    parseInt (sign ++ ds) = if v < -2 ^ 63 ∨ 2 ^ 63 ≤ v then .error .outOfRange else .ok v := by
  have ht := token_signed hsign (word_decimal hds)
  have hhex : isHex (sign ++ ds) = false := by
    cases hsign with
    | none => exact not_isHex_decimal hds
    | plus => exact not_isHex_cons (by decide) ds
    | minus => exact not_isHex_cons (by decide) ds
  have hscan : scanNumeral 10 ([] ++ sign ++ ds ++ []) = _ :=
    scanNumeral_signed (by simp) hsign hds (by simp)
  rw [List.nil_append, List.append_nil] at hscan
  rw [parseInt, stripSemicolon_of_trimmed ht.trimmed ht.last]
  simp only [hhex, Bool.false_eq_true, if_false]
  exact stoll_of_scan hscan hv

theorem parseInt_hex {x : Char} (hx : x = 'x' ∨ x = 'X') {hs : CString} (hhs : IsHexadecimal hs) :
    parseInt ('0' :: x :: hs) =
      if (numeralVal 16 hs : Int) < -2 ^ 63 ∨ 2 ^ 63 ≤ (numeralVal 16 hs : Int) then
        .error .outOfRange
      else .ok (numeralVal 16 hs) := by
  simp only [parseInt, stripSemicolon_word (word_prefixed hx hhs), isHex_prefixed hx hhs, if_true]
  exact stoll_of_scan (scanNumeral_hex hhs) rfl

/-- Behind a sign the numeral is taken for a decimal one and ends at the `x`. -/
theorem parseInt_signedPrefix {c : Char} {neg : Bool} (hsign : IsSign [c] neg) {x : Char}
    (hx : x = 'x' ∨ x = 'X') {hs : CString} (hhs : IsHexadecimal hs) :
    parseInt (c :: '0' :: x :: hs) = .ok 0 := by
  have ht := token_signed hsign (word_prefixed hx hhs)
  have hc : c ≠ '0' := by
    cases hsign <;> decide
  have hdigit : x.isDigit = false := by
    rcases hx with rfl | rfl <;> decide
  have hstop : ∀ y ∈ (x :: hs).head?, y.isDigit = false := by
    rintro y ⟨⟩
    exact hdigit
  have hscan : scanNumeral 10 ([] ++ [c] ++ ['0'] ++ (x :: hs)) = _ :=
    scanNumeral_signed (by simp) hsign (by decide) hstop
  have hzero : (0 : Int) = if neg then -(Nat.ofDigitChars 10 ['0'] 0 : Int)
      else Nat.ofDigitChars 10 ['0'] 0 := by
    cases neg <;> rfl
  have hread := stoll_of_scan hscan hzero
  change parseInt ([c] ++ '0' :: x :: hs) = _
  rw [parseInt, stripSemicolon_of_trimmed ht.trimmed ht.last]
  simp only [List.singleton_append, not_isHex_cons hc, Bool.false_eq_true, if_false]
  exact hread

/-- A token without a signed prefix is read as its number, or out of 64 bits as none. -/
theorem parseInt_plain {token : CString} {n : Int} (h : IsInteger token n)
    (hplain : signedPrefix token = false) :
    parseInt token = if n < -2 ^ 63 ∨ 2 ^ 63 ≤ n then .error .outOfRange else .ok n := by
  cases h with
  | decimal hsign hds => exact parseInt_decimal hsign hds rfl
  | @hex sign neg x hs hsign hx hhs =>
      cases hsign with
      | none => exact parseInt_hex hx hhs
      | plus => rcases hx with rfl | rfl <;> cases hplain
      | minus => rcases hx with rfl | rfl <;> cases hplain

theorem mem_of_signedPrefix {s : CString} (h : signedPrefix s = true) :
    ∃ x ∈ s, x.isDigit = false ∧ x ≠ '+' ∧ x ≠ '-' := by
  unfold signedPrefix at h
  split at h
  case h_1 c x t =>
    simp only [Bool.and_eq_true, Bool.or_eq_true, decide_eq_true_eq] at h
    refine ⟨x, by simp, ?_⟩
    rcases h.2 with rfl | rfl <;> decide
  case h_2 => cases h

theorem parseInt_signed {token : CString} {n : Int} (h : IsInteger token n)
    (hsigned : signedPrefix token = true) : parseInt token = .ok 0 := by
  cases h with
  | @decimal sign neg ds hsign hds =>
      obtain ⟨x, hmem, hdigit, hplus, hminus⟩ := mem_of_signedPrefix hsigned
      rcases List.mem_append.mp hmem with hmem | hmem
      · cases hsign with
        | none => cases hmem
        | plus => exact absurd (List.mem_singleton.mp hmem) hplus
        | minus => exact absurd (List.mem_singleton.mp hmem) hminus
      · rw [hds.2 x hmem] at hdigit
        cases hdigit
  | @hex sign neg x hs hsign hx hhs =>
      cases hsign with
      | none => rcases hx with rfl | rfl <;> cases hsigned
      | plus => exact parseInt_signedPrefix .plus hx hhs
      | minus => exact parseInt_signedPrefix .minus hx hhs

/-- The width a signal line declares is stored clamped to the range from 0 to 64 if and only if
it is kept so by the narrowing before the clamp. -/
theorem width_clamped_iff {wild : Binary64 → UInt64} {line token : CString} {n : Int} {sig : Signal}
    (hline : DeclaresWidth line token) (hn : IsInteger token n)
    (hsig : readSignal wild line = some sig) (db : DB) :
    ((storeSignal db sig).signal sig.name).map (·.bitWidth.toInt) = some (min 64 (max 0 n)) ↔
      WidthKept token n := by
  have hstored : (storeSignal db sig).signal sig.name = some sig := AList.lookup_insert _
  obtain ⟨hread, hnone⟩ := stored_width hline hn.token hsig
  rw [hstored, Option.map_some, Option.some.injEq]
  cases hprefix : signedPrefix token with
  | true =>
      rw [hread 0 (parseInt_signed hn hprefix), WidthKept, hprefix, if_pos rfl]
      change min 64 (max 0 0) = _ ↔ _
      omega
  | false =>
      have hparse := parseInt_plain hn hprefix
      rw [WidthKept, hprefix, if_neg Bool.false_ne_true]
      split_ifs at hparse with hout
      · rw [hnone _ hparse]
        exact clamp_zero_iff hout
      · rw [hread n hparse]
        exact clamp_narrowed_iff (by omega) (by omega)

/-- A width that fits an `int`. -/
theorem width_clamped_iff_int : ∃ sig,
    readSignal (fun _ => 0) "Sig1: 999999999, 0, NodeA;".toList = some sig ∧
      ((storeSignal {} sig).signal sig.name).map (·.bitWidth.toInt) = some 64 := by
  have hreads : (readSignal (fun _ => 0) "Sig1: 999999999, 0, NodeA;".toList).isSome := by
    decide +kernel
  obtain ⟨sig, hsig⟩ := Option.isSome_iff_exists.mp hreads
  have hline : DeclaresWidth "Sig1: 999999999, 0, NodeA;".toList "999999999".toList :=
    ⟨"Sig1".toList, [' '], [], " 0, NodeA;".toList, rfl, by decide, by simp [isMargin],
      by simp⟩
  have hn : IsInteger "999999999".toList 999999999 := .decimal .none (by decide)
  have hkept : WidthKept "999999999".toList 999999999 := by
    rw [WidthKept, if_neg (by decide)]
    exact narrowsAlike_of_int (by decide) (by decide)
  exact ⟨sig, hsig, (width_clamped_iff hline hn hsig {}).mpr hkept⟩

/-- A width of 2^32 + 8 bits is stored as 8. -/
theorem not_width_clamped : ¬ ∀ (wild : Binary64 → UInt64) (line token : CString) (n : Int)
    (sig : Signal) (db : DB), DeclaresWidth line token → IsInteger token n →
    readSignal wild line = some sig →
    ((storeSignal db sig).signal sig.name).map (·.bitWidth.toInt) = some (min 64 (max 0 n)) := by
  intro h
  have hreads : (readSignal (fun _ => 0) "Sig1: 4294967304, 0, NodeA;".toList).any
      fun sig => ((storeSignal {} sig).signal sig.name).map (·.bitWidth.toInt) = some 8 := by
    decide +kernel
  obtain ⟨sig, hsig, hwidth⟩ := (Option.any_eq_true _ _).mp hreads
  have hline : DeclaresWidth "Sig1: 4294967304, 0, NodeA;".toList "4294967304".toList :=
    ⟨"Sig1".toList, [' '], [], " 0, NodeA;".toList, rfl, by decide, by simp [isMargin],
      by simp⟩
  have hn : IsInteger "4294967304".toList 4294967304 := .decimal .none (by decide)
  have hclaimed := h _ _ _ _ sig {} hline hn hsig
  rw [of_decide_eq_true hwidth] at hclaimed
  exact absurd hclaimed (by decide)

end CppLin.Ldf
