import CppLin.Lib.Bytes

/-!
The conversions of the C library from text to integers, in the "C" locale:
`strtoull`, and `std::stoull` and `std::stoll`, which throw where it reports.
-/
namespace CppLin.CNumber
open Bytes

/-- `isspace`: the blank and the control characters `\t \n \v \f \r`. -/
def isSpace (c : Char) : Bool := c == ' ' || (9 ≤ c.toNat && c.toNat ≤ 13)

/-- The value of a byte as a digit, 36 when it is neither a digit nor a letter. -/
def digitVal (c : Char) : Nat :=
  if c.isDigit then c.toNat - 48
  else if c.isLower then c.toNat - 87
  else if c.isUpper then c.toNat - 55
  else 36

def isDigitIn (base : Nat) (c : Char) : Bool := digitVal c < base

def numeralVal (base : Nat) (ds : CString) : Nat := ds.foldl (fun v c => base * v + digitVal c) 0

/-- A converted subject sequence; `rest` is where `endptr` points. -/
structure Numeral where
  neg : Bool
  magnitude : Nat
  rest : CString
  deriving DecidableEq, Repr

def skipSign : CString → Bool × CString
  | '-' :: s => (true, s)
  | '+' :: s => (false, s)
  | s => (false, s)

/-- In base 16 the prefix `0x` is skipped when a digit follows it. -/
def skipPrefix (base : Nat) : CString → CString
  | '0' :: x :: c :: s =>
      if base = 16 ∧ (x = 'x' ∨ x = 'X') ∧ isDigitIn 16 c then c :: s else '0' :: x :: c :: s
  | s => s

/-- White space, an optional sign, an optional prefix and the longest run of digits;
`none` when no digit is found, and then nothing is converted. -/
def scanNumeral (base : Nat) (s : CString) : Option Numeral :=
  let (neg, s) := skipSign (s.dropWhile isSpace)
  let s := skipPrefix base s
  let ds := s.takeWhile (isDigitIn base)
  if ds = [] then none
  else some { neg, magnitude := numeralVal base ds, rest := s.dropWhile (isDigitIn base) }

/-- The value `strtoull` returns and the end pointer; a value past the range saturates. -/
def strtoull (base : Nat) (s : CString) : Option (Nat × CString) :=
  (scanNumeral base s).map fun n =>
    (if 2 ^ 64 ≤ n.magnitude then 2 ^ 64 - 1
      else if n.neg then (2 ^ 64 - n.magnitude) % 2 ^ 64 else n.magnitude, n.rest)

inductive StoError where
  | invalidArgument
  | outOfRange
  deriving DecidableEq, Repr

/-- `std::stoull`: a minus sign negates modulo 2^64. -/
def stoull (base : Nat) (s : CString) : Except StoError Nat :=
  match scanNumeral base s with
  | none => .error .invalidArgument
  | some n =>
      if 2 ^ 64 ≤ n.magnitude then .error .outOfRange
      else .ok (if n.neg then (2 ^ 64 - n.magnitude) % 2 ^ 64 else n.magnitude)

def stoll (base : Nat) (s : CString) : Except StoError Int :=
  match scanNumeral base s with
  | none => .error .invalidArgument
  | some n =>
      let v : Int := if n.neg then -(n.magnitude : Int) else n.magnitude
      if v < -2 ^ 63 ∨ 2 ^ 63 ≤ v then .error .outOfRange else .ok v

/-- A text of decimal digits, at least one. -/
def IsDecimal (s : CString) : Prop := s ≠ [] ∧ ∀ c ∈ s, c.isDigit = true

instance (s : CString) : Decidable (IsDecimal s) :=
  decidable_of_iff (s ≠ [] ∧ s.all Char.isDigit = true) (by simp [IsDecimal])

theorem isDigit_bounds {c : Char} (h : c.isDigit = true) : 48 ≤ c.toNat ∧ c.toNat ≤ 57 :=
  Char.isDigit_iff_toNat.mp h

theorem digitVal_of_isDigit {c : Char} (h : c.isDigit = true) : digitVal c = c.toNat - 48 := by
  rw [digitVal, if_pos h]

theorem ten_le_digitVal {c : Char} (h : c.isDigit = false) : 10 ≤ digitVal c := by
  unfold digitVal
  rw [if_neg (by rw [h]; decide)]
  split_ifs with hl hu
  · have h97 : 97 ≤ c.val := by simp [Char.isLower] at hl; exact hl.1
    have := UInt32.le_iff_toNat_le.mp h97
    change 97 ≤ c.toNat at this
    omega
  · have h65 : 65 ≤ c.val := by simp [Char.isUpper] at hu; exact hu.1
    have := UInt32.le_iff_toNat_le.mp h65
    change 65 ≤ c.toNat at this
    omega
  · omega

@[simp] theorem isDigitIn_ten : isDigitIn 10 = Char.isDigit := by
  funext c
  cases h : c.isDigit with
  | true =>
      have hb := isDigit_bounds h
      simp only [isDigitIn, digitVal_of_isDigit h, decide_eq_true_eq]
      omega
  | false =>
      have hb := ten_le_digitVal h
      simp only [isDigitIn, decide_eq_false_iff_not]
      omega

theorem numeralVal_ten {ds : CString} (h : ∀ c ∈ ds, c.isDigit = true) :
    numeralVal 10 ds = Nat.ofDigitChars 10 ds 0 := by
  rw [numeralVal, Nat.ofDigitChars_eq_foldl]
  apply List.foldl_ext
  intro v c hc
  rw [digitVal_of_isDigit (h c hc)]
  rfl

theorem not_space_of_isDigit {c : Char} (h : c.isDigit = true) : isSpace c = false := by
  have hb := isDigit_bounds h
  have hc : c ≠ ' ' := by
    rintro rfl
    exact absurd h (by decide)
  simp only [isSpace, Bool.or_eq_false_iff, beq_eq_false_iff_ne, Bool.and_eq_false_iff,
    decide_eq_false_iff_not]
  exact ⟨hc, .inr (by omega)⟩

theorem skipSign_of_isDigit {c : Char} (h : c.isDigit = true) (s : CString) :
    skipSign (c :: s) = (false, c :: s) := by
  have hm : c ≠ '-' := by rintro rfl; exact absurd h (by decide)
  have hp : c ≠ '+' := by rintro rfl; exact absurd h (by decide)
  unfold skipSign
  split <;> simp_all

theorem skipPrefix_ten (s : CString) : skipPrefix 10 s = s := by
  unfold skipPrefix
  split
  · rw [if_neg (by simp)]
  · rfl

/-- The signs that may stand before a numeral, and whether they negate it. -/
inductive IsSign : CString → Bool → Prop
  | none : IsSign [] false
  | plus : IsSign ['+'] false
  | minus : IsSign ['-'] true

/-- After white space and a sign, a run of decimal digits that no digit follows is
converted whole. -/
theorem scanNumeral_signed {ws sign ds rest : CString} {neg : Bool}
    (hws : ∀ c ∈ ws, isSpace c = true) (hsign : IsSign sign neg) (hds : IsDecimal ds)
    (hrest : ∀ c ∈ rest.head?, c.isDigit = false) :
    scanNumeral 10 (ws ++ sign ++ ds ++ rest) = some ⟨neg, Nat.ofDigitChars 10 ds 0, rest⟩ := by
  obtain ⟨hne, hdig⟩ := hds
  obtain ⟨d, ds', rfl⟩ := List.exists_cons_of_ne_nil hne
  have hd := hdig d List.mem_cons_self
  have hskip : (ws ++ sign ++ (d :: ds') ++ rest).dropWhile isSpace =
      sign ++ (d :: ds') ++ rest := by
    rw [List.append_assoc, List.append_assoc, List.dropWhile_append_of_pos hws,
      ← List.append_assoc]
    cases hsign with
    | none => exact List.dropWhile_cons_of_neg (by rw [not_space_of_isDigit hd]; decide)
    | plus => exact List.dropWhile_cons_of_neg (by decide)
    | minus => exact List.dropWhile_cons_of_neg (by decide)
  have hskipSign : skipSign (sign ++ (d :: ds') ++ rest) = (neg, (d :: ds') ++ rest) := by
    cases hsign with
    | none => exact skipSign_of_isDigit hd (ds' ++ rest)
    | plus => rfl
    | minus => rfl
  have hstop : rest.takeWhile Char.isDigit = [] ∧ rest.dropWhile Char.isDigit = rest := by
    cases rest with
    | nil => exact ⟨rfl, rfl⟩
    | cons c rest =>
        have hc : ¬ c.isDigit = true := by rw [hrest c rfl]; decide
        exact ⟨List.takeWhile_cons_of_neg hc, List.dropWhile_cons_of_neg hc⟩
  simp only [scanNumeral, hskip, hskipSign, skipPrefix_ten, isDigitIn_ten,
    List.takeWhile_append_of_pos hdig, List.dropWhile_append_of_pos hdig, hstop.1, hstop.2,
    List.append_nil, if_neg hne, numeralVal_ten hdig]

/-- After white space, a run of decimal digits that no digit follows is converted whole. -/
theorem scanNumeral_decimal {ws ds rest : CString} (hws : ∀ c ∈ ws, isSpace c = true)
    (hds : IsDecimal ds) (hrest : ∀ c ∈ rest.head?, c.isDigit = false) :
    scanNumeral 10 (ws ++ ds ++ rest) = some ⟨false, Nat.ofDigitChars 10 ds 0, rest⟩ := by
  have h := scanNumeral_signed hws .none hds hrest
  rwa [List.append_nil] at h

/-- A numeral in base sixteen. -/
def IsHexadecimal (s : CString) : Prop := s ≠ [] ∧ ∀ c ∈ s, isDigitIn 16 c = true

instance (s : CString) : Decidable (IsHexadecimal s) :=
  decidable_of_iff (s ≠ [] ∧ s.all (isDigitIn 16) = true) (by simp [IsHexadecimal])

theorem hexDigit_bounds {c : Char} (h : isDigitIn 16 c = true) :
    48 ≤ c.toNat ∧ c.toNat ≤ 57 ∨ 65 ≤ c.toNat ∧ c.toNat ≤ 70 ∨ 97 ≤ c.toNat ∧ c.toNat ≤ 102 := by
  simp only [isDigitIn, decide_eq_true_eq] at h
  unfold digitVal at h
  split_ifs at h with hd hl hu
  · exact .inl (isDigit_bounds hd)
  · simp only [Char.isLower, Bool.and_eq_true, decide_eq_true_eq] at hl
    have hlo : 97 ≤ c.toNat := UInt32.le_iff_toNat_le.mp hl.1
    omega
  · simp only [Char.isUpper, decide_eq_true_eq] at hu
    have hlo : 65 ≤ c.toNat := UInt32.le_iff_toNat_le.mp hu.1
    omega
  · omega

theorem hexDigit_ne {c x : Char} (h : isDigitIn 16 c = true) (hx : isDigitIn 16 x = false) :
    c ≠ x := by
  rintro rfl
  rw [h] at hx
  cases hx

theorem not_space_of_hexDigit {c : Char} (h : isDigitIn 16 c = true) : isSpace c = false := by
  have hb := hexDigit_bounds h
  simp only [isSpace, Bool.or_eq_false_iff, beq_eq_false_iff_ne, Bool.and_eq_false_iff,
    decide_eq_false_iff_not]
  exact ⟨hexDigit_ne h (by decide), .inr (by omega)⟩

/-- The digits of a hexadecimal numeral are converted whole; none of them is the `x` of a
prefix. -/
theorem scanNumeral_hex {s : CString} (h : IsHexadecimal s) :
    scanNumeral 16 s = some ⟨false, numeralVal 16 s, []⟩ := by
  obtain ⟨hne, hdig⟩ := h
  have hspace : s.dropWhile isSpace = s := by
    obtain ⟨d, ds, rfl⟩ := List.exists_cons_of_ne_nil hne
    exact List.dropWhile_cons_of_neg
      (by rw [not_space_of_hexDigit (hdig d List.mem_cons_self)]; decide)
  have hsign : skipSign s = (false, s) := by
    obtain ⟨d, ds, rfl⟩ := List.exists_cons_of_ne_nil hne
    have hd := hdig d List.mem_cons_self
    have hm : d ≠ '-' := hexDigit_ne hd (by decide)
    have hp : d ≠ '+' := hexDigit_ne hd (by decide)
    unfold skipSign
    split <;> simp_all
  have hprefix : skipPrefix 16 s = s := by
    unfold skipPrefix
    split
    case h_1 x c t =>
      rw [if_neg]
      rintro ⟨-, hx, -⟩
      have hdx : isDigitIn 16 x = true := hdig x (by simp)
      rcases hx with rfl | rfl
      · exact hexDigit_ne hdx (by decide) rfl
      · exact hexDigit_ne hdx (by decide) rfl
    case h_2 => rfl
  have htake : s.takeWhile (isDigitIn 16) = s := List.takeWhile_eq_self_iff.mpr hdig
  have hdrop : s.dropWhile (isDigitIn 16) = [] := List.dropWhile_eq_nil_iff.mpr hdig
  simp only [scanNumeral, hspace, hsign, hprefix, htake, hdrop, if_neg hne]

theorem stoull_hex {s : CString} (h : IsHexadecimal s) (hlt : numeralVal 16 s < 2 ^ 64) :
    stoull 16 s = .ok (numeralVal 16 s) := by
  simp only [stoull, scanNumeral_hex h, if_neg (Nat.not_le.mpr hlt), Bool.false_eq_true, if_false]

theorem stoll_of_scan {base : Nat} {s : CString} {n : Numeral} (h : scanNumeral base s = some n)
    {v : ℤ} (hv : v = if n.neg then -(n.magnitude : ℤ) else n.magnitude) :
    stoll base s = if v < -2 ^ 63 ∨ 2 ^ 63 ≤ v then .error .outOfRange else .ok v := by
  rw [stoll, h, hv]

theorem skipSign_spec (s : CString) :
    ∃ sign neg, IsSign sign neg ∧ s = sign ++ (skipSign s).2 ∧ (skipSign s).1 = neg := by
  unfold skipSign
  split
  · exact ⟨_, _, .minus, rfl, rfl⟩
  · exact ⟨_, _, .plus, rfl, rfl⟩
  · exact ⟨_, _, .none, rfl, rfl⟩

/-- What is converted in base ten is white space, a sign, digits and what follows them. -/
theorem scanNumeral_ten {s : CString} {n : Numeral} (h : scanNumeral 10 s = some n) :
    ∃ ws sign ds, s = ws ++ sign ++ ds ++ n.rest ∧ (∀ c ∈ ws, isSpace c = true) ∧
      IsSign sign n.neg ∧ IsDecimal ds ∧ n.magnitude = Nat.ofDigitChars 10 ds 0 := by
  obtain ⟨sign, neg, hsign, hs, hneg⟩ := skipSign_spec (s.dropWhile isSpace)
  simp only [scanNumeral, skipPrefix_ten, isDigitIn_ten] at h
  split_ifs at h with hds
  obtain rfl := Option.some.inj h
  refine ⟨s.takeWhile isSpace, sign, (skipSign (s.dropWhile isSpace)).2.takeWhile Char.isDigit,
    ?_, fun c hc => List.mem_takeWhile_imp hc, hneg ▸ hsign, ⟨hds, ?_⟩, ?_⟩
  · rw [List.append_assoc, List.takeWhile_append_dropWhile, List.append_assoc, ← hs,
      List.takeWhile_append_dropWhile]
  · exact fun c hc => List.mem_takeWhile_imp hc
  · exact numeralVal_ten fun c hc => List.mem_takeWhile_imp hc

theorem scanNumeral_rest {s : CString} {n : Numeral} (h : scanNumeral 10 s = some n) :
    ∀ c ∈ n.rest.head?, c.isDigit = false := by
  simp only [scanNumeral, skipPrefix_ten, isDigitIn_ten] at h
  split_ifs at h
  obtain rfl := Option.some.inj h
  intro c hc
  have hnot := List.head?_dropWhile_not Char.isDigit (skipSign (s.dropWhile isSpace)).2
  rw [Option.mem_def.mp hc] at hnot
  simpa using hnot

theorem skipSign_length_le (s : CString) : (skipSign s).2.length ≤ s.length := by
  unfold skipSign
  split <;> simp

theorem skipPrefix_length_le (base : Nat) (s : CString) :
    (skipPrefix base s).length ≤ s.length := by
  unfold skipPrefix
  split
  · split_ifs <;> simp
  · exact Nat.le_refl _

theorem length_dropWhile_lt {p : Char → Bool} {s : CString} (h : s.takeWhile p ≠ []) :
    (s.dropWhile p).length < s.length := by
  have hlen := congrArg List.length (List.takeWhile_append_dropWhile (p := p) (l := s))
  have hpos := List.length_pos_of_ne_nil h
  rw [List.length_append] at hlen
  omega

theorem scanNumeral_length_lt {base : Nat} {s : CString} {n : Numeral}
    (h : scanNumeral base s = some n) : n.rest.length < s.length := by
  simp only [scanNumeral] at h
  split_ifs at h with hds
  obtain rfl := Option.some.inj h
  calc ((skipPrefix base (skipSign (s.dropWhile isSpace)).2).dropWhile (isDigitIn base)).length
      < (skipPrefix base (skipSign (s.dropWhile isSpace)).2).length := length_dropWhile_lt hds
    _ ≤ (skipSign (s.dropWhile isSpace)).2.length := skipPrefix_length_le _ _
    _ ≤ (s.dropWhile isSpace).length := skipSign_length_le _
    _ ≤ s.length := List.length_dropWhile_le _ _

theorem strtoull_length_lt {base v : Nat} {s rest : CString}
    (h : strtoull base s = some (v, rest)) : rest.length < s.length := by
  obtain ⟨n, hscan, hn⟩ := Option.map_eq_some_iff.mp h
  rw [← (Prod.mk.inj hn).2]
  exact scanNumeral_length_lt hscan

/-- The texts `std::stoull` converts in base ten, and to what: the minus sign negates
modulo 2^64, and anything may follow the digits. -/
def ReadsAs (s : CString) (n : Nat) : Prop :=
  ∃ ws sign neg ds rest, s = ws ++ sign ++ ds ++ rest ∧ (∀ c ∈ ws, isSpace c = true) ∧
    IsSign sign neg ∧ IsDecimal ds ∧ (∀ c ∈ rest.head?, c.isDigit = false) ∧
    Nat.ofDigitChars 10 ds 0 < 2 ^ 64 ∧
    n = if neg then (2 ^ 64 - Nat.ofDigitChars 10 ds 0) % 2 ^ 64 else Nat.ofDigitChars 10 ds 0

theorem stoull_ok_iff {s : CString} {n : Nat} : stoull 10 s = .ok n ↔ ReadsAs s n := by
  constructor
  · intro h
    unfold stoull at h
    cases hscan : scanNumeral 10 s with
    | none => rw [hscan] at h; cases h
    | some m =>
        rw [hscan] at h
        simp only at h
        split_ifs at h with hbig hneg <;> obtain rfl := Except.ok.inj h
        all_goals
          obtain ⟨ws, sign, ds, hs, hws, hsign, hds, hval⟩ := scanNumeral_ten hscan
          refine ⟨ws, sign, m.neg, ds, m.rest, hs, hws, hsign, hds, scanNumeral_rest hscan, ?_, ?_⟩
          · omega
          · simp [hneg, hval]
  · rintro ⟨ws, sign, neg, ds, rest, rfl, hws, hsign, hds, hrest, hlt, rfl⟩
    rw [stoull, scanNumeral_signed hws hsign hds hrest]
    exact if_neg (Nat.not_le.mpr hlt)

theorem stoull_decimal {s : CString} (h : IsDecimal s) : stoull 10 s =
    if 2 ^ 64 ≤ Nat.ofDigitChars 10 s 0 then .error .outOfRange
    else .ok (Nat.ofDigitChars 10 s 0) := by
  have hscan : scanNumeral 10 ([] ++ s ++ []) = _ := scanNumeral_decimal (by simp) h (by simp)
  rw [List.nil_append, List.append_nil] at hscan
  simp only [stoull, hscan, Bool.false_eq_true, if_false]

theorem strtoull_decimal {ws ds rest : CString} (hws : ∀ c ∈ ws, isSpace c = true)
    (hds : IsDecimal ds) (hrest : ∀ c ∈ rest.head?, c.isDigit = false) :
    strtoull 10 (ws ++ ds ++ rest) = some (min (Nat.ofDigitChars 10 ds 0) (2 ^ 64 - 1), rest) := by
  simp only [strtoull, scanNumeral_decimal hws hds hrest, Option.map_some, Bool.false_eq_true,
    if_false]
  split_ifs <;> congr 2 <;> omega

@[simp] theorem ofDigitChars_toCString (n : Nat) : Nat.ofDigitChars 10 (toCString n) 0 = n :=
  Nat.ofDigitChars_ten_toDigits

theorem toCString_isDecimal (n : Nat) : IsDecimal (toCString n) :=
  ⟨Nat.toDigits_ne_nil, fun _ hc => Nat.isDigit_of_mem_toDigits (by decide) (by decide) hc⟩

theorem stoull_toCString {n : Nat} (h : n < 2 ^ 64) : stoull 10 (toCString n) = .ok n := by
  rw [stoull_decimal (toCString_isDecimal n), ofDigitChars_toCString, if_neg (Nat.not_le.mpr h)]

theorem stoll_toCString {n : Nat} (h : n < 2 ^ 63) : stoll 10 (toCString n) = .ok n := by
  have hscan : scanNumeral 10 ([] ++ toCString n ++ []) = _ :=
    scanNumeral_decimal (by simp) (toCString_isDecimal n) (by simp)
  rw [List.nil_append, List.append_nil, ofDigitChars_toCString] at hscan
  simp only [stoll, hscan, Bool.false_eq_true, if_false]
  rw [if_neg (by omega)]

theorem toCString_inj {a b : Nat} : toCString a = toCString b ↔ a = b :=
  ⟨fun h => by rw [← ofDigitChars_toCString a, h, ofDigitChars_toCString], fun h => h ▸ rfl⟩

end CppLin.CNumber
