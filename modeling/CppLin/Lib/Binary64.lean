import CppLin.Lib.CNumber

/-!
The double of C++ as IEEE binary64, and `std::stod`: the text is read as an exact
rational and rounded once, to nearest and on a tie to even. The two zeros are one.
-/
namespace CppLin.CNumber
open Bytes

inductive Binary64 where
  | finite (q : ℚ)
  | inf (neg : Bool)
  | nan
  deriving DecidableEq

namespace Binary64

def roundHalfEven (x : ℚ) : ℤ :=
  let r := x - ⌊x⌋
  if r < 1 / 2 then ⌊x⌋
  else if r > 1 / 2 then ⌊x⌋ + 1
  else if ⌊x⌋ % 2 = 0 then ⌊x⌋ else ⌊x⌋ + 1

/-- The exponent of the last place: 53 significant bits, none below 2^-1074. -/
def lastPlace (q : ℚ) : ℤ := max (Int.log 2 |q| - 52) (-1074)

def nearest (q : ℚ) : ℚ := roundHalfEven (q / 2 ^ lastPlace q) * 2 ^ lastPlace q

/-- The nearest double to a rational; out of range past the largest double, and when a number
below the least normal one loses digits, also where it is rounded up to that one. -/
def ofRat (q : ℚ) : Except StoError Binary64 :=
  let r := nearest q
  if 2 ^ 1024 ≤ |r| then .error .outOfRange
  else if |q| < 2 ^ (-1022 : ℤ) ∧ r ≠ q then .error .outOfRange
  else .ok (.finite r)

theorem roundHalfEven_intCast (n : ℤ) : roundHalfEven n = n := by
  unfold roundHalfEven
  simp

theorem roundHalfEven_bounds (x : ℚ) : ⌊x⌋ ≤ roundHalfEven x ∧ roundHalfEven x ≤ ⌊x⌋ + 1 := by
  unfold roundHalfEven
  simp only
  split_ifs <;> omega

/-- A rational that is a whole number of last places is its own nearest double. -/
theorem nearest_of_multiple {q : ℚ} {n : ℤ} (h : q = n * 2 ^ lastPlace q) : nearest q = q := by
  have hpow : (2 : ℚ) ^ lastPlace q ≠ 0 := zpow_ne_zero _ two_ne_zero
  have hdiv : q / 2 ^ lastPlace q = n := by
    rw [div_eq_iff hpow]
    exact h
  rw [nearest, hdiv, roundHalfEven_intCast]
  exact h.symm

theorem lastPlace_int_nonpos {n : ℤ} (h : |n| < 2 ^ 53) : lastPlace n ≤ 0 := by
  have hlog : Int.log 2 |(n : ℚ)| ≤ 52 := by
    by_cases hn : n = 0
    · simp [hn]
    have hpos : 0 < |(n : ℚ)| := abs_pos.mpr (by exact_mod_cast hn)
    have hlt : |(n : ℚ)| < (2 : ℕ) ^ (53 : ℤ) := by
      norm_cast
    have hlog := (Int.lt_zpow_iff_log_lt (b := 2) (by norm_num) hpos).mp hlt
    omega
  exact max_le (by omega) (by norm_num)

theorem nearest_intCast {n : ℤ} (h : lastPlace n ≤ 0) : nearest (n : ℚ) = n := by
  obtain ⟨k, hk⟩ := Int.eq_ofNat_of_zero_le (neg_nonneg.mpr h)
  apply nearest_of_multiple (n := n * 2 ^ k)
  have hcancel : (2 : ℚ) ^ k * 2 ^ lastPlace n = 1 := by
    rw [← zpow_natCast, ← zpow_add₀ two_ne_zero, ← hk, neg_add_cancel, zpow_zero]
  rw [Int.cast_mul, Int.cast_pow, Int.cast_ofNat, mul_assoc, hcancel, mul_one]

theorem ofRat_int {n : ℤ} (h : |n| < 2 ^ 53) : ofRat n = .ok (.finite n) := by
  have hnearest : nearest (n : ℚ) = n := nearest_intCast (lastPlace_int_nonpos h)
  have hbound : ¬ (2 : ℚ) ^ 1024 ≤ |(n : ℚ)| := by
    rw [not_le]
    have hlt : |(n : ℚ)| < 2 ^ 53 := by exact_mod_cast h
    exact hlt.trans (pow_lt_pow_right₀ one_lt_two (by norm_num))
  simp only [ofRat, hnearest, if_neg hbound, ne_eq, not_true_eq_false, and_false, if_false]

theorem lastPlace_natCast {n : ℕ} : lastPlace (n : ℚ) = (Nat.log 2 n : ℤ) - 52 := by
  rw [lastPlace, Nat.abs_cast, Int.log_natCast]
  exact max_eq_left (by omega)

/-- The last place of an integer of more than 53 bits. -/
theorem nearest_natCast_of_large {n : ℕ} (h : 52 ≤ Nat.log 2 n) :
    nearest (n : ℚ) =
      roundHalfEven (n / 2 ^ (Nat.log 2 n - 52)) * 2 ^ (Nat.log 2 n - 52) := by
  have hplace : lastPlace (n : ℚ) = ((Nat.log 2 n - 52 : ℕ) : ℤ) := by
    rw [lastPlace_natCast, Nat.cast_sub h]
    rfl
  rw [nearest, hplace, zpow_natCast]

/-- The nearest double of a natural number is the number itself exactly if its bits are no more
than 53, zeros at the end left out. -/
theorem nearest_natCast_iff (n : ℕ) :
    nearest (n : ℚ) = n ↔ 2 ^ (Nat.log 2 n - 52) ∣ n := by
  by_cases h : 52 ≤ Nat.log 2 n
  · have hpow : (2 : ℚ) ^ (Nat.log 2 n - 52) ≠ 0 := pow_ne_zero _ two_ne_zero
    constructor
    · intro heq
      rw [nearest_natCast_of_large h] at heq
      have hint : roundHalfEven (n / 2 ^ (Nat.log 2 n - 52)) * 2 ^ (Nat.log 2 n - 52) = (n : ℤ) := by
        exact_mod_cast heq
      have hdvd : (2 : ℤ) ^ (Nat.log 2 n - 52) ∣ n := ⟨_, by rw [mul_comm]; exact hint.symm⟩
      exact_mod_cast hdvd
    · rintro ⟨j, hj⟩
      have hdiv : (n : ℚ) / 2 ^ (Nat.log 2 n - 52) = ((j : ℤ) : ℚ) := by
        rw [div_eq_iff hpow, mul_comm]
        exact_mod_cast hj
      rw [nearest_natCast_of_large h, hdiv, roundHalfEven_intCast, ← hdiv, div_mul_cancel₀ _ hpow]
  · rw [Nat.sub_eq_zero_of_le (by omega), pow_zero]
    refine iff_of_true ?_ (one_dvd n)
    have hplace : lastPlace ((n : ℤ) : ℚ) ≤ 0 := by
      rw [Int.cast_natCast, lastPlace_natCast]
      omega
    exact_mod_cast nearest_intCast hplace

theorem nearest_natCast (n : ℕ) : ∃ m : ℕ, nearest (n : ℚ) = m ∧ m ≤ 2 * n := by
  by_cases h : 52 ≤ Nat.log 2 n
  · have hn : n ≠ 0 := by
      rintro rfl
      simp at h
    have hlog := Nat.pow_log_le_self 2 hn
    set k := Nat.log 2 n - 52 with hk
    have hle : 2 ^ 52 * 2 ^ k ≤ n := by
      rw [← pow_add, hk, Nat.add_sub_cancel' h]
      exact hlog
    have hfloor : ⌊(n : ℚ) / 2 ^ k⌋ = ((n / 2 ^ k : ℕ) : ℤ) := by
      have := Rat.floor_natCast_div_natCast n (2 ^ k)
      push_cast at this ⊢
      exact this
    obtain ⟨hlo, hhi⟩ := roundHalfEven_bounds (n / 2 ^ k)
    rw [hfloor] at hlo hhi
    obtain ⟨r, hr⟩ := Int.eq_ofNat_of_zero_le ((Int.natCast_nonneg _).trans hlo)
    rw [hr] at hlo hhi
    have hrlo : n / 2 ^ k ≤ r := by exact_mod_cast hlo
    have hrhi : r ≤ n / 2 ^ k + 1 := by exact_mod_cast hhi
    have hpos : 0 < 2 ^ k := Nat.two_pow_pos k
    have hdiv : 2 ^ 52 ≤ n / 2 ^ k := (Nat.le_div_iff_mul_le hpos).mpr hle
    refine ⟨r * 2 ^ k, ?_, ?_⟩
    · rw [nearest_natCast_of_large h, ← hk, hr]
      push_cast
      ring
    · have hcut := Nat.div_mul_le_self n (2 ^ k)
      have hmul : r * 2 ^ k ≤ (n / 2 ^ k + 1) * 2 ^ k := Nat.mul_le_mul_right _ hrhi
      rw [Nat.add_mul, Nat.one_mul] at hmul
      omega
  · have hself : nearest (n : ℚ) = n := by
      rw [nearest_natCast_iff, Nat.sub_eq_zero_of_le (by omega), pow_zero]
      exact one_dvd n
    exact ⟨n, hself, by omega⟩

/-- A natural number of 64 bits is rounded, and never out of range. -/
theorem ofRat_natCast {n m : ℕ} (h : n < 2 ^ 64) (hm : nearest (n : ℚ) = m) :
    ofRat n = .ok (.finite m) := by
  obtain ⟨m', hm', hle⟩ := nearest_natCast n
  obtain rfl : m = m' := by exact_mod_cast hm.symm.trans hm'
  have hsmall : ¬ (2 : ℚ) ^ 1024 ≤ |(m : ℚ)| := by
    have hlt : (m : ℚ) < 2 ^ 65 := by
      have hnat : m < 2 ^ 65 := by omega
      exact_mod_cast hnat
    rw [Nat.abs_cast, not_le]
    exact hlt.trans (pow_lt_pow_right₀ one_lt_two (by norm_num))
  have hnormal : ¬ (|(n : ℚ)| < 2 ^ (-1022 : ℤ) ∧ (m : ℚ) ≠ n) := by
    rintro ⟨hlt, hne⟩
    have hn : 0 < n := by
      by_contra hzero
      obtain rfl : n = 0 := by omega
      obtain rfl : m = 0 := by omega
      exact hne rfl
    have hone : (1 : ℚ) ≤ |(n : ℚ)| := by
      rw [Nat.abs_cast]
      exact_mod_cast hn
    have hle : (2 : ℚ) ^ (-1022 : ℤ) ≤ 1 := zpow_le_one_of_nonpos₀ one_le_two (by norm_num)
    exact absurd (hone.trans_lt hlt) (not_lt.mpr hle)
  rw [ofRat, hm]
  simp only [if_neg hsmall, if_neg hnormal]

/-- The integer a double is cut to, towards zero. -/
def trunc : Binary64 → Option ℤ
  | finite q => some (if q < 0 then ⌈q⌉ else ⌊q⌋)
  | _ => none

/-- `static_cast<uint64_t>`; the language defines it when the integer is in range, and
`wild` is what the machine gives otherwise. -/
def toUInt64 (wild : Binary64 → UInt64) (d : Binary64) : UInt64 :=
  match d.trunc with
  | some n => if 0 ≤ n ∧ n < 2 ^ 64 then UInt64.ofNat n.toNat else wild d
  | none => wild d

end Binary64

def lower (s : CString) : CString := s.map Char.toLower

/-- Digits with at most one point among them: their value without the point, how many stand
behind it, and what follows. -/
def scanMantissa (base : Nat) (s : CString) : Option (Nat × Nat × CString) :=
  let whole := s.takeWhile (isDigitIn base)
  let (frac, rest) :=
    match s.dropWhile (isDigitIn base) with
    | '.' :: t => (t.takeWhile (isDigitIn base), t.dropWhile (isDigitIn base))
    | t => ([], t)
  if whole = [] ∧ frac = [] then none
  else some (numeralVal base (whole ++ frac), frac.length, rest)

/-- The exponent after its mark; zero when there is none. -/
def scanExponent (mark : Char) : CString → ℤ
  | c :: s =>
      if c.toLower = mark then
        let (neg, s) := skipSign s
        let e : ℤ := numeralVal 10 (s.takeWhile Char.isDigit)
        if neg then -e else e
      else 0
  | [] => 0

/-- A number without its sign; after `0x` the digits are hexadecimal, each worth four
places of base two, and a lone `0x` is the zero before it. -/
def scanMagnitude (s : CString) : Option ℚ :=
  if lower (s.take 2) = "0x".toList then
    match scanMantissa 16 (s.drop 2) with
    | some (m, places, rest) => some (m * 2 ^ (scanExponent 'p' rest - 4 * places))
    | none => some 0
  else
    match scanMantissa 10 s with
    | some (m, places, rest) => some (m * 10 ^ (scanExponent 'e' rest - places))
    | none => none

def stod (s : CString) : Except StoError Binary64 :=
  let (neg, s) := skipSign (s.dropWhile isSpace)
  if lower (s.take 3) = "inf".toList then .ok (.inf neg)
  else if lower (s.take 3) = "nan".toList then .ok .nan
  else
    match scanMagnitude s with
    | none => .error .invalidArgument
    | some q => Binary64.ofRat (if neg then -q else q)

theorem toLower_of_isDigit {c : Char} (h : c.isDigit = true) : c.toLower = c := by
  have hb := isDigit_bounds h
  rw [Char.toLower, dif_neg]
  rintro ⟨hA, -⟩
  have hle : 65 ≤ c.toNat := UInt32.le_iff_toNat_le.mp hA
  omega

theorem lower_of_digits {s : CString} (h : ∀ c ∈ s, c.isDigit = true) : lower s = s := by
  rw [lower, List.map_congr_left fun c hc => toLower_of_isDigit (h c hc), List.map_id']

theorem lower_take_ne {s k : CString} {x : Char} (h : ∀ c ∈ s, c.isDigit = true) (hx : x ∈ k)
    (hnot : x.isDigit = false) (n : Nat) : lower (s.take n) ≠ k := by
  rw [lower_of_digits fun c hc => h c (List.mem_of_mem_take hc)]
  rintro rfl
  rw [h x (List.mem_of_mem_take hx)] at hnot
  cases hnot

theorem scanMagnitude_decimal {s : CString} (h : IsDecimal s) :
    scanMagnitude s = some (Nat.ofDigitChars 10 s 0 : ℚ) := by
  obtain ⟨hne, hdig⟩ := h
  have htake : s.takeWhile Char.isDigit = s := List.takeWhile_eq_self_iff.mpr hdig
  have hdrop : s.dropWhile Char.isDigit = [] := List.dropWhile_eq_nil_iff.mpr hdig
  have hhex : lower (s.take 2) ≠ "0x".toList :=
    lower_take_ne (x := 'x') hdig (by decide) (by decide) 2
  have hmantissa : scanMantissa 10 s = some (Nat.ofDigitChars 10 s 0, 0, []) := by
    simp only [scanMantissa, isDigitIn_ten, htake, hdrop, List.append_nil, if_neg (not_and_of_not_left _ hne),
      numeralVal_ten hdig, List.length_nil]
  rw [scanMagnitude, if_neg hhex, hmantissa]
  simp [scanExponent]

theorem stod_decimal {s : CString} (h : IsDecimal s) :
    stod s = Binary64.ofRat (Nat.ofDigitChars 10 s 0 : ℚ) := by
  obtain ⟨hne, hdig⟩ := h
  have hhead : s.dropWhile isSpace = s ∧ skipSign s = (false, s) := by
    obtain ⟨d, ds, rfl⟩ := List.exists_cons_of_ne_nil hne
    have hd := hdig d List.mem_cons_self
    exact ⟨List.dropWhile_cons_of_neg (by rw [not_space_of_isDigit hd]; decide),
      skipSign_of_isDigit hd ds⟩
  have hinf : lower (s.take 3) ≠ "inf".toList :=
    lower_take_ne (x := 'i') hdig (by decide) (by decide) 3
  have hnan : lower (s.take 3) ≠ "nan".toList :=
    lower_take_ne (x := 'n') hdig (by decide) (by decide) 3
  simp only [stod, hhead.1, hhead.2, if_neg hinf, if_neg hnan, scanMagnitude_decimal ⟨hne, hdig⟩,
    Bool.false_eq_true, if_false]

theorem stod_toCString {n : Nat} (h : n < 2 ^ 53) : stod (toCString n) = .ok (.finite n) := by
  have hrat : Binary64.ofRat ((n : ℤ) : ℚ) = .ok (.finite ((n : ℤ) : ℚ)) :=
    Binary64.ofRat_int (by rw [Nat.abs_cast]; exact_mod_cast h)
  rw [stod_decimal (toCString_isDecimal n), ofDigitChars_toCString]
  exact_mod_cast hrat

theorem Binary64.trunc_natCast (n : Nat) : (Binary64.finite n).trunc = some (n : ℤ) := by
  simp [Binary64.trunc, not_lt.mpr (Nat.cast_nonneg n)]

theorem Binary64.toUInt64_natCast {n : Nat} (h : n < 2 ^ 64) (wild : Binary64 → UInt64) :
    (Binary64.finite n).toUInt64 wild = UInt64.ofNat n := by
  rw [toUInt64, trunc_natCast]
  simp only
  rw [if_pos (by omega), Int.toNat_natCast]

/-- Past the range the cast is the machine's. -/
theorem Binary64.toUInt64_of_le {n : Nat} (h : 2 ^ 64 ≤ n) (wild : Binary64 → UInt64) :
    (Binary64.finite n).toUInt64 wild = wild (.finite n) := by
  rw [toUInt64, trunc_natCast]
  simp only
  rw [if_neg (by omega)]

end CppLin.CNumber
