import CppLin.Ldf.Lines

/-!
The numerals of a description. A hexadecimal one is read as an integer, an unsigned decimal
one as a double that is cut to an integer afterwards.
-/
namespace CppLin.Ldf
open Bytes CNumber CText

theorem word_hex {s : CString} (h : IsHexadecimal s) : Word s := by
  refine ⟨h.1, ?_⟩
  intro c hc
  have hb := hexDigit_bounds (h.2 c hc)
  have hback := Char.ofNat_toNat c
  rcases hb with ⟨hlo, hhi⟩ | ⟨hlo, hhi⟩ | ⟨hlo, hhi⟩
  all_goals
    interval_cases c.toNat <;> subst hback <;> decide

theorem word_prefixed {x : Char} (hx : x = 'x' ∨ x = 'X') {hs : CString} (h : IsHexadecimal hs) :
    Word ('0' :: x :: hs) := by
  refine ⟨List.cons_ne_nil _ _, ?_⟩
  rw [List.forall_mem_cons, List.forall_mem_cons]
  refine ⟨by decide, ?_, (word_hex h).chars⟩
  rcases hx with rfl | rfl <;> decide

theorem isHex_prefixed {x : Char} (hx : x = 'x' ∨ x = 'X') {hs : CString} (h : IsHexadecimal hs) :
    isHex ('0' :: x :: hs) = true := by
  have hlen := List.length_pos_of_ne_nil h.1
  have hlong : 2 < ('0' :: x :: hs).length := by
    simp only [List.length_cons]
    omega
  simp only [isHex, decide_eq_true hlong, Bool.true_and, Bool.or_eq_true, decide_eq_true_eq]
  rcases hx with rfl | rfl
  · exact .inl rfl
  · exact .inr rfl

theorem parseUint_hex {x : Char} (hx : x = 'x' ∨ x = 'X') {hs : CString} (h : IsHexadecimal hs)
    (hlt : numeralVal 16 hs < 2 ^ 64) (wild : Binary64 → UInt64) :
    parseUint wild ('0' :: x :: hs) = .ok (UInt64.ofNat (numeralVal 16 hs)) := by
  simp only [parseUint, stripSemicolon_word (word_prefixed hx h), isHex_prefixed hx h, if_true]
  change (stoull 16 hs).map UInt64.ofNat = _
  rw [stoull_hex h hlt]
  rfl

theorem parseUint_decimal {ds : CString} (h : IsDecimal ds) {n m : Nat}
    (hn : Nat.ofDigitChars 10 ds 0 = n) (hlt : n < 2 ^ 64)
    (hm : Binary64.nearest (n : ℚ) = m) (wild : Binary64 → UInt64) :
    parseUint wild ds = .ok ((Binary64.finite m).toUInt64 wild) := by
  simp only [parseUint, stripSemicolon_word (word_decimal h), not_isHex_decimal h,
    Bool.false_eq_true, if_false, stod_decimal h, hn, Binary64.ofRat_natCast hlt hm]

/-- A decimal numeral is read exactly, whatever the machine makes of a double out of range, if
and only if its number is a double. -/
theorem parseUint_decimal_iff {ds : CString} (h : IsDecimal ds) {n : Nat}
    (hn : Nat.ofDigitChars 10 ds 0 = n) (hlt : n < 2 ^ 64) :
    (∀ wild, parseUint wild ds = .ok (UInt64.ofNat n)) ↔ 2 ^ (Nat.log 2 n - 52) ∣ n := by
  obtain ⟨m, hm, -⟩ := Binary64.nearest_natCast n
  have hread := parseUint_decimal h hn hlt hm
  rw [← Binary64.nearest_natCast_iff, hm, Nat.cast_inj]
  constructor
  · intro hall
    rcases Nat.lt_or_ge m (2 ^ 64) with hin | hout
    · have heq := Except.ok.inj ((hread fun _ => 0).symm.trans (hall fun _ => 0))
      rw [Binary64.toUInt64_natCast hin] at heq
      have hnat := congrArg UInt64.toNat heq
      rwa [UInt64.toNat_ofNat_of_lt' hin, UInt64.toNat_ofNat_of_lt' hlt] at hnat
    · -- a machine that gives something else
      have heq := Except.ok.inj
        ((hread fun _ => UInt64.ofNat n + 1).symm.trans (hall fun _ => UInt64.ofNat n + 1))
      rw [Binary64.toUInt64_of_le hout] at heq
      exact absurd (UInt64.add_eq_left.mp heq) (by decide)
  · rintro rfl wild
    rw [hread wild, Binary64.toUInt64_natCast hlt]

/-- The text a signal line has for its initial value, the second field after its colon. -/
def Initialises (line token : CString) : Prop :=
  ∃ colon width rest, findChar ':' (stripSemicolon line) = some colon ∧
    splitFields (trim ((stripSemicolon line).drop (colon + 1))) = width :: token :: rest

theorem initValue_eq {wild : Binary64 → UInt64} {line token : CString} {sig : Signal} {v : UInt64}
    (hline : Initialises line token) (hread : parseUint wild token = .ok v)
    (hsig : readSignal wild line = some sig) : sig.initValue = v := by
  obtain ⟨colon, width, rest, hcolon, hfields⟩ := hline
  simp only [readSignal, hcolon, hfields] at hsig
  rcases rest with _ | ⟨publisher, subscribers⟩
  · cases hsig
  · obtain rfl := Option.some.inj hsig
    simp only [hread]

/-- The number's decimal and hexadecimal numeral are both read as the number, and a signal's
initial value does not depend on which of them is written. -/
structure ReadExactly (wild : Binary64 → UInt64) (n : Nat) (ds hs : CString) : Prop where
  decimal : parseUint wild ds = .ok (UInt64.ofNat n)
  hex : parseUint wild ("0x".toList ++ hs) = .ok (UInt64.ofNat n)
  init : ∀ line line' sig sig', Initialises line ds → Initialises line' ("0x".toList ++ hs) →
    readSignal wild line = some sig → readSignal wild line' = some sig' →
      sig.initValue = sig'.initValue

theorem ReadExactly.of_read {wild : Binary64 → UInt64} {n : Nat} {ds hs : CString}
    (hd : parseUint wild ds = .ok (UInt64.ofNat n))
    (hh : parseUint wild ("0x".toList ++ hs) = .ok (UInt64.ofNat n)) :
    ReadExactly wild n ds hs := by
  refine ⟨hd, hh, ?_⟩
  intro line line' sig sig' hline hline' hsig hsig'
  rw [initValue_eq hline hd hsig, initValue_eq hline' hh hsig']

/-- The decimal and the hexadecimal numeral of a number of 64 bits are both read as the number,
on every machine, if and only if its bits, zeros at the end left out, are no more than 53. -/
theorem parse_uint_exact_iff {n : Nat} (hn : n < 2 ^ 64) {ds hs : CString} (hds : IsDecimal ds)
    (hd : Nat.ofDigitChars 10 ds 0 = n) (hhs : IsHexadecimal hs) (hh : numeralVal 16 hs = n) :
    (∀ wild, ReadExactly wild n ds hs) ↔ 2 ^ (Nat.log 2 n - 52) ∣ n := by
  have hhex : ∀ wild, parseUint wild ("0x".toList ++ hs) = .ok (UInt64.ofNat n) := by
    intro wild
    rw [← hh]
    exact parseUint_hex (.inl rfl) hhs (by omega) wild
  rw [← parseUint_decimal_iff hds hd hn]
  constructor
  · exact fun h wild => (h wild).decimal
  · exact fun h wild => .of_read (h wild) (hhex wild)

/-- 2^60, well past 2^53. -/
theorem parse_uint_exact_iff_power : ReadExactly (fun _ => 0) 1152921504606846976
    "1152921504606846976".toList "1000000000000000".toList := by
  have hlog : Nat.log 2 1152921504606846976 = 60 := by
    rw [Nat.log_eq_iff (by norm_num)]
    norm_num
  refine (parse_uint_exact_iff (n := 1152921504606846976) ?_ ?_ ?_ ?_ ?_).mpr ?_ fun _ => 0
  · norm_num
  · decide
  · decide
  · decide
  · decide
  · rw [hlog]
    norm_num

/-- 2^53 + 1 in decimal. -/
theorem not_parse_uint_exact : ¬ ∀ (n : Nat) (ds hs : CString), n < 2 ^ 64 → IsDecimal ds →
    Nat.ofDigitChars 10 ds 0 = n → IsHexadecimal hs → numeralVal 16 hs = n →
    ∀ wild, ReadExactly wild n ds hs := by
  intro h
  have hds : IsDecimal "9007199254740993".toList := by decide
  have hd : Nat.ofDigitChars 10 "9007199254740993".toList 0 = 9007199254740993 := by decide
  have hlog : Nat.log 2 9007199254740993 = 53 := by
    rw [Nat.log_eq_iff (by norm_num)]
    norm_num
  have hdvd := (parseUint_decimal_iff hds hd (by norm_num)).mp fun wild =>
    (h 9007199254740993 _ "20000000000001".toList (by norm_num) hds hd (by decide) (by decide)
      wild).decimal
  rw [hlog] at hdvd
  norm_num at hdvd

end CppLin.Ldf
