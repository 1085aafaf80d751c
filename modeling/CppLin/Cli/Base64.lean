import CppLin.Cli.Json

/-!
What is encoded as base64 comes back: the decoder shifts six bits in for each character and a
byte out as soon as it has eight, whatever it has shifted in before.
-/
namespace CppLin.Cli
open Bytes

theorem alphabet_value : ∀ n < 64, b64val (kAlpha.getD n '=') = some (UInt32.ofNat n) ∧
    kAlpha.getD n '=' ≠ '=' ∧ kAlpha.getD n '=' ≠ '"' ∧ kAlpha.getD n '=' ≠ '\\' ∧
    32 ≤ (kAlpha.getD n '=').toNat := by
  decide +kernel

theorem six_toNat (b : UInt32) {i : UInt32} (hi : i.toNat < 32) :
    ((b >>> i) &&& 0x3F).toNat = b.toNat / 2 ^ i.toNat % 64 := by
  rw [UInt32.toNat_and, UInt32.toNat_shiftRight, Nat.mod_eq_of_lt hi, Nat.shiftRight_eq_div_pow]
  exact Nat.and_two_pow_sub_one_eq_mod _ 6

theorem byte_toNat (a : UInt32) {i : UInt32} (hi : i.toNat < 32) :
    ((a >>> i) &&& 0xFF).toUInt8.toNat = a.toNat / 2 ^ i.toNat % 256 := by
  have hand : a.toNat / 2 ^ i.toNat &&& 255 = a.toNat / 2 ^ i.toNat % 256 :=
    Nat.and_two_pow_sub_one_eq_mod _ 8
  rw [UInt32.toNat_toUInt8, UInt32.toNat_and, UInt32.toNat_shiftRight, Nat.mod_eq_of_lt hi,
    Nat.shiftRight_eq_div_pow]
  change (a.toNat / 2 ^ i.toNat &&& 255) % 256 = _
  rw [hand, Nat.mod_mod]

/-- Six bits are shifted in behind the lower 26. -/
theorem shiftIn_toNat (a v : UInt32) (hv : v.toNat < 64) :
    ((a <<< 6) ||| v).toNat = 64 * (a.toNat % 2 ^ 26) + v.toNat := by
  have hshift : a.toNat <<< 6 % 2 ^ 32 = (a.toNat % 2 ^ 26) <<< 6 := by
    rw [Nat.shiftLeft_eq, Nat.shiftLeft_eq]
    omega
  rw [UInt32.toNat_or, UInt32.toNat_shiftLeft]
  change a.toNat <<< 6 % 2 ^ 32 ||| v.toNat = _
  rw [hshift, Nat.or_comm, or_shiftLeft_of_lt (k := 6) hv]
  omega

theorem group_toNat (x y z : UInt8) :
    (x.toUInt32 <<< 16 ||| y.toUInt32 <<< 8 ||| z.toUInt32).toNat =
      65536 * x.toNat + 256 * y.toNat + z.toNat := by
  have hx := x.toNat_lt
  have hy := y.toNat_lt
  have hz := z.toNat_lt
  have sx : x.toNat <<< 16 % 2 ^ 32 = x.toNat <<< 16 := by rw [Nat.shiftLeft_eq]; omega
  have sy : y.toNat <<< 8 % 2 ^ 32 = y.toNat <<< 8 := by rw [Nat.shiftLeft_eq]; omega
  simp only [UInt32.toNat_or, UInt32.toNat_shiftLeft, UInt8.toNat_toUInt32, UInt32.reduceToNat,
    Nat.reduceMod, sx, sy]
  rw [Nat.or_assoc, Nat.or_comm (y.toNat <<< 8), or_shiftLeft_of_lt (k := 8) hz, Nat.or_comm,
    or_shiftLeft_of_lt (k := 16) (by omega)]
  omega

/-- One character of the alphabet in the loop, with the bits it stands for. -/
theorem base64Loop_alphaAt (out : Payload) (accum bits b : UInt32) {i : UInt32} (hi : i.toNat < 32)
    (s : CString) :
    ∃ a : UInt32, a.toNat = 64 * (accum.toNat % 2 ^ 26) + b.toNat / 2 ^ i.toNat % 64 ∧
      base64Loop out accum bits (alphaAt b i :: s) =
        if bits + 6 ≥ 8 then
          base64Loop (out ++ [((a >>> (bits + 6 - 8)) &&& 0xFF).toUInt8]) a (bits + 6 - 8) s
        else base64Loop out a (bits + 6) s := by
  have hsix := six_toNat b hi
  have hlt : ((b >>> i) &&& 0x3F).toNat < 64 := by omega
  obtain ⟨hval, hne, -⟩ := alphabet_value _ hlt
  rw [UInt32.ofNat_toNat] at hval
  refine ⟨(accum <<< 6) ||| ((b >>> i) &&& 0x3F), ?_, ?_⟩
  · rw [shiftIn_toNat _ _ hlt, hsix]
  · rw [base64Loop, alphaAt, if_neg hne, hval]

theorem base64Loop_first (out : Payload) (accum b : UInt32) (x : UInt8)
    (hb : b.toNat / 2 ^ 16 = x.toNat) (s : CString) :
    ∃ a : UInt32, a.toNat % 2 ^ 12 = b.toNat / 2 ^ 12 % 2 ^ 12 ∧
      base64Loop out accum 0 (alphaAt b 18 :: alphaAt b 12 :: s) =
        base64Loop (out ++ [x]) a 4 s := by
  obtain ⟨a, ha, hloop⟩ := base64Loop_alphaAt out accum 0 b (i := 18) (by decide) (alphaAt b 12 :: s)
  obtain ⟨a', ha', hloop'⟩ := base64Loop_alphaAt out a 6 b (i := 12) (by decide) s
  have hlt := x.toNat_lt
  have hx : ((a' >>> 4) &&& 0xFF).toUInt8 = x := by
    apply UInt8.toNat_inj.mp
    rw [byte_toNat a' (by decide), ha', ha, ← hb]
    simp only [UInt32.reduceToNat]
    omega
  refine ⟨a', ?_, ?_⟩
  · rw [ha', ha]
    simp only [UInt32.reduceToNat]
    omega
  · rw [hloop, if_neg (by decide), ← hx]
    exact hloop'

theorem base64Loop_second (out : Payload) (a b : UInt32) (y : UInt8)
    (ha : a.toNat % 2 ^ 12 = b.toNat / 2 ^ 12 % 2 ^ 12) (hb : b.toNat / 2 ^ 8 % 2 ^ 8 = y.toNat)
    (s : CString) : ∃ a' : UInt32, a'.toNat % 2 ^ 18 = b.toNat / 2 ^ 6 % 2 ^ 18 ∧
      base64Loop out a 4 (alphaAt b 6 :: s) = base64Loop (out ++ [y]) a' 2 s := by
  obtain ⟨a', ha', hloop⟩ := base64Loop_alphaAt out a 4 b (i := 6) (by decide) s
  have hy : ((a' >>> 2) &&& 0xFF).toUInt8 = y := by
    apply UInt8.toNat_inj.mp
    rw [byte_toNat a' (by decide), ha', ← hb]
    simp only [UInt32.reduceToNat]
    omega
  refine ⟨a', ?_, ?_⟩
  · rw [ha']
    simp only [UInt32.reduceToNat]
    omega
  · rw [← hy]
    exact hloop

theorem base64Loop_third (out : Payload) (a b : UInt32) (z : UInt8)
    (ha : a.toNat % 2 ^ 18 = b.toNat / 2 ^ 6 % 2 ^ 18) (hb : b.toNat % 2 ^ 8 = z.toNat)
    (s : CString) : ∃ a' : UInt32,
      base64Loop out a 2 (alphaAt b 0 :: s) = base64Loop (out ++ [z]) a' 0 s := by
  obtain ⟨a', ha', hloop⟩ := base64Loop_alphaAt out a 2 b (i := 0) (by decide) s
  have hz : ((a' >>> 0) &&& 0xFF).toUInt8 = z := by
    apply UInt8.toNat_inj.mp
    rw [byte_toNat a' (by decide), ha', ← hb]
    simp only [UInt32.reduceToNat]
    omega
  refine ⟨a', ?_⟩
  rw [← hz]
  exact hloop

/-- From a group boundary on, the encoded bytes are put out, and the loop ends with them. -/
theorem base64Loop_encode (data out : Payload) (accum : UInt32) :
    base64Loop out accum 0 (base64Encode data) = out ++ data := by
  induction data using base64Encode.induct generalizing out accum with
  | case1 => simp [base64Encode, base64Loop]
  | case2 x =>
      have hb : (x.toUInt32 <<< 16).toNat = 65536 * x.toNat := by simpa using group_toNat x 0 0
      obtain ⟨a, -, hloop⟩ := base64Loop_first out accum (x.toUInt32 <<< 16) x (by omega) ['=', '=']
      rw [base64Encode, hloop, base64Loop, if_pos rfl]
  | case3 x y =>
      have hb : (x.toUInt32 <<< 16 ||| y.toUInt32 <<< 8).toNat = 65536 * x.toNat + 256 * y.toNat := by
        simpa using group_toNat x y 0
      have hy := y.toNat_lt
      obtain ⟨a, ha, hfirst⟩ := base64Loop_first out accum (x.toUInt32 <<< 16 ||| y.toUInt32 <<< 8) x
        (by omega) [alphaAt (x.toUInt32 <<< 16 ||| y.toUInt32 <<< 8) 6, '=']
      obtain ⟨a', -, hsecond⟩ := base64Loop_second (out ++ [x]) a _ y ha (by omega) ['=']
      rw [base64Encode, hfirst, hsecond, base64Loop, if_pos rfl, List.append_assoc,
        List.singleton_append]
  | case4 x y z data ih =>
      have hgroup : ∃ b : UInt32, b.toNat = 65536 * x.toNat + 256 * y.toNat + z.toNat ∧
          base64Encode (x :: y :: z :: data) =
            alphaAt b 18 :: alphaAt b 12 :: alphaAt b 6 :: alphaAt b 0 :: base64Encode data :=
        ⟨_, group_toNat x y z, rfl⟩
      obtain ⟨b, hb, hgroup⟩ := hgroup
      have hy := y.toNat_lt
      have hz := z.toNat_lt
      obtain ⟨a, ha, hfirst⟩ := base64Loop_first out accum b x (by omega)
        (alphaAt b 6 :: alphaAt b 0 :: base64Encode data)
      obtain ⟨a', ha', hsecond⟩ := base64Loop_second (out ++ [x]) a b y ha (by omega)
        (alphaAt b 0 :: base64Encode data)
      obtain ⟨a'', hthird⟩ := base64Loop_third (out ++ [x] ++ [y]) a' b z ha' (by omega)
        (base64Encode data)
      rw [hgroup, hfirst, hsecond, hthird, ih]
      simp only [List.append_assoc, List.cons_append, List.nil_append]

theorem base64Decode_encode (data : Payload) : base64Decode (base64Encode data) = data :=
  base64Loop_encode data [] 0

/-- No character of an encoded text needs care in a JSON string. -/
theorem base64Encode_plain (data : Payload) :
    ∀ c ∈ base64Encode data, c ≠ '"' ∧ c ≠ '\\' ∧ 32 ≤ c.toNat := by
  have hpad : ('=' : Char) ≠ '"' ∧ ('=' : Char) ≠ '\\' ∧ 32 ≤ ('=' : Char).toNat := by decide
  have halpha : ∀ b i : UInt32, i.toNat < 32 → alphaAt b i ≠ '"' ∧ alphaAt b i ≠ '\\' ∧
      32 ≤ (alphaAt b i).toNat := by
    intro b i hi
    have hsix := six_toNat b hi
    obtain ⟨-, -, hplain⟩ := alphabet_value _ (show ((b >>> i) &&& 0x3F).toNat < 64 by omega)
    exact hplain
  induction data using base64Encode.induct with
  | case1 => simp [base64Encode]
  | case2 x =>
      simp only [base64Encode, List.forall_mem_cons]
      exact ⟨halpha _ _ (by decide), halpha _ _ (by decide), hpad, hpad, by simp⟩
  | case3 x y =>
      simp only [base64Encode, List.forall_mem_cons]
      exact ⟨halpha _ _ (by decide), halpha _ _ (by decide), halpha _ _ (by decide), hpad, by simp⟩
  | case4 x y z data ih =>
      simp only [base64Encode, List.cons_append, List.nil_append, List.forall_mem_cons]
      exact ⟨halpha _ _ (by decide), halpha _ _ (by decide), halpha _ _ (by decide),
        halpha _ _ (by decide), ih⟩

/-- The characters the decoder reads: those of the alphabet, up to the first `=`. -/
def letters (s : CString) : CString :=
  (s.takeWhile fun c => c ≠ '=').filter fun c => (b64val c).isSome

theorem letters_pad (s : CString) : letters ('=' :: s) = [] := by
  rw [letters, List.takeWhile_cons_of_neg (by decide), List.filter_nil]

theorem letters_keep {c : Char} (hpad : c ≠ '=') (hc : (b64val c).isSome = true) (s : CString) :
    letters (c :: s) = c :: letters s := by
  rw [letters, List.takeWhile_cons_of_pos (by simpa using hpad),
    List.filter_cons_of_pos (by rw [hc]), letters]

theorem letters_skip {c : Char} (hpad : c ≠ '=') (hc : b64val c = none) (s : CString) :
    letters (c :: s) = letters s := by
  rw [letters, List.takeWhile_cons_of_pos (by simpa using hpad),
    List.filter_cons_of_neg (by rw [hc]; decide), letters]

theorem letters_append {a : CString} (ha : ∀ c ∈ a, c ≠ '=' ∧ (b64val c).isSome = true)
    (s : CString) : letters (a ++ s) = a ++ letters s := by
  induction a with
  | nil => rfl
  | cons c a ih =>
    rw [List.forall_mem_cons] at ha
    rw [List.cons_append, letters_keep ha.1.1 ha.1.2, ih ha.2, List.cons_append]

theorem base64Decode_letters (s : CString) : base64Decode (letters s) = base64Decode s := by
  have hloop : ∀ out accum bits,
      base64Loop out accum bits (letters s) = base64Loop out accum bits s := by
    induction s with
    | nil => exact fun _ _ _ => rfl
    | cons c s ih =>
      intro out accum bits
      by_cases hpad : c = '='
      · subst hpad
        rw [letters_pad, base64Loop, base64Loop, if_pos rfl]
      cases hc : b64val c with
      | none => rw [letters_skip hpad hc, ih, base64Loop, if_neg hpad, hc]
      | some v =>
        rw [letters_keep hpad (by rw [hc]; rfl), base64Loop, base64Loop, if_neg hpad, if_neg hpad,
          hc]
        simp only [ih]
  exact hloop [] 0 0

theorem length_base64Loop (out : Payload) (accum : UInt32) {bits : UInt32} (hbits : bits.toNat < 8)
    (s : CString) : (base64Loop out accum bits s).length =
      out.length + (bits.toNat + 6 * (letters s).length) / 8 := by
  induction s generalizing out accum bits with
  | nil =>
    rw [base64Loop, letters, List.takeWhile_nil, List.filter_nil, List.length_nil]
    omega
  | cons c s ih =>
    by_cases hpad : c = '='
    · subst hpad
      rw [base64Loop, if_pos rfl, letters_pad, List.length_nil]
      omega
    rw [base64Loop, if_neg hpad]
    cases hc : b64val c with
    | none => rw [letters_skip hpad hc, ih out accum hbits]
    | some v =>
      have hsum : (bits + 6).toNat = bits.toNat + 6 := by
        rw [UInt32.toNat_add]
        exact Nat.mod_eq_of_lt (by simp only [UInt32.reduceToNat]; omega)
      rw [letters_keep hpad (by rw [hc]; rfl), List.length_cons]
      dsimp only
      split_ifs with hfull
      · rw [ge_iff_le, UInt32.le_iff_toNat_le, hsum] at hfull
        have hrest : (bits + 6 - 8).toNat = bits.toNat + 6 - 8 := by
          rw [UInt32.toNat_sub_of_le _ _ (by rwa [UInt32.le_iff_toNat_le, hsum]), hsum]
          rfl
        have height : (8 : UInt32).toNat = 8 := rfl
        rw [ih _ _ (by omega), hrest, List.length_append, List.length_singleton]
        omega
      · rw [ge_iff_le, UInt32.le_iff_toNat_le, hsum] at hfull
        have height : (8 : UInt32).toNat = 8 := rfl
        rw [ih _ _ (by omega), hsum]
        omega

theorem length_base64Decode (s : CString) :
    (base64Decode s).length = 6 * (letters s).length / 8 := by
  have hzero : (0 : UInt32).toNat = 0 := rfl
  have hlength := length_base64Loop [] 0 (show (0 : UInt32).toNat < 8 by decide) s
  rw [base64Decode, hlength, hzero, List.length_nil, Nat.zero_add, Nat.zero_add]

theorem base64Encode_letters (data : Payload) :
    ∃ pads, base64Encode data = letters (base64Encode data) ++ pads ∧ (∀ c ∈ pads, c = '=') ∧
      ∀ c ∈ letters (base64Encode data), c ≠ '=' ∧ (b64val c).isSome = true := by
  have hletter : ∀ (b : UInt32) {i : UInt32}, i.toNat < 32 →
      alphaAt b i ≠ '=' ∧ (b64val (alphaAt b i)).isSome = true := by
    intro b i hi
    have hsix := six_toNat b hi
    obtain ⟨hval, hne, -⟩ := alphabet_value _ (show ((b >>> i) &&& 0x3F).toNat < 64 by omega)
    exact ⟨hne, by rw [alphaAt, hval]; rfl⟩
  have hkeep : ∀ (b : UInt32) {i : UInt32}, i.toNat < 32 → ∀ s,
      letters (alphaAt b i :: s) = alphaAt b i :: letters s := fun b _ hi s =>
    letters_keep (hletter b hi).1 (hletter b hi).2 s
  induction data using base64Encode.induct with
  | case1 => exact ⟨[], rfl, List.forall_mem_nil _, List.forall_mem_nil _⟩
  | case2 x =>
    rw [base64Encode, hkeep _ (by decide), hkeep _ (by decide), letters_pad]
    refine ⟨['=', '='], rfl, by simp, ?_⟩
    simp only [List.forall_mem_cons]
    exact ⟨hletter _ (by decide), hletter _ (by decide), List.forall_mem_nil _⟩
  | case3 x y =>
    rw [base64Encode, hkeep _ (by decide), hkeep _ (by decide), hkeep _ (by decide), letters_pad]
    refine ⟨['='], rfl, by simp, ?_⟩
    simp only [List.forall_mem_cons]
    exact ⟨hletter _ (by decide), hletter _ (by decide), hletter _ (by decide),
      List.forall_mem_nil _⟩
  | case4 x y z data ih =>
    obtain ⟨pads, heq, hpads, hall⟩ := ih
    simp only [base64Encode, List.cons_append, List.nil_append]
    rw [hkeep _ (by decide), hkeep _ (by decide), hkeep _ (by decide), hkeep _ (by decide)]
    refine ⟨pads, by simp only [List.cons_append, ← heq], hpads, ?_⟩
    simp only [List.forall_mem_cons]
    exact ⟨hletter _ (by decide), hletter _ (by decide), hletter _ (by decide),
      hletter _ (by decide), hall⟩

/-- Letters of the alphabet with the number of `=` that fill up their last group of four: no
bit is set that an `=` stands for. -/
structure Padded (letters : CString) (pads : Nat) : Prop where
  alpha : ∀ c ∈ letters, c ∈ kAlpha
  pads_le : pads ≤ 2
  groups : 4 ∣ letters.length + pads
  unused : ∀ c ∈ letters.getLast?, 4 ^ pads ∣ kAlpha.idxOf c

/-- Canonical base64 text. -/
def Canonical (s : CString) : Prop :=
  ∃ letters pads, Padded letters pads ∧ s = letters ++ List.replicate pads '='

theorem sextet {c : Char} (hc : c ∈ kAlpha) :
    kAlpha.idxOf c < 64 ∧ kAlpha.getD (kAlpha.idxOf c) '=' = c := by
  have hlt : kAlpha.idxOf c < kAlpha.length := List.idxOf_lt_length_of_mem hc
  refine ⟨hlt, ?_⟩
  rw [List.getD_eq_getElem _ _ hlt]
  exact List.getElem_idxOf hlt

theorem alphaAt_eq {c : Char} (hc : c ∈ kAlpha) {b i : UInt32} (hi : i.toNat < 32)
    (h : b.toNat / 2 ^ i.toNat % 64 = kAlpha.idxOf c) : alphaAt b i = c := by
  rw [alphaAt, six_toNat b hi, h, (sextet hc).2]

theorem exists_byte {n : Nat} (h : n < 256) : ∃ x : UInt8, x.toNat = n :=
  ⟨UInt8.ofNat n, UInt8.toNat_ofNat_of_lt' h⟩

/-- Four letters are a group of three bytes. -/
theorem encode_group {c d e g : Char} (hc : c ∈ kAlpha) (hd : d ∈ kAlpha) (he : e ∈ kAlpha)
    (hg : g ∈ kAlpha) (data : Payload) :
    ∃ x y z, base64Encode (x :: y :: z :: data) = c :: d :: e :: g :: base64Encode data := by
  obtain ⟨hc', -⟩ := sextet hc
  obtain ⟨hd', -⟩ := sextet hd
  obtain ⟨he', -⟩ := sextet he
  obtain ⟨hg', -⟩ := sextet hg
  obtain ⟨x, hx⟩ := exists_byte
    (show kAlpha.idxOf c * 4 + kAlpha.idxOf d / 16 < 256 by omega)
  obtain ⟨y, hy⟩ := exists_byte
    (show kAlpha.idxOf d % 16 * 16 + kAlpha.idxOf e / 4 < 256 by omega)
  obtain ⟨z, hz⟩ := exists_byte
    (show kAlpha.idxOf e % 4 * 64 + kAlpha.idxOf g < 256 by omega)
  have hb := group_toNat x y z
  rw [hx, hy, hz] at hb
  refine ⟨x, y, z, ?_⟩
  rw [base64Encode]
  simp only [List.cons_append, List.nil_append]
  rw [alphaAt_eq hc (by decide), alphaAt_eq hd (by decide), alphaAt_eq he (by decide),
    alphaAt_eq hg (by decide)]
  all_goals
    rw [hb]
    simp only [UInt32.reduceToNat]
    omega

theorem encode_two {c d : Char} (hc : c ∈ kAlpha) (hd : d ∈ kAlpha)
    (hunused : 16 ∣ kAlpha.idxOf d) : ∃ x, base64Encode [x] = [c, d, '=', '='] := by
  obtain ⟨hc', -⟩ := sextet hc
  obtain ⟨hd', -⟩ := sextet hd
  obtain ⟨x, hx⟩ := exists_byte
    (show kAlpha.idxOf c * 4 + kAlpha.idxOf d / 16 < 256 by omega)
  have hb : (x.toUInt32 <<< 16).toNat = 65536 * x.toNat := by simpa using group_toNat x 0 0
  rw [hx] at hb
  refine ⟨x, ?_⟩
  rw [base64Encode, alphaAt_eq hc (by decide), alphaAt_eq hd (by decide)]
  all_goals
    rw [hb]
    simp only [UInt32.reduceToNat]
    omega

theorem encode_three {c d e : Char} (hc : c ∈ kAlpha) (hd : d ∈ kAlpha) (he : e ∈ kAlpha)
    (hunused : 4 ∣ kAlpha.idxOf e) : ∃ x y, base64Encode [x, y] = [c, d, e, '='] := by
  obtain ⟨hc', -⟩ := sextet hc
  obtain ⟨hd', -⟩ := sextet hd
  obtain ⟨he', -⟩ := sextet he
  obtain ⟨x, hx⟩ := exists_byte
    (show kAlpha.idxOf c * 4 + kAlpha.idxOf d / 16 < 256 by omega)
  obtain ⟨y, hy⟩ := exists_byte
    (show kAlpha.idxOf d % 16 * 16 + kAlpha.idxOf e / 4 < 256 by omega)
  have hb : (x.toUInt32 <<< 16 ||| y.toUInt32 <<< 8).toNat = 65536 * x.toNat + 256 * y.toNat := by
    simpa using group_toNat x y 0
  rw [hx, hy] at hb
  refine ⟨x, y, ?_⟩
  rw [base64Encode, alphaAt_eq hc (by decide), alphaAt_eq hd (by decide), alphaAt_eq he (by decide)]
  all_goals
    rw [hb]
    simp only [UInt32.reduceToNat]
    omega

theorem Padded.rest {c d e g : Char} {letters : CString} {pads : Nat}
    (h : Padded (c :: d :: e :: g :: letters) pads) : Padded letters pads := by
  obtain ⟨halpha, hle, hgroups, hunused⟩ := h
  have hgroups' : 4 ∣ letters.length + pads := by
    simp only [List.length_cons] at hgroups
    omega
  refine ⟨fun x hx => halpha x (by simp [hx]), hle, hgroups', ?_⟩
  intro x hx
  cases letters with
  | nil => cases hx
  | cons y letters => exact hunused x (by simpa using hx)

theorem Padded.encoded {letters : CString} {pads : Nat} (h : Padded letters pads) :
    ∃ data, base64Encode data = letters ++ List.replicate pads '=' := by
  induction hn : letters.length using Nat.strong_induction_on generalizing letters with
  | _ n ih =>
  have hle := h.pads_le
  have hgroups := h.groups
  rcases letters with _ | ⟨c, _ | ⟨d, _ | ⟨e, _ | ⟨g, letters⟩⟩⟩⟩
  · obtain rfl : pads = 0 := by simp only [List.length_nil] at hgroups; omega
    exact ⟨[], rfl⟩
  · simp only [List.length_cons, List.length_nil] at hgroups
    omega
  · obtain rfl : pads = 2 := by simp only [List.length_cons, List.length_nil] at hgroups; omega
    obtain ⟨x, hx⟩ := encode_two (h.alpha c (by simp)) (h.alpha d (by simp)) (h.unused d (by simp))
    exact ⟨[x], hx⟩
  · obtain rfl : pads = 1 := by simp only [List.length_cons, List.length_nil] at hgroups; omega
    obtain ⟨x, y, hxy⟩ := encode_three (h.alpha c (by simp)) (h.alpha d (by simp))
      (h.alpha e (by simp)) (h.unused e (by simp))
    exact ⟨[x, y], hxy⟩
  · obtain ⟨data, hdata⟩ := ih letters.length (by simp only [List.length_cons] at hn; omega) h.rest rfl
    obtain ⟨x, y, z, hgroup⟩ := encode_group (h.alpha c (by simp)) (h.alpha d (by simp))
      (h.alpha e (by simp)) (h.alpha g (by simp)) data
    exact ⟨x :: y :: z :: data, by rw [hgroup, hdata]; rfl⟩

/-- The decoder inverts the encoder, and the encoder the decoder on canonical texts. -/
theorem base64_inverse : (∀ data, base64Decode (base64Encode data) = data) ∧
    ∀ s, Canonical s → base64Encode (base64Decode s) = s := by
  refine ⟨base64Decode_encode, ?_⟩
  rintro s ⟨letters, pads, hpadded, rfl⟩
  obtain ⟨data, hdata⟩ := hpadded.encoded
  rw [← hdata, base64Decode_encode]

/-- Three letters and their padding. -/
theorem base64_inverse_text :
    base64Encode (base64Decode ['T', 'G', 'k', '=']) = ['T', 'G', 'k', '='] := by
  have halpha : ∀ c ∈ ['T', 'G', 'k'], c ∈ kAlpha := by
    simp only [List.forall_mem_cons]
    exact ⟨by decide +kernel, by decide +kernel, by decide +kernel, List.forall_mem_nil _⟩
  refine base64_inverse.2 _ ⟨['T', 'G', 'k'], 1, ⟨halpha, by decide, by decide, ?_⟩, rfl⟩
  rintro c ⟨⟩
  decide +kernel

end CppLin.Cli
