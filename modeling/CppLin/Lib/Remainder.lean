import Mathlib

/-!
Remainders over GF(2): a shift register of `w` bits with feedback `g`, fed one
bit at a time, holds what the bits fed leave modulo `x ^ w + g`.
-/
namespace CppLin.Remainder

variable {w : Nat}

/-- The highest power of `x` that fits. -/
def top (w : Nat) : BitVec w := BitVec.twoPow w (w - 1)

/-- Multiplication by `x`. -/
def step (g r : BitVec w) : BitVec w := if r.msb then (r <<< 1) ^^^ g else r <<< 1

def feed (g r : BitVec w) (b : Bool) : BitVec w := step g (if b then r ^^^ top w else r)

def run (g r : BitVec w) (bs : List Bool) : BitVec w := bs.foldl (feed g) r

/-- Bits placed at the high end of a word, the first of them highest. -/
def high : List Bool → BitVec w
  | [] => 0#w
  | b :: bs => (if b then top w else 0#w) ^^^ (high bs >>> 1)

/-- The bits of a word, highest first. -/
def bitsOf (r : BitVec w) : List Bool := (List.range w).map r.getMsbD

section linear

variable (g : BitVec w)

theorem xor_cancel (a b c : BitVec w) : a ^^^ c ^^^ (b ^^^ c) = a ^^^ b := by
  rw [BitVec.xor_comm b, BitVec.xor_assoc, ← BitVec.xor_assoc c, BitVec.xor_self, BitVec.zero_xor]

theorem step_xor (a b : BitVec w) : step g (a ^^^ b) = step g a ^^^ step g b := by
  unfold step
  rw [BitVec.msb_xor, BitVec.shiftLeft_xor_distrib]
  cases a.msb <;> cases b.msb
  · rfl
  · exact BitVec.xor_assoc _ _ _
  · simp only [Bool.xor_false, if_true, Bool.false_eq_true, if_false]
    ac_rfl
  · exact (xor_cancel _ _ g).symm

@[simp] theorem step_zero : step g 0#w = 0#w := by simp [step]

theorem iterate_step_xor (n : Nat) (a b : BitVec w) :
    (step g)^[n] (a ^^^ b) = (step g)^[n] a ^^^ (step g)^[n] b := by
  induction n generalizing a b with
  | zero => rfl
  | succ n ih => rw [Function.iterate_succ_apply, step_xor, ih]; rfl

theorem iterate_step_zero (n : Nat) : (step g)^[n] 0#w = 0#w :=
  Function.iterate_fixed (step_zero g) n

@[simp] theorem run_nil (r : BitVec w) : run g r [] = r := rfl

theorem run_cons (r : BitVec w) (b : Bool) (bs : List Bool) :
    run g r (b :: bs) = run g (feed g r b) bs := rfl

theorem run_append (r : BitVec w) (as bs : List Bool) :
    run g r (as ++ bs) = run g (run g r as) bs := List.foldl_append

theorem run_false (r : BitVec w) (n : Nat) :
    run g r (List.replicate n false) = (step g)^[n] r := by
  induction n generalizing r with
  | zero => rfl
  | succ n ih => exact ih (step g r)

theorem feed_xor (r s : BitVec w) (a b : Bool) :
    feed g (r ^^^ s) (a ^^ b) = feed g r a ^^^ feed g s b := by
  unfold feed
  rw [← step_xor]
  congr 1
  cases a <;> cases b
  · rfl
  · exact BitVec.xor_assoc _ _ _
  · simp only [Bool.xor_false, if_true, Bool.false_eq_true, if_false]
    ac_rfl
  · exact (xor_cancel _ _ (top w)).symm

/-- Two inputs of one length: their registers differ by what the difference leaves. -/
theorem run_xor (r s : BitVec w) (as bs : List Bool) (h : as.length = bs.length) :
    run g (r ^^^ s) (List.zipWith (· ^^ ·) as bs) = run g r as ^^^ run g s bs := by
  induction as generalizing r s bs with
  | nil =>
    obtain rfl : bs = [] := List.eq_nil_of_length_eq_zero h.symm
    rfl
  | cons a as ih =>
    cases bs with
    | nil => simp at h
    | cons b bs =>
      rw [List.zipWith_cons_cons, run_cons, feed_xor]
      exact ih _ _ bs (by simpa using h)

end linear

section high

theorem getMsbD_top (hw : 0 < w) (i : Nat) : (top w).getMsbD i = decide (i = 0) := by
  rw [top, BitVec.getMsbD_eq_getLsbD, BitVec.getLsbD_twoPow]
  grind

theorem getMsbD_high (hw : 0 < w) (bs : List Bool) (i : Nat) (hi : i < w) :
    (high bs : BitVec w).getMsbD i = bs.getD i false := by
  induction bs generalizing i with
  | nil => simp [high]
  | cons b bs ih =>
    have hb : (if b then top w else 0#w).getMsbD i = (b && decide (i = 0)) := by
      cases b <;> simp [getMsbD_top hw]
    rw [high, BitVec.getMsbD_xor, hb, BitVec.getMsbD_ushiftRight]
    cases i with
    | zero => simp
    | succ i => simpa [hi] using ih i (by omega)

theorem high_bitsOf (hw : 0 < w) (r : BitVec w) : high (bitsOf r) = r := by
  apply BitVec.eq_of_getMsbD_eq
  intro i hi
  rw [getMsbD_high hw _ i hi]
  simp [bitsOf, hi]

/-- A word shifted away from its end comes back whole when no bit fell out. -/
theorem step_ushiftRight (g r : BitVec w) (h : r.getLsbD 0 = false) :
    step g (r >>> 1) = r := by
  have hmsb : (r >>> 1).msb = false := by simp [BitVec.msb_ushiftRight]
  rw [step, hmsb]
  apply BitVec.eq_of_getLsbD_eq
  intro i hi
  cases i with
  | zero => simp [h]
  | succ i => simp [hi, Nat.add_comm]

/-- Up to `w` bits fed one by one are as good as all of them at once. -/
theorem run_eq_iterate (g r : BitVec w) (bs : List Bool) (h : bs.length ≤ w) :
    run g r bs = (step g)^[bs.length] (r ^^^ high bs) := by
  induction bs generalizing r with
  | nil => simp [high]
  | cons b bs ih =>
    have hlen : bs.length < w := h
    have hw : 0 < w := by omega
    have hlow : (high bs : BitVec w).getLsbD 0 = false := by
      rw [BitVec.getLsbD_eq_getMsbD, decide_eq_true hw, getMsbD_high hw _ _ (by omega),
        List.getD_eq_default _ _ (by omega), Bool.and_false]
    have hfeed : feed g r b ^^^ high bs = step g (r ^^^ high (b :: bs)) := by
      conv_lhs => rw [← step_ushiftRight g (high bs) hlow]
      rw [feed, ← step_xor, high, ← BitVec.xor_assoc]
      cases b <;> simp
    rw [run_cons, ih _ (by omega), hfeed]
    rfl

theorem high_eq_zero (hw : 0 < w) {bs : List Bool} (hlen : bs.length ≤ w)
    (h : (high bs : BitVec w) = 0#w) : true ∉ bs := by
  intro hmem
  obtain ⟨i, hi, hget⟩ := List.getElem_of_mem hmem
  have hbit := getMsbD_high hw bs i (by omega)
  rw [h, List.getD_eq_getElem _ _ hi, hget] at hbit
  simp at hbit

end high

section detection

variable {g : BitVec w}

theorem step_injective (hg : g.getLsbD 0 = true) : Function.Injective (step g) := by
  have kernel : ∀ d : BitVec w, step g d = 0#w → d = 0#w := by
    intro d hd
    unfold step at hd
    split_ifs at hd with hmsb
    · -- the feedback sets the lowest bit
      have := congrArg (·.getLsbD 0) hd
      simp [hg] at this
    · apply BitVec.eq_of_getLsbD_eq
      intro i hi
      by_cases hlast : i + 1 < w
      · rw [BitVec.getLsbD_eq_getElem hi]
        simpa [hlast] using congrArg (·.getLsbD (i + 1)) hd
      · rw [BitVec.msb_eq_getLsbD_last] at hmsb
        simpa [show i = w - 1 by omega] using hmsb
  intro a b h
  exact BitVec.xor_eq_zero_iff.mp (kernel _ (by rw [step_xor, h, BitVec.xor_self]))

theorem iterate_step_eq_zero (hg : g.getLsbD 0 = true) {n : Nat} {r : BitVec w}
    (h : (step g)^[n] r = 0#w) : r = 0#w :=
  (step_injective hg).iterate n (h.trans (iterate_step_zero g n).symm)

/-- A burst of at most `w` bits leaves something, whatever stands around it. -/
theorem run_burst (hg : g.getLsbD 0 = true) (m k : Nat) {burst : List Bool}
    (hlen : burst.length ≤ w) (hbit : true ∈ burst) :
    run g 0#w (List.replicate m false ++ burst ++ List.replicate k false) ≠ 0#w := by
  have hw : 0 < w := (List.length_pos_of_mem hbit).trans_le hlen
  rw [run_append, run_append, run_false, run_false, iterate_step_zero]
  intro hrun
  have hburst := iterate_step_eq_zero hg hrun
  rw [run_eq_iterate g 0#w burst hlen, BitVec.zero_xor] at hburst
  exact high_eq_zero hw hlen (iterate_step_eq_zero hg hburst) hbit

theorem run_within (hg : g.getLsbD 0 = true) {bs : List Bool} {s : Nat}
    (hnear : ∀ i, bs[i]? = some true → s ≤ i ∧ i < s + w) (hbit : true ∈ bs) :
    run g 0#w bs ≠ 0#w := by
  have hsplit : bs = bs.take s ++ (bs.drop s).take w ++ bs.drop (s + w) := by
    rw [← List.drop_drop, List.append_assoc, List.take_append_drop, List.take_append_drop]
  have hbefore : bs.take s = List.replicate (bs.take s).length false := by
    apply List.eq_replicate_of_mem
    intro b hb
    obtain ⟨i, hi, rfl⟩ := List.mem_take_iff_getElem.mp hb
    have := hnear i
    grind
  have hafter : bs.drop (s + w) = List.replicate (bs.drop (s + w)).length false := by
    apply List.eq_replicate_of_mem
    intro b hb
    obtain ⟨i, hi, rfl⟩ := List.mem_drop_iff_getElem.mp hb
    have := hnear (s + w + i)
    grind
  have hmem : true ∈ (bs.drop s).take w := by
    rw [hsplit, hbefore, hafter] at hbit
    simpa using hbit
  rw [hsplit, hbefore, hafter]
  exact run_burst hg _ _ (List.length_take_le _ _) hmem

/-- Bits followed by their own remainder leave nothing, and nothing else does. -/
theorem run_append_bitsOf (hg : g.getLsbD 0 = true) (hw : 0 < w) (bs : List Bool) (c : BitVec w) :
    run g 0#w (bs ++ bitsOf c) = 0#w ↔ run g 0#w bs = c := by
  rw [run_append, run_eq_iterate g _ (bitsOf c) (by simp [bitsOf]), high_bitsOf hw]
  constructor
  · intro h
    exact BitVec.xor_eq_zero_iff.mp (iterate_step_eq_zero hg h)
  · rintro rfl
    rw [BitVec.xor_self]
    exact iterate_step_zero g _

end detection

section parity

def bit (b : Bool) : ZMod 2 := if b then 1 else 0

theorem bit_xor (a b : Bool) : bit (a ^^ b) = bit a + bit b := by
  cases a <;> cases b <;> decide

/-- The value at `x = 1`. -/
def parity (r : BitVec w) : ZMod 2 := ∑ i ∈ Finset.range w, bit (r.getLsbD i)

theorem parity_xor (a b : BitVec w) : parity (a ^^^ b) = parity a + parity b := by
  simp only [parity, BitVec.getLsbD_xor, bit_xor, Finset.sum_add_distrib]

theorem parity_shiftLeft (r : BitVec w) : parity (r <<< 1) + bit r.msb = parity r := by
  cases w with
  | zero => simp [parity, bit, BitVec.msb_eq_getLsbD_last]
  | succ n =>
    have hlow : (r <<< 1).getLsbD 0 = false := by simp
    have hrest : ∀ i ∈ Finset.range n, bit ((r <<< 1).getLsbD (i + 1)) = bit (r.getLsbD i) := by
      intro i hi
      rw [BitVec.getLsbD_shiftLeft]
      simp [Finset.mem_range.mp hi]
    rw [parity, parity, Finset.sum_range_succ', Finset.sum_range_succ, hlow,
      Finset.sum_congr rfl hrest, BitVec.msb_eq_getLsbD_last]
    simp [bit]

variable {g : BitVec w}

/-- `x + 1` divides `x ^ w + g`: the register keeps the value at `x = 1`. -/
theorem parity_step (hg : parity g = 1) (r : BitVec w) : parity (step g r) = parity r := by
  rw [← parity_shiftLeft r, step]
  cases r.msb with
  | true => rw [if_pos rfl, parity_xor, hg]; rfl
  | false => simp [bit]

theorem parity_top (hw : 0 < w) : parity (top w) = 1 := by
  have : parity (top w) = ∑ i ∈ Finset.range w, if i = w - 1 then 1 else 0 := by
    apply Finset.sum_congr rfl
    intro i hi
    have hi := Finset.mem_range.mp hi
    simp only [top, BitVec.getLsbD_twoPow, bit]
    grind
  rw [this, Finset.sum_ite_eq', if_pos (Finset.mem_range.mpr (by omega))]

theorem parity_feed (hg : parity g = 1) (hw : 0 < w) (r : BitVec w) (b : Bool) :
    parity (feed g r b) = parity r + bit b := by
  rw [feed, parity_step hg]
  cases b with
  | true => rw [if_pos rfl, parity_xor, parity_top hw]; rfl
  | false => simp [bit]

theorem parity_run (hg : parity g = 1) (hw : 0 < w) (r : BitVec w) (bs : List Bool) :
    parity (run g r bs) = parity r + (bs.count true : ℕ) := by
  induction bs generalizing r with
  | nil => simp
  | cons b bs ih =>
    rw [run_cons, ih, parity_feed hg hw]
    cases b <;> simp [bit]; ring

/-- An odd number of bits leaves something. -/
theorem run_odd (hg : parity g = 1) (hw : 0 < w) {bs : List Bool} (h : Odd (bs.count true)) :
    run g 0#w bs ≠ 0#w := by
  intro hrun
  have hzero : parity (0#w) = 0 := by simp [parity, bit]
  have hpar := parity_run hg hw 0#w bs
  rw [hrun, hzero, zero_add, ZMod.natCast_eq_one_iff_odd.mpr h] at hpar
  exact absurd hpar (by decide)

end parity

section period

variable (g : BitVec w)

/-- `a` times the polynomial with the given coefficients, the highest first. -/
def times (a : BitVec w) (bs : List Bool) : BitVec w :=
  bs.foldl (fun acc b => step g acc ^^^ if b then a else 0#w) 0#w

def mul (a b : BitVec w) : BitVec w := times g a (bitsOf b)

/-- The power of `x` whose exponent has the given binary digits, by squaring. -/
def power (digits : List Bool) : BitVec w :=
  digits.foldl (fun r b => if b then step g (mul g r r) else mul g r r) 1#w

theorem times_concat (a : BitVec w) (bs : List Bool) (b : Bool) :
    times g a (bs ++ [b]) = step g (times g a bs) ^^^ if b then a else 0#w := by
  simp [times]

theorem iterate_times (n : Nat) (a : BitVec w) (bs : List Bool) :
    (step g)^[n] (times g a bs) = times g ((step g)^[n] a) bs := by
  induction bs using List.reverseRecOn with
  | nil => exact iterate_step_zero g n
  | append_singleton bs b ih =>
    have hb : (step g)^[n] (if b then a else 0#w) = if b then (step g)^[n] a else 0#w := by
      cases b with
      | true => rfl
      | false => exact iterate_step_zero g n
    rw [times_concat, times_concat, iterate_step_xor, hb, ← ih, ← Function.iterate_succ_apply,
      Function.iterate_succ_apply']

theorem getLsbD_times_one (bs : List Bool) (h : bs.length ≤ w) (i : Nat) (hi : i < w) :
    (times g 1#w bs).getLsbD i = bs.reverse.getD i false := by
  induction bs using List.reverseRecOn generalizing i with
  | nil => simp [times]
  | append_singleton bs b ih =>
    have hlen : bs.length < w := by simpa using h
    have hmsb : (times g 1#w bs).msb = false := by
      rw [BitVec.msb_eq_getLsbD_last, ih hlen.le _ (by omega)]
      exact List.getD_eq_default _ _ (by simp; omega)
    rw [times_concat, step, hmsb, List.reverse_append]
    cases i with
    | zero => cases b <;> simp [hi]
    | succ i =>
      have hprev := ih hlen.le i (by omega)
      rw [BitVec.getLsbD_eq_getElem (by omega)] at hprev
      cases b <;> simpa [hi] using hprev

theorem times_one_bitsOf (r : BitVec w) : times g 1#w (bitsOf r) = r := by
  apply BitVec.eq_of_getLsbD_eq
  intro i hi
  rw [getLsbD_times_one g _ (by simp [bitsOf]) i hi]
  simp [bitsOf, BitVec.getMsbD_eq_getLsbD, hi]
  grind

theorem iterate_mul (m : Nat) (r : BitVec w) :
    (step g)^[m] r = mul g ((step g)^[m] 1#w) r := by
  conv_lhs => rw [← times_one_bitsOf g r]
  exact iterate_times g m 1#w (bitsOf r)

theorem power_eq_iterate (digits : List Bool) :
    power g digits = (step g)^[digits.foldl (fun n b => Nat.bit b n) 0] 1#w := by
  induction digits using List.reverseRecOn with
  | nil => rfl
  | append_singleton ds b ih =>
    rw [power, List.foldl_append, List.foldl_append, ← power, ih]
    generalize ds.foldl (fun n b => Nat.bit b n) 0 = n
    have hdouble : mul g ((step g)^[n] 1#w) ((step g)^[n] 1#w) = (step g)^[2 * n] 1#w := by
      rw [← iterate_mul, ← Function.iterate_add_apply, two_mul]
    cases b with
    | true => exact (congrArg (step g) hdouble).trans (Function.iterate_succ_apply' _ _ _).symm
    | false => exact hdouble

theorem iterate_one (n : Nat) (hn : n < w) : (step g)^[n] 1#w = BitVec.twoPow w n := by
  induction n with
  | zero => simp [BitVec.twoPow]
  | succ n ih =>
    have hmsb : (BitVec.twoPow w n).msb = false := by
      rw [BitVec.msb_eq_getLsbD_last, BitVec.getLsbD_twoPow]
      simp; omega
    rw [Function.iterate_succ_apply', ih (by omega), step, hmsb]
    simp [BitVec.twoPow, BitVec.shiftLeft_add]

theorem split_true {bs : List Bool} {n : Nat} (h : bs.count true = n + 1) :
    ∃ k rest, bs = List.replicate k false ++ true :: rest ∧ rest.count true = n := by
  induction bs with
  | nil => simp at h
  | cons b bs ih =>
    cases b with
    | true => exact ⟨0, bs, rfl, by simpa using h⟩
    | false =>
      obtain ⟨k, rest, hbs, hrest⟩ := ih (by simpa using h)
      exact ⟨k + 1, rest, by rw [hbs, List.replicate_succ]; rfl, hrest⟩

theorem all_false {bs : List Bool} (h : bs.count true = 0) :
    bs = List.replicate bs.length false := by
  apply List.eq_replicate_of_mem
  intro b hb
  cases b with
  | true => exact absurd hb (List.count_eq_zero.mp h)
  | false => rfl

variable {g}

/-- Two bits no further apart than the period of `x` do not cancel. -/
theorem run_two (hg : g.getLsbD 0 = true) (hw : 0 < w) {bs : List Bool}
    (htwo : bs.count true = 2) (hlen : bs.length ≤ Function.minimalPeriod (step g) 1#w) :
    run g 0#w bs ≠ 0#w := by
  obtain ⟨i, tail, rfl, htail⟩ := split_true htwo
  obtain ⟨j, rest, rfl, hrest⟩ := split_true htail
  have hfirst : feed g 0#w true = step g (top w) := by simp [feed]
  have hzeros := all_false hrest
  rw [hzeros, run_append, run_false, iterate_step_zero, run_cons, hfirst, run_append,
    run_false, run_cons, run_false]
  intro hrun
  -- the first bit has come round to the place of the second
  have hmeet : (step g)^[j + 1] (top w) = top w :=
    BitVec.xor_eq_zero_iff.mp (iterate_step_eq_zero hg (n := rest.length + 1) hrun)
  have htop : (step g)^[w - 1] 1#w = top w := iterate_one g (w - 1) (by omega)
  have hone : Function.IsPeriodicPt (step g) (j + 1) 1#w := by
    apply (step_injective hg).iterate (w - 1)
    rw [← Function.iterate_add_apply, Nat.add_comm, Function.iterate_add_apply, htop, hmeet]
  refine Function.not_isPeriodicPt_of_pos_of_lt_minimalPeriod (by omega) ?_ hone
  simp at hlen
  omega

theorem minimalPeriod_eq {α : Type} {f : α → α} {x : α} {n : Nat}
    (hx : Function.IsPeriodicPt f n x)
    (hprime : ∀ p, p.Prime → p ∣ n → ¬ Function.IsPeriodicPt f (n / p) x) :
    Function.minimalPeriod f x = n := by
  obtain ⟨a, ha⟩ := hx.minimalPeriod_dvd
  suffices a = 1 by rw [ha, this, mul_one]
  by_contra hne
  obtain ⟨b, hb⟩ := a.minFac_dvd
  have hdiv : n / a.minFac = Function.minimalPeriod f x * b := by
    apply Nat.div_eq_of_eq_mul_left a.minFac_pos
    calc n = Function.minimalPeriod f x * (a.minFac * b) := by rw [← hb]; exact ha
      _ = _ := by ring
  apply hprime a.minFac (Nat.minFac_prime hne) ((Nat.minFac_dvd a).trans ⟨_, by rw [mul_comm]; exact ha⟩)
  rw [hdiv]
  exact (Function.isPeriodicPt_minimalPeriod f x).mul_const b

theorem isPeriodicPt_of_one {n : Nat} (h : Function.IsPeriodicPt (step g) n 1#w) (r : BitVec w) :
    Function.IsPeriodicPt (step g) n r := by
  have hone : (step g)^[n] 1#w = 1#w := h
  change (step g)^[n] r = r
  rw [iterate_mul, hone, mul, times_one_bitsOf]

end period

section fixed

variable {g q : BitVec w}

theorem eq_zero_of_shiftLeft {r : BitVec w} (h : r <<< 1 = r) : r = 0#w := by
  apply BitVec.eq_of_getLsbD_eq
  intro i
  induction i with
  | zero => intro hi; rw [← h]; simp
  | succ i ih =>
    intro hi
    have hprev := ih (by omega)
    rw [BitVec.getLsbD_zero] at hprev ⊢
    rw [← h, BitVec.getLsbD_shiftLeft]
    simpa [hi] using hprev

/-- Only zero and the quotient by `x + 1` are left as they are. -/
theorem step_eq_self_iff (hq : step g q = q) (hmsb : q.msb = true) (r : BitVec w) :
    step g r = r ↔ r = 0#w ∨ r = q := by
  have fixed_of_low : ∀ d : BitVec w, d.msb = false → step g d = d → d = 0#w := by
    intro d hlow hd
    rw [step, hlow, if_neg Bool.false_ne_true] at hd
    exact eq_zero_of_shiftLeft hd
  constructor
  · intro hr
    cases hm : r.msb with
    | false => exact .inl (fixed_of_low r hm hr)
    | true =>
      refine .inr (BitVec.xor_eq_zero_iff.mp (fixed_of_low (r ^^^ q) ?_ ?_))
      · rw [BitVec.msb_xor, hm, hmsb]
        rfl
      · rw [step_xor, hr, hq]
  · rintro (rfl | rfl)
    · exact step_zero g
    · exact hq

theorem iterate_eq_self_iff (hq : step g q = q) (hmsb : q.msb = true) {k n : Nat}
    (hk : Function.IsPeriodicPt (step g) k 1#w) (hn : Nat.Coprime n k) (r : BitVec w) :
    (step g)^[n] r = r ↔ r = 0#w ∨ r = q := by
  rw [← step_eq_self_iff hq hmsb]
  constructor
  · intro hr
    have hgcd := Function.IsPeriodicPt.gcd (show Function.IsPeriodicPt (step g) n r from hr)
      (isPeriodicPt_of_one hk r)
    rw [Nat.Coprime.gcd_eq_one hn] at hgcd
    exact hgcd
  · exact fun hr => Function.iterate_fixed hr n

end fixed
end CppLin.Remainder
