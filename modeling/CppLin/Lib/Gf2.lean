import Mathlib
import CppLin.Lib.Remainder

/-!
Division of binary polynomials: the remainder register holds the remainder of
the bits it was fed, as Mathlib divides by a monic polynomial.
-/
namespace CppLin.Gf2
open Polynomial Remainder

variable {w : Nat}

/-- Bit `i` of the word is the coefficient of `X ^ i`. -/
noncomputable def ofWord (r : BitVec w) : Polynomial (ZMod 2) :=
  ∑ i ∈ Finset.range w, C (bit (r.getLsbD i)) * X ^ i

/-- Bits as coefficients, the first of them highest. -/
noncomputable def ofBits : List Bool → Polynomial (ZMod 2)
  | [] => 0
  | b :: bs => C (bit b) * X ^ bs.length + ofBits bs

/-- What the register divides by. -/
noncomputable def modulus (g : BitVec w) : Polynomial (ZMod 2) := X ^ w + ofWord g

section words

theorem coeff_ofWord (r : BitVec w) (i : Nat) : (ofWord r).coeff i = bit (r.getLsbD i) := by
  have hsum : (ofWord r).coeff i = if i ∈ Finset.range w then bit (r.getLsbD i) else 0 := by
    simp only [ofWord, finsetSum_coeff, coeff_C_mul, coeff_X_pow, mul_ite, mul_one, mul_zero]
    exact Finset.sum_ite_eq _ _ _
  rw [hsum]
  split_ifs with hi
  · rfl
  · rw [BitVec.getLsbD_of_ge r i (by simpa using hi)]
    rfl

theorem degree_ofWord_lt (r : BitVec w) : (ofWord r).degree < w := by
  rw [degree_lt_iff_coeff_zero]
  intro i hi
  rw [coeff_ofWord, BitVec.getLsbD_of_ge r i hi]
  rfl

theorem bit_injective : Function.Injective bit := by decide

theorem ofWord_injective : Function.Injective (ofWord : BitVec w → Polynomial (ZMod 2)) := by
  intro a b h
  apply BitVec.eq_of_getLsbD_eq
  intro i _
  apply bit_injective
  rw [← coeff_ofWord, ← coeff_ofWord, h]

theorem ofWord_xor (a b : BitVec w) : ofWord (a ^^^ b) = ofWord a + ofWord b := by
  ext i
  rw [coeff_add, coeff_ofWord, coeff_ofWord, coeff_ofWord, BitVec.getLsbD_xor, bit_xor]

theorem ofWord_twoPow (i : Nat) (hi : i < w) : ofWord (BitVec.twoPow w i) = X ^ i := by
  ext j
  rw [coeff_ofWord, coeff_X_pow, BitVec.getLsbD_twoPow]
  by_cases hj : j = i
  · subst hj
    simp [hi, bit]
  · simp [hj, Ne.symm hj, bit]

/-- The bit that leaves the word is the coefficient the product has beyond it. -/
theorem X_mul_ofWord (r : BitVec w) :
    X * ofWord r = ofWord (r <<< 1) + C (bit r.msb) * X ^ w := by
  ext i
  rw [coeff_add, coeff_C_mul, coeff_X_pow, coeff_ofWord, BitVec.getLsbD_shiftLeft]
  cases i with
  | zero =>
    cases w with
    | zero => simp [bit, BitVec.msb_eq_getLsbD_last]
    | succ n => simp [bit]
  | succ i =>
    rw [coeff_X_mul, coeff_ofWord, BitVec.msb_eq_getLsbD_last]
    rcases Nat.lt_trichotomy (i + 1) w with hlt | heq | hgt
    · simp [hlt, hlt.ne, bit]
    · subst heq
      simp [bit]
    · simp [show ¬ i + 1 < w by omega, hgt.ne', BitVec.getLsbD_of_ge r i (by omega), bit]

end words

section division

theorem monic_modulus (g : BitVec w) : (modulus g).Monic := monic_X_pow_add (degree_ofWord_lt g)

theorem degree_modulus (g : BitVec w) : (modulus g).degree = w := by
  rw [modulus, degree_add_eq_left_of_degree_lt] <;> rw [degree_X_pow]
  exact degree_ofWord_lt g

/-- Any word congruent to a polynomial is its remainder. -/
theorem modByMonic_modulus {g r : BitVec w} {p : Polynomial (ZMod 2)}
    (h : modulus g ∣ p - ofWord r) : p %ₘ modulus g = ofWord r := by
  obtain ⟨q, hq⟩ := h
  apply (div_modByMonic_unique q (ofWord r) (monic_modulus g) ⟨?_, ?_⟩).2
  · rw [← hq]
    ring
  · rw [degree_modulus]
    exact degree_ofWord_lt r

/-- One step takes the modulus away once when the product has the degree for it. -/
theorem ofWord_step (g r : BitVec w) :
    ofWord (step g r) = X * ofWord r + C (bit r.msb) * modulus g := by
  have htwice : C (bit r.msb) * X ^ w + C (bit r.msb) * X ^ w = (0 : Polynomial (ZMod 2)) :=
    CharTwo.add_self_eq_zero _
  have hstep : ofWord (step g r) = ofWord (r <<< 1) + C (bit r.msb) * ofWord g := by
    unfold step
    cases r.msb with
    | true => rw [if_pos rfl, ofWord_xor, bit, if_pos rfl, C_1, one_mul]
    | false => simp [bit]
  calc ofWord (step g r)
      = ofWord (r <<< 1) + C (bit r.msb) * ofWord g
          + (C (bit r.msb) * X ^ w + C (bit r.msb) * X ^ w) := by rw [hstep, htwice, add_zero]
    _ = X * ofWord r + C (bit r.msb) * modulus g := by
      rw [X_mul_ofWord, modulus]
      ring

theorem ofWord_feed (hw : 0 < w) (g r : BitVec w) (b : Bool) :
    modulus g ∣ X * ofWord r + C (bit b) * X ^ w - ofWord (feed g r b) := by
  have htop : X * ofWord (top w) = X ^ w := by
    rw [top, ofWord_twoPow _ (by omega), ← pow_succ', Nat.sub_add_cancel hw]
  have hfed : X * ofWord (if b then r ^^^ top w else r) = X * ofWord r + C (bit b) * X ^ w := by
    cases b with
    | true => rw [if_pos rfl, ofWord_xor, mul_add, htop, bit, if_pos rfl, C_1, one_mul]
    | false => simp [bit]
  rw [feed, ofWord_step, ← hfed]
  exact ⟨-C (bit (if b then r ^^^ top w else r).msb), by ring⟩

/-- What was in the register counts in front of the bits fed. -/
theorem ofWord_run (hw : 0 < w) (g r : BitVec w) (bs : List Bool) :
    modulus g ∣ ofWord r * X ^ bs.length + ofBits bs * X ^ w - ofWord (run g r bs) := by
  induction bs generalizing r with
  | nil => simp [ofBits]
  | cons b bs ih =>
    have hfeed := (ofWord_feed hw g r b).mul_right (X ^ bs.length)
    have hsum := dvd_add hfeed (ih (feed g r b))
    have hsplit : ofWord r * X ^ (b :: bs).length + ofBits (b :: bs) * X ^ w
        - ofWord (run g r (b :: bs)) =
        (X * ofWord r + C (bit b) * X ^ w - ofWord (feed g r b)) * X ^ bs.length +
          (ofWord (feed g r b) * X ^ bs.length + ofBits bs * X ^ w
            - ofWord (run g (feed g r b) bs)) := by
      rw [run_cons, ofBits, List.length_cons, pow_succ]
      ring
    rw [hsplit]
    exact hsum

theorem ofWord_run_eq (hw : 0 < w) (g r : BitVec w) (bs : List Bool) :
    ofWord (run g r bs) = (ofWord r * X ^ bs.length + ofBits bs * X ^ w) %ₘ modulus g :=
  (modByMonic_modulus (ofWord_run hw g r bs)).symm

end division
end CppLin.Gf2
