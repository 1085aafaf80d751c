import CppLin.Lib.LittleEndian

namespace CppLin
open Bytes

/-- `width` bits from the bit `offset` on. -/
structure BitField where
  offset : Nat
  width : Nat
  deriving DecidableEq, Repr

namespace BitField

def read (f : BitField) (n : Nat) : Nat := n / 2 ^ f.offset % 2 ^ f.width

/-- The bits of the field become the low bits of `v`. -/
def write (f : BitField) (v n : Nat) : Nat :=
  (n ^^^ (f.read n <<< f.offset)) ||| ((v % 2 ^ f.width) <<< f.offset)

def Apart (f g : BitField) : Prop :=
  f.offset + f.width ≤ g.offset ∨ g.offset + g.width ≤ f.offset

instance (f g : BitField) : Decidable (f.Apart g) := inferInstanceAs (Decidable (_ ∨ _))

theorem Apart.symm {f g : BitField} (h : f.Apart g) : g.Apart f := Or.symm h

theorem testBit_read (f : BitField) (n i : Nat) :
    (f.read n).testBit i = (decide (i < f.width) && n.testBit (i + f.offset)) := by
  rw [read, Nat.testBit_mod_two_pow, Nat.testBit_div_two_pow]

theorem testBit_write (f : BitField) (v n i : Nat) : (f.write v n).testBit i =
    if f.offset ≤ i ∧ i < f.offset + f.width then v.testBit (i - f.offset) else n.testBit i := by
  rw [write, Nat.testBit_or, Nat.testBit_xor, Nat.testBit_shiftLeft, Nat.testBit_shiftLeft,
    testBit_read, Nat.testBit_mod_two_pow]
  by_cases hlow : f.offset ≤ i
  · rw [Nat.sub_add_cancel hlow]
    by_cases hhigh : i < f.offset + f.width
    · have hin : i - f.offset < f.width := by omega
      simp [hlow, hhigh, hin]
    · have hout : ¬ i - f.offset < f.width := by omega
      simp [hhigh, hout]
  · simp [hlow]

theorem read_write (f : BitField) (v n : Nat) : f.read (f.write v n) = v % 2 ^ f.width := by
  apply Nat.eq_of_testBit_eq
  intro i
  rw [testBit_read, testBit_write, Nat.testBit_mod_two_pow]
  by_cases hi : i < f.width
  · rw [if_pos (by omega), Nat.add_sub_cancel]
  · simp [hi]

theorem read_write_apart {f g : BitField} (h : f.Apart g) (v n : Nat) :
    f.read (g.write v n) = f.read n := by
  apply Nat.eq_of_testBit_eq
  intro i
  rw [testBit_read, testBit_read, testBit_write]
  by_cases hi : i < f.width
  · have hout : ¬ (g.offset ≤ i + f.offset ∧ i + f.offset < g.offset + g.width) := by
      unfold Apart at h
      omega
    rw [if_neg hout]
  · simp [hi]

theorem write_lt {f : BitField} {m : Nat} (hf : f.offset + f.width ≤ m) {n : Nat} (hn : n < 2 ^ m)
    (v : Nat) : f.write v n < 2 ^ m := by
  apply Nat.lt_pow_two_of_testBit
  intro i hi
  rw [testBit_write, if_neg (by omega)]
  exact Nat.testBit_lt_two_pow (hn.trans_le (Nat.pow_le_pow_right (by decide) hi))

/-! Many fields, one after another. -/

def writeAll (fields : List (BitField × Nat)) (n : Nat) : Nat :=
  fields.foldl (fun n x => x.1.write x.2 n) n

theorem writeAll_lt {fields : List (BitField × Nat)} {m : Nat}
    (hf : ∀ x ∈ fields, x.1.offset + x.1.width ≤ m) {n : Nat} (hn : n < 2 ^ m) :
    writeAll fields n < 2 ^ m := by
  induction fields generalizing n with
  | nil => exact hn
  | cons x fields ih =>
      rw [List.forall_mem_cons] at hf
      exact ih hf.2 (write_lt hf.1 hn x.2)

theorem read_writeAll_apart {f : BitField} {fields : List (BitField × Nat)}
    (h : ∀ x ∈ fields, f.Apart x.1) (n : Nat) : f.read (writeAll fields n) = f.read n := by
  induction fields generalizing n with
  | nil => rfl
  | cons x fields ih =>
      rw [List.forall_mem_cons] at h
      exact (ih h.2 _).trans (read_write_apart h.1 x.2 n)

/-- Fields that do not overlap keep what was written to each. -/
theorem read_writeAll {fields : List (BitField × Nat)}
    (h : fields.Pairwise fun x y => x.1.Apart y.1) {f : BitField} {v : Nat} (hf : (f, v) ∈ fields)
    (n : Nat) : f.read (writeAll fields n) = v % 2 ^ f.width := by
  induction fields generalizing n with
  | nil => exact absurd hf List.not_mem_nil
  | cons x fields ih =>
      obtain ⟨hx, hrest⟩ := List.pairwise_cons.mp h
      cases List.mem_cons.mp hf with
      | inl he =>
          subst he
          exact (read_writeAll_apart hx _).trans (read_write f v n)
      | inr hf => exact ih hrest hf _

end BitField

namespace Bytes

/-- The lowest `len` bytes of a number, the lowest first. -/
def spell : Nat → Nat → Payload
  | 0, _ => []
  | len + 1, n => UInt8.ofNat n :: spell len (n / 256)

@[simp] theorem spell_length (len n : Nat) : (spell len n).length = len := by
  induction len generalizing n with
  | zero => rfl
  | succ len ih => rw [spell, List.length_cons, ih]

theorem littleEndian_spell {len n : Nat} (h : n < 2 ^ (8 * len)) :
    littleEndian (spell len n) = n := by
  induction len generalizing n with
  | zero =>
      have hzero : n = 0 := by simpa using h
      rw [hzero]
      rfl
  | succ len ih =>
      have hdiv : n / 256 < 2 ^ (8 * len) := by
        apply Nat.div_lt_of_lt_mul
        rwa [show (256 : Nat) = 2 ^ 8 from rfl, ← pow_add, Nat.add_comm, ← Nat.mul_succ]
      rw [spell, littleEndian_cons, ih hdiv, UInt8.toNat_ofNat']
      exact Nat.mod_add_div n 256

theorem littleEndian_lt_two_pow (d : Payload) : littleEndian d < 2 ^ (8 * d.length) := by
  rw [Nat.pow_mul]
  exact littleEndian_lt d

end Bytes

end CppLin
