import Mathlib

/-!
Sums of numbers up to `m` in which a carry is brought around: the register holds the sum
modulo `m`, and of the two numbers that stand for zero it holds `0` for the empty sum only.
-/
namespace CppLin.CarryAround

def add (m s b : Nat) : Nat := if m < s + b then s + b - m else s + b

/-- What the register holds for the exact sum `n`. -/
def reduce (m n : Nat) : Nat := if n = 0 then 0 else (n - 1) % m + 1

variable {m : Nat}

@[simp] theorem reduce_zero : reduce m 0 = 0 := rfl

theorem reduce_of_pos {n : Nat} (hn : 0 < n) : reduce m n = (n - 1) % m + 1 :=
  if_neg (by omega)

theorem reduce_le (hm : 0 < m) (n : Nat) : reduce m n ≤ m := by
  unfold reduce
  split_ifs
  · exact Nat.zero_le m
  · exact Nat.mod_lt _ hm

theorem reduce_of_le {n : Nat} (hn : n ≤ m) : reduce m n = n := by
  unfold reduce
  split_ifs with h
  · exact h.symm
  · rw [Nat.mod_eq_of_lt (by omega)]
    omega

theorem add_le {s b : Nat} (hs : s ≤ m) (hb : b ≤ m) : add m s b ≤ m := by
  unfold add
  split_ifs <;> omega

theorem add_reduce (hm : 0 < m) (n : Nat) {b : Nat} (hb : b ≤ m) :
    add m (reduce m n) b = reduce m (n + b) := by
  rcases Nat.eq_zero_or_pos n with rfl | hn
  · rw [reduce_zero, Nat.zero_add, add, if_neg (by omega), Nat.zero_add, reduce_of_le hb]
  · have hlt : (n - 1) % m < m := Nat.mod_lt _ hm
    have hsplit : (n + b - 1) % m = ((n - 1) % m + b) % m := by
      rw [Nat.mod_add_mod]
      congr 1
      omega
    rw [add, reduce_of_pos hn, reduce_of_pos (by omega), hsplit]
    split_ifs with hcarry
    · have hmod : ((n - 1) % m + b) % m = (n - 1) % m + b - m := by
        rw [Nat.mod_eq_sub_mod (by omega), Nat.mod_eq_of_lt (by omega)]
      omega
    · rw [Nat.mod_eq_of_lt (a := (n - 1) % m + b) (by omega)]
      omega

theorem foldl_add_reduce (hm : 0 < m) {bs : List Nat} (hbs : ∀ b ∈ bs, b ≤ m) (n : Nat) :
    bs.foldl (add m) (reduce m n) = reduce m (n + bs.sum) := by
  induction bs generalizing n with
  | nil => rfl
  | cons b bs ih =>
    rw [List.foldl_cons, add_reduce hm n (hbs b List.mem_cons_self), List.sum_cons, ← Nat.add_assoc]
    exact ih (fun x hx => hbs x (List.mem_cons_of_mem b hx)) (n + b)

theorem reduce_eq_zero_iff (n : Nat) : reduce m n = 0 ↔ n = 0 := by
  unfold reduce
  split_ifs with h
  · exact iff_of_true rfl h
  · exact iff_of_false id h

/-- The register tells sums apart modulo `m`, and the empty one from the others. -/
theorem reduce_eq_iff (a b : Nat) :
    reduce m a = reduce m b ↔ a ≡ b [MOD m] ∧ (a = 0 ↔ b = 0) := by
  rcases Nat.eq_zero_or_pos a with rfl | ha
  · rw [reduce_zero, eq_comm, reduce_eq_zero_iff]
    constructor
    · rintro rfl
      exact ⟨rfl, Iff.rfl⟩
    · exact fun h => h.2.mp rfl
  rcases Nat.eq_zero_or_pos b with rfl | hb
  · rw [reduce_zero, reduce_eq_zero_iff]
    constructor
    · rintro rfl
      exact ⟨rfl, Iff.rfl⟩
    · exact fun h => h.2.mpr rfl
  have hmod : a ≡ b [MOD m] ↔ a - 1 ≡ b - 1 [MOD m] := by
    conv_lhs => rw [← Nat.sub_add_cancel ha, ← Nat.sub_add_cancel hb]
    exact ⟨Nat.ModEq.add_right_cancel' 1, Nat.ModEq.add_right 1⟩
  rw [reduce_of_pos ha, reduce_of_pos hb, Nat.add_right_cancel_iff, hmod]
  exact (and_iff_left (iff_of_false ha.ne' hb.ne')).symm

end CppLin.CarryAround
