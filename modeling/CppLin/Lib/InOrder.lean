import Mathlib

/-!
In-order acceptance. A receiver that takes the first item it is offered and from
then on only the item numbered next keeps a block of consecutive items, whatever
it is offered in between.
-/
namespace CppLin.InOrder

variable {τ α β : Type*} [DecidableEq α] [DecidableEq β]

/-- The items kept: `key` numbers an item, `next` gives the number after another,
and only the number `expected` may come next (`none`: any number). -/
def keep (key : τ → α) (next : α → α) : Option α → List τ → List τ
  | _, [] => []
  | none, x :: xs => x :: keep key next (some (next (key x))) xs
  | some e, x :: xs =>
      if key x = e then x :: keep key next (some (next e)) xs else keep key next (some e) xs

section
variable (key : τ → α) (next : α → α)

@[simp] theorem keep_nil (o : Option α) : keep key next o [] = [] := by
  cases o <;> rfl

theorem keep_none_cons (x : τ) (xs : List τ) :
    keep key next none (x :: xs) = x :: keep key next (some (next (key x))) xs := rfl

theorem keep_expected {e : α} {x : τ} (h : key x = e) (xs : List τ) :
    keep key next (some e) (x :: xs) = x :: keep key next (some (next e)) xs := by
  simp only [keep, if_pos h]

theorem keep_other {e : α} {x : τ} (h : key x ≠ e) (xs : List τ) :
    keep key next (some e) (x :: xs) = keep key next (some e) xs := by
  simp only [keep, if_neg h]

theorem keep_sublist (o : Option α) (xs : List τ) : List.Sublist (keep key next o xs) xs := by
  induction xs generalizing o with
  | nil => rw [keep_nil]
  | cons x xs ih =>
      cases o with
      | none => exact (ih _).cons_cons x
      | some e =>
          by_cases h : key x = e
          · rw [keep_expected key next h]
            exact (ih _).cons_cons x
          · rw [keep_other key next h]
            exact (ih _).cons x

/-- Whatever is offered, the numbers kept are a run of successors of the expected one. -/
theorem keep_some_iterate (e : α) (xs : List τ) :
    ∃ k, (keep key next (some e) xs).map key = List.iterate next e k := by
  induction xs generalizing e with
  | nil => exact ⟨0, rfl⟩
  | cons x xs ih =>
      by_cases h : key x = e
      · obtain ⟨k, hk⟩ := ih (next e)
        exact ⟨k + 1, by rw [keep_expected key next h, List.map_cons, hk, h, List.iterate]⟩
      · obtain ⟨k, hk⟩ := ih e
        exact ⟨k, by rw [keep_other key next h, hk]⟩

/-- With no expectation the run starts at the first number offered. -/
theorem keep_none_iterate (x : τ) (xs : List τ) :
    ∃ k, (keep key next none (x :: xs)).map key = List.iterate next (key x) (k + 1) := by
  obtain ⟨k, hk⟩ := keep_some_iterate key next (next (key x)) xs
  exact ⟨k, by rw [keep_none_cons, List.map_cons, hk, List.iterate]⟩

end

theorem iterate_succ_eq_range' (s k : Nat) : List.iterate Nat.succ s k = List.range' s k := by
  induction k generalizing s with
  | zero => rfl
  | succ k ih => rw [List.iterate, ih, List.range'_succ]

/-- Renumbering: a map that is injective on the numbers compared and commutes
with `next` there changes nothing in what is kept. -/
theorem keep_renumber (key : τ → α) (next : α → α) (f : α → β) (next' : β → β) (S : Set α)
    (hf : Set.InjOn f S) (hnext : ∀ a ∈ S, f (next a) = next' (f a)) (o : Option α) (xs : List τ)
    (ho : ∀ e ∈ o, e ∈ S) (hxs : ∀ x ∈ xs, key x ∈ S ∧ next (key x) ∈ S) :
    keep (f ∘ key) next' (o.map f) xs = keep key next o xs := by
  induction xs generalizing o with
  | nil => simp only [keep_nil]
  | cons x xs ih =>
      obtain ⟨hx, hnx⟩ := hxs x List.mem_cons_self
      have hrest : ∀ y ∈ xs, key y ∈ S ∧ next (key y) ∈ S :=
        fun y hy => hxs y (List.mem_cons_of_mem x hy)
      have hstep := ih (some (next (key x))) (by simpa using hnx) hrest
      rw [Option.map_some, hnext _ hx] at hstep
      cases o with
      | none => rw [Option.map_none, keep_none_cons, keep_none_cons, Function.comp, hstep]
      | some e =>
          rw [Option.map_some]
          by_cases h : key x = e
          · have he : (f ∘ key) x = f e := congrArg f h
            rw [keep_expected _ _ he, keep_expected _ _ h, ← he, ← h, Function.comp, hstep]
          · have hne : (f ∘ key) x ≠ f e := fun he => h (hf hx (ho e rfl) he)
            rw [keep_other _ _ hne, keep_other _ _ h]
            exact ih (some e) ho hrest

end CppLin.InOrder
