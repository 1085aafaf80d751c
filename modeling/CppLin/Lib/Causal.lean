import Mathlib

namespace CppLin.Causality

variable {ε : Type*} (needs : List ε → ε → Prop)

/-- `needs past e` is what an event requires of the events before it. -/
def Causal (log : List ε) : Prop := ∀ l e r, log = l ++ e :: r → needs l e

variable {needs}

theorem Causal.nil : Causal needs ([] : List ε) := by
  intro l e r h
  cases l <;> cases h

theorem Causal.concat {log : List ε} {e : ε} (h : Causal needs log) (he : needs log e) :
    Causal needs (log ++ [e]) := by
  intro l x r hl
  induction r using List.reverseRecOn with
  | nil =>
      obtain ⟨rfl, hx⟩ := List.append_inj' hl rfl
      obtain rfl := List.singleton_inj.mp hx
      exact he
  | append_singleton r y _ =>
      rw [← List.cons_append, ← List.append_assoc] at hl
      exact h l x r (List.append_inj' hl rfl).1

theorem Causal.append_free {log new : List ε} (h : Causal needs log)
    (hnew : ∀ e ∈ new, ∀ past, needs past e) : Causal needs (log ++ new) := by
  induction new using List.reverseRecOn with
  | nil => rwa [List.append_nil]
  | append_singleton new e ih =>
      rw [← List.append_assoc]
      refine (ih fun x hx => hnew x (List.mem_append_left [e] hx)).concat ?_
      exact hnew e (by simp) _

theorem Causal.append_left {l r : List ε} (h : Causal needs (l ++ r)) : Causal needs l := by
  intro l₁ e l₂ hl
  exact h l₁ e (l₂ ++ r) (by rw [hl, List.append_assoc, List.cons_append])

/-- Of two events of a log either the one or the other has all that comes before the
first in its own past. -/
theorem prefix_total {log l r l' r' : List ε} (h : log = l ++ r) (h' : log = l' ++ r') :
    l <+: l' ∨ l' <+: l :=
  List.prefix_or_prefix_of_prefix ⟨r, h.symm⟩ ⟨r', h'.symm⟩

end CppLin.Causality
