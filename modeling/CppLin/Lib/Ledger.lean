import Mathlib

/-!
The books of a queue whose items leave from its front: for every item offered to it, in the
order of the offers, whether it was refused, is waiting or has left, and how.
-/
namespace CppLin.Ledger

/-- What has become of an item. -/
inductive Fate where
  | refused
  | waiting
  | received
  | evicted
  deriving DecidableEq, Repr

variable {α : Type*}

/-- The items with one fate. -/
def having (how : Fate) (l : List (α × Fate)) : List α :=
  (l.filter fun x => x.2 = how).map Prod.fst

def offers (l : List (α × Fate)) : List (α × Bool) := l.map fun x => (x.1, decide (x.2 = .refused))

def departed (l : List (α × Fate)) : List (α × Fate) :=
  l.filter fun x => x.2 = .received ∨ x.2 = .evicted

/-- No item has left that was offered after one that is waiting. -/
def FromFront (l : List (α × Fate)) : Prop :=
  l.Pairwise fun x y => x.2 = .waiting → y.2 = .waiting ∨ y.2 = .refused

/-- The first of the waiting items leaves. -/
def settle (how : Fate) : List (α × Fate) → List (α × Fate)
  | [] => []
  | x :: l => if x.2 = .waiting then (x.1, how) :: l else x :: settle how l

@[simp] theorem having_nil (how : Fate) : having how ([] : List (α × Fate)) = [] := rfl

@[simp] theorem having_append (how : Fate) (l l' : List (α × Fate)) :
    having how (l ++ l') = having how l ++ having how l' := by
  simp [having]

@[simp] theorem having_cons (how : Fate) (x : α × Fate) (l : List (α × Fate)) :
    having how (x :: l) = (if x.2 = how then [x.1] else []) ++ having how l := by
  by_cases h : x.2 = how <;> simp [having, h]

@[simp] theorem offers_append (l l' : List (α × Fate)) :
    offers (l ++ l') = offers l ++ offers l' := List.map_append

@[simp] theorem offers_singleton (x : α × Fate) : offers [x] = [(x.1, decide (x.2 = .refused))] :=
  rfl

theorem fromFront_cons {x : α × Fate} {l : List (α × Fate)} (hx : x.2 ≠ .waiting) :
    FromFront (x :: l) ↔ FromFront l := by
  rw [FromFront, List.pairwise_cons]
  exact and_iff_right fun y _ h => absurd h hx

theorem FromFront.concat {l : List (α × Fate)} (h : FromFront l) {x : α × Fate}
    (hx : x.2 = .waiting ∨ x.2 = .refused) : FromFront (l ++ [x]) := by
  refine List.pairwise_append.mpr ⟨h, List.pairwise_singleton _ x, ?_⟩
  intro y _ z hz _
  rw [List.mem_singleton.mp hz]
  exact hx

theorem FromFront.settle {l : List (α × Fate)} (h : FromFront l) {how : Fate}
    (hhow : how ≠ .waiting) : FromFront (settle how l) := by
  induction l with
  | nil => exact h
  | cons x l ih =>
    rw [Ledger.settle]
    split_ifs with hx
    · exact (fromFront_cons (x := (x.1, how)) hhow).mpr (List.Pairwise.of_cons h)
    · exact (fromFront_cons hx).mpr (ih (List.Pairwise.of_cons h))

theorem FromFront.having_nil {x : α × Fate} {l : List (α × Fate)} (h : FromFront (x :: l))
    (hx : x.2 = .waiting) {how : Fate} (hw : how ≠ .waiting) (hr : how ≠ .refused) :
    having how l = [] := by
  rw [having, List.map_eq_nil_iff, List.filter_eq_nil_iff]
  intro y hy hyhow
  rw [decide_eq_true_eq] at hyhow
  rcases List.rel_of_pairwise_cons h hy hx with hyw | hyr
  · exact hw (hyhow ▸ hyw)
  · exact hr (hyhow ▸ hyr)

theorem offers_settle {how : Fate} (hhow : how ≠ .refused) (l : List (α × Fate)) :
    offers (settle how l) = offers l := by
  induction l with
  | nil => rfl
  | cons x l ih =>
    rw [settle]
    split_ifs with hx
    · simp [offers, hhow, hx]
    · simpa [offers] using ih

theorem having_waiting_settle {how : Fate} (hhow : how ≠ .waiting) (l : List (α × Fate)) :
    having .waiting (settle how l) = (having .waiting l).tail := by
  induction l with
  | nil => rfl
  | cons x l ih =>
    rw [settle]
    split_ifs with hx
    · simp [hx, hhow]
    · simpa [hx] using ih

theorem having_settle {how : Fate} (hw : how ≠ .waiting) (hr : how ≠ .refused)
    {l : List (α × Fate)} (h : FromFront l) :
    having how (settle how l) = having how l ++ (having .waiting l).take 1 := by
  induction l with
  | nil => rfl
  | cons x l ih =>
    rw [settle]
    split_ifs with hx
    · simp [hx, hw.symm, h.having_nil hx hw hr]
    · simp [hx, ih (List.Pairwise.of_cons h)]

theorem having_settle_other {how k : Fate} (hw : k ≠ .waiting) (hk : how ≠ k)
    (l : List (α × Fate)) : having k (settle how l) = having k l := by
  induction l with
  | nil => rfl
  | cons x l ih =>
    rw [settle]
    split_ifs with hx
    · simp [hx, hk, hw.symm]
    · simp [ih]

def accepted (os : List (α × Bool)) : List α := (os.filter fun x => !x.2).map Prod.fst

/-- What was not refused has left, in this order, or is waiting. -/
theorem FromFront.accepted {l : List (α × Fate)} (h : FromFront l) :
    accepted (offers l) = (departed l).map Prod.fst ++ having .waiting l := by
  induction l with
  | nil => rfl
  | cons x l ih =>
    have hrest := ih (List.Pairwise.of_cons h)
    simp only [Ledger.accepted, offers, List.map_cons] at hrest ⊢
    cases hx : x.2 with
    | refused => simpa [departed, hx] using hrest
    | waiting =>
      have hnone : departed l = [] := by
        rw [departed, List.filter_eq_nil_iff]
        intro y hy hleft
        rcases List.rel_of_pairwise_cons h hy hx with hyw | hyr
        · simp [hyw] at hleft
        · simp [hyr] at hleft
      have hcons : departed (x :: l) = departed l := by simp [departed, hx]
      rw [hnone] at hrest
      rw [hcons, hnone]
      simpa [hx] using hrest
    | received => simpa [departed, hx] using hrest
    | evicted => simpa [departed, hx] using hrest

theorem having_departed {how : Fate} (h : how = .received ∨ how = .evicted) (l : List (α × Fate)) :
    having how (departed l) = having how l := by
  rw [having, departed, List.filter_filter, having]
  congr 2
  funext x
  by_cases hx : x.2 = how
  · simp [hx, h]
  · simp [hx]

def rejected (os : List (α × Bool)) : List α := (os.filter fun x => x.2).map Prod.fst

theorem rejected_offers (l : List (α × Fate)) : rejected (offers l) = having .refused l := by
  rw [rejected, offers, List.filter_map, List.map_map]
  rfl

theorem mem_having {how : Fate} {l : List (α × Fate)} {a : α} :
    a ∈ having how l ↔ (a, how) ∈ l := by
  simp [having]

/-- Of what was offered before an item that was received, exactly what was refused or evicted
is missing from what was received. -/
theorem FromFront.missing_iff {κ : Type*} (key : α → κ) {l : List (α × Fate)} (h : FromFront l)
    (hkeys : (l.map fun x => key x.1).Nodup) {i j : Nat} (hij : i < j) {x y : α × Fate}
    (hi : l[i]? = some x) (hj : l[j]? = some y) (hy : y.2 = .received) :
    (∀ a ∈ having .received l, key a ≠ key x.1) ↔
      ∃ a, (a ∈ having .refused l ∨ a ∈ having .evicted l) ∧ key a = key x.1 := by
  have hx : x ∈ l := List.mem_of_getElem? hi
  have hunique : ∀ z ∈ l, key z.1 = key x.1 → z = x := fun z hz he =>
    List.inj_on_of_nodup_map hkeys hz hx he
  have hwaiting : x.2 ≠ .waiting := by
    obtain ⟨hil, rfl⟩ := List.getElem?_eq_some_iff.mp hi
    obtain ⟨hjl, rfl⟩ := List.getElem?_eq_some_iff.mp hj
    intro hw
    have hrest := List.pairwise_iff_getElem.mp h i j hil hjl hij hw
    simp [hy] at hrest
  simp only [mem_having]
  constructor
  · intro hnone
    have hnot : x.2 ≠ .received := fun hr => hnone x.1 (hr ▸ hx) rfl
    refine ⟨x.1, ?_, rfl⟩
    cases hfate : x.2 with
    | refused => exact .inl (hfate ▸ hx)
    | waiting => exact absurd hfate hwaiting
    | received => exact absurd hfate hnot
    | evicted => exact .inr (hfate ▸ hx)
  · rintro ⟨a, hlost, ha⟩ b hb he
    have hbx := congrArg Prod.snd (hunique _ hb he)
    rcases hlost with hr | hev
    · have hax := congrArg Prod.snd (hunique _ hr ha)
      rw [← hax] at hbx
      cases hbx
    · have hax := congrArg Prod.snd (hunique _ hev ha)
      rw [← hax] at hbx
      cases hbx

end CppLin.Ledger
