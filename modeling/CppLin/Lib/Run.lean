import Mathlib

/-!
Runs of a machine whose steps may be disabled, and the rules by which a fact about
one step becomes a fact about every run.
-/
namespace CppLin.Run

variable {σ α : Type*} (step : σ → α → Option σ)

/-- The state after a list of steps; `none` when one of them is disabled. -/
def run : σ → List α → Option σ
  | s, [] => some s
  | s, a :: as => (step s a).bind (run · as)

section
variable {step}

@[simp] theorem run_nil (s : σ) : run step s [] = some s := rfl

theorem run_cons {s s' : σ} {a : α} {as : List α} :
    run step s (a :: as) = some s' ↔ ∃ m, step s a = some m ∧ run step m as = some s' := by
  rw [run, Option.bind_eq_some_iff]

theorem run_append {s s' : σ} {as bs : List α} :
    run step s (as ++ bs) = some s' ↔ ∃ m, run step s as = some m ∧ run step m bs = some s' := by
  induction as generalizing s with
  | nil => simp
  | cons a as ih =>
      simp only [List.cons_append, run_cons, ih]
      constructor
      · rintro ⟨m, ha, k, hk, hb⟩
        exact ⟨k, ⟨m, ha, hk⟩, hb⟩
      · rintro ⟨k, ⟨m, ha, hk⟩, hb⟩
        exact ⟨m, ha, k, hk, hb⟩

theorem run_concat {s s' : σ} {as : List α} {a : α} :
    run step s (as ++ [a]) = some s' ↔ ∃ m, run step s as = some m ∧ step m a = some s' := by
  simp only [run_append, run_cons, run_nil, Option.some.injEq, exists_eq_right]

/-- What every enabled step preserves, every run preserves. -/
theorem invariant_run {I : σ → Prop} (preserves : ∀ s a s', I s → step s a = some s' → I s')
    {s s' : σ} {as : List α} (hs : I s) (h : run step s as = some s') : I s' := by
  induction as generalizing s with
  | nil =>
      rw [run_nil, Option.some.injEq] at h
      exact h ▸ hs
  | cons a as ih =>
      obtain ⟨m, ha, hm⟩ := run_cons.mp h
      exact ih (preserves s a m hs ha) hm

/-- A run of steps that all use up some of a measure is no longer than the measure. -/
theorem length_le_of_decreasing {I : σ → Prop} {A : α → Prop} {μ : σ → Nat}
    (decreases : ∀ s a s', I s → A a → step s a = some s' → I s' ∧ μ s' < μ s)
    {s s' : σ} {as : List α} (hs : I s) (ha : ∀ a ∈ as, A a) (h : run step s as = some s') :
    as.length + μ s' ≤ μ s := by
  induction as generalizing s with
  | nil =>
      rw [run_nil, Option.some.injEq] at h
      rw [h, List.length_nil, Nat.zero_add]
  | cons a as ih =>
      obtain ⟨m, hstep, hm⟩ := run_cons.mp h
      obtain ⟨hI, hlt⟩ := decreases s a m hs (ha a List.mem_cons_self) hstep
      have hle := ih hI (fun x hx => ha x (List.mem_cons_of_mem a hx)) hm
      rw [List.length_cons]
      omega

theorem rel_foldlM {R : σ → σ → Prop} (refl : ∀ s, R s s)
    (trans : ∀ {s m s'}, R s m → R m s' → R s s') {as : List α}
    (turn : ∀ a ∈ as, ∀ s s', step s a = some s' → R s s') {s s' : σ}
    (h : as.foldlM step s = some s') : R s s' := by
  induction as generalizing s with
  | nil =>
      rw [List.foldlM_nil, Option.pure_def, Option.some.injEq] at h
      exact h ▸ refl s
  | cons a as ih =>
      rw [List.foldlM_cons] at h
      obtain ⟨m, ha, hm⟩ := Option.bind_eq_some_iff.mp h
      have hrest := ih (fun x hx => turn x (List.mem_cons_of_mem a hx)) hm
      exact trans (turn a List.mem_cons_self s m ha) hrest

theorem history_run {P : List α → σ → Prop} {s₀ : σ} (start : P [] s₀)
    (next : ∀ as s a s', run step s₀ as = some s → P as s → step s a = some s' → P (as ++ [a]) s')
    {s : σ} {as : List α} (h : run step s₀ as = some s) : P as s := by
  induction as using List.reverseRecOn generalizing s with
  | nil =>
      rw [run_nil, Option.some.injEq] at h
      exact h ▸ start
  | append_singleton as a ih =>
      obtain ⟨m, hm, hstep⟩ := run_concat.mp h
      exact next as m a s hm (ih hm) hstep

end

/-- What is seen at the steps of a run. -/
def along {τ : Type*} (seen : σ → α → List τ) : σ → List α → List τ
  | _, [] => []
  | s, a :: as => seen s a ++ (step s a).elim [] (along seen · as)

section
variable {step}

theorem along_concat {τ : Type*} (seen : σ → α → List τ) {s m : σ} {as : List α}
    (h : run step s as = some m) (a : α) :
    along step seen s (as ++ [a]) = along step seen s as ++ seen m a := by
  induction as generalizing s with
  | nil =>
      rw [run_nil, Option.some.injEq] at h
      subst h
      cases hstep : step s a <;> simp [along, hstep]
  | cons b as ih =>
      obtain ⟨k, hb, hk⟩ := run_cons.mp h
      rw [List.cons_append, along, along, hb, Option.elim_some, Option.elim_some, ih hk,
        List.append_assoc]

theorem along_append {τ : Type*} (seen : σ → α → List τ) {s m : σ} {as : List α}
    (h : run step s as = some m) (bs : List α) :
    along step seen s (as ++ bs) = along step seen s as ++ along step seen m bs := by
  induction as generalizing s with
  | nil =>
      rw [run_nil, Option.some.injEq] at h
      subst h
      rfl
  | cons a as ih =>
      obtain ⟨k, ha, hk⟩ := run_cons.mp h
      rw [List.cons_append, along, along, ha, Option.elim_some, Option.elim_some, ih hk,
        List.append_assoc]

theorem mem_along {τ : Type*} {seen : σ → α → List τ} {s : σ} {as : List α} {t : τ}
    (h : t ∈ along step seen s as) : ∃ m, ∃ a ∈ as, t ∈ seen m a := by
  induction as generalizing s with
  | nil => cases h
  | cons a as ih =>
      rw [along, List.mem_append] at h
      rcases h with hhere | hlater
      · exact ⟨s, a, List.mem_cons_self, hhere⟩
      · cases hstep : step s a with
        | none =>
            rw [hstep] at hlater
            cases hlater
        | some m =>
            rw [hstep] at hlater
            obtain ⟨m', b, hb, ht⟩ := ih hlater
            exact ⟨m', b, List.mem_cons_of_mem a hb, ht⟩

/-- Where each step is matched by what an abstract machine makes of what is seen at it, so is
a run. -/
theorem simulation_run {A τ : Type*} {serve : A → τ → Option A} {seen : σ → α → List τ}
    {R : A → σ → Prop}
    (simulates : ∀ x s a s', R x s → step s a = some s' →
      ∃ x', run serve x (seen s a) = some x' ∧ R x' s')
    {x : A} {s s' : σ} {as : List α} (hs : R x s) (h : run step s as = some s') :
    ∃ x', run serve x (along step seen s as) = some x' ∧ R x' s' := by
  induction as generalizing x s with
  | nil =>
      rw [run_nil, Option.some.injEq] at h
      exact ⟨x, rfl, h ▸ hs⟩
  | cons a as ih =>
      obtain ⟨m, ha, hm⟩ := run_cons.mp h
      obtain ⟨y, hy, hR⟩ := simulates x s a m hs ha
      obtain ⟨x', hx', hR'⟩ := ih hR hm
      refine ⟨x', ?_, hR'⟩
      rw [along, ha, Option.elim_some, run_append]
      exact ⟨y, hy, hx'⟩

end

/-- Every step of the run is taken in a state where `G` allows it. -/
def Guarded (G : σ → α → Prop) : σ → List α → Prop
  | _, [] => True
  | s, a :: as => G s a ∧ ∀ m, step s a = some m → Guarded G m as

instance Guarded.decidable (G : σ → α → Prop) [∀ s a, Decidable (G s a)] :
    ∀ (s : σ) (as : List α), Decidable (Guarded step G s as)
  | _, [] => .isTrue trivial
  | s, a :: as =>
      match h : step s a with
      | none => decidable_of_iff (G s a) (by simp [Guarded, h])
      | some m =>
          have := Guarded.decidable G m as
          decidable_of_iff (G s a ∧ Guarded step G m as) (by simp [Guarded, h])

section
variable {step}

theorem guarded_of_forall {G : σ → α → Prop} {as : List α} (h : ∀ a ∈ as, ∀ s, G s a)
    (s : σ) : Guarded step G s as := by
  induction as generalizing s with
  | nil => trivial
  | cons a as ih =>
      refine ⟨h a List.mem_cons_self s, ?_⟩
      intro m _
      exact ih (fun x hx => h x (List.mem_cons_of_mem a hx)) m

/-- Where `A` holds of every step of the run and the steps it allows keep `I`, every step
is taken in a state with `I`. -/
theorem guarded_of_invariant {I : σ → Prop} {A : α → Prop} {G : σ → α → Prop} {as : List α}
    (preserves : ∀ s a s', I s → A a → step s a = some s' → I s') (guards : ∀ s a, I s → G s a)
    (ha : ∀ a ∈ as, A a) {s : σ} (hs : I s) : Guarded step G s as := by
  induction as generalizing s with
  | nil => trivial
  | cons a as ih =>
      refine ⟨guards s a hs, ?_⟩
      intro m hm
      exact ih (fun x hx => ha x (List.mem_cons_of_mem a hx))
        (preserves s a m hs (ha a List.mem_cons_self) hm)

/-- Where an invariant that the guarded steps keep turns their guard into another, so it does
along a run. -/
theorem Guarded.imp_kept {I : σ → Prop} {G G' : σ → α → Prop}
    (preserves : ∀ s a s', I s → G s a → step s a = some s' → I s')
    (weakens : ∀ s a, I s → G s a → G' s a)
    {s : σ} {as : List α} (hs : I s) (h : Guarded step G s as) : Guarded step G' s as := by
  induction as generalizing s with
  | nil => trivial
  | cons a as ih =>
      refine ⟨weakens s a hs h.1, ?_⟩
      intro m hm
      exact ih (preserves s a m hs h.1 hm) (h.2 m hm)

theorem Guarded.imp {I : σ → Prop} {G G' : σ → α → Prop}
    (preserves : ∀ s a s', I s → step s a = some s' → I s') (weakens : ∀ s a, I s → G s a → G' s a)
    {s : σ} {as : List α} (hs : I s) (h : Guarded step G s as) : Guarded step G' s as :=
  h.imp_kept (fun s a s' hI _ hstep => preserves s a s' hI hstep) weakens hs

theorem guarded_congr {G G' : σ → α → Prop} (h : ∀ s a, G s a ↔ G' s a) (s : σ) (as : List α) :
    Guarded step G s as ↔ Guarded step G' s as := by
  have holds : G = G' := funext fun s => funext fun a => propext (h s a)
  rw [holds]

/-- When a step keeps `P` exactly where `G` allows it, and `P` once lost stays lost, a run
keeps `P` exactly when all its steps are guarded. -/
theorem guarded_iff {I P : σ → Prop} {G : σ → α → Prop}
    (preserves : ∀ s a s', I s → step s a = some s' → I s')
    (keeps : ∀ s a s', I s → P s → step s a = some s' → (P s' ↔ G s a))
    (loses : ∀ s a s', I s → ¬ P s → step s a = some s' → ¬ P s')
    {s s' : σ} {as : List α} (hs : I s) (hp : P s) (h : run step s as = some s') :
    P s' ↔ Guarded step G s as := by
  induction as generalizing s with
  | nil =>
      rw [run_nil, Option.some.injEq] at h
      subst h
      exact iff_of_true hp trivial
  | cons a as ih =>
      obtain ⟨m, ha, hm⟩ := run_cons.mp h
      have hI := preserves s a m hs ha
      have hstep := keeps s a m hs hp ha
      by_cases hg : G s a
      · rw [ih hI (hstep.mpr hg) hm]
        constructor
        · intro hrest
          refine ⟨hg, ?_⟩
          intro k hk
          obtain rfl := Option.some.inj (ha.symm.trans hk)
          exact hrest
        · intro hall
          exact hall.2 m ha
      · have hlost : I s' ∧ ¬ P s' :=
          invariant_run (I := fun s => I s ∧ ¬ P s)
            (fun t b t' ht htb => ⟨preserves t b t' ht.1 htb, loses t b t' ht.1 ht.2 htb⟩)
            ⟨hI, fun hm' => hg (hstep.mp hm')⟩ hm
        exact iff_of_false hlost.2 fun hall => hg hall.1

/-- When a step keeps `P` exactly where `G` allows it, `P` holds all along a run exactly
when all its steps are guarded. -/
theorem guarded_iff_always {I P : σ → Prop} {A : α → Prop} {G : σ → α → Prop}
    (preserves : ∀ s a s', A a → I s → P s → step s a = some s' → I s')
    (keeps : ∀ s a s', A a → I s → P s → step s a = some s' → (P s' ↔ G s a))
    {s s' : σ} {as : List α} (ha : ∀ a ∈ as, A a) (hs : I s) (hp : P s)
    (h : run step s as = some s') :
    (∀ past, past <+: as → ∀ m, run step s past = some m → P m) ↔ Guarded step G s as := by
  induction as generalizing s with
  | nil =>
      refine iff_of_true ?_ trivial
      rintro past hpast m hm
      obtain rfl := List.prefix_nil.mp hpast
      rw [run_nil, Option.some.injEq] at hm
      exact hm ▸ hp
  | cons a as ih =>
      obtain ⟨m, hstep, hm⟩ := run_cons.mp h
      have hA := ha a List.mem_cons_self
      have hrest : ∀ x ∈ as, A x := fun x hx => ha x (List.mem_cons_of_mem a hx)
      have hI := preserves s a m hA hs hp hstep
      have hkeep := keeps s a m hA hs hp hstep
      constructor
      · intro hall
        have hpm : P m := hall [a] ⟨as, rfl⟩ m (run_cons.mpr ⟨m, hstep, rfl⟩)
        refine ⟨hkeep.mp hpm, ?_⟩
        intro k hk
        obtain rfl := Option.some.inj (hstep.symm.trans hk)
        refine (ih hrest hI hpm hm).mp ?_
        intro past hpast k hk
        exact hall (a :: past) (List.cons_prefix_cons.mpr ⟨rfl, hpast⟩) k
          (run_cons.mpr ⟨m, hstep, hk⟩)
      · rintro ⟨hg, hlater⟩ past hpast k hk
        cases past with
        | nil =>
            rw [run_nil, Option.some.injEq] at hk
            exact hk ▸ hp
        | cons x past =>
            obtain ⟨rfl, hpast'⟩ := List.cons_prefix_cons.mp hpast
            obtain ⟨l, hl, hk⟩ := run_cons.mp hk
            obtain rfl := Option.some.inj (hstep.symm.trans hl)
            exact (ih hrest hI (hkeep.mpr hg) hm).mpr (hlater m hstep) past hpast' k hk

/-- What every guarded step preserves, every run of guarded steps preserves. -/
theorem guarded_run {I : σ → Prop} {G : σ → α → Prop}
    (preserves : ∀ s a s', I s → G s a → step s a = some s' → I s')
    {s s' : σ} {as : List α} (hs : I s) (hg : Guarded step G s as)
    (h : run step s as = some s') : I s' := by
  induction as generalizing s with
  | nil =>
      rw [run_nil, Option.some.injEq] at h
      exact h ▸ hs
  | cons a as ih =>
      obtain ⟨m, ha, hm⟩ := run_cons.mp h
      exact ih (preserves s a m hs hg.1 ha) (hg.2 m ha) hm

end

end CppLin.Run
