import CppLin.Lib.Run

/-!
A monitor: one object under a mutex, with operations that wait on a condition variable until
their predicate holds and then do their part in one critical section, which may notify the
threads that sleep. Any number of threads call it, a notification wakes any one of the
sleepers, and a sleeper may wake without one.
-/
namespace CppLin
open Run

variable {T κ ω ρ σ β : Type*}

/-- `notify_one` and `notify_all` of one condition variable. -/
inductive Notice (κ : Type*) where
  | one (c : κ)
  | all (c : κ)
  deriving DecidableEq, Repr

/-- The condition an operation waits on, its predicate, and what follows the wait. -/
structure Monitor (κ ω ρ σ : Type*) where
  waitsFor : ω → Option κ
  holds : κ → σ → Bool
  body : ω → σ → σ × ρ × List (Notice κ)

namespace Monitor

/-- The threads inside a call: those that can take the mutex, and those in `wait`. -/
structure Threads (T ω : Type*) where
  ready : List (T × ω) := []
  asleep : List (T × ω) := []

def Threads.inside (th : Threads T ω) : List (T × ω) := th.ready ++ th.asleep

/-- The object, the threads inside a call, and the calls that have returned. -/
structure State (T ω ρ σ : Type*) where
  obj : σ
  threads : Threads T ω := {}
  returned : List (T × ω × ρ) := []

inductive Action (T ω : Type*) where
  | call (t : T) (op : ω)
  /-- `t` takes the mutex; `woken` are the sleepers that its `notify_one`s wake, in order. -/
  | enter (t : T) (woken : List T)
  /-- A wake-up that nobody asked for. -/
  | spurious (t : T)

def pull (p : β → Bool) (l : List β) : Option (β × List β) :=
  (l.find? p).map fun x => (x, l.eraseP p)

section
variable [DecidableEq κ] (m : Monitor κ ω ρ σ)

/-- One critical section; `none` while the predicate is false. -/
def attempt (op : ω) (s : σ) : Option (σ × ρ × List (Notice κ)) :=
  if (m.waitsFor op).all (m.holds · s) then some (m.body op s) else none

def on (c : κ) (x : T × ω) : Bool := m.waitsFor x.2 = some c

def notifyAll (c : κ) (th : Threads T ω) : Threads T ω where
  ready := th.ready ++ th.asleep.filter (m.on c)
  asleep := th.asleep.filter (!m.on c ·)

/-- The sleeper that is woken is the next of `woken`; where nobody sleeps the notice is lost. -/
def notifyOne [DecidableEq T] (c : κ) (th : Threads T ω) (woken : List T) :
    Option (Threads T ω × List T) :=
  if th.asleep.any (m.on c) then
    match woken with
    | [] => none
    | t :: woken =>
        (pull (fun x => x.1 = t ∧ m.on c x) th.asleep).map fun (x, asleep) =>
          ({ ready := th.ready ++ [x], asleep }, woken)
  else some (th, woken)

def notify [DecidableEq T] : Threads T ω → List (Notice κ) → List T → Option (Threads T ω)
  | th, [], _ => some th
  | th, .all c :: notices, woken => notify (m.notifyAll c th) notices woken
  | th, .one c :: notices, woken =>
      (m.notifyOne c th woken).bind fun (th, woken) => notify th notices woken

def step [DecidableEq T] (s : State T ω ρ σ) : Action T ω → Option (State T ω ρ σ)
  | .call t op =>
      if s.threads.inside.any (·.1 = t) then none
      else some { s with threads.ready := s.threads.ready ++ [(t, op)] }
  | .enter t woken =>
      (pull (·.1 = t) s.threads.ready).bind fun (x, ready) =>
        match m.attempt x.2 s.obj with
        | none => some { s with threads := { ready, asleep := s.threads.asleep ++ [x] } }
        | some (obj, r, notices) =>
            (m.notify { ready, asleep := s.threads.asleep } notices woken).map fun threads =>
              { obj, threads, returned := s.returned ++ [(t, x.2, r)] }
  | .spurious t =>
      (pull (·.1 = t) s.threads.asleep).map fun (x, asleep) =>
        { s with threads := { ready := s.threads.ready ++ [x], asleep } }

end

theorem pull_perm {p : β → Bool} {l rest : List β} {x : β} (h : pull p l = some (x, rest)) :
    p x = true ∧ l.Perm (x :: rest) := by
  obtain ⟨y, hfind, he⟩ := Option.map_eq_some_iff.mp h
  obtain ⟨rfl, rfl⟩ := Prod.mk.inj he
  obtain ⟨hp, as, bs, rfl, hno⟩ := List.find?_eq_some_iff_append.mp hfind
  refine ⟨hp, ?_⟩
  have herase : (as ++ y :: bs).eraseP p = as ++ bs := by
    rw [List.eraseP_append_right _ (fun a ha => by simpa using hno a ha), List.eraseP_cons_of_pos hp]
  rw [herase]
  exact List.perm_middle

theorem pull_of_mem {p : β → Bool} {l : List β} {x : β} (hx : x ∈ l) (hp : p x = true) :
    ∃ y rest, pull p l = some (y, rest) := by
  have hsome : (l.find? p).isSome := List.find?_isSome.mpr ⟨x, hx, hp⟩
  obtain ⟨y, hy⟩ := Option.isSome_iff_exists.mp hsome
  exact ⟨y, l.eraseP p, by rw [pull, hy, Option.map_some]⟩

section
variable [DecidableEq κ] (m : Monitor κ ω ρ σ)

/-- What notifications can do: they wake every sleeper of a condition, or one for each notice
as long as there is one. -/
structure Woken (notices : List (Notice κ)) (th th' : Threads T ω) : Prop where
  inside : th'.inside.Perm th.inside
  asleep : th'.asleep ⊆ th.asleep
  all : ∀ c, .all c ∈ notices → ∀ x ∈ th'.asleep, m.on c x = false
  one : ∀ c, (∃ x ∈ th'.asleep, m.on c x = true) →
    th.ready.countP (m.on c) + notices.count (.one c) ≤ th'.ready.countP (m.on c)

variable {m}

theorem woken_nil (th : Threads T ω) : m.Woken [] th th where
  inside := .refl _
  asleep := List.Subset.refl _
  all _ h := absurd h List.not_mem_nil
  one _ _ := by simp

theorem Woken.all_cons {c : κ} {notices : List (Notice κ)} {th th' : Threads T ω}
    (h : m.Woken notices (m.notifyAll c th) th') : m.Woken (.all c :: notices) th th' := by
  have kept : th'.asleep ⊆ th.asleep.filter (!m.on c ·) := h.asleep
  constructor
  · apply h.inside.trans
    rw [Threads.inside, Threads.inside, notifyAll, List.append_assoc]
    exact (List.filter_append_perm (m.on c) th.asleep).append_left th.ready
  · intro x hx
    exact List.mem_of_mem_filter (kept hx)
  · intro d hd x hx
    cases List.mem_cons.mp hd with
    | inl he =>
        obtain rfl := Notice.all.inj he
        simpa using (List.mem_filter.mp (kept hx)).2
    | inr hd => exact h.all d hd x hx
  · intro d hsleeps
    have hone := h.one d hsleeps
    rw [notifyAll, List.countP_append] at hone
    rw [List.count_cons_of_ne (by simp)]
    omega

theorem Woken.one_cons {c : κ} {x : T × ω} {asleep : List (T × ω)} {notices : List (Notice κ)}
    {th th' : Threads T ω} (hon : m.on c x = true) (hperm : th.asleep.Perm (x :: asleep))
    (h : m.Woken notices { ready := th.ready ++ [x], asleep } th') :
    m.Woken (.one c :: notices) th th' := by
  constructor
  · apply h.inside.trans
    rw [Threads.inside, Threads.inside, List.append_assoc]
    exact hperm.symm.append_left th.ready
  · intro y hy
    exact hperm.mem_iff.mpr (List.mem_cons_of_mem x (h.asleep hy))
  · intro d hd
    exact h.all d (List.mem_of_ne_of_mem (by simp) hd)
  · intro d hsleeps
    have hone := h.one d hsleeps
    rw [List.countP_append, List.countP_singleton] at hone
    by_cases hd : c = d
    · subst hd
      rw [List.count_cons_self]
      rw [if_pos hon] at hone
      omega
    · rw [List.count_cons_of_ne (by simpa using hd)]
      omega

theorem Woken.one_cons_lost {c : κ} {notices : List (Notice κ)} {th th' : Threads T ω}
    (hnone : ∀ x ∈ th.asleep, m.on c x = false) (h : m.Woken notices th th') :
    m.Woken (.one c :: notices) th th' := by
  refine ⟨h.inside, h.asleep, ?_, ?_⟩
  · intro d hd
    exact h.all d (List.mem_of_ne_of_mem (by simp) hd)
  · rintro d ⟨x, hx, hon⟩
    have hd : c ≠ d := by
      rintro rfl
      rw [hnone x (h.asleep hx)] at hon
      cases hon
    rw [List.count_cons_of_ne (by simpa using hd)]
    exact h.one d ⟨x, hx, hon⟩

end

section
variable [DecidableEq κ] [DecidableEq T] {m : Monitor κ ω ρ σ}

theorem notify_woken {notices : List (Notice κ)} {woken : List T} {th th' : Threads T ω}
    (h : m.notify th notices woken = some th') : m.Woken notices th th' := by
  induction notices generalizing th woken with
  | nil =>
      rw [notify, Option.some.injEq] at h
      exact h ▸ woken_nil th
  | cons notice notices ih =>
      cases notice with
      | all c => exact (ih h).all_cons
      | one c =>
          obtain ⟨⟨mid, woken'⟩, hone, hrest⟩ := Option.bind_eq_some_iff.mp h
          unfold notifyOne at hone
          split_ifs at hone with hany
          · cases woken with
            | nil => cases hone
            | cons t woken =>
                obtain ⟨⟨x, asleep⟩, hpull, he⟩ := Option.map_eq_some_iff.mp hone
                obtain ⟨rfl, rfl⟩ := Prod.mk.inj he
                obtain ⟨hx, hperm⟩ := pull_perm hpull
                have hon : m.on c x = true := (of_decide_eq_true hx).2
                exact (ih hrest).one_cons hon hperm
          · obtain ⟨rfl, rfl⟩ := Prod.mk.inj (Option.some.inj hone)
            exact (ih hrest).one_cons_lost (by simpa using hany)

/-- Some choice of sleepers always lets notifications through. -/
theorem exists_notify (m : Monitor κ ω ρ σ) (notices : List (Notice κ)) (th : Threads T ω) :
    ∃ woken th', m.notify th notices woken = some th' := by
  induction notices generalizing th with
  | nil => exact ⟨[], th, rfl⟩
  | cons notice notices ih =>
      cases notice with
      | all c => exact ih (m.notifyAll c th)
      | one c =>
          by_cases hany : th.asleep.any (m.on c) = true
          · obtain ⟨x, hx, hon⟩ := List.any_eq_true.mp hany
            obtain ⟨y, rest, hpull⟩ := pull_of_mem (p := fun y => y.1 = x.1 ∧ m.on c y) hx
              (by simpa using hon)
            obtain ⟨woken, th', hnotify⟩ := ih { ready := th.ready ++ [y], asleep := rest }
            refine ⟨x.1 :: woken, th', ?_⟩
            simp only [notify, notifyOne, if_pos hany, hpull, Option.map_some, Option.bind_some,
              hnotify]
          · obtain ⟨woken, th', hnotify⟩ := ih th
            refine ⟨woken, th', ?_⟩
            simp only [notify, notifyOne, if_neg hany, Option.bind_some, hnotify]

/-- What one action can do. -/
inductive Moves (m : Monitor κ ω ρ σ) (s : State T ω ρ σ) :
    Action T ω → State T ω ρ σ → Prop
  | call (t : T) (op : ω) (hout : ∀ x ∈ s.threads.inside, x.1 ≠ t) :
      Moves m s (.call t op) { s with threads.ready := s.threads.ready ++ [(t, op)] }
  | sleep (t : T) (woken : List T) (op : ω) (ready : List (T × ω))
      (hready : s.threads.ready.Perm ((t, op) :: ready)) (hwait : m.attempt op s.obj = none) :
      Moves m s (.enter t woken)
        { s with threads := { ready, asleep := s.threads.asleep ++ [(t, op)] } }
  | done (t : T) (woken : List T) (op : ω) (ready : List (T × ω)) (obj : σ) (r : ρ)
      (notices : List (Notice κ)) (threads : Threads T ω)
      (hready : s.threads.ready.Perm ((t, op) :: ready))
      (hbody : m.attempt op s.obj = some (obj, r, notices))
      (hwoken : m.Woken notices { ready, asleep := s.threads.asleep } threads) :
      Moves m s (.enter t woken) { obj, threads, returned := s.returned ++ [(t, op, r)] }
  | spurious (t : T) (op : ω) (asleep : List (T × ω))
      (hasleep : s.threads.asleep.Perm ((t, op) :: asleep)) :
      Moves m s (.spurious t) { s with threads := { ready := s.threads.ready ++ [(t, op)], asleep } }

theorem moves_of_step {s s' : State T ω ρ σ} {a : Action T ω} (h : m.step s a = some s') :
    Moves m s a s' := by
  cases a with
  | call t op =>
      rw [step] at h
      split_ifs at h with hin
      rw [Option.some.injEq] at h
      subst h
      refine .call t op ?_
      intro x hx ht
      exact hin (List.any_eq_true.mpr ⟨x, hx, decide_eq_true ht⟩)
  | enter t woken =>
      obtain ⟨⟨⟨u, op⟩, ready⟩, hpull, h⟩ := Option.bind_eq_some_iff.mp h
      obtain ⟨hu, hperm⟩ := pull_perm hpull
      obtain rfl : u = t := of_decide_eq_true hu
      simp only at h
      cases hbody : m.attempt op s.obj with
      | none =>
          rw [hbody, Option.some.injEq] at h
          exact h ▸ .sleep u woken op ready hperm hbody
      | some done =>
          obtain ⟨obj, r, notices⟩ := done
          rw [hbody] at h
          obtain ⟨threads, hnotify, rfl⟩ := Option.map_eq_some_iff.mp h
          exact .done u woken op ready obj r notices threads hperm hbody (notify_woken hnotify)
  | spurious t =>
      obtain ⟨⟨⟨u, op⟩, asleep⟩, hpull, rfl⟩ := Option.map_eq_some_iff.mp h
      obtain ⟨hu, hperm⟩ := pull_perm hpull
      obtain rfl : u = t := of_decide_eq_true hu
      exact .spurious u op asleep hperm

theorem exists_enter (m : Monitor κ ω ρ σ) {s : State T ω ρ σ} (h : s.threads.ready ≠ []) :
    ∃ t woken s', m.step s (.enter t woken) = some s' := by
  obtain ⟨x, rest, hready⟩ := List.exists_cons_of_ne_nil h
  have hx : x ∈ s.threads.ready := hready ▸ List.mem_cons_self
  obtain ⟨y, ready, hpull⟩ := pull_of_mem (p := fun y => y.1 = x.1) hx (by simp)
  cases hbody : m.attempt y.2 s.obj with
  | none =>
      refine ⟨x.1, [], { s with threads := ⟨ready, s.threads.asleep ++ [y]⟩ }, ?_⟩
      simp only [step, hpull, Option.bind_some, hbody]
  | some done =>
      obtain ⟨obj, r, notices⟩ := done
      obtain ⟨woken, threads, hnotify⟩ := exists_notify m notices ⟨ready, s.threads.asleep⟩
      refine ⟨x.1, woken, ⟨obj, threads, s.returned ++ [(x.1, y.2, r)]⟩, ?_⟩
      simp only [step, hpull, Option.bind_some, hbody, hnotify, Option.map_some]

end

/-!
Nobody is forgotten: `avail c s` is the number of operations that the condition `c` lets
through before its predicate turns false.
-/
section
variable [DecidableEq κ] {m : Monitor κ ω ρ σ} {avail : κ → σ → ℕ∞}

/-- A section that lets more operations through than before has notified one sleeper for each
of them, or all. -/
structure Accounted (m : Monitor κ ω ρ σ) (avail : κ → σ → ℕ∞) : Prop where
  holds : ∀ c s, m.holds c s = true ↔ avail c s ≠ 0
  body : ∀ {op s s' r notices}, m.attempt op s = some (s', r, notices) → ∀ c, .all c ∈ notices ∨
    avail c s' + (if m.waitsFor op = some c then 1 else 0) ≤ avail c s + notices.count (.one c)

/-- While a thread sleeps on a condition, there is a thread on its way for every operation
that the condition lets through. -/
structure Attended (m : Monitor κ ω ρ σ) (avail : κ → σ → ℕ∞) (s : State T ω ρ σ) : Prop where
  waits : ∀ x ∈ s.threads.asleep, (m.waitsFor x.2).isSome = true
  enough : ∀ c, (∃ x ∈ s.threads.asleep, m.on c x = true) →
    avail c s.obj ≤ s.threads.ready.countP (m.on c)

omit [DecidableEq κ] in
theorem waits_of_attempt {op : ω} {s : σ} (h : m.attempt op s = none) :
    ∃ c, m.waitsFor op = some c ∧ m.holds c s = false := by
  unfold attempt at h
  split_ifs at h with hall
  cases hop : m.waitsFor op with
  | none => simp [hop] at hall
  | some c => exact ⟨c, rfl, by simpa [hop] using hall⟩

theorem Accounted.avail_of_attempt (ha : m.Accounted avail) {op : ω} {s : σ}
    (h : m.attempt op s = none) : ∃ c, m.waitsFor op = some c ∧ avail c s = 0 := by
  obtain ⟨c, hop, hholds⟩ := waits_of_attempt h
  refine ⟨c, hop, ?_⟩
  by_contra hne
  rw [(ha.holds c s).mpr hne] at hholds
  cases hholds

theorem Accounted.attempt_of_avail (ha : m.Accounted avail) {op : ω} {c : κ} {s : σ}
    (hop : m.waitsFor op = some c) (h : avail c s = 0) : m.attempt op s = none := by
  have hholds : m.holds c s = false := by
    cases hc : m.holds c s with
    | false => rfl
    | true => exact absurd h ((ha.holds c s).mp hc)
  rw [attempt, hop, Option.all_some, hholds]
  rfl

/-- No wake-up is lost: with no thread on its way, whoever sleeps would have to wait. -/
theorem Accounted.blocked_of_rest (ha : m.Accounted avail) {s : State T ω ρ σ}
    (hs : Attended m avail s) (hrest : s.threads.ready = []) {x : T × ω}
    (hx : x ∈ s.threads.asleep) : m.attempt x.2 s.obj = none := by
  obtain ⟨c, hc⟩ := Option.isSome_iff_exists.mp (hs.waits x hx)
  have henough := hs.enough c ⟨x, hx, decide_eq_true hc⟩
  rw [hrest, List.countP_nil, Nat.cast_zero, nonpos_iff_eq_zero] at henough
  exact ha.attempt_of_avail hc henough

variable [DecidableEq T]

theorem Accounted.attended_step (ha : m.Accounted avail) {s s' : State T ω ρ σ} {a : Action T ω}
    (hs : Attended m avail s) (h : m.step s a = some s') : Attended m avail s' := by
  cases moves_of_step h with
  | call t op =>
      refine ⟨hs.waits, ?_⟩
      intro c hc
      apply (hs.enough c hc).trans
      rw [List.countP_append]
      exact_mod_cast Nat.le_add_right _ _
  | sleep t woken op ready hready hwait =>
      obtain ⟨d, hop, hnone⟩ := ha.avail_of_attempt hwait
      constructor
      · intro x hx
        cases List.mem_append.mp hx with
        | inl hx => exact hs.waits x hx
        | inr hx =>
            obtain rfl := List.mem_singleton.mp hx
            exact Option.isSome_iff_exists.mpr ⟨d, hop⟩
      · rintro c ⟨x, hx, hon⟩
        by_cases hc : m.on c (t, op) = true
        · -- the one that goes to sleep has seen its predicate false
          have hcd : d = c := Option.some.inj (hop.symm.trans (of_decide_eq_true hc))
          subst hcd
          exact hnone ▸ zero_le
        · have hx' : x ∈ s.threads.asleep := by
            cases List.mem_append.mp hx with
            | inl hx => exact hx
            | inr hx =>
                obtain rfl := List.mem_singleton.mp hx
                exact absurd hon hc
          have henough := hs.enough c ⟨x, hx', hon⟩
          rwa [hready.countP_eq, List.countP_cons_of_neg hc] at henough
  | done t woken op ready obj r notices threads hready hbody hwoken =>
      constructor
      · exact fun x hx => hs.waits x (hwoken.asleep hx)
      · rintro c ⟨x, hx, hon⟩
        have hnotAll : .all c ∉ notices := by
          intro hall
          rw [hwoken.all c hall x hx] at hon
          cases hon
        have henough := hs.enough c ⟨x, hwoken.asleep hx, hon⟩
        have hone := hwoken.one c ⟨x, hx, hon⟩
        have hbalance := (ha.body hbody c).resolve_left hnotAll
        rw [hready.countP_eq, List.countP_cons] at henough
        have hon_iff : m.on c (t, op) = true ↔ m.waitsFor op = some c := decide_eq_true_iff
        simp only [hon_iff] at henough
        have hsum : avail c obj + (if m.waitsFor op = some c then 1 else 0) ≤
            threads.ready.countP (m.on c) + (if m.waitsFor op = some c then 1 else 0) := by
          calc avail c obj + (if m.waitsFor op = some c then 1 else 0)
              ≤ avail c s.obj + notices.count (.one c) := hbalance
            _ ≤ (ready.countP (m.on c) + (if m.waitsFor op = some c then 1 else 0) : ℕ) +
                  notices.count (.one c) := by gcongr
            _ = (ready.countP (m.on c) + notices.count (.one c) : ℕ) +
                  (if m.waitsFor op = some c then 1 else 0) := by
                push_cast
                ring
            _ ≤ _ := by gcongr
        exact (ENat.add_le_add_iff_right (by split_ifs <;> simp)).mp hsum
  | spurious t op asleep hasleep =>
      have kept : ∀ x ∈ asleep, x ∈ s.threads.asleep := fun x hx =>
        hasleep.mem_iff.mpr (List.mem_cons_of_mem _ hx)
      refine ⟨fun x hx => hs.waits x (kept x hx), ?_⟩
      rintro c ⟨x, hx, hon⟩
      apply (hs.enough c ⟨x, kept x hx, hon⟩).trans
      rw [List.countP_append]
      exact_mod_cast Nat.le_add_right _ _

theorem Accounted.attended_run (ha : m.Accounted avail) {s s' : State T ω ρ σ}
    {as : List (Action T ω)} (hs : Attended m avail s) (h : run m.step s as = some s') :
    Attended m avail s' :=
  invariant_run (fun _ _ _ hI hstep => ha.attended_step hI hstep) hs h

end

/-!
Every call returns once, each thread's in the order it made them, and without new calls the
threads come to rest.
-/
section
variable [DecidableEq κ] [DecidableEq T] {m : Monitor κ ω ρ σ}

def made (as : List (Action T ω)) : List (T × ω) :=
  as.filterMap fun a => match a with
    | .call t op => some (t, op)
    | _ => none

def Action.isEnter : Action T ω → Bool
  | .enter _ _ => true
  | _ => false

def ofThread (t : T) (l : List (T × ω)) : List (T × ω) := l.filter (·.1 = t)

/-- The calls that have returned, as they were made. -/
def State.finished (s : State T ω ρ σ) : List (T × ω) := s.returned.map fun x => (x.1, x.2.1)

/-- A thread has at most one call open, the last it made; the others have returned in order. -/
structure InTurn (s : State T ω ρ σ) (calls : List (T × ω)) : Prop where
  single : ∀ t, (ofThread t s.threads.inside).length ≤ 1
  inOrder : ∀ t, ofThread t calls = ofThread t s.finished ++ ofThread t s.threads.inside

omit [DecidableEq κ] in
theorem ofThread_append (t : T) (l l' : List (T × ω)) :
    ofThread t (l ++ l') = ofThread t l ++ ofThread t l' := List.filter_append ..

omit [DecidableEq κ] in
theorem ofThread_perm {l l' : List (T × ω)} (h : l.Perm l') {t : T}
    (hl : (ofThread t l').length ≤ 1) : ofThread t l = ofThread t l' := by
  have hperm : (ofThread t l).Perm (ofThread t l') := h.filter _
  cases hl' : ofThread t l' with
  | nil => exact List.perm_nil.mp (hl' ▸ hperm)
  | cons x rest =>
      rw [hl', List.length_cons] at hl
      have hrest : rest = [] := List.eq_nil_of_length_eq_zero (by omega)
      subst hrest
      exact List.perm_singleton.mp (hl' ▸ hperm)

omit [DecidableEq κ] in
/-- Where the threads inside are the same, whoever is ready. -/
theorem InTurn.of_perm {s s' : State T ω ρ σ} {calls : List (T × ω)} (hs : InTurn s calls)
    (hperm : s'.threads.inside.Perm s.threads.inside) (hreturned : s'.returned = s.returned) :
    InTurn s' calls := by
  have same := fun t => ofThread_perm hperm (hs.single t)
  constructor
  · intro t
    rw [same]
    exact hs.single t
  · intro t
    rw [same, State.finished, hreturned]
    exact hs.inOrder t

omit [DecidableEq κ] in
theorem InTurn.returned {s s' : State T ω ρ σ} {calls : List (T × ω)} (hs : InTurn s calls)
    {t : T} {op : ω} {r : ρ} (hperm : s.threads.inside.Perm ((t, op) :: s'.threads.inside))
    (hreturned : s'.returned = s.returned ++ [(t, op, r)]) : InTurn s' calls := by
  have hfinished : s'.finished = s.finished ++ [(t, op)] := by
    rw [State.finished, hreturned, List.map_append]
    rfl
  have hinside : ∀ u, (ofThread u s.threads.inside).Perm
      (ofThread u [(t, op)] ++ ofThread u s'.threads.inside) := by
    intro u
    rw [← ofThread_append]
    exact hperm.filter _
  have hlength : ∀ u, (ofThread u [(t, op)]).length + (ofThread u s'.threads.inside).length ≤ 1 := by
    intro u
    rw [← List.length_append, ← (hinside u).length_eq]
    exact hs.single u
  constructor
  · intro u
    exact (Nat.le_add_left _ _).trans (hlength u)
  · intro u
    have same : ofThread u s.threads.inside = ofThread u ((t, op) :: s'.threads.inside) := by
      apply ofThread_perm hperm
      rw [← List.singleton_append, ofThread_append, List.length_append]
      exact hlength u
    rw [hs.inOrder, same, hfinished, ofThread_append, List.append_assoc]
    exact congrArg _ (ofThread_append u [(t, op)] s'.threads.inside)

theorem inTurn_step {s s' : State T ω ρ σ} {calls : List (T × ω)} {a : Action T ω}
    (hs : InTurn s calls) (h : m.step s a = some s') : InTurn s' (calls ++ made [a]) := by
  cases moves_of_step h with
  | call t op hout =>
      have hperm : (Threads.inside { s.threads with ready := s.threads.ready ++ [(t, op)] }).Perm
          (s.threads.inside ++ [(t, op)]) := by
        rw [Threads.inside, Threads.inside, List.append_assoc, List.append_assoc]
        exact List.perm_append_comm.append_left _
      have hnone : ofThread t s.threads.inside = [] := by
        rw [ofThread, List.filter_eq_nil_iff]
        intro x hx
        exact fun ht => hout x hx (of_decide_eq_true ht)
      have hsingle : ∀ u, (ofThread u (s.threads.inside ++ [(t, op)])).length ≤ 1 := by
        intro u
        rw [ofThread_append, List.length_append]
        by_cases hu : t = u
        · subst hu
          rw [hnone]
          simp [ofThread]
        · simpa [ofThread, hu] using hs.single u
      have same := fun u => ofThread_perm hperm (hsingle u)
      constructor
      · intro u
        rw [same]
        exact hsingle u
      · intro u
        rw [same, ofThread_append, ofThread_append, hs.inOrder, List.append_assoc]
        rfl
  | sleep t woken op ready hready =>
      rw [show made [Action.enter t woken] = ([] : List (T × ω)) from rfl, List.append_nil]
      refine hs.of_perm ?_ rfl
      rw [Threads.inside, Threads.inside, ← List.append_assoc]
      calc (ready ++ s.threads.asleep ++ [(t, op)]).Perm ((t, op) :: (ready ++ s.threads.asleep)) :=
            List.perm_append_comm
        _ |>.Perm (s.threads.ready ++ s.threads.asleep) := (hready.append_right _).symm
  | done t woken op ready obj r notices threads hready hbody hwoken =>
      rw [show made [Action.enter t woken] = ([] : List (T × ω)) from rfl, List.append_nil]
      refine hs.returned ?_ rfl
      apply (hready.append_right s.threads.asleep).trans
      exact (hwoken.inside.symm).cons (t, op)
  | spurious t op asleep hasleep =>
      rw [show made [Action.spurious t] = ([] : List (T × ω)) from rfl, List.append_nil]
      refine hs.of_perm ?_ rfl
      rw [Threads.inside, Threads.inside, List.append_assoc]
      exact hasleep.symm.append_left _

theorem inTurn_run {s : State T ω ρ σ} {obj : σ} {as : List (Action T ω)}
    (h : run m.step { obj } as = some s) : InTurn s (made as) := by
  apply history_run (P := fun as s => InTurn s (made as)) _ _ h
  · constructor <;> intro t
    · exact Nat.zero_le 1
    · rfl
  · intro as s a s' _ hs hstep
    rw [made, List.filterMap_append]
    exact inTurn_step hs hstep

/-- What a state can still take without a new call: each return may wake everybody. -/
def State.weight (s : State T ω ρ σ) : Nat :=
  s.threads.inside.length ^ 2 + s.threads.ready.length

theorem weight_step {s s' : State T ω ρ σ} {a : Action T ω} (ha : a.isEnter = true)
    (h : m.step s a = some s') : s'.weight < s.weight := by
  cases moves_of_step h with
  | call => cases ha
  | sleep t woken op ready hready =>
      have hlength := hready.length_eq
      simp only [State.weight, Threads.inside, List.length_append, List.length_cons,
        List.length_nil] at hlength ⊢
      rw [hlength, show ready.length + (s.threads.asleep.length + (0 + 1)) =
        ready.length + 1 + s.threads.asleep.length by omega]
      omega
  | done t woken op ready obj r notices threads hready hbody hwoken =>
      have hlength := hready.length_eq
      have hinside := hwoken.inside.length_eq
      have hready' : threads.ready.length ≤ threads.inside.length := by
        rw [Threads.inside, List.length_append]
        exact Nat.le_add_right _ _
      simp only [State.weight]
      rw [hinside] at hready' ⊢
      simp only [Threads.inside, List.length_append, List.length_cons] at hlength hready' ⊢
      rw [hlength]
      nlinarith
  | spurious => cases ha

/-- Without new calls and spurious wake-ups a run is at an end after so many sections. -/
theorem length_le_of_enters {s s' : State T ω ρ σ} {as : List (Action T ω)}
    (ha : ∀ a ∈ as, a.isEnter = true) (h : run m.step s as = some s') :
    as.length + s'.weight ≤ s.weight :=
  length_le_of_decreasing (I := fun _ => True) (A := fun a => a.isEnter = true)
    (fun _ _ _ _ ha hstep => ⟨trivial, weight_step ha hstep⟩) trivial ha h

end

end Monitor

end CppLin
