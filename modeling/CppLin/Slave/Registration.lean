import CppLin.Lib.LastWrite
import CppLin.Lib.Run
import CppLin.Slave.Node

/-!
Concurrent calls of `set_response` on one node. The bus and the list of identifiers
are updated in two steps under two locks, and the steps of different calls interleave.
-/
namespace CppLin.Slave
open Bytes Run LastWrite Virt

/-- Where a thread is in its call of `set_response`. -/
inductive Pc where
  | idle
  | publishing (id : UInt8) (data : Payload)
  | recording (id : UInt8) (data : Payload)

def Pc.isIdle : Pc → Bool
  | .idle => true
  | _ => false

theorem Pc.isIdle_iff {p : Pc} : p.isIdle = true ↔ p = .idle := by
  cases p <;> simp [Pc.isIdle]

/-- Any number of threads in calls of `set_response` on one node. `published` and
`recorded` keep the steps taken, for stating properties. -/
structure Calls where
  node : Node Bus
  pc : Nat → Pc := fun _ => .idle
  published : List (UInt8 × Payload) := []
  recorded : List (UInt8 × Payload) := []

inductive Action where
  | call (t : Nat) (id : UInt8) (data : Payload)
  | step (t : Nat)

def Action.thread : Action → Nat
  | .call t _ _ => t
  | .step t => t

namespace Calls

def goto (s : Calls) (t : Nat) (p : Pc) : Calls := { s with pc := Function.update s.pc t p }

/-- A call with an identifier out of range returns at once, and so does one whose
publish fails. -/
def step (s : Calls) : Action → Option Calls
  | .call t id data =>
      match s.pc t with
      | .idle => some (if id > kLINMaxID then s else s.goto t (.publishing id data))
      | _ => none
  | .step t =>
      match s.pc t with
      | .idle => none
      | .publishing id data =>
          match s.node.publishResponse id data with
          | (n, some _) => some ({ s with node := n }.goto t .idle)
          | (n, none) =>
              some ({ s with node := n, published := s.published ++ [(id, data)] }.goto t
                (.recording id data))
      | .recording id data =>
          some ({ s with
            node := s.node.recordId id data
            recorded := s.recorded ++ [(id, data)] }.goto t .idle)

/-- `registered_ids()` is exactly the set of identifiers the bus holds a response for. -/
structure Exact (s : Calls) : Prop where
  nodup : s.node.registeredIds.Nodup
  mem : ∀ id, id ∈ s.node.registeredIds ↔ id ∈ s.node.bus.responses

/-- For each identifier the last of the publish steps and the last of the recording
steps are both of empty data or both of data. -/
def LastStepsAgree (s : Calls) : Prop :=
  ∀ id p r, latest Prod.fst id s.published = some p → latest Prod.fst id s.recorded = some r →
    (p.2 = [] ↔ r.2 = [])

/-- The open bus and the calls on it, identifiers in range. -/
structure Sound (s : Calls) : Prop where
  isOpen : s.node.bus.closed = false
  nodup : s.node.ids.Nodup
  inRange : ∀ t id data, s.pc t = .publishing id data → id ≤ kLINMaxID

/-- The moves of the calls on an open bus. -/
inductive Moves (s : Calls) : Action → Calls → Prop
  | reject {t id data} (hpc : s.pc t = .idle) (hid : kLINMaxID < id) : Moves s (.call t id data) s
  | call {t id data} (hpc : s.pc t = .idle) (hid : id ≤ kLINMaxID) :
      Moves s (.call t id data) (s.goto t (.publishing id data))
  | publish {t id data b} (hpc : s.pc t = .publishing id data) (hopen : b.closed = false)
      (hmem : ∀ i, i ∈ b.responses ↔ if i = id then data ≠ [] else i ∈ s.node.bus.responses) :
      Moves s (.step t) ({ s with
        node := { s.node with bus := b }
        published := s.published ++ [(id, data)] }.goto t (.recording id data))
  | record {t id data} (hpc : s.pc t = .recording id data) :
      Moves s (.step t) ({ s with
        node := s.node.recordId id data
        recorded := s.recorded ++ [(id, data)] }.goto t .idle)

theorem moves_of_step {s s' : Calls} {a : Action} (hs : s.Sound) (h : s.step a = some s') :
    Moves s a s' := by
  cases a with
  | call t id data =>
      simp only [step] at h
      split at h
      case h_1 hpc =>
        split_ifs at h with hid <;> obtain rfl := Option.some.inj h
        · exact .reject hpc hid
        · exact .call hpc (UInt8.not_lt.mp hid)
      case h_2 => cases h
  | step t =>
      simp only [step] at h
      split at h
      case h_1 => cases h
      case h_2 id data hpc =>
        obtain ⟨b, hb, hopen, hmem⟩ :=
          Node.publishResponse_of_open hs.isOpen (hs.inRange t id data hpc) data
        rw [hb] at h
        obtain rfl := Option.some.inj h
        exact .publish hpc hopen hmem
      case h_3 id data hpc =>
        obtain rfl := Option.some.inj h
        exact .record hpc

section
variable {s s' : Calls} {t : Nat} {p : Pc}

theorem pc_update_cases {q : Pc} {u : Nat} (h : Function.update s.pc t p u = q) :
    (u = t ∧ p = q) ∨ (u ≠ t ∧ s.pc u = q) := by
  by_cases hu : u = t
  · subst hu
    exact .inl ⟨rfl, by rwa [Function.update_self] at h⟩
  · exact .inr ⟨hu, by rwa [Function.update_of_ne hu] at h⟩

end

theorem Sound.step {s s' : Calls} {a : Action} (hs : s.Sound) (h : Moves s a s') : s'.Sound := by
  cases h with
  | reject hpc hid => exact hs
  | call hpc hid =>
      refine ⟨hs.isOpen, hs.nodup, fun u i d hu => ?_⟩
      obtain ⟨-, he⟩ | ⟨-, hu⟩ := pc_update_cases hu
      · exact (Pc.publishing.inj he).1 ▸ hid
      · exact hs.inRange u i d hu
  | publish hpc hopen hmem =>
      refine ⟨hopen, hs.nodup, fun u i d hu => ?_⟩
      obtain ⟨-, he⟩ | ⟨-, hu⟩ := pc_update_cases hu
      · cases he
      · exact hs.inRange u i d hu
  | record hpc =>
      refine ⟨hs.isOpen, Node.recordId_nodup hs.nodup _ _, fun u i d hu => ?_⟩
      obtain ⟨-, he⟩ | ⟨-, hu⟩ := pc_update_cases hu
      · cases he
      · exact hs.inRange u i d hu

/-- What the steps taken say about the bus and the list. -/
structure Tracks (s : Calls) : Prop where
  bus : ∀ id, id ∈ s.node.bus.responses ↔
    ∃ p, latest Prod.fst id s.published = some p ∧ p.2 ≠ []
  ids : ∀ id, id ∈ s.node.ids ↔ ∃ r, latest Prod.fst id s.recorded = some r ∧ r.2 ≠ []
  recording : ∀ t id data, s.pc t = .recording id data → (id, data) ∈ s.published
  recorded : ∀ x ∈ s.recorded, x ∈ s.published
  published : ∀ x ∈ s.published, x ∈ s.recorded ∨ ∃ t, s.pc t = .recording x.1 x.2

theorem latest_concat_iff {ws : List (UInt8 × Payload)} {i id : UInt8} {data : Payload} {P : Prop}
    (h : P ↔ ∃ w, latest Prod.fst i ws = some w ∧ w.2 ≠ []) :
    (if i = id then data ≠ [] else P) ↔
      ∃ w, latest Prod.fst i (ws ++ [(id, data)]) = some w ∧ w.2 ≠ [] := by
  by_cases hi : i = id
  · subst hi
    have hlast : latest Prod.fst i (ws ++ [(i, data)]) = some (i, data) :=
      latest_concat_same Prod.fst (w := (i, data)) rfl ws
    rw [if_pos rfl, hlast]
    simp
  · have hlast : latest Prod.fst i (ws ++ [(id, data)]) = latest Prod.fst i ws :=
      latest_concat_other Prod.fst (Ne.symm hi) ws
    rw [if_neg hi, hlast, h]

theorem Tracks.step {s s' : Calls} {a : Action} (hs : s.Sound) (ht : s.Tracks)
    (h : Moves s a s') : s'.Tracks := by
  cases h with
  | reject hpc hid => exact ht
  | @call t id data hpc hid =>
      refine ⟨ht.bus, ht.ids, fun u i d hu => ?_, ht.recorded, fun x hx => ?_⟩
      · obtain ⟨-, he⟩ | ⟨-, hu⟩ := pc_update_cases hu
        · cases he
        · exact ht.recording u i d hu
      · refine (ht.published x hx).imp_right ?_
        rintro ⟨u, hu⟩
        have hut : u ≠ t := by
          rintro rfl
          rw [hpc] at hu
          cases hu
        exact ⟨u, (Function.update_of_ne hut _ _).trans hu⟩
  | @publish t id data b hpc hopen hmem =>
      refine ⟨fun i => ?_, ht.ids, fun u i d hu => ?_, fun x hx => ?_, fun x hx => ?_⟩
      · exact (hmem i).trans (latest_concat_iff (ht.bus i))
      · obtain ⟨-, he⟩ | ⟨-, hu⟩ := pc_update_cases hu
        · obtain ⟨rfl, rfl⟩ := Pc.recording.inj he
          exact List.mem_append_right _ (List.mem_singleton_self _)
        · exact List.mem_append_left _ (ht.recording u i d hu)
      · exact List.mem_append_left _ (ht.recorded x hx)
      · rcases List.mem_append.mp hx with hx | hx
        · refine (ht.published x hx).imp_right ?_
          rintro ⟨u, hu⟩
          have hut : u ≠ t := by
            rintro rfl
            rw [hpc] at hu
            cases hu
          exact ⟨u, (Function.update_of_ne hut _ _).trans hu⟩
        · obtain rfl := List.mem_singleton.mp hx
          exact .inr ⟨t, Function.update_self _ _ _⟩
  | @record t id data hpc =>
      refine ⟨ht.bus, fun i => ?_, fun u i d hu => ?_, fun x hx => ?_, fun x hx => ?_⟩
      · exact (Node.mem_recordId hs.nodup id data i).trans (latest_concat_iff (ht.ids i))
      · obtain ⟨-, he⟩ | ⟨-, hu⟩ := pc_update_cases hu
        · cases he
        · exact ht.recording u i d hu
      · rcases List.mem_append.mp hx with hx | hx
        · exact ht.recorded x hx
        · obtain rfl := List.mem_singleton.mp hx
          exact ht.recording t id data hpc
      · obtain hx | ⟨u, hu⟩ := ht.published x hx
        · exact .inl (List.mem_append_left _ hx)
        · by_cases hut : u = t
          · subst hut
            rw [hpc] at hu
            obtain ⟨rfl, rfl⟩ := Pc.recording.inj hu
            exact .inl (List.mem_append_right _ (List.mem_singleton_self _))
          · exact .inr ⟨u, (Function.update_of_ne hut _ _).trans hu⟩

/-- When every call has returned, the list is exact if and only if the last steps agree. -/
theorem Tracks.exact_iff {s : Calls} (hs : s.Sound) (ht : s.Tracks)
    (hdone : ∀ t, s.pc t = .idle) : s.Exact ↔ s.LastStepsAgree := by
  constructor
  · rintro ⟨-, hmem⟩ id p r hp hr
    have hbus : id ∈ s.node.bus.responses ↔ p.2 ≠ [] := by
      rw [ht.bus id, hp]
      simp
    have hids : id ∈ s.node.ids ↔ r.2 ≠ [] := by
      rw [ht.ids id, hr]
      simp
    exact not_iff_not.mp (hbus.symm.trans ((hmem id).symm.trans hids))
  · intro hagree
    refine ⟨hs.nodup, fun id => (ht.ids id).trans (Iff.trans ?_ (ht.bus id).symm)⟩
    have same : ∀ x, x ∈ s.published ↔ x ∈ s.recorded := by
      intro x
      refine ⟨fun hx => ?_, ht.recorded x⟩
      obtain hx | ⟨t, hpc⟩ := ht.published x hx
      · exact hx
      · rw [hdone t] at hpc
        cases hpc
    cases hp : latest Prod.fst id s.published with
    | none =>
        have hr : latest Prod.fst id s.recorded = none := by
          rw [latest_eq_none_iff] at hp ⊢
          exact fun x hx => hp x ((same x).mpr hx)
        simp [hr]
    | some p =>
        cases hr : latest Prod.fst id s.recorded with
        | none =>
            rw [latest_eq_none_iff] at hr
            obtain ⟨hmem, hkey⟩ := latest_spec Prod.fst hp
            exact absurd hkey (hr p ((same p).mp hmem))
        | some r =>
            have hpr := hagree id p r hp hr
            simp [hpr]

/-- The publish step comes while no other call for the same identifier stands between
its two steps with the opposite kind of data. -/
def Undisturbed (s : Calls) : Action → Prop
  | .step t => ∀ id data, s.pc t = .publishing id data →
      ∀ u data', s.pc u = .recording id data' → (data' = [] ↔ data = [])
  | .call _ _ _ => True

/-- Calls between their steps agree with the bus, and where there are none the list does. -/
structure Settled (s : Calls) : Prop where
  recording : ∀ t id data, s.pc t = .recording id data →
    (id ∈ s.node.bus.responses ↔ data ≠ [])
  ids : ∀ id, (∀ t data, s.pc t ≠ .recording id data) →
    (id ∈ s.node.ids ↔ id ∈ s.node.bus.responses)

theorem Settled.step {s s' : Calls} {a : Action} (hs : s.Sound) (ht : s.Settled)
    (hg : s.Undisturbed a) (h : Moves s a s') : s'.Settled := by
  cases h with
  | reject hpc hid => exact ht
  | @call t id data hpc hid =>
      refine ⟨fun u i d hu => ?_, fun i hi => ht.ids i fun u d hu => ?_⟩
      · obtain ⟨-, he⟩ | ⟨-, hu⟩ := pc_update_cases hu
        · cases he
        · exact ht.recording u i d hu
      · have hut : u ≠ t := by
          rintro rfl
          rw [hpc] at hu
          cases hu
        exact hi u d ((Function.update_of_ne hut _ _).trans hu)
  | @publish t id data b hpc hopen hmem =>
      refine ⟨fun u i d hu => ?_, fun i hi => ?_⟩
      · refine (hmem i).trans ?_
        obtain ⟨-, he⟩ | ⟨-, hu⟩ := pc_update_cases hu
        · obtain ⟨rfl, rfl⟩ := Pc.recording.inj he
          rw [if_pos rfl]
        · by_cases hid : i = id
          · subst hid
            rw [if_pos rfl, ne_eq, ne_eq, hg i data hpc u d hu]
          · rw [if_neg hid]
            exact ht.recording u i d hu
      · have hid : i ≠ id := by
          rintro rfl
          exact hi t data (Function.update_self _ _ _)
        refine Iff.trans ?_ (hmem i).symm
        rw [if_neg hid]
        refine ht.ids i fun u d hu => ?_
        have hut : u ≠ t := by
          rintro rfl
          rw [hpc] at hu
          cases hu
        exact hi u d ((Function.update_of_ne hut _ _).trans hu)
  | @record t id data hpc =>
      refine ⟨fun u i d hu => ?_, fun i hi => ?_⟩
      · obtain ⟨-, he⟩ | ⟨-, hu⟩ := pc_update_cases hu
        · cases he
        · exact ht.recording u i d hu
      · refine (Node.mem_recordId hs.nodup id data i).trans ?_
        by_cases hid : i = id
        · subst hid
          rw [if_pos rfl]
          exact (ht.recording t i data hpc).symm
        · rw [if_neg hid]
          refine ht.ids i fun u d hu => ?_
          have hut : u ≠ t := by
            rintro rfl
            rw [hpc] at hu
            exact hid (Pc.recording.inj hu).1.symm
          exact hi u d ((Function.update_of_ne hut _ _).trans hu)

end Calls

theorem Calls.pc_of_step {s s' : Calls} {a : Action} (h : s.step a = some s') :
    s' = s ∨ ∃ p, s'.pc = Function.update s.pc a.thread p := by
  cases a with
  | call t id data =>
      simp only [step] at h
      split at h
      · split_ifs at h <;> obtain rfl := Option.some.inj h
        · exact .inl rfl
        · exact .inr ⟨_, rfl⟩
      · cases h
  | step t =>
      simp only [step] at h
      split at h
      · cases h
      · split at h <;> obtain rfl := Option.some.inj h <;> exact .inr ⟨_, rfl⟩
      · obtain rfl := Option.some.inj h
        exact .inr ⟨_, rfl⟩

theorem Calls.idle_of_absent {s s' : Calls} {t : Nat} {as : List Action} (hs : s.pc t = .idle)
    (has : ∀ a ∈ as, a.thread ≠ t) (h : run Calls.step s as = some s') : s'.pc t = .idle := by
  refine guarded_run (I := fun s => s.pc t = .idle) (G := fun _ a => a.thread ≠ t) ?_ hs
    (guarded_of_forall (fun a ha _ => has a ha) s) h
  intro m a m' hm ha hstep
  obtain rfl | ⟨p, hp⟩ := Calls.pc_of_step hstep
  · exact hm
  · rw [hp, Function.update_of_ne (Ne.symm ha)]
    exact hm

/-- A fresh node, the only publisher on an open bus. -/
def Calls.fresh (bus : Bus) : Calls := { node := { bus } }

theorem Calls.idle_of_pair {bus : Bus} {as : List Action} {s : Calls}
    (has : ∀ a ∈ as, a.thread = 1 ∨ a.thread = 2)
    (h : run Calls.step (Calls.fresh bus) as = some s) (h1 : s.pc 1 = .idle) (h2 : s.pc 2 = .idle)
    (t : Nat) : s.pc t = .idle := by
  by_cases ht1 : t = 1
  · exact ht1 ▸ h1
  by_cases ht2 : t = 2
  · exact ht2 ▸ h2
  refine Calls.idle_of_absent rfl (fun a ha he => ?_) h
  obtain hthread | hthread := has a ha
  · exact ht1 (he.symm.trans hthread)
  · exact ht2 (he.symm.trans hthread)

theorem Calls.Sound.fresh {bus : Bus} (hopen : bus.closed = false) : (Calls.fresh bus).Sound :=
  ⟨hopen, List.nodup_nil, fun _ _ _ h => nomatch h⟩

/-- After concurrent calls of `set_response` the list of identifiers is exact if and only
if, for each identifier, the last publish step and the last recording step are of the same
kind; it is in every run whose publish steps come undisturbed. -/
theorem registered_ids_exact_iff {bus : Bus} (hopen : bus.closed = false)
    (hempty : bus.responses = ∅) {as : List Action} {s : Calls}
    (h : run Calls.step (Calls.fresh bus) as = some s) (hdone : ∀ t, s.pc t = .idle) :
    (s.Exact ↔ s.LastStepsAgree) ∧
      (Guarded Calls.step Calls.Undisturbed (Calls.fresh bus) as → s.Exact) := by
  have hnone : ∀ id, id ∉ (Calls.fresh bus).node.bus.responses := fun id => by
    simp [Calls.fresh, hempty]
  constructor
  · have hinv : s.Sound ∧ s.Tracks := by
      refine invariant_run (I := fun s => s.Sound ∧ s.Tracks) ?_ ⟨.fresh hopen, ?_⟩ h
      · rintro m a m' ⟨hm, ht⟩ hstep
        have hmv := Calls.moves_of_step hm hstep
        exact ⟨hm.step hmv, ht.step hm hmv⟩
      · refine ⟨fun id => ?_, fun id => ?_, ?_, ?_, ?_⟩
        · simpa [Calls.fresh] using hnone id
        · simp [Calls.fresh]
        · exact fun t id data hpc => nomatch hpc
        · simp [Calls.fresh]
        · simp [Calls.fresh]
    exact hinv.2.exact_iff hinv.1 hdone
  · intro hg
    have hinv : s.Sound ∧ s.Settled := by
      refine guarded_run (I := fun s => s.Sound ∧ s.Settled) ?_ ⟨.fresh hopen, ?_⟩ hg h
      · rintro m a m' ⟨hm, ht⟩ hundisturbed hstep
        have hmv := Calls.moves_of_step hm hstep
        exact ⟨hm.step hmv, ht.step hm hundisturbed hmv⟩
      · refine ⟨fun t id data hpc => ?_, fun id _ => iff_of_false List.not_mem_nil (hnone id)⟩
        cases hpc
    refine ⟨hinv.1.nodup, fun id => hinv.2.ids id fun t data hpc => ?_⟩
    rw [hdone t] at hpc
    cases hpc

/-- Two calls for one identifier, of data and of none; the second gets in between the
steps of the first. -/
def crossedCalls : List Action :=
  [.call 1 5 [0xAA], .call 2 5 [], .step 1, .step 2, .step 2, .step 1]

theorem crossedCalls_run : ∃ s, run Calls.step (Calls.fresh .create) crossedCalls = some s ∧
    (∀ t, s.pc t = .idle) ∧ s.node.registeredIds = [5] ∧ s.node.bus.responses.keys = [] := by
  have hruns : (run Calls.step (Calls.fresh .create) crossedCalls).any fun s =>
      (s.pc 1).isIdle && (s.pc 2).isIdle && decide (s.node.registeredIds = [5]) &&
        decide (s.node.bus.responses.keys = []) := by decide +kernel
  obtain ⟨s, hs, h⟩ := (Option.any_eq_true _ _).mp hruns
  simp only [Bool.and_eq_true, decide_eq_true_eq, Pc.isIdle_iff] at h
  obtain ⟨⟨⟨h1, h2⟩, hids⟩, hkeys⟩ := h
  exact ⟨s, hs, Calls.idle_of_pair (by simp [crossedCalls, Action.thread]) hs h1 h2, hids, hkeys⟩

theorem not_registered_ids_exact : ¬ ∀ (bus : Bus) (as : List Action) (s : Calls),
    bus.closed = false → bus.responses = ∅ → run Calls.step (Calls.fresh bus) as = some s →
    (∀ t, s.pc t = .idle) → s.Exact := by
  intro h
  obtain ⟨s, hs, hdone, hids, hkeys⟩ := crossedCalls_run
  have hmem := ((h .create crossedCalls s rfl rfl hs hdone).mem 5).mp (by rw [hids]; decide)
  rw [AList.mem_keys, hkeys] at hmem
  exact absurd hmem List.not_mem_nil

/-- The same two calls, with the publish steps in the order of the recording steps. -/
def orderedCalls : List Action :=
  [.call 1 5 [0xAA], .call 2 5 [], .step 2, .step 1, .step 2, .step 1]

theorem registered_ids_exact_iff_ordered : ∃ s,
    run Calls.step (Calls.fresh .create) orderedCalls = some s ∧
      s.Exact ∧ s.node.registeredIds = [5] := by
  have hruns : (run Calls.step (Calls.fresh .create) orderedCalls).any fun s =>
      (s.pc 1).isIdle && (s.pc 2).isIdle && decide (s.node.registeredIds = [5]) &&
        decide (s.published = [(5, []), (5, [0xAA])]) &&
        decide (s.recorded = [(5, []), (5, [0xAA])]) := by decide +kernel
  obtain ⟨s, hs, h⟩ := (Option.any_eq_true _ _).mp hruns
  simp only [Bool.and_eq_true, decide_eq_true_eq, Pc.isIdle_iff] at h
  obtain ⟨⟨⟨⟨h1, h2⟩, hids⟩, hpublished⟩, hrecorded⟩ := h
  have hdone := Calls.idle_of_pair (by simp [orderedCalls, Action.thread]) hs h1 h2
  refine ⟨s, hs, (registered_ids_exact_iff rfl rfl hs hdone).1.mpr ?_, hids⟩
  intro id p r hp hr
  rw [hpublished] at hp
  rw [hrecorded, hp] at hr
  rw [Option.some.inj hr]

end CppLin.Slave
