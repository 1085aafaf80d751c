import CppLin.Master.Node
import CppLin.Virtual.Effects

/-!
The schedule tables a node and its bus have installed, over sequences of calls on the two.
The node looks at the identifiers of a table, the bus does not.
-/
namespace CppLin.Master
open Bytes Relay Run Virt

/-- A table installed on the node, or any call on its bus. -/
inductive Call where
  | setSchedule (entries : List ScheduleEntry)
  | onBus (op : Op)

/-- The table a call installs. -/
def Call.table : Call → Option (List ScheduleEntry)
  | .setSchedule entries => some entries
  | .onBus (.setSchedule entries) => some entries
  | .onBus _ => none

/-- The table a call installs on the bus. -/
def Call.busTable : Call → Option (List ScheduleEntry)
  | .onBus (.setSchedule entries) => some entries
  | _ => none

def ValidIds (entries : List ScheduleEntry) : Prop := ∀ e ∈ entries, e.id ≤ kLINMaxID

instance (entries : List ScheduleEntry) : Decidable (ValidIds entries) :=
  inferInstanceAs (Decidable (∀ e ∈ entries, _))

namespace Node

/-- A call with its result; `none` while the call waits. -/
def exec (n : Node Bus) : Call → Option (Node Bus × Outcome)
  | .setSchedule entries => let (n, e) := n.setSchedule entries; some (n, .code e)
  | .onBus op => (n.bus.exec op).map fun (bus, out) => ({ n with bus }, out)

def step (n : Node Bus) (c : Call) : Option (Node Bus) := (n.exec c).map Prod.fst

/-- Both tables hold valid identifiers only. -/
structure Installed (n : Node Bus) : Prop where
  node : ValidIds n.schedule
  bus : ValidIds n.bus.schedule

/-- On an open bus the node and the bus agree on the table of the call. -/
def AcceptsAlike (n : Node Bus) (c : Call) : Prop :=
  ∀ entries ∈ c.table, n.bus.closed = false →
    ((n.setSchedule entries).2 = none ↔ (n.bus.setSchedule entries).2 = none)

/-- A call that fails leaves both tables. -/
def KeepsRejected (n : Node Bus) (c : Call) : Prop :=
  ∀ n' out, n.exec c = some (n', out) → out.failure ≠ none →
    n'.schedule = n.schedule ∧ n'.bus.schedule = n.bus.schedule

/-- While the bus is open, the call's table is of valid identifiers. -/
def OffersValid (n : Node Bus) (c : Call) : Prop :=
  ∀ entries ∈ c.table, n.bus.closed = false → ValidIds entries

instance (n : Node Bus) (c : Call) : Decidable (n.OffersValid c) :=
  inferInstanceAs (Decidable (∀ entries ∈ c.table, _ → _))

/-- The same of the tables for the bus alone. -/
def OffersBusValid (n : Node Bus) (c : Call) : Prop :=
  ∀ entries ∈ c.busTable, n.bus.closed = false → ValidIds entries

theorem setSchedule_accepts (n : Node Bus) (entries : List ScheduleEntry) :
    (n.setSchedule entries).2 = none ↔ ValidIds entries := by
  constructor
  · intro h
    exact ((setSchedule_ok_iff n _ entries).mp (Prod.ext rfl h)).1
  · intro h
    exact congrArg Prod.snd ((setSchedule_ok_iff n _ entries).mpr ⟨h, rfl⟩)

theorem bus_setSchedule_open {b : Bus} (hopen : b.closed = false) (entries : List ScheduleEntry) :
    b.setSchedule entries = ({ b with schedule := entries }, none) := by
  rw [Bus.setSchedule, if_neg (by simp [hopen])]

theorem bus_setSchedule_closed {b : Bus} (hclosed : b.closed = true)
    (entries : List ScheduleEntry) : b.setSchedule entries = (b, some ErrClosed) := by
  rw [Bus.setSchedule, if_pos hclosed]

theorem acceptsAlike_iff (n : Node Bus) (c : Call) : n.AcceptsAlike c ↔ n.OffersValid c := by
  unfold AcceptsAlike OffersValid
  refine forall_congr' fun entries => forall_congr' fun _ => forall_congr' fun hopen => ?_
  rw [bus_setSchedule_open hopen, setSchedule_accepts]
  exact iff_true_right rfl

theorem schedule_of_effect {b b' : Bus} {op : Op} {out : Outcome} (h : Bus.Effect b op b' out)
    (hop : (Call.onBus op).busTable = none) : b'.schedule = b.schedule := by
  cases h with
  | failed hout hsame => rw [hsame]
  | published hpub hp =>
      obtain ⟨-, -, rfl⟩ := Bus.doPublish_ok hp
      rfl
  | scheduled hopen => cases hop
  | emitted hm hbr =>
      have htables := Bus.emitted_sameTables hm hbr
      rw [htables]
  | closed =>
      cases hc : b.closed with
      | true => rw [Bus.close_of_closed hc]
      | false => rw [Bus.close_of_open hc]
  | _ => rfl

/-- What a call does to the two tables: it installs a table on the node, it installs one on
the bus, or it leaves both. -/
theorem exec_cases {n n' : Node Bus} {c : Call} {out : Outcome} (h : n.exec c = some (n', out)) :
    (∃ entries, c = .setSchedule entries ∧ ValidIds entries ∧ out.failure = none ∧
      n' = { n with schedule := entries }) ∨
    (∃ entries, c = .onBus (.setSchedule entries) ∧ n.bus.closed = false ∧ out.failure = none ∧
      n' = { n with bus := { n.bus with schedule := entries } }) ∨
    ((n.bus.closed = true ∨ c.busTable = none) ∧
      n'.schedule = n.schedule ∧ n'.bus.schedule = n.bus.schedule) := by
  cases c with
  | setSchedule entries =>
      cases hset : n.setSchedule entries with
      | mk m e =>
          simp only [exec, hset, Option.some.injEq, Prod.mk.injEq] at h
          obtain ⟨rfl, rfl⟩ := h
          cases e with
          | none =>
              obtain ⟨hvalid, rfl⟩ := (setSchedule_ok_iff n m entries).mp hset
              exact .inl ⟨entries, rfl, hvalid, rfl, rfl⟩
          | some e =>
              have hsame : m = n := by
                have hkept := setSchedule_error (congrArg Prod.snd hset)
                rwa [hset] at hkept
              exact .inr (.inr ⟨.inr rfl, by rw [hsame], by rw [hsame]⟩)
  | onBus op =>
      obtain ⟨⟨b, out'⟩, hb, heq⟩ := Option.map_eq_some_iff.mp h
      obtain ⟨rfl, rfl⟩ := Prod.mk.inj heq
      cases hop : (Call.onBus op).busTable with
      | none =>
          have hkept := schedule_of_effect (Bus.effect_of_exec hb) hop
          exact .inr (.inr ⟨.inr rfl, rfl, hkept⟩)
      | some entries =>
          obtain rfl : op = .setSchedule entries := by
            cases op <;> simp [Call.busTable] at hop
            rw [hop]
          cases hc : n.bus.closed with
          | false =>
              simp only [Bus.exec, bus_setSchedule_open hc, Option.some.injEq, Prod.mk.injEq] at hb
              obtain ⟨rfl, rfl⟩ := hb
              exact .inr (.inl ⟨entries, rfl, rfl, rfl, rfl⟩)
          | true =>
              simp only [Bus.exec, bus_setSchedule_closed hc, Option.some.injEq,
                Prod.mk.injEq] at hb
              obtain ⟨rfl, rfl⟩ := hb
              exact .inr (.inr ⟨.inl rfl, rfl, rfl⟩)

theorem keepsRejected (n : Node Bus) (c : Call) : n.KeepsRejected c := by
  intro n' out h hout
  obtain ⟨entries, -, -, hok, -⟩ | ⟨entries, -, -, hok, -⟩ | ⟨-, hkept⟩ := exec_cases h
  · exact absurd hok hout
  · exact absurd hok hout
  · exact hkept

/-- A step keeps the tables valid exactly if the table it offers an open bus is valid. -/
theorem Installed.step_iff {n n' : Node Bus} (hn : n.Installed) {c : Call}
    (h : n.step c = some n') : n'.Installed ↔ n.OffersBusValid c := by
  obtain ⟨⟨m, out⟩, hexec, rfl⟩ := Option.map_eq_some_iff.mp h
  obtain ⟨entries, rfl, hvalid, -, rfl⟩ | ⟨entries, rfl, hopen, -, rfl⟩ |
    ⟨hquiet, hnode, hbus⟩ := exec_cases hexec
  · refine iff_of_true ⟨hvalid, hn.bus⟩ ?_
    rintro entries' ⟨⟩
  · constructor
    · rintro ⟨-, hbus⟩ entries' hmem -
      obtain rfl := Option.some.inj hmem
      exact hbus
    · intro hoffers
      exact ⟨hn.node, hoffers entries rfl hopen⟩
  · refine iff_of_true ⟨hnode ▸ hn.node, hbus ▸ hn.bus⟩ ?_
    intro entries hmem hopen
    obtain hclosed | hnone := hquiet
    · exact absurd (hclosed.symm.trans hopen) Bool.noConfusion
    · rw [hnone] at hmem
      cases hmem

theorem OffersValid.bus {n : Node Bus} {c : Call} (h : n.OffersValid c) : n.OffersBusValid c := by
  intro entries hmem
  refine h entries ?_
  cases c with
  | setSchedule entries' => cases hmem
  | onBus op =>
      cases op with
      | setSchedule entries' => exact hmem
      | _ => cases hmem

end Node

/-- The tables installed along a run are valid exactly if every table the bus is offered while
it is open is. -/
theorem installed_iff {n s : Node Bus} (hn : n.Installed) {calls : List Call}
    (h : run Node.step n calls = some s) :
    (∀ past, past <+: calls → ∀ m, run Node.step n past = some m → m.Installed) ↔
      Guarded Node.step Node.OffersBusValid n calls := by
  refine guarded_iff_always (I := fun _ => True) (A := fun _ => True) ?_ ?_
    (fun _ _ => trivial) trivial hn h
  · intros
    trivial
  · intro m c m' _ _ hm hstep
    exact hm.step_iff hstep

/-- The node and the bus hold valid tables all along a run, agree on every table one of them
is offered while the bus is open, and keep their tables when they refuse one, exactly if no
table offered while the bus is open has an identifier out of range. -/
theorem schedules_valid_iff {bus : Bus} (hempty : bus.schedule = []) {calls : List Call}
    {s : Node Bus} (h : run Node.step { bus } calls = some s) :
    ((∀ past, past <+: calls → ∀ m, run Node.step { bus } past = some m → m.Installed) ∧
        Guarded Node.step Node.AcceptsAlike { bus } calls ∧
        Guarded Node.step Node.KeepsRejected { bus } calls) ↔
      Guarded Node.step Node.OffersValid { bus } calls := by
  have hstart : Node.Installed { bus } := by
    refine ⟨fun e he => absurd he List.not_mem_nil, ?_⟩
    rw [ValidIds, hempty]
    exact fun e he => absurd he List.not_mem_nil
  rw [installed_iff hstart h, guarded_congr Node.acceptsAlike_iff]
  constructor
  · exact fun h => h.2.1
  · intro hvalid
    refine ⟨?_, hvalid, guarded_of_forall (fun c _ m => m.keepsRejected c) _⟩
    exact hvalid.imp (I := fun _ => True) (fun _ _ _ _ _ => trivial)
      (fun m c _ => Node.OffersValid.bus) trivial

/-- A table on each of the two, and one out of range refused by the closed bus. -/
theorem schedules_valid_iff_closed : ∃ s, run Node.step { bus := .create }
    [.setSchedule [⟨0x10, 10⟩], .onBus (.setSchedule [⟨0x20, 5⟩]), .onBus .close,
      .onBus (.setSchedule [⟨0x40, 5⟩])] = some s ∧ s.Installed := by
  have hrun : run Node.step { bus := .create }
    [.setSchedule [⟨0x10, 10⟩], .onBus (.setSchedule [⟨0x20, 5⟩]), .onBus .close,
      .onBus (.setSchedule [⟨0x40, 5⟩])] = some _ := rfl
  refine ⟨_, hrun, ((schedules_valid_iff rfl hrun).mpr ?_).1 _ (List.prefix_refl _) _ hrun⟩
  decide +kernel

/-- The bus takes the table the node refuses. -/
theorem not_schedules_valid : ¬ ∀ (bus : Bus) (calls : List Call) (s : Node Bus),
    bus.schedule = [] → run Node.step { bus } calls = some s →
      (∀ past, past <+: calls → ∀ m, run Node.step { bus } past = some m → m.Installed) ∧
        Guarded Node.step Node.AcceptsAlike { bus } calls ∧
        Guarded Node.step Node.KeepsRejected { bus } calls := by
  intro h
  have hrun : run Node.step { bus := .create } [.onBus (.setSchedule [⟨0x40, 10⟩])] = some _ := rfl
  have hinstalled := (h _ _ _ rfl hrun).1 _ (List.prefix_refl _) _ hrun
  have hid := hinstalled.bus ⟨0x40, 10⟩ List.mem_cons_self
  revert hid
  decide

end CppLin.Master
