import CppLin.Lib.Run
import CppLin.Master.Node

/-!
The trace of `run`: the headers go round the schedule, and each has its callback, in
every run against every bus and every moment of stopping.
-/
namespace CppLin.Master
open Bytes Relay Run

variable {β : Type}

namespace Node

/-- The call of the `k`-th turn, which goes round the schedule. -/
def headerAt (n : Node β) (k : Nat) (a : Except ErrorCode Frame) : List Event :=
  (n.schedule[k % n.schedule.length]?.map fun e => .header e.id a).toList

/-- The trace of completed turns, each header followed by its callback. -/
def turns (n : Node β) (answers : List (Except ErrorCode Frame)) : List Event :=
  (answers.mapIdx fun k a => n.headerAt k a ++ n.callbacks a).flatten

theorem turns_concat (n : Node β) (as : List (Except ErrorCode Frame))
    (a : Except ErrorCode Frame) :
    n.turns (as ++ [a]) = n.turns as ++ n.headerAt as.length a ++ n.callbacks a := by
  simp [turns, List.mapIdx_append]

/-- `rest` is what the `for` loop has left after `k` turns in all. -/
def Left (n : Node β) (k : Nat) (rest : List ScheduleEntry) : Prop :=
  ∃ j ≤ n.schedule.length, rest = n.schedule.drop j ∧ k ≡ j [MOD n.schedule.length]

theorem Left.all {n : Node β} {k : Nat} (h : n.Left k []) : n.Left k n.schedule := by
  obtain ⟨j, hj, hrest, hk⟩ := h
  have : j = n.schedule.length := by
    have := List.drop_eq_nil_iff.mp hrest.symm
    omega
  subst this
  exact ⟨0, Nat.zero_le _, rfl, hk.trans (by simp [Nat.ModEq])⟩

theorem Left.tail {n : Node β} {k : Nat} {e : ScheduleEntry} {rest : List ScheduleEntry}
    (h : n.Left k (e :: rest)) : n.Left (k + 1) rest := by
  obtain ⟨j, hj, hrest, hk⟩ := h
  have hlt : j < n.schedule.length := by
    by_contra hge
    rw [List.drop_eq_nil_of_le (by omega)] at hrest
    cases hrest
  refine ⟨j + 1, hlt, ?_, hk.add_right 1⟩
  rw [← List.tail_drop, ← hrest]
  rfl

theorem Left.headerAt {n : Node β} {k : Nat} {e : ScheduleEntry} {rest : List ScheduleEntry}
    (h : n.Left k (e :: rest)) (a : Except ErrorCode Frame) :
    n.headerAt k a = [.header e.id a] := by
  obtain ⟨j, hj, hrest, hk⟩ := h
  have hget : n.schedule[j]? = some e := by
    rw [← List.head?_drop, ← hrest]
    rfl
  have hlt : j < n.schedule.length := (List.getElem?_eq_some_iff.mp hget).1
  have hmod : k % n.schedule.length = j := Eq.trans hk (Nat.mod_eq_of_lt hlt)
  rw [Node.headerAt, hmod, hget]
  rfl

end Node

namespace Runner

def isLoad : Event → Bool
  | .stop _ => true
  | _ => false

/-- The trace without the loads of `stop`. -/
def calls (r : Runner β) : List Event := r.log.filter (!isLoad ·)

def headerId : Event → Option UInt8
  | .header id _ => some id
  | _ => none

@[simp] theorem calls_emit (r : Runner β) (es : List Event) (pc : Pc) :
    (r.emit es pc).calls = r.calls ++ es.filter (!isLoad ·) := List.filter_append ..

theorem filter_callbacks (n : Node β) (a : Except ErrorCode Frame) :
    (n.callbacks a).filter (!isLoad ·) = n.callbacks a := by
  cases a <;> simp only [Node.callbacks] <;> split <;> rfl

/-- Where the thread stands in the schedule, and what it has called so far. -/
def Position (r : Runner β) : Pc → Prop
  | .outer => ∃ as, r.calls = r.node.turns as ∧ r.node.Left as.length r.node.schedule
  | .slot e rest | .header e rest =>
      ∃ as, r.calls = r.node.turns as ∧ r.node.Left as.length (e :: rest)
  | .callback a e rest =>
      ∃ as, r.calls = r.node.turns as ++ [.header e.id a] ∧ r.node.Left as.length (e :: rest)
  | .delay rest | .clock rest => ∃ as, r.calls = r.node.turns as ∧ r.node.Left as.length rest
  | .returned => ∃ as, r.calls = r.node.turns as

theorem position_next {r : Runner β} {as : List (Except ErrorCode Frame)}
    {rest : List ScheduleEntry} (hcalls : r.calls = r.node.turns as)
    (hleft : r.node.Left as.length rest) : r.Position (.next rest) := by
  cases rest with
  | nil => exact ⟨as, hcalls, hleft.all⟩
  | cons e rest => exact ⟨as, hcalls, hleft⟩

/-- What one step does. -/
inductive Turn (r : Runner β) : Runner β → Prop
  | setStop : Turn r { r with stop := true }
  | stopped (hpc : r.pc = .outer ∨ ∃ e rest, r.pc = .slot e rest) (hstop : r.stop = true) :
      Turn r (r.emit [.stop true] .returned)
  | stoppedDelay {rest} (hpc : r.pc = .delay rest) (hstop : r.stop = true) :
      Turn r (r.emit [.stop true] (.next rest))
  | round (hpc : r.pc = .outer) : Turn r (r.emit [.stop false] (.next r.node.schedule))
  | slot {e rest} (hpc : r.pc = .slot e rest) (hstop : r.stop = false) :
      Turn r (r.emit [.stop false] (.header e rest))
  | delay {rest} (hpc : r.pc = .delay rest) : Turn r (r.emit [.stop false] (.clock rest))
  | header {e rest} (hpc : r.pc = .header e rest) (a : Except ErrorCode Frame) :
      Turn r (r.emit [.header e.id a] (.callback a e rest))
  | callback {a e rest} (hpc : r.pc = .callback a e rest) (pc : Pc)
      (hnext : pc = .delay rest ∨ pc = .next rest) : Turn r (r.emit (r.node.callbacks a) pc)
  | clock {rest} (hpc : r.pc = .clock rest) (pc : Pc)
      (hnext : pc = .delay rest ∨ pc = .next rest) : Turn r { r with pc }

theorem turn_of_step {r r' : Runner β} {mv : Move} (h : r.step mv = some r') : Turn r r' := by
  cases mv with
  | setStop =>
    obtain rfl := Option.some.inj h
    exact .setStop
  | load =>
    cases hpc : r.pc with
    | outer =>
      simp only [step, hpc, Option.some.injEq] at h
      subst h
      cases hstop : r.stop with
      | true => exact .stopped (.inl hpc) hstop
      | false => exact .round hpc
    | slot e rest =>
      simp only [step, hpc, Option.some.injEq] at h
      subst h
      cases hstop : r.stop with
      | true => exact .stopped (.inr ⟨e, rest, hpc⟩) hstop
      | false => exact .slot hpc hstop
    | delay rest =>
      simp only [step, hpc, Option.some.injEq] at h
      subst h
      cases hstop : r.stop with
      | true => exact .stoppedDelay hpc hstop
      | false => exact .delay hpc
    | _ => simp [step, hpc] at h
  | answer a =>
    cases hpc : r.pc with
    | header e rest =>
      simp only [step, hpc, Option.some.injEq] at h
      subst h
      exact .header hpc a
    | _ => simp [step, hpc] at h
  | callback =>
    cases hpc : r.pc with
    | callback a e rest =>
      simp only [step, hpc, Option.some.injEq] at h
      subst h
      exact .callback hpc _ (by split_ifs <;> simp)
    | _ => simp [step, hpc] at h
  | now beforeDeadline =>
    cases hpc : r.pc with
    | clock rest =>
      simp only [step, hpc, Option.some.injEq] at h
      subst h
      exact .clock hpc _ (by split_ifs <;> simp)
    | _ => simp [step, hpc] at h

/-- The state between two steps: the position in the schedule, and what a load that
found `stop` set has led to. -/
structure Inv (n : Node β) (r : Runner β) : Prop where
  node : r.node = n
  position : r.Position r.pc
  stopping : .stop true ∈ r.log → r.stop = true ∧ ∀ e rest, r.pc ≠ .header e rest
  stops : r.log.Pairwise fun x y => x = .stop true → headerId y = none
  ends : r.pc = .returned → r.log.getLast? = some (.stop true)

theorem next_ne_returned (rest : List ScheduleEntry) : Pc.next rest ≠ .returned := by
  cases rest <;> simp [Pc.next]

theorem next_ne_header (rest : List ScheduleEntry) (e : ScheduleEntry)
    (rest' : List ScheduleEntry) : Pc.next rest ≠ .header e rest' := by
  cases rest <;> simp [Pc.next]

theorem headerId_callbacks {n : Node β} {a : Except ErrorCode Frame} {ev : Event}
    (h : ev ∈ n.callbacks a) : headerId ev = none ∧ ev ≠ .stop true := by
  cases a <;> simp only [Node.callbacks] at h <;> split at h <;> simp_all [headerId]

section step
variable {n : Node β} {r r' : Runner β}

theorem Inv.node_step (hi : Inv n r) (h : Turn r r') : r'.node = n := by
  cases h <;> exact hi.node

theorem Inv.position_step (hi : Inv n r) (h : Turn r r') : r'.Position r'.pc := by
  have hp := hi.position
  cases h with
  | setStop => exact hp
  | stopped hpc hstop =>
    obtain ⟨as, hcalls⟩ : ∃ as, r.calls = r.node.turns as := by
      rcases hpc with hpc | ⟨e, rest, hpc⟩ <;> rw [hpc] at hp <;>
        exact hp.imp fun as h => h.1
    exact ⟨as, by rw [calls_emit, hcalls]; exact List.append_nil _⟩
  | stoppedDelay hpc hstop =>
    rw [hpc] at hp
    obtain ⟨as, hcalls, hleft⟩ := hp
    exact position_next (by rw [calls_emit, hcalls]; exact List.append_nil _) hleft
  | round hpc =>
    rw [hpc] at hp
    obtain ⟨as, hcalls, hleft⟩ := hp
    exact position_next (by rw [calls_emit, hcalls]; exact List.append_nil _) hleft
  | slot hpc hstop =>
    rw [hpc] at hp
    obtain ⟨as, hcalls, hleft⟩ := hp
    exact ⟨as, by rw [calls_emit, hcalls]; exact List.append_nil _, hleft⟩
  | delay hpc =>
    rw [hpc] at hp
    obtain ⟨as, hcalls, hleft⟩ := hp
    exact ⟨as, by rw [calls_emit, hcalls]; exact List.append_nil _, hleft⟩
  | header hpc a =>
    rw [hpc] at hp
    obtain ⟨as, hcalls, hleft⟩ := hp
    exact ⟨as, by rw [calls_emit, hcalls]; rfl, hleft⟩
  | @callback a e rest hpc pc hnext =>
    rw [hpc] at hp
    obtain ⟨as, hcalls, hleft⟩ := hp
    -- the turn is complete: the next position is one slot further
    have hturn : (r.emit (r.node.callbacks a) pc).calls = r.node.turns (as ++ [a]) := by
      rw [calls_emit, hcalls, filter_callbacks, Node.turns_concat, hleft.headerAt]
    have hone : r.node.Left (as ++ [a]).length rest := by
      rw [List.length_append]
      exact hleft.tail
    rcases hnext with rfl | rfl
    · exact ⟨as ++ [a], hturn, hone⟩
    · exact position_next hturn hone
  | clock hpc pc hnext =>
    rw [hpc] at hp
    obtain ⟨as, hcalls, hleft⟩ := hp
    rcases hnext with rfl | rfl
    · exact ⟨as, hcalls, hleft⟩
    · exact position_next hcalls hleft

theorem Inv.stopping_step (hi : Inv n r) (h : Turn r r') :
    .stop true ∈ r'.log → r'.stop = true ∧ ∀ e rest, r'.pc ≠ .header e rest := by
  intro hmem
  cases h with
  | setStop => exact ⟨rfl, (hi.stopping hmem).2⟩
  | stopped hpc hstop => exact ⟨hstop, by simp [emit]⟩
  | stoppedDelay hpc hstop => exact ⟨hstop, fun e rest => next_ne_header _ e rest⟩
  | round hpc =>
    have hmem : .stop true ∈ r.log := by simpa [emit] using hmem
    exact ⟨(hi.stopping hmem).1, fun e rest => next_ne_header _ e rest⟩
  | slot hpc hstop =>
    -- the one way to a header: this load and all before it gave false
    have hmem : .stop true ∈ r.log := by simpa [emit] using hmem
    exact absurd (hi.stopping hmem).1 (by simp [hstop])
  | delay hpc =>
    have hmem : .stop true ∈ r.log := by simpa [emit] using hmem
    exact ⟨(hi.stopping hmem).1, by simp [emit]⟩
  | header hpc a =>
    have hmem : .stop true ∈ r.log := by simpa [emit] using hmem
    exact ⟨(hi.stopping hmem).1, by simp [emit]⟩
  | callback hpc pc hnext =>
    have hmem : .stop true ∈ r.log := by
      rcases List.mem_append.mp hmem with hmem | hmem
      · exact hmem
      · exact absurd rfl (headerId_callbacks hmem).2
    refine ⟨(hi.stopping hmem).1, fun e rest => ?_⟩
    rcases hnext with rfl | rfl
    · simp [emit]
    · exact next_ne_header _ e rest
  | clock hpc pc hnext =>
    refine ⟨(hi.stopping hmem).1, fun e rest => ?_⟩
    rcases hnext with rfl | rfl
    · simp
    · exact next_ne_header _ e rest

theorem Inv.stops_step (hi : Inv n r) (h : Turn r r') :
    r'.log.Pairwise fun x y => x = .stop true → headerId y = none := by
  have append : ∀ {es : List Event} {pc : Pc}, (∀ ev ∈ es, headerId ev = none) →
      (r.emit es pc).log.Pairwise fun x y => x = .stop true → headerId y = none := by
    intro es pc hes
    refine List.pairwise_append.mpr ⟨hi.stops, ?_, fun x _ y hy _ => hes y hy⟩
    exact List.pairwise_of_forall_mem_list fun x _ y hy _ => hes y hy
  cases h with
  | setStop => exact hi.stops
  | header hpc a =>
    refine List.pairwise_append.mpr ⟨hi.stops, List.pairwise_singleton _ _, ?_⟩
    rintro x hx y - rfl
    exact absurd hpc ((hi.stopping hx).2 _ _)
  | callback hpc pc hnext => exact append fun ev hev => (headerId_callbacks hev).1
  | clock hpc pc hnext => exact hi.stops
  | _ => exact append (by simp [headerId])

theorem Inv.ends_step (hi : Inv n r) (h : Turn r r') :
    r'.pc = .returned → r'.log.getLast? = some (.stop true) := by
  intro hpc'
  cases h with
  | setStop => exact hi.ends hpc'
  | stopped hpc hstop => simp [emit]
  | stoppedDelay hpc hstop => exact absurd hpc' (next_ne_returned _)
  | round hpc => exact absurd hpc' (next_ne_returned _)
  | callback hpc pc hnext | clock hpc pc hnext =>
    rcases hnext with rfl | rfl
    · cases hpc'
    · exact absurd hpc' (next_ne_returned _)
  | _ => cases hpc'

theorem Inv.step (hi : Inv n r) (h : Turn r r') : Inv n r' :=
  ⟨hi.node_step h, hi.position_step h, hi.stopping_step h, hi.stops_step h, hi.ends_step h⟩

end step

theorem inv_start (n : Node β) (hne : n.schedule ≠ []) (stop : Bool) :
    Inv n (start n stop) := by
  have hpc : (start n stop).pc = .outer := if_neg hne
  refine ⟨rfl, ?_, by simp [start], .nil, by simp [hpc]⟩
  rw [hpc]
  exact ⟨[], rfl, 0, Nat.zero_le _, rfl, rfl⟩

/-- The schedule's ids over and over. -/
def cyclic (n : Node β) (k : Nat) : UInt8 := (n.schedule.getD (k % n.schedule.length) {}).id

theorem headerIds_turns {n : Node β} (hne : n.schedule ≠ []) (as : List (Except ErrorCode Frame)) :
    (n.turns as).filterMap headerId = (List.range as.length).map (cyclic n) := by
  induction as using List.reverseRecOn with
  | nil => rfl
  | append_singleton as a ih =>
    have hlt : as.length % n.schedule.length < n.schedule.length :=
      Nat.mod_lt _ (List.length_pos_iff.mpr hne)
    have hcallbacks : (n.callbacks a).filterMap headerId = [] :=
      List.filterMap_eq_nil_iff.mpr fun ev hev => (headerId_callbacks hev).1
    have hheader : (n.headerAt as.length a).filterMap headerId = [cyclic n as.length] := by
      simp [Node.headerAt, cyclic, List.getD, hlt, headerId]
    rw [Node.turns_concat, List.filterMap_append, List.filterMap_append, ih, hheader, hcallbacks,
      List.length_append, List.length_singleton, List.range_succ, List.map_append]
    exact List.append_nil _

theorem headerIds_calls (r : Runner β) : r.log.filterMap headerId = r.calls.filterMap headerId := by
  rw [calls, List.filterMap_filter]
  congr 1
  funext ev
  cases ev <;> rfl

/-- What `run` has done when it stands in `r`. -/
structure RunTrace (n : Node β) (r : Runner β) : Prop where
  headers : ∃ k, r.log.filterMap headerId = (List.range k).map (cyclic n)
  callbacks : ∃ answers, r.calls = n.turns answers ∨
    ∃ a, r.calls = n.turns answers ++ n.headerAt answers.length a
  stops : r.log.Pairwise fun x y => x = .stop true → headerId y = none
  ends : r.pc = .returned → r.log.getLast? = some (.stop true)
  goesOn : r.pc ≠ .returned → ∃ mv, mv ≠ .setStop ∧ (r.step mv).isSome

theorem step_isSome (r : Runner β) (hpc : r.pc ≠ .returned) :
    ∃ mv, mv ≠ .setStop ∧ (r.step mv).isSome := by
  cases h : r.pc with
  | outer | slot | delay => exact ⟨.load, by simp, by simp [step, h]⟩
  | header => exact ⟨.answer (.error (.lin .noResponse)), by simp, by simp [step, h]⟩
  | callback => exact ⟨.callback, by simp, by simp [step, h]⟩
  | clock => exact ⟨.now true, by simp, by simp [step, h]⟩
  | returned => exact absurd h hpc

theorem Inv.runTrace {n : Node β} {r : Runner β} (hne : n.schedule ≠ []) (hi : Inv n r) :
    RunTrace n r := by
  have hcalls : ∃ answers, r.calls = n.turns answers ∨
      ∃ a, r.calls = n.turns answers ++ n.headerAt answers.length a := by
    have hp := hi.position
    have hn := hi.node
    cases hpc : r.pc <;> rw [hpc] at hp <;> obtain ⟨as, hcalls⟩ := hp <;> refine ⟨as, ?_⟩
    case returned => exact .inl (hn ▸ hcalls)
    case callback a e rest => exact .inr ⟨a, by rw [hcalls.1, ← hn, hcalls.2.headerAt]⟩
    all_goals exact .inl (hn ▸ hcalls.1)
  refine ⟨?_, hcalls, hi.stops, hi.ends, step_isSome r⟩
  obtain ⟨as, has | ⟨a, has⟩⟩ := hcalls <;> rw [headerIds_calls, has]
  · exact ⟨as.length, headerIds_turns hne as⟩
  · refine ⟨as.length + 1, ?_⟩
    have hturn := headerIds_turns hne (as ++ [a])
    have hcallbacks : (n.callbacks a).filterMap headerId = [] :=
      List.filterMap_eq_nil_iff.mpr fun ev hev => (headerId_callbacks hev).1
    rw [Node.turns_concat, List.filterMap_append, hcallbacks, List.append_nil] at hturn
    simpa using hturn

/-- Every run of a node whose schedule was accepted. -/
theorem run_trace (n m : Node β) (entries : List ScheduleEntry) (hne : entries ≠ [])
    (hset : n.setSchedule entries = (m, none)) (stop : Bool) (moves : List Move) (r : Runner β)
    (hrun : run step (start m stop) moves = some r) :
    m.schedule = entries ∧ RunTrace m r := by
  obtain ⟨-, rfl⟩ := (Node.setSchedule_ok_iff n m entries).mp hset
  refine ⟨rfl, Inv.runTrace hne (invariant_run ?_ (inv_start _ hne stop) hrun)⟩
  exact fun s mv s' hs hstep => hs.step (turn_of_step hstep)

/-- A frame, an error, and `stop` set while the thread waits. -/
theorem run_trace_stopped :
    let n : Node Virt.Bus := { bus := .create, schedule := [⟨0x10, 0⟩, ⟨0x20, 5⟩], onFrame := true }
    let log : List Event := [.stop false, .stop false, .header 0x10 (.ok {}), .onFrame {},
      .stop false, .header 0x20 (.error ErrClosed), .stop false, .stop true, .stop true]
    RunTrace n { node := n, pc := .returned, stop := true, log } := by
  intro n log
  have hrun : run step (start n false) [.load, .load, .answer (.ok {}), .callback, .load,
      .answer (.error ErrClosed), .callback, .load, .now true, .setStop, .load, .load] =
    some { node := n, pc := .returned, stop := true, log } := rfl
  exact (run_trace { n with schedule := [] } n n.schedule (by simp [n]) rfl false _ _ hrun).2

end Runner
end CppLin.Master
