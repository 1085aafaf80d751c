import CppLin.Virtual.Bus

namespace CppLin.Master
open Bytes Relay

/-- `IMasterBus`, the part the node calls; `none` while the call waits. -/
class IMasterBus (β : Type) where
  sendHeader : β → UInt8 → Option (β × Except ErrorCode Frame)

instance : IMasterBus Virt.Bus where
  sendHeader := Virt.Bus.sendHeader

/-- Of the callbacks only whether they are set is kept. -/
structure Node (β : Type) where
  bus : β
  schedule : List ScheduleEntry := []
  onFrame : Bool := false
  onError : Bool := false

namespace Node
variable {β : Type}

def setSchedule (n : Node β) (entries : List ScheduleEntry) : Node β × Option ErrorCode :=
  if entries.any (·.id > kLINMaxID) then (n, some (.lin .invalidFrame))
  else ({ n with schedule := entries }, none)

def sendHeader [IMasterBus β] (n : Node β) (id : UInt8) :
    Option (Node β × Except ErrorCode Frame) :=
  (IMasterBus.sendHeader n.bus id).map fun (bus, r) => ({ n with bus }, r)

theorem setSchedule_ok_iff (n m : Node β) (entries : List ScheduleEntry) :
    n.setSchedule entries = (m, none) ↔
      (∀ e ∈ entries, e.id ≤ kLINMaxID) ∧ m = { n with schedule := entries } := by
  unfold setSchedule
  split_ifs with h
  · simp only [Prod.mk.injEq, reduceCtorEq, and_false, false_iff, not_and]
    obtain ⟨e, he, hid⟩ := List.any_eq_true.mp h
    exact fun hall => absurd (hall e he) (by simpa using hid)
  · simp only [Prod.mk.injEq, and_true]
    constructor
    · rintro rfl
      refine ⟨fun e he => ?_, rfl⟩
      by_contra hid
      exact h (List.any_eq_true.mpr ⟨e, he, by simpa using hid⟩)
    · exact fun hm => hm.2.symm

theorem setSchedule_error {n : Node β} {entries : List ScheduleEntry} {e : ErrorCode}
    (h : (n.setSchedule entries).2 = some e) : (n.setSchedule entries).1 = n := by
  unfold setSchedule at h ⊢
  split_ifs at h ⊢
  rfl

end Node

/-! ### The loop of `run` -/

/-- What the loop does that can be seen from outside: the loads of `stop` with the value
they gave, the headers with the bus's answer, the callbacks. -/
inductive Event where
  | stop (loaded : Bool)
  | header (id : UInt8) (answer : Except ErrorCode Frame)
  | onFrame (f : Frame)
  | onError (e : ErrorCode)

/-- Where the thread that called `run` stands: at the check of the outer `while`, at the
check in front of a slot, at its `send_header`, at the callback, or at one of the two
conditions of the waiting loop. `rest` are the slots the `for` loop has yet to visit. -/
inductive Pc where
  | outer
  | slot (e : ScheduleEntry) (rest : List ScheduleEntry)
  | header (e : ScheduleEntry) (rest : List ScheduleEntry)
  | callback (answer : Except ErrorCode Frame) (e : ScheduleEntry) (rest : List ScheduleEntry)
  | delay (rest : List ScheduleEntry)
  | clock (rest : List ScheduleEntry)
  | returned

/-- The head of the `for` loop; past the last slot the outer `while` comes again. -/
def Pc.next : List ScheduleEntry → Pc
  | [] => .outer
  | e :: rest => .slot e rest

/-- `stop` is shared with the threads that set it. -/
structure Runner (β : Type) where
  node : Node β
  pc : Pc
  stop : Bool
  log : List Event := []

/-- One step of the thread, or a store to `stop` by another one. The bus answers as it
pleases, and the clock may or may not have passed the deadline. -/
inductive Move where
  | setStop
  | load
  | answer (a : Except ErrorCode Frame)
  | callback
  | now (beforeDeadline : Bool)

/-- The callback an answer leads to, when it is registered. -/
def Node.callbacks {β : Type} (n : Node β) : Except ErrorCode Frame → List Event
  | .ok f => if n.onFrame then [.onFrame f] else []
  | .error e => if n.onError then [.onError e] else []

namespace Runner
variable {β : Type}

/-- `run` is called; an empty schedule returns at once. -/
def start (n : Node β) (stop : Bool) : Runner β :=
  { node := n, pc := if n.schedule = [] then .returned else .outer, stop }

def emit (r : Runner β) (es : List Event) (pc : Pc) : Runner β :=
  { r with log := r.log ++ es, pc }

def step (r : Runner β) : Move → Option (Runner β)
  | .setStop => some { r with stop := true }
  | .load =>
      match r.pc with
      | .outer =>
          some (r.emit [.stop r.stop] (if r.stop then .returned else .next r.node.schedule))
      | .slot e rest => some (r.emit [.stop r.stop] (if r.stop then .returned else .header e rest))
      | .delay rest => some (r.emit [.stop r.stop] (if r.stop then .next rest else .clock rest))
      | _ => none
  | .answer a =>
      match r.pc with
      | .header e rest => some (r.emit [.header e.id a] (.callback a e rest))
      | _ => none
  | .callback =>
      match r.pc with
      | .callback a e rest =>
          some (r.emit (r.node.callbacks a) (if e.delayMs > 0 then .delay rest else .next rest))
      | _ => none
  | .now beforeDeadline =>
      match r.pc with
      | .clock rest => some { r with pc := if beforeDeadline then .delay rest else .next rest }
      | _ => none

end Runner
end CppLin.Master
