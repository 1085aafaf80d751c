import CppLin.Master.Run
import CppLin.Virtual.Provenance

/-!
The loop of `run` over the bus itself, beside any other threads that use the bus: what the
loop is answered and tells its callbacks, against what takes effect on the bus.
-/
namespace CppLin.Master
open Bytes Run

/-- The bus with its threads, and the loop in one of them; `calling` while the `send_header`
of the loop is under way. -/
structure Plant where
  sys : Virt.Sys := {}
  runner : Runner Unit
  calling : Bool := false

namespace Plant

inductive Action where
  | bus (a : Virt.Action)
  | loop (mv : Move)
  | call
  | answered

/-- What the last call of a thread that is in none returned. -/
def answer (me : Nat) (s : Virt.Sys) : Option (Except ErrorCode Frame) :=
  match s.pc me, (Virt.returns me s.log).getLast? with
  | .idle, some (.frame a) => some a
  | _, _ => none

/-- The thread `me` calls the bus from the loop only. -/
def step (me : Nat) (p : Plant) : Action → Option Plant
  | .bus a =>
      if a.request.map Prod.fst = some me then none
      else (p.sys.step a).map ({ p with sys := · })
  | .loop (.answer _) => none
  | .loop mv => (p.runner.step mv).map ({ p with runner := · })
  | .call =>
      match p.runner.pc with
      | .header e _ =>
          if p.calling then none
          else (p.sys.step (.call me (.sendHeader e.id))).map ({ p with sys := ·, calling := true })
      | _ => none
  | .answered =>
      if p.calling then
        (answer me p.sys).bind fun a =>
          (p.runner.step (.answer a)).map ({ p with runner := ·, calling := false })
      else none

/-- What the bus sees of a step. -/
def busActions (me : Nat) (p : Plant) : Action → List Virt.Action
  | .bus a => [a]
  | .call =>
      match p.runner.pc with
      | .header e _ => [.call me (.sendHeader e.id)]
      | _ => []
  | _ => []

def start (n : Node Unit) (stop : Bool) : Plant := { runner := .start n stop }

/-- The steps, one by one. -/
inductive Moves (me : Nat) (p : Plant) : Action → Plant → Prop
  | bus {a s} (hother : a.request.map Prod.fst ≠ some me) (hs : p.sys.step a = some s) :
      Moves me p (.bus a) { p with sys := s }
  | loop {mv r} (hmv : ∀ a, mv ≠ .answer a) (hr : p.runner.step mv = some r) :
      Moves me p (.loop mv) { p with runner := r }
  | call {e rest s} (hpc : p.runner.pc = .header e rest) (hcalling : p.calling = false)
      (hs : p.sys.step (.call me (.sendHeader e.id)) = some s) :
      Moves me p .call { p with sys := s, calling := true }
  | answered {a r} (hcalling : p.calling = true) (hidle : p.sys.pc me = .idle)
      (hlast : (Virt.returns me p.sys.log).getLast? = some (.frame a))
      (hr : p.runner.step (.answer a) = some r) :
      Moves me p .answered { p with runner := r, calling := false }

theorem answer_some {me : Nat} {s : Virt.Sys} {a : Except ErrorCode Frame}
    (h : answer me s = some a) :
    s.pc me = .idle ∧ (Virt.returns me s.log).getLast? = some (.frame a) := by
  unfold answer at h
  split at h
  case h_1 hpc hlast =>
    obtain rfl := Option.some.inj h
    exact ⟨hpc, hlast⟩
  case h_2 => cases h

theorem moves_of_step {me : Nat} {p p' : Plant} {x : Action} (h : p.step me x = some p') :
    Moves me p x p' := by
  cases x with
  | bus a =>
      simp only [step] at h
      split_ifs at h with hother
      obtain ⟨s, hs, rfl⟩ := Option.map_eq_some_iff.mp h
      exact .bus hother hs
  | loop mv =>
      cases mv with
      | answer a => cases h
      | setStop | load | callback | now beforeDeadline =>
          simp only [step, Option.map_eq_some_iff] at h
          obtain ⟨r, hr, rfl⟩ := h
          exact .loop (by simp) hr
  | call =>
      simp only [step] at h
      split at h
      case h_1 e rest hpc =>
        split_ifs at h with hcalling
        obtain ⟨s, hs, rfl⟩ := Option.map_eq_some_iff.mp h
        exact .call hpc (by simpa using hcalling) hs
      case h_2 => cases h
  | answered =>
      simp only [step] at h
      split_ifs at h with hcalling
      obtain ⟨a, ha, hmap⟩ := Option.bind_eq_some_iff.mp h
      obtain ⟨r, hr, rfl⟩ := Option.map_eq_some_iff.mp hmap
      exact .answered hcalling (answer_some ha).1 (answer_some ha).2 hr

end Plant

/-! What the loop has been answered, and what it has told its callbacks. -/

def answerOf : Event → Option (UInt8 × Except ErrorCode Frame)
  | .header id a => some (id, a)
  | _ => none

def toldOf : Event → Option (Except ErrorCode Frame)
  | .onFrame f => some (.ok f)
  | .onError e => some (.error e)
  | _ => none

/-- The callback for that answer is registered. -/
def Node.tells {β : Type} (n : Node β) : Except ErrorCode Frame → Bool
  | .ok _ => n.onFrame
  | .error _ => n.onError

/-- The answer whose callback is next. -/
def Pc.owes : Pc → List (Except ErrorCode Frame)
  | .callback a _ _ => [a]
  | _ => []

namespace Runner
variable {β : Type}

def answers (r : Runner β) : List (UInt8 × Except ErrorCode Frame) := r.log.filterMap answerOf

def told (r : Runner β) : List (Except ErrorCode Frame) := r.log.filterMap toldOf

section
variable (r : Runner β) (es : List Event) (pc : Pc)

@[simp] theorem answers_emit : (r.emit es pc).answers = r.answers ++ es.filterMap answerOf :=
  List.filterMap_append ..

@[simp] theorem told_emit : (r.emit es pc).told = r.told ++ es.filterMap toldOf :=
  List.filterMap_append ..

end

theorem ids_answers (r : Runner β) : r.answers.map Prod.fst = r.log.filterMap headerId := by
  rw [answers, List.map_filterMap]
  congr 1
  funext ev
  cases ev <;> rfl

theorem answerOf_callbacks (n : Node β) (a : Except ErrorCode Frame) :
    (n.callbacks a).filterMap answerOf = [] := by
  cases a <;> simp only [Node.callbacks] <;> split <;> rfl

theorem toldOf_callbacks (n : Node β) (a : Except ErrorCode Frame) :
    (n.callbacks a).filterMap toldOf = [a].filter n.tells := by
  cases a with
  | ok f => cases h : n.onFrame <;> simp [Node.callbacks, Node.tells, h, toldOf]
  | error e => cases h : n.onError <;> simp [Node.callbacks, Node.tells, h, toldOf]

@[simp] theorem owes_next (rest : List ScheduleEntry) : (Pc.next rest).owes = [] := by
  cases rest <;> rfl

/-- What has been answered is what has been told, as far as there is a callback for it, and
what is told next. -/
def Tells (r : Runner β) : Prop :=
  (r.answers.map Prod.snd).filter r.node.tells = r.told ++ r.pc.owes.filter r.node.tells

theorem Tells.turn {r r' : Runner β} (h : r.Tells) (ht : Turn r r') : r'.Tells := by
  have quiet : ∀ {es : List Event} {pc : Pc}, es.filterMap answerOf = [] →
      es.filterMap toldOf = [] → pc.owes = [] → r.pc.owes = [] → (r.emit es pc).Tells := by
    intro es pc hanswers htold howes hpc
    have hnext : (r.emit es pc).pc.owes = [] := howes
    rw [Tells, answers_emit, told_emit, hanswers, htold, hnext, List.append_nil, List.append_nil]
    rw [Tells, hpc] at h
    exact h
  have hpcs : ∀ {pc : Pc} {rest : List ScheduleEntry}, pc = .delay rest ∨ pc = .next rest →
      pc.owes = [] := by
    rintro pc rest (rfl | rfl)
    · rfl
    · exact owes_next rest
  cases ht with
  | setStop => exact h
  | stopped hpc hstop =>
      refine quiet rfl rfl rfl ?_
      rcases hpc with hpc | ⟨e, rest, hpc⟩ <;> rw [hpc] <;> rfl
  | stoppedDelay hpc hstop => exact quiet rfl rfl (owes_next _) (by rw [hpc]; rfl)
  | round hpc => exact quiet rfl rfl (owes_next _) (by rw [hpc]; rfl)
  | slot hpc hstop => exact quiet rfl rfl rfl (by rw [hpc]; rfl)
  | delay hpc => exact quiet rfl rfl rfl (by rw [hpc]; rfl)
  | @header e rest hpc a =>
      have howes : r.pc.owes = [] := by rw [hpc]; rfl
      rw [Tells, howes, List.filter_nil, List.append_nil] at h
      rw [Tells, answers_emit, told_emit, List.map_append, List.filter_append]
      change _ ++ [a].filter r.node.tells = r.told ++ [] ++ [a].filter r.node.tells
      rw [List.append_nil]
      exact congrArg (· ++ _) h
  | @callback a e rest hpc pc hnext =>
      have howes : r.pc.owes = [a] := by rw [hpc]; rfl
      have hafter : (r.emit (r.node.callbacks a) pc).pc.owes = [] := hpcs hnext
      rw [Tells, howes] at h
      rw [Tells, hafter, answers_emit, told_emit, answerOf_callbacks, toldOf_callbacks,
        List.append_nil, List.filter_nil, List.append_nil]
      exact h
  | @clock rest hpc pc hnext =>
      have howes : r.pc.owes = [] := by rw [hpc]; rfl
      have hafter : ({ r with pc } : Runner β).pc.owes = [] := hpcs hnext
      rw [Tells, howes] at h
      rw [Tells, hafter]
      exact h

theorem answers_step {r r' : Runner β} {mv : Move} (hmv : ∀ a, mv ≠ .answer a)
    (h : r.step mv = some r') :
    r'.answers = r.answers ∧ ∀ e rest, r.pc = .header e rest → r'.pc = .header e rest := by
  cases mv with
  | answer a => exact absurd rfl (hmv a)
  | setStop =>
      obtain rfl := Option.some.inj h
      exact ⟨rfl, fun _ _ hpc => hpc⟩
  | load =>
      cases hpc : r.pc <;> simp only [step, hpc, Option.some.injEq, reduceCtorEq] at h <;>
        subst h <;> exact ⟨(answers_emit r _ _).trans (List.append_nil _), by simp⟩
  | callback =>
      cases hpc : r.pc <;> simp only [step, hpc, Option.some.injEq, reduceCtorEq] at h
      subst h
      refine ⟨?_, by simp⟩
      rw [answers_emit, answerOf_callbacks, List.append_nil]
  | now beforeDeadline =>
      cases hpc : r.pc <;> simp only [step, hpc, Option.some.injEq, reduceCtorEq] at h
      subst h
      exact ⟨rfl, by simp⟩

theorem step_answer {r r' : Runner β} {a : Except ErrorCode Frame}
    (h : r.step (.answer a) = some r') :
    ∃ e rest, r.pc = .header e rest ∧ r' = r.emit [.header e.id a] (.callback a e rest) := by
  cases hpc : r.pc <;> simp only [step, hpc, Option.some.injEq, reduceCtorEq] at h
  exact ⟨_, _, rfl, h.symm⟩

end Runner

/-! The loop and the bus together. -/

theorem log_grows {s s' : Virt.Sys} {a : Virt.Action} (h : Virt.Sys.Moves s a s') :
    s.log <+: s'.log := by
  cases h with
  | ended hpc => exact (List.prefix_append _ _).trans (List.prefix_append _ _)
  | reject | exclusive | respondError | emit | deliver => exact List.prefix_append _ _
  | _ => exact List.prefix_refl _

theorem returns_grow {s s' : Virt.Sys} {a : Virt.Action} (h : s.step a = some s') (me : Nat) :
    Virt.returns me s.log <+: Virt.returns me s'.log :=
  (log_grows (Virt.Sys.moves_of_step h)).filterMap _

namespace Plant

/-- The header the loop has asked the bus for and is not answered yet. -/
def asked (p : Plant) : List UInt8 :=
  match p.calling, p.runner.pc with
  | true, .header e _ => [e.id]
  | _, _ => []

/-- The loop has the answers that its thread was returned, to the requests that its thread made. -/
structure Kept (me : Nat) (n : Node Unit) (as : List Virt.Action) (p : Plant) : Prop where
  reached : run Virt.Sys.step {} as = some p.sys
  loop : Runner.Inv n p.runner
  tells : p.runner.Tells
  calling : p.calling = true → ∃ e rest, p.runner.pc = .header e rest
  requested : Virt.requests me as =
    (p.runner.answers.map Prod.fst ++ p.asked).map Virt.Request.sendHeader
  returned : p.runner.answers.map (fun x => Virt.Outcome.frame x.2) <+: Virt.returns me p.sys.log

section
variable {me : Nat} {n : Node Unit} {as : List Virt.Action} {p p' : Plant}

theorem asked_of_not_calling (h : p.calling = false) : p.asked = [] := by
  rw [asked, h]

theorem asked_of_header {e : ScheduleEntry} {rest : List ScheduleEntry} (h : p.calling = true)
    (hpc : p.runner.pc = .header e rest) : p.asked = [e.id] := by
  rw [asked, h, hpc]

theorem length_asked_le (p : Plant) : p.asked.length ≤ 1 := by
  unfold asked
  split <;> simp

/-- Between the calls of the loop its thread has returned all that it was asked for. -/
theorem Kept.length_returns (h : Kept me n as p) (hidle : p.sys.pc me = .idle) :
    (Virt.returns me p.sys.log).length = p.runner.answers.length + p.asked.length := by
  obtain ⟨hrequested, hreturned⟩ := Virt.Sys.accounts_run h.reached me
  rw [hidle, h.requested] at hrequested
  rw [hidle] at hreturned
  have hrequests := congrArg List.length hrequested
  have hreturns := congrArg List.length hreturned
  simp only [List.length_map, List.length_append, Virt.Pc.wants, Virt.Pc.holds,
    List.length_nil] at hrequests hreturns
  omega

theorem requests_concat_other {a : Virt.Action} (h : a.request.map Prod.fst ≠ some me) :
    Virt.requests me (as ++ [a]) = Virt.requests me as := by
  rw [Virt.Sys.requests_concat]
  cases hreq : a.request with
  | none => simp [Virt.requests, hreq]
  | some x =>
      have hx : x.1 ≠ me := by simpa [hreq] using h
      simp [Virt.requests, hreq, hx]

theorem Kept.step (h : Kept me n as p) {x : Action} (hmoves : Moves me p x p') :
    Kept me n (as ++ busActions me p x) p' := by
  cases hmoves with
  | @bus a s hother hs =>
      exact {
        reached := run_concat.mpr ⟨p.sys, h.reached, hs⟩
        loop := h.loop
        tells := h.tells
        calling := h.calling
        requested := (requests_concat_other hother).trans h.requested
        returned := h.returned.trans (returns_grow hs me) }
  | @loop mv r hmv hr =>
      obtain ⟨hanswers, hheader⟩ := Runner.answers_step hmv hr
      have hasked : asked { p with runner := r } = p.asked := by
        by_cases hc : p.calling = true
        · obtain ⟨e, rest, hpc⟩ := h.calling hc
          have hnow : asked { p with runner := r } = [e.id] :=
            asked_of_header hc (hheader e rest hpc)
          rw [hnow, asked_of_header hc hpc]
        · have hnow : asked { p with runner := r } = [] := asked_of_not_calling (by simpa using hc)
          rw [hnow, asked_of_not_calling (by simpa using hc)]
      have hbus : as ++ busActions me p (.loop mv) = as := List.append_nil as
      rw [hbus]
      exact {
        reached := h.reached
        loop := h.loop.step (Runner.turn_of_step hr)
        tells := h.tells.turn (Runner.turn_of_step hr)
        calling := by
          intro hc
          obtain ⟨e, rest, hpc⟩ := h.calling hc
          exact ⟨e, rest, hheader e rest hpc⟩
        requested := by rw [hasked, hanswers]; exact h.requested
        returned := by rw [hanswers]; exact h.returned }
  | @call e rest s hpc hcalling hs =>
      have hbus : busActions me p .call = [.call me (.sendHeader e.id)] := by
        simp only [busActions, hpc]
      have hrequest : Virt.requests me [Virt.Action.call me (.sendHeader e.id)] =
          [.sendHeader e.id] := by
        simp [Virt.requests, Virt.Action.request, Virt.Section.request]
      have hnow : asked { p with sys := s, calling := true } = [e.id] := asked_of_header rfl hpc
      have hbefore := h.requested
      rw [asked_of_not_calling hcalling, List.append_nil] at hbefore
      rw [hbus]
      exact {
        reached := run_concat.mpr ⟨p.sys, h.reached, hs⟩
        loop := h.loop
        tells := h.tells
        calling := fun _ => ⟨e, rest, hpc⟩
        requested := by
          rw [Virt.Sys.requests_concat, hrequest, hbefore, hnow, List.map_append]
          rfl
        returned := h.returned.trans (returns_grow hs me) }
  | @answered a r hcalling hidle hlast hr =>
      obtain ⟨e, rest, hpc, rfl⟩ := Runner.step_answer hr
      have hasked := asked_of_header hcalling hpc
      have hafter : asked { p with
          runner := p.runner.emit [.header e.id a] (.callback a e rest), calling := false } = [] :=
        asked_of_not_calling rfl
      have hbefore := h.requested
      rw [hasked] at hbefore
      have hlength := h.length_returns hidle
      rw [hasked] at hlength
      have hbus : as ++ busActions me p .answered = as := List.append_nil as
      rw [hbus]
      exact {
        reached := h.reached
        loop := h.loop.step (Runner.turn_of_step hr)
        tells := h.tells.turn (Runner.turn_of_step hr)
        calling := by simp
        requested := by
          rw [hafter, List.append_nil, Runner.answers_emit, List.map_append]
          exact hbefore
        returned := by
          -- the one return beyond the answers is the one the loop takes
          obtain ⟨more, hmore⟩ := h.returned
          have hone : more.length = 1 := by
            have hlen := congrArg List.length hmore
            simp only [List.length_append, List.length_map, List.length_singleton] at hlen hlength
            omega
          obtain ⟨out, rfl⟩ := List.length_eq_one_iff.mp hone
          rw [← hmore, List.getLast?_concat, Option.some.injEq] at hlast
          rw [Runner.answers_emit, List.map_append, ← hmore, hlast]
          exact List.prefix_refl _ }

theorem kept_run {stop : Bool} (hne : n.schedule ≠ []) {acts : List Action}
    (hrun : run (Plant.step me) (start n stop) acts = some p) :
    Kept me n (along (Plant.step me) (busActions me) (start n stop) acts) p := by
  refine history_run
    (P := fun acts p => Kept me n (along (Plant.step me) (busActions me) (start n stop) acts) p)
    ?_ ?_ hrun
  · exact {
      reached := rfl
      loop := Runner.inv_start n hne stop
      tells := by
        have hpc : (Runner.start n stop).pc = .outer := if_neg hne
        rw [Runner.Tells]
        change [] = [] ++ (Runner.start n stop).pc.owes.filter _
        rw [hpc]
        rfl
      calling := by simp [start]
      requested := rfl
      returned := List.nil_prefix }
  · intro acts m x m' hm hkept hstep
    rw [along_concat _ hm]
    exact hkept.step (moves_of_step hstep)

theorem eq_of_sides {α β : Type*} {l l' : List (α × β)} (hfst : l.map Prod.fst = l'.map Prod.fst)
    (hsnd : l.map Prod.snd = l'.map Prod.snd) : l = l' :=
  (List.zip_of_prod hfst hsnd).trans (List.zip_of_prod rfl rfl).symm

/-- What has taken effect for the thread of the loop: the headers it was answered, and at most
the one it waits for. -/
theorem Kept.commits (h : Kept me n as p) :
    ∃ rest, Virt.commits me (along Virt.Sys.step Virt.Sys.commit {} as) =
        p.runner.answers.map (fun x => (.sendHeader x.1, .frame x.2)) ++ rest ∧
      rest.length ≤ p.asked.length := by
  obtain ⟨hrequested, hreturned⟩ := Virt.Sys.accounts_run h.reached me
  obtain ⟨more, hmore⟩ := h.returned
  rw [h.requested] at hrequested
  rw [← hmore, List.append_assoc] at hreturned
  generalize Virt.commits me (along Virt.Sys.step Virt.Sys.commit {} as) = cs
    at hrequested hreturned
  have hfst := congrArg (List.take p.runner.answers.length) hrequested
  have hsnd := congrArg (List.take p.runner.answers.length) hreturned
  have hlen := congrArg List.length hrequested
  have hle : p.runner.answers.length ≤ cs.length := by
    have hcs := congrArg List.length hreturned
    simp only [List.length_map, List.length_append] at hcs
    omega
  refine ⟨cs.drop p.runner.answers.length, ?_, ?_⟩
  · conv_lhs => rw [← List.take_append_drop p.runner.answers.length cs]
    congr 1
    apply eq_of_sides
    · rw [List.map_append, List.take_left' (by simp), List.take_append_of_le_length (by simpa)]
        at hfst
      rw [List.map_take, ← hfst, List.map_map, List.map_map]
      rfl
    · rw [List.take_left' (by simp)] at hsnd
      rw [List.map_take, hsnd, List.map_map]
      rfl
  · simp only [List.length_map, List.length_append] at hlen
    rw [List.length_drop]
    omega

end

/-- What took effect on the bus. -/
def history (me : Nat) (n : Node Unit) (stop : Bool) (acts : List Action) :
    List (Nat × Virt.Request × Virt.Outcome) :=
  along Virt.Sys.step Virt.Sys.commit {}
    (along (Plant.step me) (busActions me) (start n stop) acts)

/-- How the loop stands to what took effect on the bus. One header at most is under way: it has
taken effect and the loop waits for its answer, or it is answered and its callback comes next. -/
structure Served (me : Nat) (n : Node Unit) (history : List (Nat × Virt.Request × Virt.Outcome))
    (r : Runner Unit) : Prop where
  registry : ∃ b, run (fun (b : Virt.Registry) x => b.step x.2) {} history = some b
  round : ∃ k, (Virt.commits me history).map Prod.fst =
    ((List.range k).map (Runner.cyclic n)).map Virt.Request.sendHeader
  inTurn : ∃ took owed,
    Virt.commits me history = r.answers.map (fun x => (.sendHeader x.1, .frame x.2)) ++ took ∧
    (r.answers.map Prod.snd).filter n.tells = r.told ++ owed ∧ took.length + owed.length ≤ 1

theorem prefix_round {n : Node Unit} {l : List UInt8} {k : Nat}
    (h : l <+: (List.range k).map (Runner.cyclic n)) :
    ∃ j, l = (List.range j).map (Runner.cyclic n) := by
  refine ⟨min l.length k, ?_⟩
  rw [← List.take_range, List.map_take]
  exact List.prefix_iff_eq_take.mp h

/-- The headers that were answered go round the table as those that took effect do. -/
theorem Served.answers_round {me : Nat} {n : Node Unit} {r : Runner Unit}
    {history : List (Nat × Virt.Request × Virt.Outcome)} (h : Served me n history r) :
    ∃ k, r.answers.map Prod.fst = (List.range k).map (Runner.cyclic n) := by
  obtain ⟨k, hround⟩ := h.round
  obtain ⟨took, owed, htook, -, -⟩ := h.inTurn
  have hinjective : Function.Injective Virt.Request.sendHeader := fun _ _ he =>
    Virt.Request.sendHeader.inj he
  refine prefix_round (k := k) ((List.prefix_map_iff_of_injective hinjective).mp ?_)
  rw [← hround, htook, List.map_append, List.map_map, List.map_map]
  exact List.prefix_append _ _

/-- The next header of the table is the one the loop has asked for. -/
theorem Kept.asked_round {me : Nat} {n : Node Unit} {as : List Virt.Action} {p : Plant}
    (h : Kept me n as p) (hne : n.schedule ≠ []) :
    ∃ k, p.runner.answers.map Prod.fst ++ p.asked = (List.range k).map (Runner.cyclic n) := by
  cases hc : p.calling with
  | false =>
      rw [asked_of_not_calling hc, List.append_nil, Runner.ids_answers]
      exact (h.loop.runTrace hne).headers
  | true =>
      obtain ⟨e, rest, hpc⟩ := h.calling hc
      -- with any answer the loop would have this header behind the others
      obtain ⟨k, hk⟩ := ((h.loop.step (.header hpc (.error ErrClosed))).runTrace hne).headers
      rw [← Runner.ids_answers, Runner.answers_emit, List.map_append] at hk
      rw [asked_of_header hc hpc]
      exact ⟨k, hk⟩

theorem Kept.commits_round {me : Nat} {n : Node Unit} {as : List Virt.Action} {p : Plant}
    (h : Kept me n as p) (hne : n.schedule ≠ []) :
    ∃ k, (Virt.commits me (along Virt.Sys.step Virt.Sys.commit {} as)).map Prod.fst =
      ((List.range k).map (Runner.cyclic n)).map Virt.Request.sendHeader := by
  obtain ⟨hrequested, -⟩ := Virt.Sys.accounts_run h.reached me
  rw [h.requested] at hrequested
  obtain ⟨ids, hids, hcommits⟩ := List.prefix_map_iff.mp ⟨_, hrequested.symm⟩
  obtain ⟨k, hk⟩ := h.asked_round hne
  obtain ⟨j, rfl⟩ := prefix_round (hk ▸ hids)
  exact ⟨j, hcommits⟩

/-- The loop is at its callback or waits for the bus, never both. -/
theorem Kept.one_under_way {me : Nat} {n : Node Unit} {as : List Virt.Action} {p : Plant}
    (h : Kept me n as p) :
    p.asked.length + (p.runner.pc.owes.filter n.tells).length ≤ 1 := by
  cases hc : p.calling with
  | false =>
      rw [asked_of_not_calling hc, List.length_nil, Nat.zero_add]
      refine (List.length_filter_le _ _).trans ?_
      cases p.runner.pc <;> simp [Pc.owes]
  | true =>
      obtain ⟨e, more, hpc⟩ := h.calling hc
      have howes : p.runner.pc.owes = [] := by rw [hpc]; rfl
      rw [howes, List.filter_nil, List.length_nil, Nat.add_zero]
      exact length_asked_le p

theorem served_run {me : Nat} {n : Node Unit} {stop : Bool} {acts : List Action} {p : Plant}
    (hne : n.schedule ≠ []) (hrun : run (Plant.step me) (start n stop) acts = some p) :
    Served me n (history me n stop acts) p.runner := by
  have hkept := kept_run hne hrun
  have htells := hkept.tells
  rw [Runner.Tells, hkept.loop.node] at htells
  obtain ⟨took, htook, hle⟩ := hkept.commits
  obtain ⟨b, hb, -⟩ := Virt.Registry.mirrors_run hkept.reached
  exact {
    registry := ⟨b, hb⟩
    round := hkept.commits_round hne
    inTurn := ⟨took, _, htook, htells, (Nat.add_le_add_right hle _).trans hkept.one_under_way⟩ }

/-- The loop beside any other threads, whatever they do and however they interleave: what takes
effect on the bus is a run of the registry, in which the loop's headers go round its table, one
at a time; its callbacks are told the answers in their order, each before the next header takes
effect. -/
theorem loop_served {me : Nat} {n : Node Unit} {stop : Bool} {acts : List Action} {p : Plant}
    (hne : n.schedule ≠ []) (hrun : run (Plant.step me) (start n stop) acts = some p) :
    Served me n (history me n stop acts) p.runner := served_run hne hrun

def twoFrames : Node Unit :=
  { bus := (), schedule := [⟨5, 0⟩, ⟨6, 0⟩], onFrame := true, onError := true }

/-- The loop in the thread 0 goes once round the table, while the thread 1 publishes. -/
def onceRound : List Action :=
  [.loop .load, .bus (.call 1 (.exclusive (.publish 5 [1]))), .loop .load, .bus (.lock 1), .call,
    .bus (.step 1), .bus (.lock 0), .bus (.step 0), .bus (.step 0), .answered, .loop .callback,
    .loop .load, .call, .bus (.lock 0), .bus (.step 0), .answered, .loop .callback]

theorem loop_served_once : ∃ p : Plant,
    p.runner.told = [.ok (Virt.Bus.frameOf 5 ⟨[1], .enhanced⟩), .error (.lin .noResponse)] ∧
      Served 0 twoFrames (history 0 twoFrames false onceRound) p.runner :=
  have h : run (Plant.step 0) (start twoFrames false) onceRound = some _ := rfl
  ⟨_, rfl, loop_served (by simp [twoFrames]) h⟩

def sends : Virt.Action → Bool
  | .call _ (.sendHeader _) => true
  | _ => false

theorem thread_of_sends {me : Nat} {n : Node Unit} {stop : Bool} {acts : List Action}
    (halone : ∀ a, .bus a ∈ acts → sends a = false) {t : Nat} {id : UInt8}
    (h : .sendHeader id ∈ Virt.requests t
      (along (Plant.step me) (busActions me) (start n stop) acts)) : t = me := by
  obtain ⟨a, ha, hreq⟩ := List.mem_filterMap.mp h
  obtain ⟨p, x, hx, hseen⟩ := mem_along ha
  obtain ⟨y, hy, ht⟩ := Option.bind_eq_some_iff.mp hreq
  split_ifs at ht with hthread
  obtain rfl := hthread
  cases x with
  | bus b =>
      obtain rfl := List.mem_singleton.mp hseen
      cases a with
      | call u c =>
          obtain rfl := Option.some.inj hy
          cases c with
          | sendHeader i => exact absurd (halone _ hx) (by simp [sends])
          | exclusive c => cases c <;> cases ht
          | allDrained => cases ht
      | callDrain u =>
          obtain rfl := Option.some.inj hy
          cases ht
      | _ => cases hy
  | loop mv => cases hseen
  | answered => cases hseen
  | call =>
      simp only [busActions] at hseen
      split at hseen
      · obtain rfl := List.mem_singleton.mp hseen
        obtain rfl := Option.some.inj hy
        rfl
      · cases hseen

/-- When one thread sends all the headers, the frames that are sent are its own. -/
theorem framesSent_of_one {me : Nat} {h : List (Nat × Virt.Request × Virt.Outcome)}
    (hone : ∀ t id out, (t, .sendHeader id, out) ∈ h → t = me) :
    Virt.framesSent h = (Virt.commits me h).filterMap Virt.frameSent := by
  rw [Virt.framesSent, Virt.commits, List.filterMap_filterMap]
  refine List.filterMap_congr ?_
  rintro ⟨t, req, out⟩ hx
  by_cases ht : t = me
  · simp [ht]
  · rw [if_neg ht, Option.bind_none]
    cases req with
    | sendHeader id => exact absurd (hone t id out hx) ht
    | _ => rfl

theorem frameSent_answer (x : UInt8 × Except ErrorCode Frame) :
    Virt.frameSent (.sendHeader x.1, .frame x.2) = x.2.toOption := by
  obtain ⟨id, a⟩ := x
  cases a <;> rfl

theorem frames_told {n : Node Unit} (hframe : n.onFrame = true)
    (as : List (Except ErrorCode Frame)) :
    (as.filter n.tells).filterMap Except.toOption = as.filterMap Except.toOption := by
  rw [List.filterMap_filter]
  refine List.filterMap_congr ?_
  intro a _
  cases a with
  | ok f => rw [if_pos (show n.tells (.ok f) = true from hframe)]
  | error e => simp [Except.toOption]

/-- A master that alone sends headers, beside any publishers, subscribers and consumers, has
told its frame callback every frame the bus emitted, in order, but the one under way. -/
theorem sole_master_told {me : Nat} {n : Node Unit} {stop : Bool} {acts : List Action} {p : Plant}
    (hne : n.schedule ≠ []) (hframe : n.onFrame = true)
    (halone : ∀ a, .bus a ∈ acts → sends a = false)
    (hrun : run (Plant.step me) (start n stop) acts = some p) :
    ∃ rest, Virt.emittedFrames p.sys.log = p.runner.told.filterMap Except.toOption ++ rest ∧
      rest.length ≤ 1 := by
  have hkept := kept_run hne hrun
  have htells := hkept.tells
  rw [Runner.Tells, hkept.loop.node] at htells
  obtain ⟨rest, hrest, hle⟩ := hkept.commits
  have hone : ∀ t id out, (t, .sendHeader id, out) ∈ along Virt.Sys.step Virt.Sys.commit {}
      (along (Plant.step me) (busActions me) (start n stop) acts) → t = me := by
    intro t id out hmem
    have hcommit : (.sendHeader id, out) ∈ Virt.commits t (along Virt.Sys.step Virt.Sys.commit {}
        (along (Plant.step me) (busActions me) (start n stop) acts)) :=
      List.mem_filterMap.mpr ⟨_, hmem, if_pos rfl⟩
    have hrequests := (Virt.Sys.accounts_run hkept.reached t).requested
    have hrequest : .sendHeader id ∈ Virt.requests t
        (along (Plant.step me) (busActions me) (start n stop) acts) := by
      rw [hrequests]
      exact List.mem_append_left _ (List.mem_map_of_mem (f := Prod.fst) hcommit)
    exact thread_of_sends halone hrequest
  have hanswers : (p.runner.answers.map fun x => (Virt.Request.sendHeader x.1,
      Virt.Outcome.frame x.2)).filterMap Virt.frameSent =
        (p.runner.answers.map Prod.snd).filterMap Except.toOption := by
    rw [List.filterMap_map, List.filterMap_map]
    exact List.filterMap_congr fun x _ => frameSent_answer x
  refine ⟨(p.runner.pc.owes.filter n.tells).filterMap Except.toOption ++
    rest.filterMap Virt.frameSent, ?_, ?_⟩
  · rw [Virt.Sys.emitted_run hkept.reached, framesSent_of_one hone, hrest, List.filterMap_append,
      hanswers, ← frames_told hframe, htells, List.filterMap_append, List.append_assoc]
  · have howed := List.length_filterMap_le Except.toOption (p.runner.pc.owes.filter n.tells)
    have htook := (List.length_filterMap_le Virt.frameSent rest).trans hle
    have hone := hkept.one_under_way
    rw [List.length_append]
    omega

theorem sole_master_told_once : ∃ p : Plant,
    Virt.emittedFrames p.sys.log = [Virt.Bus.frameOf 5 ⟨[1], .enhanced⟩] ∧
      ∃ rest, Virt.emittedFrames p.sys.log = p.runner.told.filterMap Except.toOption ++ rest ∧
        rest.length ≤ 1 :=
  have h : run (Plant.step 0) (start twoFrames false) onceRound = some _ := rfl
  ⟨_, rfl, sole_master_told (by simp [twoFrames]) rfl (by simp [onceRound, sends]) h⟩

end Plant
end CppLin.Master
