import CppLin.ChannelHistory
import CppLin.Lib.Monitor

/-!
The channel as threads run it: the two condition variables, the predicates that `wait` is
given, and the `notify` calls of each operation.
-/
namespace CppLin
open Run Monitor

variable {α T : Type*}

namespace Chan

/-- `cv_not_empty_` and `cv_not_full_`. -/
inductive Cond where
  | notEmpty
  | notFull
  deriving DecidableEq, Repr

def Cond.holds : Cond → Chan α → Bool
  | .notEmpty, c => !c.buf.isEmpty || c.closed
  | .notFull, c => c.closed || c.buf.length < c.capacity

def Op.waitsFor : Op α → Option Cond
  | .send _ => some .notFull
  | .recv => some .notEmpty
  | _ => none

/-- What follows the wait, the mutex held: the channel, the answer, and whom it notifies. -/
def body : Op α → Chan α → Chan α × Answer α × List (Notice Cond)
  | .send v, c =>
      if c.closed then (c, .sent false, [])
      else (c.push v, .sent true, [.one .notEmpty])
  | .trySend v, c =>
      if c.closed then (c, .result .closed, [])
      else if c.isFull then (c, .result .full, [])
      else (c.push v, .result .ok, [.one .notEmpty])
  | .sendDropOldest v, c =>
      if c.closed then (c, .result .closed, [])
      else if c.isFull then (c.popFront.push v, .result .evicted, [.one .notEmpty])
      else (c.push v, .result .ok, [.one .notEmpty])
  | .recv, c =>
      match c.buf with
      | [] => (c, .item none, [])
      | x :: _ => (c.popFront, .item (some x), [.one .notFull])
  | .tryRecv, c =>
      match c.buf with
      | [] => (c, .item none, [])
      | x :: _ => (c.popFront, .item (some x), [.one .notFull])
  | .close, c => (c.close, .done, [.all .notEmpty, .all .notFull])

def monitor : Monitor Cond (Op α) (Answer α) (Chan α) where
  waitsFor := Op.waitsFor
  holds := Cond.holds
  body := body

/-- The items, or the free places. -/
def room (c : Chan α) : Cond → Nat
  | .notEmpty => c.buf.length
  | .notFull => c.capacity - c.buf.length

/-- How many operations a condition lets through: any number on a closed channel. -/
def avail (cond : Cond) (c : Chan α) : ℕ∞ := if c.closed then ⊤ else c.room cond

/-- A section that gets through its wait is the channel's operation. -/
theorem attempt_eq (op : Op α) (c : Chan α) :
    (monitor.attempt op c).map (fun x => (x.1, x.2.1)) = c.perform op := by
  cases op with
  | send v =>
      cases hc : c.closed with
      | true => simp [attempt, monitor, Op.waitsFor, Cond.holds, body, perform, send, hc]
      | false =>
          by_cases hfull : c.capacity ≤ c.buf.length
          · simp [attempt, monitor, Op.waitsFor, Cond.holds, perform, send, isFull, hc, hfull]
          · simp [attempt, monitor, Op.waitsFor, Cond.holds, body, perform, send, isFull, hc, hfull,
              Nat.lt_of_not_le hfull]
  | trySend v =>
      simp only [attempt, monitor, Op.waitsFor, Option.all_none, if_true, body, perform, trySend]
      split_ifs <;> rfl
  | sendDropOldest v =>
      simp only [attempt, monitor, Op.waitsFor, Option.all_none, if_true, body, perform,
        sendDropOldest]
      split_ifs <;> rfl
  | recv =>
      cases hbuf : c.buf with
      | nil =>
          cases hc : c.closed <;>
            simp [attempt, monitor, Op.waitsFor, Cond.holds, body, perform, recv, hbuf, hc]
      | cons x rest => simp [attempt, monitor, Op.waitsFor, Cond.holds, body, perform, recv, hbuf]
  | tryRecv =>
      cases hbuf : c.buf <;> simp [attempt, monitor, Op.waitsFor, body, perform, tryRecv, hbuf]
  | close => rfl

theorem perform_of_attempt {op : Op α} {c c' : Chan α} {answer : Answer α}
    {notices : List (Notice Cond)} (h : monitor.attempt op c = some (c', answer, notices)) :
    c.perform op = some (c', answer) := by
  rw [← attempt_eq, h, Option.map_some]

theorem attempt_eq_none_iff (op : Op α) (c : Chan α) :
    monitor.attempt op c = none ↔ c.perform op = none := by
  rw [← attempt_eq, Option.map_eq_none_iff]

theorem holds_iff (cond : Cond) (c : Chan α) : cond.holds c = true ↔ avail cond c ≠ 0 := by
  unfold avail
  cases hc : c.closed with
  | true => cases cond <;> simp [Cond.holds, hc]
  | false =>
      simp only [Bool.false_eq_true, if_false, ne_eq, Nat.cast_eq_zero]
      cases cond with
      | notEmpty => simp [Cond.holds, room, hc]
      | notFull =>
          simp only [Cond.holds, room, hc, Bool.false_or, decide_eq_true_eq]
          omega

/-- What a section does to the channel, and whom it notifies. -/
inductive Section (op : Op α) (c : Chan α) : Chan α → List (Notice Cond) → Prop
  | same (hop : op.waitsFor = none ∨ c.closed = true) : Section op c c []
  | push (v : α) (hop : op.waitsFor ≠ some .notEmpty) (hopen : c.closed = false)
      (hroom : c.isFull = false) : Section op c (c.push v) [.one .notEmpty]
  | replace (v : α) (hop : op.waitsFor = none) (hopen : c.closed = false) :
      Section op c (c.popFront.push v) [.one .notEmpty]
  | pop (hop : op.waitsFor ≠ some .notFull) (hne : c.buf ≠ []) :
      Section op c c.popFront [.one .notFull]
  | close : Section op c c.close [.all .notEmpty, .all .notFull]

theorem section_of_attempt {op : Op α} {c c' : Chan α} {answer : Answer α}
    {notices : List (Notice Cond)} (h : monitor.attempt op c = some (c', answer, notices)) :
    Section op c c' notices := by
  unfold attempt at h
  split_ifs at h with hholds
  obtain ⟨rfl, hrest⟩ := Prod.mk.inj (Option.some.inj h)
  obtain ⟨-, rfl⟩ := Prod.mk.inj hrest
  clear h hrest
  change Section op c (body op c).1 (body op c).2.2
  cases op with
  | send v =>
      simp only [monitor, Op.waitsFor, Option.all_some, Cond.holds, Bool.or_eq_true,
        decide_eq_true_eq] at hholds
      simp only [body]
      cases hc : c.closed with
      | true => exact .same (.inr hc)
      | false =>
          have hlt := hholds.resolve_left (by simp [hc])
          exact .push v (by simp [Op.waitsFor]) hc (by simpa [isFull] using hlt)
  | trySend v =>
      simp only [body]
      split_ifs with hc hfull
      · exact .same (.inl rfl)
      · exact .same (.inl rfl)
      · exact .push v (by simp [Op.waitsFor]) (by simpa using hc) (by simpa using hfull)
  | sendDropOldest v =>
      simp only [body]
      split_ifs with hc hfull
      · exact .same (.inl rfl)
      · exact .replace v rfl (by simpa using hc)
      · exact .push v (by simp [Op.waitsFor]) (by simpa using hc) (by simpa using hfull)
  | recv =>
      cases hbuf : c.buf with
      | nil =>
          simp only [monitor, Op.waitsFor, Option.all_some, Cond.holds, hbuf] at hholds
          simp only [body, hbuf]
          exact .same (.inr (by simpa using hholds))
      | cons x rest =>
          simp only [body, hbuf]
          exact .pop (by simp [Op.waitsFor]) (by simp [hbuf])
  | tryRecv =>
      cases hbuf : c.buf with
      | nil =>
          simp only [body, hbuf]
          exact .same (.inl rfl)
      | cons x rest =>
          simp only [body, hbuf]
          exact .pop (by simp [Op.waitsFor]) (by simp [hbuf])
  | close => exact .close

/-- On an open channel the books are kept in numbers; a closed one lets everything through. -/
theorem avail_le {c c' : Chan α} {cond : Cond} {taken notified : Nat}
    (hclosed : c'.closed = c.closed)
    (h : c.closed = false → c'.room cond + taken ≤ c.room cond + notified) :
    avail cond c' + taken ≤ avail cond c + notified := by
  unfold avail
  rw [hclosed]
  cases hc : c.closed with
  | true => simp
  | false =>
      simp only [Bool.false_eq_true, if_false]
      exact_mod_cast h hc

theorem accounted : (monitor (α := α)).Accounted avail where
  holds := holds_iff
  body := by
    intro op c c' answer notices h cond
    have htaken : ((if op.waitsFor = some cond then 1 else 0 : ℕ) : ℕ∞) =
        if op.waitsFor = some cond then 1 else 0 := by split_ifs <;> rfl
    change _ ∨ avail cond c' + (if op.waitsFor = some cond then 1 else 0) ≤ _
    rw [← htaken]
    cases section_of_attempt h with
    | close =>
        refine .inl ?_
        cases cond <;> simp
    | same hop =>
        refine .inr (avail_le rfl ?_)
        intro hopen
        have hnone := hop.resolve_right (by simp [hopen])
        simp [hnone]
    | push v hop hopen hroom =>
        refine .inr (avail_le rfl ?_)
        intro _
        have hlt : c.buf.length < c.capacity := by simpa [isFull] using hroom
        cases cond with
        | notEmpty => simp [room, hop]
        | notFull =>
            simp only [room, push_capacity, push_buf, List.length_append, List.length_singleton]
            split_ifs
            · simp
              omega
            · simp
              omega
    | replace v hop hopen =>
        refine .inr (avail_le rfl ?_)
        intro _
        cases cond with
        | notEmpty =>
            simp [room, hop]
        | notFull =>
            simp only [room, push_capacity, push_buf, popFront_buf, List.length_append,
              List.length_tail, List.length_singleton, hop]
            simp [popFront]
            omega
    | pop hop hne =>
        refine .inr (avail_le rfl ?_)
        intro _
        have hpos : 0 < c.buf.length := List.length_pos_of_ne_nil hne
        cases cond with
        | notEmpty =>
            simp only [room, popFront_buf, List.length_tail]
            split_ifs
            · simp
              omega
            · simp
        | notFull =>
            simp only [room, popFront_buf, List.length_tail, hop, if_false]
            simp [popFront]
            omega

variable [DecidableEq T]

theorem attended {n : Nat} {as : List (Action T (Op α))} {s : State T (Op α) (Answer α) (Chan α)}
    (h : run monitor.step { obj := { capacity := n } } as = some s) :
    Attended monitor avail s := by
  refine accounted.attended_run ⟨?_, ?_⟩ h
  · exact fun x hx => absurd hx List.not_mem_nil
  · rintro c ⟨x, hx, -⟩
    exact absurd hx List.not_mem_nil

/-- What threads do to a channel is a use of it by one caller, who makes the calls in the order
in which they return and gets the same answers. -/
theorem used_run {n : Nat} {as : List (Action T (Op α))}
    {s : State T (Op α) (Answer α) (Chan α)}
    (h : run monitor.step { obj := { capacity := n } } as = some s) :
    ∃ u : Used α, run Used.step { chan := { capacity := n } } (s.returned.map (·.2.1)) = some u ∧
      u.chan = s.obj ∧ u.calls = s.returned.map fun x => ⟨x.2.1, x.2.2⟩ := by
  induction as using List.reverseRecOn generalizing s with
  | nil =>
      rw [run_nil, Option.some.injEq] at h
      exact h ▸ ⟨_, rfl, rfl, rfl⟩
  | append_singleton as a ih =>
      obtain ⟨mid, hrun, hstep⟩ := run_concat.mp h
      obtain ⟨u, hu, hchan, hcalls⟩ := ih hrun
      cases moves_of_step hstep with
      | call => exact ⟨u, hu, hchan, hcalls⟩
      | sleep => exact ⟨u, hu, hchan, hcalls⟩
      | spurious => exact ⟨u, hu, hchan, hcalls⟩
      | done t woken op ready obj r notices threads _ hbody =>
          have hperform : u.chan.perform op = some (obj, r) := hchan ▸ perform_of_attempt hbody
          refine ⟨⟨obj, u.calls ++ [⟨op, r⟩], u.evicted ++ u.chan.pushedOut ⟨op, r⟩⟩, ?_, rfl, ?_⟩
          · rw [List.map_append, run_append]
            exact ⟨u, hu, Used.run_one hperform⟩
          · rw [hcalls, List.map_append]
            rfl

/-- Any number of threads, in any interleaving, with any choice of the thread a notification
wakes and with spurious wake-ups: the calls return as in a use of the channel by one caller,
each thread's calls once and in its own order, the last of them perhaps still open. -/
theorem monitor_refines {n : Nat} {as : List (Action T (Op α))}
    {s : State T (Op α) (Answer α) (Chan α)}
    (h : run monitor.step { obj := { capacity := n } } as = some s) :
    (∃ u : Used α, run Used.step { chan := { capacity := n } } (s.returned.map (·.2.1)) = some u ∧
      u.chan = s.obj ∧ u.calls = s.returned.map fun x => ⟨x.2.1, x.2.2⟩) ∧
    (∀ t, ofThread t (made as) = ofThread t s.finished ++ ofThread t s.threads.inside ∧
      (ofThread t s.threads.inside).length ≤ 1) := by
  have hturn := inTurn_run h
  exact ⟨used_run h, fun t => ⟨hturn.inOrder t, hturn.single t⟩⟩

/-- A receiver sleeps, a spurious wake-up sends it back to sleep, and a sender wakes it. -/
theorem monitor_refines_woken :
    ∃ s : State Nat (Op Nat) (Answer Nat) (Chan Nat),
      s.returned = [(2, .send 7, .sent true), (1, .recv, .item (some 7))] ∧
      (∃ u : Used Nat, run Used.step { chan := { capacity := 1 } }
        (s.returned.map (·.2.1)) = some u ∧
        u.chan = s.obj ∧ u.calls = s.returned.map fun x => ⟨x.2.1, x.2.2⟩) :=
  have h : run monitor.step { obj := { capacity := 1 } }
    [.call 1 .recv, .enter 1 [], .spurious 1, .enter 1 [], .call 2 (.send 7), .enter 2 [1],
      .enter 1 []] = some _ := rfl
  ⟨_, rfl, (monitor_refines h).1⟩

theorem blocked_of_rest {n : Nat} {as : List (Action T (Op α))}
    {s : State T (Op α) (Answer α) (Chan α)}
    (h : run monitor.step { obj := { capacity := n } } as = some s) (hrest : s.threads.ready = [])
    {x : T × Op α} (hx : x ∈ s.threads.asleep) : s.obj.perform x.2 = none :=
  (attempt_eq_none_iff _ _).mp (accounted.blocked_of_rest (attended h) hrest hx)

/-- No wake-up is lost. A thread sleeps on an open channel only, and only while as many threads
are on their way to it as there are items to receive (for a receiver) or places to fill (for a
sender); with none on its way, every sleeper's operation would wait on the channel as it is. -/
theorem no_lost_wakeup {n : Nat} {as : List (Action T (Op α))}
    {s : State T (Op α) (Answer α) (Chan α)}
    (h : run monitor.step { obj := { capacity := n } } as = some s)
    {x : T × Op α} (hx : x ∈ s.threads.asleep) :
    s.obj.closed = false ∧
      (∃ cond, x.2.waitsFor = some cond ∧ s.obj.room cond ≤
        s.threads.ready.countP fun y => y.2.waitsFor = some cond) ∧
      (s.threads.ready = [] → s.obj.perform x.2 = none) := by
  have hs := attended h
  obtain ⟨cond, hcond⟩ := Option.isSome_iff_exists.mp (hs.waits x hx)
  have henough := hs.enough cond ⟨x, hx, decide_eq_true hcond⟩
  have hopen : s.obj.closed = false := by
    cases hc : s.obj.closed with
    | false => rfl
    | true => simp [avail, hc] at henough
  refine ⟨hopen, ⟨cond, hcond, ?_⟩, ?_⟩
  · rw [avail, if_neg (by simp [hopen])] at henough
    exact_mod_cast henough
  · exact fun hrest => blocked_of_rest h hrest hx

/-- Two receivers sleep when a sender comes: it wakes one of them, for the one item. -/
theorem no_lost_wakeup_two :
    ∃ s : State Nat (Op Nat) (Answer Nat) (Chan Nat),
      s.threads = { ready := [(2, .recv)], asleep := [(1, .recv)] } ∧ s.obj.closed = false ∧
      (∃ cond, Op.waitsFor (α := Nat) .recv = some cond ∧ s.obj.room cond ≤
        s.threads.ready.countP fun y => y.2.waitsFor = some cond) ∧
      (s.threads.ready = [] → s.obj.perform .recv = none) :=
  have h : run monitor.step { obj := { capacity := 2 } }
    [.call 1 .recv, .enter 1 [], .call 2 .recv, .enter 2 [], .call 3 (.send 7),
      .enter 3 [2]] = some _ := rfl
  ⟨_, rfl, no_lost_wakeup h (x := (1, .recv)) (List.mem_singleton.mpr rfl)⟩

theorem capacity_run {n : Nat} {as : List (Action T (Op α))}
    {s : State T (Op α) (Answer α) (Chan α)}
    (h : run monitor.step { obj := { capacity := n } } as = some s) : s.obj.capacity = n := by
  refine invariant_run (I := fun s : State T (Op α) (Answer α) (Chan α) => s.obj.capacity = n)
    ?_ rfl h
  intro s a s' hs hstep
  cases moves_of_step hstep with
  | done t woken op ready obj r notices threads _ hbody =>
      exact (perform_effect (perform_of_attempt hbody)).capacity.trans hs
  | _ => exact hs

/-- Whoever has to wait does so on the one condition that is false. -/
theorem waitsFor_of_perform {c : Chan α} {op : Op α} (h : c.perform op = none) :
    c.closed = false ∧ ∃ cond, op.waitsFor = some cond ∧ c.room cond = 0 := by
  obtain ⟨cond, hcond, havail⟩ := accounted.avail_of_attempt ((attempt_eq_none_iff op c).mpr h)
  have hopen : c.closed = false := by
    cases hc : c.closed with
    | false => rfl
    | true => simp [avail, hc] at havail
  refine ⟨hopen, cond, hcond, ?_⟩
  rw [avail, if_neg (by simp [hopen])] at havail
  exact_mod_cast havail

/-- The threads come to rest: from any state, with no new call and no spurious wake-up, there
are so many critical sections at most, whoever is scheduled and woken. When no thread can take
the mutex any more, every call that has not returned is one that waits on the channel as it
is, none if the channel is closed, and on a channel with room at all they are all senders or all
receivers. -/
theorem comes_to_rest {n : Nat} {as : List (Action T (Op α))}
    {s s' : State T (Op α) (Answer α) (Chan α)}
    (h : run monitor.step { obj := { capacity := n } } as = some s)
    {enters : List (Action T (Op α))} (hin : ∀ a ∈ enters, a.isEnter = true)
    (hrun : run monitor.step s enters = some s') :
    enters.length ≤ s.threads.inside.length ^ 2 + s.threads.ready.length ∧
      ((∀ t woken, monitor.step s' (.enter t woken) = none) →
        (∀ x ∈ s'.threads.inside, s'.obj.perform x.2 = none) ∧
        (s'.obj.closed = true → s'.threads.inside = []) ∧
        (0 < n → ∀ x ∈ s'.threads.inside, ∀ y ∈ s'.threads.inside,
          x.2.waitsFor = y.2.waitsFor)) := by
  constructor
  · exact (Nat.le_add_right _ _).trans (length_le_of_enters hin hrun)
  · intro hrest
    have hs' : run monitor.step { obj := { capacity := n } } (as ++ enters) = some s' :=
      run_append.mpr ⟨s, h, hrun⟩
    have hready : s'.threads.ready = [] := by
      by_contra hne
      obtain ⟨t, woken, s'', hstep⟩ := exists_enter monitor hne
      rw [hrest t woken] at hstep
      cases hstep
    have hinside : s'.threads.inside = s'.threads.asleep := by
      rw [Threads.inside, hready, List.nil_append]
    have hblocked : ∀ x ∈ s'.threads.inside, s'.obj.perform x.2 = none := by
      intro x hx
      exact blocked_of_rest hs' hready (hinside ▸ hx)
    refine ⟨hblocked, ?_, ?_⟩
    · intro hclosed
      rw [List.eq_nil_iff_forall_not_mem]
      intro x hx
      have hopen := (waitsFor_of_perform (hblocked x hx)).1
      rw [hclosed] at hopen
      cases hopen
    · intro hn x hx y hy
      obtain ⟨-, c, hc, hroom⟩ := waitsFor_of_perform (hblocked x hx)
      obtain ⟨-, d, hd, hroom'⟩ := waitsFor_of_perform (hblocked y hy)
      have hcap := capacity_run hs'
      have same : c = d := by
        cases c <;> cases d <;> simp only [room] at hroom hroom' <;> first | rfl | omega
      rw [hc, hd, same]

/-- Two receivers, one item: at rest the other receiver still waits. -/
theorem comes_to_rest_two :
    ∃ s s' : State Nat (Op Nat) (Answer Nat) (Chan Nat),
      2 ≤ s.threads.inside.length ^ 2 + s.threads.ready.length ∧
      s'.threads.inside = [(2, .recv)] ∧ ∀ x ∈ s'.threads.inside, s'.obj.perform x.2 = none :=
  have h : run monitor.step { obj := { capacity := 1 } }
    [.call 1 .recv, .enter 1 [], .call 2 .recv, .enter 2 [], .call 3 (.send 7)] = some _ := rfl
  have hrun : run monitor.step _ [.enter 3 [1], .enter 1 []] = some _ := rfl
  have main := comes_to_rest h (by simp [Action.isEnter]) hrun
  ⟨_, _, main.1, rfl, (main.2 fun _ _ => rfl).1⟩

end Chan
end CppLin
