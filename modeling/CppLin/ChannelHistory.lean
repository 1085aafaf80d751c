import CppLin.Channel
import CppLin.Lib.Ledger
import CppLin.Lib.Run

namespace CppLin
open Run Ledger

variable {α : Type*}

namespace Chan

inductive Op (α : Type*) where
  | send (value : α)
  | trySend (value : α)
  | sendDropOldest (value : α)
  | recv
  | tryRecv
  | close
  deriving DecidableEq, Repr

inductive Answer (α : Type*) where
  | sent (ok : Bool)
  | result (r : SendResult)
  | item (x : Option α)
  | done
  deriving DecidableEq, Repr

def perform (c : Chan α) : Op α → Option (Chan α × Answer α)
  | .send v => (c.send v).map fun (c, ok) => (c, .sent ok)
  | .trySend v => some ((c.trySend v).1, .result (c.trySend v).2)
  | .sendDropOldest v => some ((c.sendDropOldest v).1, .result (c.sendDropOldest v).2)
  | .recv => c.recv.map fun (c, x) => (c, .item x)
  | .tryRecv => some (c.tryRecv.1, .item c.tryRecv.2)
  | .close => some (c.close, .done)

end Chan

/-- An operation that has returned. -/
structure Call (α : Type*) where
  op : Chan.Op α
  answer : Chan.Answer α
  deriving DecidableEq, Repr

namespace Call

/-- `Full`, `Closed` and `false`. -/
def refused (call : Call α) : Bool :=
  match call.op, call.answer with
  | .send _, .sent ok => !ok
  | .trySend _, .result r => r = .full ∨ r = .closed
  | .sendDropOldest _, .result r => r = .full ∨ r = .closed
  | _, _ => false

def value (call : Call α) : Option α :=
  match call.op with
  | .send v => some v
  | .trySend v => some v
  | .sendDropOldest v => some v
  | _ => none

/-- The value a send was given, and whether it was refused. -/
def offer (call : Call α) : Option (α × Bool) := call.value.map fun v => (v, call.refused)

def enqueued (call : Call α) : Option α := if call.refused then none else call.value

def rejected (call : Call α) : Option α := if call.refused then call.value else none

def received (call : Call α) : Option α :=
  match call.answer with
  | .item x => x
  | _ => none

def evicts (call : Call α) : Bool :=
  match call.op, call.answer with
  | .sendDropOldest _, .result .evicted => true
  | _, _ => false

end Call

/-- A channel, the calls that have returned, and the heads of the buffer that were pushed
out. -/
structure Chan.Used (α : Type*) where
  chan : Chan α
  calls : List (Call α) := []
  evicted : List α := []

namespace Chan

/-- What a call pushes out of the buffer. -/
def pushedOut (c : Chan α) (call : Call α) : List α := if call.evicts then c.buf.take 1 else []

def Used.step (s : Used α) (op : Op α) : Option (Used α) :=
  (s.chan.perform op).map fun (c, answer) =>
    { chan := c, calls := s.calls ++ [⟨op, answer⟩],
      evicted := s.evicted ++ s.chan.pushedOut ⟨op, answer⟩ }

/-- What a call can do. -/
inductive Effect (c : Chan α) (call : Call α) : Chan α → Prop
  | enqueue (v : α) (hoffer : call.offer = some (v, false)) (hrec : call.received = none)
      (hev : call.evicts = false) (hopen : c.closed = false) (hroom : c.isFull = false) :
      Effect c call (c.push v)
  | refuse (v : α) (hoffer : call.offer = some (v, true)) (hrec : call.received = none)
      (hev : call.evicts = false) : Effect c call c
  | evict (v : α) (hoffer : call.offer = some (v, false)) (hrec : call.received = none)
      (hev : call.evicts = true) (hopen : c.closed = false) (hfull : c.isFull = true) :
      Effect c call (c.popFront.push v)
  | receive (v : α) (rest : List α) (hop : call.op ≠ .close) (hoffer : call.offer = none)
      (hrec : call.received = some v) (hev : call.evicts = false) (hbuf : c.buf = v :: rest) :
      Effect c call c.popFront
  | idle (hop : call.op ≠ .close) (hoffer : call.offer = none) (hrec : call.received = none)
      (hev : call.evicts = false) : Effect c call c
  | close (hop : call.op = .close) (hoffer : call.offer = none) (hrec : call.received = none)
      (hev : call.evicts = false) : Effect c call c.close

theorem send_effect {c c' : Chan α} {v : α} {ok : Bool} (h : c.send v = some (c', ok)) :
    Effect c ⟨.send v, .sent ok⟩ c' := by
  unfold send at h
  split_ifs at h with hc hf
  · obtain ⟨rfl, rfl⟩ := Prod.mk.inj (Option.some.inj h)
    exact .refuse v rfl rfl rfl
  · obtain ⟨rfl, rfl⟩ := Prod.mk.inj (Option.some.inj h)
    exact .enqueue v rfl rfl rfl (by simpa using hc) (by simpa using hf)

theorem trySend_effect (c : Chan α) (v : α) :
    Effect c ⟨.trySend v, .result (c.trySend v).2⟩ (c.trySend v).1 := by
  unfold trySend
  split_ifs with hc hf
  · exact .refuse v rfl rfl rfl
  · exact .refuse v rfl rfl rfl
  · exact .enqueue v rfl rfl rfl (by simpa using hc) (by simpa using hf)

theorem sendDropOldest_effect (c : Chan α) (v : α) :
    Effect c ⟨.sendDropOldest v, .result (c.sendDropOldest v).2⟩ (c.sendDropOldest v).1 := by
  unfold sendDropOldest
  split_ifs with hc hf
  · exact .refuse v rfl rfl rfl
  · exact .evict v rfl rfl rfl (by simpa using hc) hf
  · exact .enqueue v rfl rfl rfl (by simpa using hc) (by simpa using hf)

theorem recv_effect {c c' : Chan α} {x : Option α} (h : c.recv = some (c', x)) :
    Effect c ⟨.recv, .item x⟩ c' := by
  unfold recv at h
  split at h
  case h_1 hbuf =>
    split_ifs at h
    obtain ⟨rfl, rfl⟩ := Prod.mk.inj (Option.some.inj h)
    exact .idle (by simp) rfl rfl rfl
  case h_2 v rest hbuf =>
    obtain ⟨rfl, rfl⟩ := Prod.mk.inj (Option.some.inj h)
    exact .receive v rest (by simp) rfl rfl rfl hbuf

theorem tryRecv_effect (c : Chan α) : Effect c ⟨.tryRecv, .item c.tryRecv.2⟩ c.tryRecv.1 := by
  cases hbuf : c.buf with
  | nil =>
    rw [tryRecv, hbuf]
    exact .idle (by simp) rfl rfl rfl
  | cons v rest =>
    rw [tryRecv, hbuf]
    exact .receive v rest (by simp) rfl rfl rfl hbuf

theorem perform_effect {c c' : Chan α} {op : Op α} {answer : Answer α}
    (h : c.perform op = some (c', answer)) : Effect c ⟨op, answer⟩ c' := by
  cases op with
  | send v =>
    obtain ⟨⟨c₁, ok⟩, hsend, he⟩ := Option.map_eq_some_iff.mp h
    obtain ⟨rfl, rfl⟩ := Prod.mk.inj he
    exact send_effect hsend
  | trySend v =>
    obtain ⟨rfl, rfl⟩ := Prod.mk.inj (Option.some.inj h)
    exact trySend_effect c v
  | sendDropOldest v =>
    obtain ⟨rfl, rfl⟩ := Prod.mk.inj (Option.some.inj h)
    exact sendDropOldest_effect c v
  | recv =>
    obtain ⟨⟨c₁, x⟩, hrecv, he⟩ := Option.map_eq_some_iff.mp h
    obtain ⟨rfl, rfl⟩ := Prod.mk.inj he
    exact recv_effect hrecv
  | tryRecv =>
    obtain ⟨rfl, rfl⟩ := Prod.mk.inj (Option.some.inj h)
    exact tryRecv_effect c
  | close =>
    obtain ⟨rfl, rfl⟩ := Prod.mk.inj (Option.some.inj h)
    exact .close rfl rfl rfl rfl

theorem Used.step_cases {s s' : Used α} {op : Op α} (h : s.step op = some s') :
    ∃ call : Call α, call.op = op ∧ s'.calls = s.calls ++ [call] ∧
      s'.evicted = s.evicted ++ s.chan.pushedOut call ∧ Effect s.chan call s'.chan := by
  obtain ⟨⟨c, answer⟩, hperform, rfl⟩ := Option.map_eq_some_iff.mp h
  exact ⟨⟨op, answer⟩, rfl, rfl, rfl, perform_effect hperform⟩

theorem Used.run_one {s : Used α} {c : Chan α} {op : Op α} {answer : Answer α}
    (h : s.chan.perform op = some (c, answer)) : run Used.step s [op] =
      some ⟨c, s.calls ++ [⟨op, answer⟩], s.evicted ++ s.chan.pushedOut ⟨op, answer⟩⟩ := by
  rw [run, Used.step, h]
  rfl

namespace Effect

variable {c c' : Chan α} {call : Call α}

theorem capacity (h : Effect c call c') : c'.capacity = c.capacity := by
  cases h <;> rfl

theorem closed_iff (h : Effect c call c') :
    c'.closed = true ↔ c.closed = true ∨ call.op = .close := by
  have hsend : ∀ {x}, call.offer = some x → call.op ≠ .close := by
    intro x hx hop
    rw [Call.offer, Call.value, hop] at hx
    cases hx
  cases h with
  | enqueue v hoffer => exact (or_iff_left (hsend hoffer)).symm
  | refuse v hoffer => exact (or_iff_left (hsend hoffer)).symm
  | evict v hoffer => exact (or_iff_left (hsend hoffer)).symm
  | receive v rest hop => exact (or_iff_left hop).symm
  | idle hop => exact (or_iff_left hop).symm
  | close hop => exact iff_of_true rfl (.inr hop)

theorem bounded (h : Effect c call c') (hcap : call.evicts = true → 1 ≤ c.capacity)
    (hc : c.buf.length ≤ c.capacity) : c'.buf.length ≤ c'.capacity := by
  cases h with
  | enqueue v _ _ _ _ hroom =>
    have hlt : c.buf.length < c.capacity := by simpa [isFull] using hroom
    simpa using hlt
  | refuse => exact hc
  | evict v _ _ hev =>
    have hroom := hcap hev
    simp only [push_buf, popFront_buf, push_capacity, List.length_append, List.length_tail,
      List.length_singleton]
    change _ ≤ c.capacity
    omega
  | receive =>
    rw [popFront_buf, List.length_tail]
    exact (Nat.sub_le _ _).trans hc
  | idle => exact hc
  | close => exact hc

end Effect

/-- What a call keeps of the FIFO order: only an eviction takes a value that is not returned,
the oldest one. -/
structure Fifo (c : Chan α) (call : Call α) (c' : Chan α) : Prop where
  evicts : call.evicts = true ↔ ∃ oldest kept, c.buf = oldest :: kept ∧ call.received = none ∧
    c'.buf = kept ++ call.enqueued.toList
  keeps : call.evicts = false → c.buf ++ call.enqueued.toList = call.received.toList ++ c'.buf
  refused : call.refused = true → c' = c
  closed : c.closed = true → call.enqueued = none ∧ call.evicts = false

theorem enqueued_of_offer {call : Call α} {v : α} {b : Bool} (h : call.offer = some (v, b)) :
    call.refused = b ∧ call.enqueued = if b then none else some v := by
  obtain ⟨w, hw, he⟩ := Option.map_eq_some_iff.mp h
  obtain ⟨rfl, rfl⟩ := Prod.mk.inj he
  exact ⟨rfl, by rw [Call.enqueued, hw]⟩

theorem rejected_eq (call : Call α) :
    call.rejected = call.offer.bind fun x => if x.2 then some x.1 else none := by
  rw [Call.rejected, Call.offer]
  cases call.value <;> simp

theorem enqueued_of_not_offer {call : Call α} (h : call.offer = none) :
    call.refused = false ∧ call.enqueued = none := by
  have hvalue : call.value = none := Option.map_eq_none_iff.mp h
  refine ⟨?_, by rw [Call.enqueued, hvalue, ite_self]⟩
  unfold Call.value at hvalue
  unfold Call.refused
  cases hop : call.op <;> simp [hop] at hvalue ⊢

theorem Effect.fifo {c c' : Chan α} {call : Call α} (h : Effect c call c') (hcap : 1 ≤ c.capacity) :
    Fifo c call c' := by
  have hkeeps : call.evicts = false →
      c.buf ++ call.enqueued.toList = call.received.toList ++ c'.buf := by
    intro hno
    cases h with
    | enqueue v hoffer hrec => simp [(enqueued_of_offer hoffer).2, hrec]
    | refuse v hoffer hrec => simp [(enqueued_of_offer hoffer).2, hrec]
    | evict v _ _ hev => rw [hev] at hno; cases hno
    | receive v rest _ hoffer hrec _ hbuf => simp [(enqueued_of_not_offer hoffer).2, hrec, hbuf]
    | idle _ hoffer hrec => simp [(enqueued_of_not_offer hoffer).2, hrec]
    | close _ hoffer hrec => simp [(enqueued_of_not_offer hoffer).2, hrec]
  refine ⟨⟨fun hev => ?_, fun hout => ?_⟩, hkeeps, fun hrefused => ?_, fun hclosed => ?_⟩
  · cases h with
    | evict v hoffer hrec _ _ hfull =>
      have hne : c.buf ≠ [] := by
        rw [isFull_iff] at hfull
        exact List.ne_nil_of_length_pos (Nat.lt_of_lt_of_le hcap hfull)
      obtain ⟨oldest, kept, hbuf⟩ := List.exists_cons_of_ne_nil hne
      refine ⟨oldest, kept, hbuf, hrec, ?_⟩
      simp [(enqueued_of_offer hoffer).2, hbuf]
    | enqueue _ _ _ hno => rw [hno] at hev; cases hev
    | refuse _ _ _ hno => rw [hno] at hev; cases hev
    | receive _ _ _ _ _ hno => rw [hno] at hev; cases hev
    | idle _ _ _ hno => rw [hno] at hev; cases hev
    | close _ _ _ hno => rw [hno] at hev; cases hev
  · obtain ⟨oldest, kept, hbuf, hrec, hbuf'⟩ := hout
    cases hev : call.evicts with
    | true => rfl
    | false =>
      have hlength := congrArg List.length (hkeeps hev)
      rw [hbuf, hbuf', hrec] at hlength
      simp at hlength
  · cases h with
    | enqueue v hoffer => rw [(enqueued_of_offer hoffer).1] at hrefused; cases hrefused
    | refuse => rfl
    | evict v hoffer => rw [(enqueued_of_offer hoffer).1] at hrefused; cases hrefused
    | receive _ _ _ hoffer => rw [(enqueued_of_not_offer hoffer).1] at hrefused; cases hrefused
    | idle => rfl
    | close _ hoffer => rw [(enqueued_of_not_offer hoffer).1] at hrefused; cases hrefused
  · cases h with
    | enqueue _ _ _ _ hopen => rw [hopen] at hclosed; cases hclosed
    | refuse v hoffer _ hev => exact ⟨(enqueued_of_offer hoffer).2, hev⟩
    | evict _ _ _ _ hopen => rw [hopen] at hclosed; cases hclosed
    | receive _ _ _ hoffer _ hev => exact ⟨(enqueued_of_not_offer hoffer).2, hev⟩
    | idle _ hoffer _ hev => exact ⟨(enqueued_of_not_offer hoffer).2, hev⟩
    | close _ hoffer _ hev => exact ⟨(enqueued_of_not_offer hoffer).2, hev⟩

/-- The books of a channel in use. -/
structure Books (s : Used α) (l : List (α × Fate)) : Prop where
  fromFront : FromFront l
  offers : s.calls.filterMap Call.offer = offers l
  received : s.calls.filterMap Call.received = having .received l
  evicted : s.evicted = having .evicted l
  buffered : s.chan.buf = having .waiting l

theorem Books.call {s s' : Used α} {l : List (α × Fate)} (hb : Books s l) {call : Call α}
    (hcalls : s'.calls = s.calls ++ [call])
    (hevicted : s'.evicted = s.evicted ++ s.chan.pushedOut call)
    (h : Effect s.chan call s'.chan) : ∃ l', Books s' l' := by
  obtain ⟨c', calls', evicted'⟩ := s'
  obtain rfl : calls' = _ := hcalls
  obtain rfl : evicted' = _ := hevicted
  simp only at h
  cases h with
  | enqueue v hoffer hrec hev =>
    refine ⟨l ++ [(v, .waiting)], hb.fromFront.concat (.inl rfl), ?_, ?_, ?_, ?_⟩
    · simp [hb.offers, hoffer]
    · simp [hb.received, hrec]
    · simp [hb.evicted, pushedOut, hev]
    · simp [hb.buffered]
  | refuse v hoffer hrec hev =>
    refine ⟨l ++ [(v, .refused)], hb.fromFront.concat (.inr rfl), ?_, ?_, ?_, ?_⟩
    · simp [hb.offers, hoffer]
    · simp [hb.received, hrec]
    · simp [hb.evicted, pushedOut, hev]
    · simp [hb.buffered]
  | evict v hoffer hrec hev =>
    refine ⟨settle .evicted l ++ [(v, .waiting)],
      (hb.fromFront.settle (by decide)).concat (.inl rfl), ?_, ?_, ?_, ?_⟩
    · simp [hb.offers, hoffer, offers_settle]
    · simp [hb.received, hrec, having_settle_other]
    · simp [hb.evicted, pushedOut, hev, having_settle, hb.fromFront, hb.buffered]
    · simp [hb.buffered, having_waiting_settle]
  | receive v rest hop hoffer hrec hev hbuf =>
    have hwaiting : having .waiting l = v :: rest := hb.buffered.symm.trans hbuf
    refine ⟨settle .received l, hb.fromFront.settle (by decide), ?_, ?_, ?_, ?_⟩
    · simp [hb.offers, hoffer, offers_settle]
    · simp [hb.received, hrec, having_settle, hb.fromFront, hwaiting]
    · simp [hb.evicted, pushedOut, hev, having_settle_other]
    · simp [hb.buffered, having_waiting_settle]
  | idle hop hoffer hrec hev =>
    refine ⟨l, hb.fromFront, ?_, ?_, ?_, hb.buffered⟩
    · simp [hb.offers, hoffer]
    · simp [hb.received, hrec]
    · simp [hb.evicted, pushedOut, hev]
  | close hop hoffer hrec hev =>
    refine ⟨l, hb.fromFront, ?_, ?_, ?_, hb.buffered⟩
    · simp [hb.offers, hoffer]
    · simp [hb.received, hrec]
    · simp [hb.evicted, pushedOut, hev]

/-- What holds of a reachable state: the capacity is kept and the books balance. -/
structure Sound (n : Nat) (s : Used α) : Prop where
  capacity : s.chan.capacity = n
  bounded : s.chan.buf.length ≤ n
  counted : s.calls.countP Call.evicts = s.evicted.length
  books : ∃ l, Books s l

theorem Sound.call {n : Nat} (hn : 1 ≤ n) {s s' : Used α} (hs : Sound n s) {call : Call α}
    (hcalls : s'.calls = s.calls ++ [call])
    (hevicted : s'.evicted = s.evicted ++ s.chan.pushedOut call)
    (h : Effect s.chan call s'.chan) : Sound n s' := by
  obtain ⟨rfl, hbounded, hcounted, l, hl⟩ := hs
  refine ⟨h.capacity, h.capacity ▸ h.bounded (fun _ => hn) hbounded, ?_, hl.call hcalls hevicted h⟩
  rw [hcalls, hevicted, List.countP_append, List.length_append, hcounted, List.countP_singleton,
    pushedOut]
  cases hev : call.evicts with
  | false => rfl
  | true =>
    obtain ⟨oldest, kept, hbuf, -⟩ := (h.fifo hn).evicts.mp hev
    rw [hbuf]
    rfl

theorem sound_run {n : Nat} (hn : 1 ≤ n) {ops : List (Op α)} {s : Used α}
    (h : run Used.step { chan := { capacity := n } } ops = some s) : Sound n s := by
  refine invariant_run (fun s op s' hs hstep => ?_) ?_ h
  · obtain ⟨call, -, hcalls, hevicted, heffect⟩ := Used.step_cases hstep
    exact hs.call hn hcalls hevicted heffect
  · exact ⟨rfl, Nat.zero_le _, rfl, [], .nil, rfl, rfl, rfl, rfl⟩

theorem closed_run {s s' : Used α} {ops : List (Op α)} (h : run Used.step s ops = some s') :
    s'.chan.closed = true ↔ s.chan.closed = true ∨ .close ∈ ops := by
  induction ops generalizing s with
  | nil =>
    obtain rfl := Option.some.inj h
    simp
  | cons op ops ih =>
    obtain ⟨m, hm, hrest⟩ := run_cons.mp h
    obtain ⟨call, rfl, -, -, heffect⟩ := Used.step_cases hm
    rw [ih hrest, heffect.closed_iff, List.mem_cons, or_assoc, eq_comm (a := Op.close)]

theorem filterMap_enqueued (calls : List (Call α)) :
    calls.filterMap Call.enqueued = accepted (calls.filterMap Call.offer) := by
  induction calls with
  | nil => rfl
  | cons call calls ih =>
    cases hoffer : call.offer with
    | none => simp [hoffer, (enqueued_of_not_offer hoffer).2, ih]
    | some x =>
      have henq := (enqueued_of_offer (v := x.1) (b := x.2) hoffer).2
      cases hx : x.2 <;> simp [hoffer, henq, hx, ih, accepted]

theorem filterMap_value (calls : List (Call α)) :
    calls.filterMap Call.value = (calls.filterMap Call.offer).map Prod.fst := by
  rw [List.map_filterMap]
  congr 1
  funext call
  rw [Call.offer, Option.map_map]
  exact Option.map_id'.symm ▸ rfl

theorem filterMap_rejected (calls : List (Call α)) :
    calls.filterMap Call.rejected = rejected (calls.filterMap Call.offer) := by
  induction calls with
  | nil => rfl
  | cons call calls ih =>
    have hcall := rejected_eq call
    cases hoffer : call.offer with
    | none => simp_all
    | some x => cases hx : x.2 <;> simp_all [rejected]

theorem recv_of_closed {c : Chan α} (hc : c.closed = true) :
    c.recv = some (c.popFront, c.buf.head?) := by
  obtain ⟨buf, capacity, closed⟩ := c
  obtain rfl : closed = true := hc
  cases buf <;> rfl

/-- A closed channel gives out what it holds, and after it `nullopt`. -/
theorem run_recv_of_closed {s : Used α} (hc : s.chan.closed = true) :
    run Used.step s (List.replicate (s.chan.buf.length + 1) .recv) =
      some { s with
        chan := { s.chan with buf := [] }
        calls := s.calls ++ (s.chan.buf.map some ++ [none]).map fun x => ⟨.recv, .item x⟩ } := by
  have hstep : ∀ s : Used α, s.chan.closed = true → s.step .recv =
      some ⟨s.chan.popFront, s.calls ++ [⟨.recv, .item s.chan.buf.head?⟩], s.evicted⟩ := by
    intro s hc
    rw [Used.step, perform, recv_of_closed hc]
    simp [pushedOut, Call.evicts]
  obtain ⟨⟨buf, capacity, closed⟩, calls, evicted⟩ := s
  induction buf generalizing calls with
  | nil =>
    rw [List.length_nil, List.replicate_one, run, hstep _ hc]
    rfl
  | cons v rest ih =>
    rw [List.length_cons, List.replicate_succ, run, hstep _ hc]
    refine (ih (calls ++ [⟨.recv, .item (some v)⟩]) hc).trans ?_
    simp

/-- A call on a closed channel enqueues nothing, and the channel stays closed. -/
theorem run_of_closed {s s' : Used α} (hc : s.chan.closed = true) (hn : 1 ≤ s.chan.capacity)
    {ops : List (Op α)} (h : run Used.step s ops = some s') :
    s'.evicted = s.evicted ∧ ∃ later, s'.calls = s.calls ++ later ∧
      later.filterMap Call.enqueued = [] ∧
      s.chan.buf = later.filterMap Call.received ++ s'.chan.buf := by
  induction ops generalizing s with
  | nil =>
    obtain rfl := Option.some.inj h
    exact ⟨rfl, [], (List.append_nil _).symm, rfl, rfl⟩
  | cons op ops ih =>
    obtain ⟨m, hm, hrest⟩ := run_cons.mp h
    obtain ⟨call, -, hcalls, hevicted, heffect⟩ := Used.step_cases hm
    have hfifo := heffect.fifo hn
    obtain ⟨hnone, hev⟩ := hfifo.closed hc
    obtain ⟨hsame, later, hlater, henq, hbuf⟩ :=
      ih (heffect.closed_iff.mpr (.inl hc)) (heffect.capacity ▸ hn) hrest
    refine ⟨?_, call :: later, ?_, ?_, ?_⟩
    · rw [hsame, hevicted, pushedOut, hev, if_neg Bool.false_ne_true, List.append_nil]
    · rw [hlater, hcalls, List.append_assoc, List.singleton_append]
    · rw [List.filterMap_cons, hnone, henq]
    · have hkeeps := hfifo.keeps hev
      rw [hnone, Option.toList_none, List.append_nil, hbuf, ← List.append_assoc] at hkeeps
      rw [hkeeps]
      cases hrec : call.received <;> simp [hrec]

/-- A bounded FIFO, after the operations `ops`. -/
structure BoundedFifo (n : Nat) (ops : List (Op α)) (s : Used α) : Prop where
  bounded : s.chan.buf.length ≤ n
  /-- Every value enqueued has been received or evicted, in this order, or is in the buffer. -/
  accounts : ∃ departed : List (α × Fate), (∀ x ∈ departed, x.2 = .received ∨ x.2 = .evicted) ∧
    s.calls.filterMap Call.enqueued = departed.map Prod.fst ++ s.chan.buf ∧
    s.calls.filterMap Call.received = having .received departed ∧
    s.evicted = having .evicted departed
  evictions : s.calls.countP Call.evicts = s.evicted.length
  inOrder : (s.calls.filterMap Call.received ++ s.chan.buf).Sublist
    (s.calls.filterMap Call.enqueued)
  /-- What the next call does, whichever it is. -/
  next : ∀ op s', s.step op = some s' →
    ∃ call, call.op = op ∧ s'.calls = s.calls ++ [call] ∧
      s'.evicted = s.evicted ++ s.chan.pushedOut call ∧ Fifo s.chan call s'.chan
  closed : s.chan.closed = true ↔ .close ∈ ops
  /-- After `close` nothing is enqueued or lost. -/
  afterClose : .close ∈ ops → ∀ more s', run Used.step s more = some s' →
    s'.evicted = s.evicted ∧ ∃ later, s'.calls = s.calls ++ later ∧
      later.filterMap Call.enqueued = [] ∧ s.chan.buf = later.filterMap Call.received ++ s'.chan.buf
  drains : .close ∈ ops → run Used.step s (List.replicate (s.chan.buf.length + 1) .recv) =
    some { s with
      chan := { s.chan with buf := [] }
      calls := s.calls ++ (s.chan.buf.map some ++ [none]).map fun x => ⟨.recv, .item x⟩ }

theorem bounded_fifo (n : Nat) (hn : 1 ≤ n) (ops : List (Op α)) (s : Used α)
    (h : run Used.step { chan := { capacity := n } } ops = some s) : BoundedFifo n ops s := by
  obtain ⟨hcapacity, hbounded, hcounted, l, hl⟩ := sound_run hn h
  have hcap : 1 ≤ s.chan.capacity := hcapacity ▸ hn
  have hclosed : s.chan.closed = true ↔ .close ∈ ops :=
    (closed_run h).trans (or_iff_right Bool.false_ne_true)
  have henqueued : s.calls.filterMap Call.enqueued = (departed l).map Prod.fst ++ s.chan.buf := by
    rw [filterMap_enqueued, hl.offers, hl.fromFront.accepted, ← hl.buffered]
  have hreceived : s.calls.filterMap Call.received = having .received (departed l) := by
    rw [hl.received, having_departed (.inl rfl)]
  refine ⟨hbounded, ⟨departed l, ?_, henqueued, hreceived, ?_⟩, hcounted, ?_, ?_, hclosed, ?_, ?_⟩
  · intro x hx
    simpa [departed] using (List.mem_filter.mp hx).2
  · rw [hl.evicted, having_departed (.inr rfl)]
  · rw [henqueued, hreceived]
    exact (List.filter_sublist.map Prod.fst).append (List.Sublist.refl _)
  · intro op s' hstep
    obtain ⟨call, hop, hcalls, hevicted, heffect⟩ := Used.step_cases hstep
    exact ⟨call, hop, hcalls, hevicted, heffect.fifo hcap⟩
  · intro hmem more s' hmore
    exact run_of_closed (hclosed.mpr hmem) hcap hmore
  · intro hmem
    exact run_recv_of_closed (hclosed.mpr hmem)

/-- Of three values the first is evicted, the second received, and the third still there after
`close`. -/
theorem bounded_fifo_evicts : BoundedFifo 2
    [.sendDropOldest 1, .trySend 2, .sendDropOldest 3, .tryRecv, .close]
    { chan := { buf := [3], capacity := 2, closed := true },
      calls := [⟨.sendDropOldest 1, .result .ok⟩, ⟨.trySend 2, .result .ok⟩,
        ⟨.sendDropOldest 3, .result .evicted⟩, ⟨.tryRecv, .item (some 2)⟩, ⟨.close, .done⟩],
      evicted := [1] } :=
  bounded_fifo 2 (by decide) _ _ rfl

end Chan

end CppLin
