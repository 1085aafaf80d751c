import CppLin.Relay

/-!
The bounded FIFO channel. Each operation is one critical section under the
channel's mutex, so it is a function of the channel; a blocking operation that
would wait gives `none`.
-/
namespace CppLin

variable {α : Type*}

structure Chan (α : Type*) where
  buf : List α := []
  capacity : Nat := 64
  closed : Bool := false
  deriving DecidableEq, Repr

inductive SendResult where
  | ok
  | full
  | closed
  | evicted
  deriving DecidableEq, Repr

namespace Chan

def isFull (c : Chan α) : Bool := c.capacity ≤ c.buf.length

def push (c : Chan α) (value : α) : Chan α := { c with buf := c.buf ++ [value] }

def popFront (c : Chan α) : Chan α := { c with buf := c.buf.tail }

/-- Waits for room or for `close`; the result is false when the channel is closed. -/
def send (c : Chan α) (value : α) : Option (Chan α × Bool) :=
  if c.closed then some (c, false)
  else if c.isFull then none
  else some (c.push value, true)

def trySend (c : Chan α) (value : α) : Chan α × SendResult :=
  if c.closed then (c, .closed)
  else if c.isFull then (c, .full)
  else (c.push value, .ok)

def sendDropOldest (c : Chan α) (value : α) : Chan α × SendResult :=
  if c.closed then (c, .closed)
  else if c.isFull then (c.popFront.push value, .evicted)
  else (c.push value, .ok)

/-- Waits for an item or for `close`. -/
def recv (c : Chan α) : Option (Chan α × Option α) :=
  match c.buf with
  | [] => if c.closed then some (c, none) else none
  | x :: _ => some (c.popFront, some x)

def tryRecv (c : Chan α) : Chan α × Option α :=
  match c.buf with
  | [] => (c, none)
  | x :: _ => (c.popFront, some x)

def close (c : Chan α) : Chan α := { c with closed := true }

def size (c : Chan α) : Nat := c.buf.length

/-- What a broadcast makes of a channel under each policy; `none` while it waits. -/
def offer (c : Chan α) (policy : Relay.BackPressurePolicy) (value : α) : Option (Chan α) :=
  match policy with
  | .dropNewest => some (c.trySend value).1
  | .dropOldest => some (c.sendDropOldest value).1
  | .block => (c.send value).map Prod.fst

@[simp] theorem push_buf (c : Chan α) (v : α) : (c.push v).buf = c.buf ++ [v] := rfl
@[simp] theorem push_capacity (c : Chan α) (v : α) : (c.push v).capacity = c.capacity := rfl
@[simp] theorem popFront_buf (c : Chan α) : c.popFront.buf = c.buf.tail := rfl
@[simp] theorem close_buf (c : Chan α) : c.close.buf = c.buf := rfl

theorem isFull_iff (c : Chan α) : c.isFull = true ↔ c.capacity ≤ c.buf.length := by
  simp [isFull]

/-- A blocking send waits exactly on a full channel that is not closed. -/
theorem send_eq_none_iff (c : Chan α) (v : α) :
    c.send v = none ↔ c.closed = false ∧ c.isFull = true := by
  unfold send
  split_ifs with hc hf <;> simp_all

theorem recv_buf {c c' : Chan α} {r : Option α} (h : c.recv = some (c', r)) :
    c.buf = r.toList ++ c'.buf := by
  unfold recv at h
  split at h
  case h_1 hbuf =>
    split_ifs at h
    obtain ⟨rfl, rfl⟩ := Prod.mk.inj (Option.some.inj h)
    rfl
  case h_2 x xs hbuf =>
    obtain ⟨rfl, rfl⟩ := Prod.mk.inj (Option.some.inj h)
    simp [popFront, hbuf]

theorem tryRecv_buf {c c' : Chan α} {r : Option α} (h : c.tryRecv = (c', r)) :
    c.buf = r.toList ++ c'.buf := by
  unfold tryRecv at h
  split at h
  case h_1 hbuf =>
    obtain ⟨rfl, rfl⟩ := Prod.mk.inj h
    rfl
  case h_2 x xs hbuf =>
    obtain ⟨rfl, rfl⟩ := Prod.mk.inj h
    simp [popFront, hbuf]

theorem offer_of_room {c : Chan α} (hopen : c.closed = false) (hroom : c.isFull = false)
    (policy : Relay.BackPressurePolicy) (v : α) : c.offer policy v = some (c.push v) := by
  cases policy <;> simp [offer, trySend, sendDropOldest, send, hopen, hroom]

theorem offer_of_full {c c' : Chan α} (hopen : c.closed = false) (hfull : c.isFull = true)
    {policy : Relay.BackPressurePolicy} {v : α} (h : c.offer policy v = some c') :
    c'.closed = false ∧ c'.isFull = true := by
  cases policy with
  | dropNewest =>
      simp only [offer, trySend, hopen, hfull, Bool.false_eq_true, if_false, if_true,
        Option.some.injEq] at h
      exact h ▸ ⟨hopen, hfull⟩
  | dropOldest =>
      simp only [offer, sendDropOldest, hopen, hfull, Bool.false_eq_true, if_false, if_true,
        Option.some.injEq] at h
      subst h
      refine ⟨hopen, ?_⟩
      rw [isFull_iff] at hfull ⊢
      simp only [push_buf, push_capacity, popFront, List.length_append, List.length_tail,
        List.length_singleton]
      omega
  | block => simp [offer, send, hopen, hfull] at h

/-- What an open channel becomes of an offer: with room the value is enqueued; a full one
drops the value or its own head, as the policy says. -/
theorem offer_cases {c c' : Chan α} (hopen : c.closed = false) {policy : Relay.BackPressurePolicy}
    {v : α} (h : c.offer policy v = some c') :
    (c.isFull = false ∧ c' = c.push v) ∨
      (c.isFull = true ∧ policy = .dropNewest ∧ c' = c) ∨
      (c.isFull = true ∧ policy = .dropOldest ∧ c' = c.popFront.push v) := by
  cases hfull : c.isFull with
  | false =>
      rw [offer_of_room hopen hfull] at h
      exact .inl ⟨rfl, (Option.some.inj h).symm⟩
  | true =>
      refine .inr ?_
      cases policy with
      | dropNewest =>
          rw [offer, trySend, hopen, hfull] at h
          exact .inl ⟨rfl, rfl, (Option.some.inj h).symm⟩
      | dropOldest =>
          rw [offer, sendDropOldest, hopen, hfull] at h
          exact .inr ⟨rfl, rfl, (Option.some.inj h).symm⟩
      | block =>
          rw [offer, send, hopen, hfull] at h
          cases h

theorem offer_of_closed {c : Chan α} (hc : c.closed = true) (policy : Relay.BackPressurePolicy)
    (v : α) : c.offer policy v = some c := by
  cases policy <;> simp [offer, trySend, sendDropOldest, send, hc]

theorem offer_shape {c c' : Chan α} {policy : Relay.BackPressurePolicy} {v : α}
    (h : c.offer policy v = some c') : c'.closed = c.closed ∧ c'.capacity = c.capacity := by
  cases hc : c.closed with
  | true =>
      obtain rfl := Option.some.inj ((offer_of_closed hc policy v).symm.trans h)
      exact ⟨hc, rfl⟩
  | false =>
      obtain ⟨-, rfl⟩ | ⟨-, -, rfl⟩ | ⟨-, -, rfl⟩ := offer_cases hc h <;> exact ⟨hc, rfl⟩

theorem offer_mem {c c' : Chan α} {policy : Relay.BackPressurePolicy} {v x : α}
    (h : c.offer policy v = some c') (hx : x ∈ c'.buf) : x ∈ c.buf ∨ x = v := by
  cases hc : c.closed with
  | true =>
      obtain rfl := Option.some.inj ((offer_of_closed hc policy v).symm.trans h)
      exact .inl hx
  | false =>
      obtain ⟨-, rfl⟩ | ⟨-, -, rfl⟩ | ⟨-, -, rfl⟩ := offer_cases hc h
      · simpa using hx
      · exact .inl hx
      · rw [push_buf, popFront_buf, List.mem_append, List.mem_singleton] at hx
        exact hx.imp_left List.mem_of_mem_tail

theorem recv_shape {c c' : Chan α} {r : Option α} (h : c.recv = some (c', r)) :
    c'.closed = c.closed ∧ c'.capacity = c.capacity := by
  unfold recv at h
  split at h
  · split_ifs at h
    obtain ⟨rfl, -⟩ := Prod.mk.inj (Option.some.inj h)
    exact ⟨rfl, rfl⟩
  · obtain ⟨rfl, -⟩ := Prod.mk.inj (Option.some.inj h)
    exact ⟨rfl, rfl⟩

theorem tryRecv_shape {c c' : Chan α} {r : Option α} (h : c.tryRecv = (c', r)) :
    c'.closed = c.closed ∧ c'.capacity = c.capacity := by
  unfold tryRecv at h
  split at h <;> obtain ⟨rfl, -⟩ := Prod.mk.inj h <;> exact ⟨rfl, rfl⟩

end Chan

end CppLin
