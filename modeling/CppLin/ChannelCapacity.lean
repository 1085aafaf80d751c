import CppLin.ChannelHistory

/-!
A channel of any capacity, zero included. Its operations once more, with `front` and
`pop_front` checked where they are applied: a deque leaves both undefined when it is empty.
-/
namespace CppLin
open Run

variable {α : Type*}

namespace Chan

/-- An operation on the buffer applied outside its domain. -/
inductive Fault where
  | front
  | popFront
  deriving DecidableEq, Repr

namespace Checked

def front (c : Chan α) : Except Fault α :=
  match c.buf with
  | [] => .error .front
  | x :: _ => .ok x

def popFront (c : Chan α) : Except Fault (Chan α) :=
  match c.buf with
  | [] => .error .popFront
  | _ :: rest => .ok { c with buf := rest }

def sendDropOldest (c : Chan α) (value : α) : Except Fault (Chan α × SendResult) :=
  if c.closed then .ok (c, .closed)
  else if c.isFull then do
    let c ← popFront c
    return (c.push value, .evicted)
  else .ok (c.push value, .ok)

def recv (c : Chan α) : Except Fault (Option (Chan α × Option α)) :=
  if c.buf = [] ∧ c.closed = false then .ok none
  else if c.buf = [] then .ok (some (c, none))
  else do
    let val ← front c
    let c ← popFront c
    return some (c, some val)

def tryRecv (c : Chan α) : Except Fault (Chan α × Option α) :=
  if c.buf = [] then .ok (c, none)
  else do
    let val ← front c
    let c ← popFront c
    return (c, some val)

def perform (c : Chan α) : Op α → Except Fault (Option (Chan α × Answer α))
  | .send v => .ok ((c.send v).map fun (c, ok) => (c, .sent ok))
  | .trySend v => .ok (some ((c.trySend v).1, .result (c.trySend v).2))
  | .sendDropOldest v => do
      let (c, r) ← sendDropOldest c v
      return some (c, .result r)
  | .recv => do
      let r ← recv c
      return r.map fun (c, x) => (c, .item x)
  | .tryRecv => do
      let (c, x) ← tryRecv c
      return some (c, .item x)
  | .close => .ok (some (c.close, .done))

/-- The channel after an operation; `none` while it waits and at a fault. -/
def step (c : Chan α) (op : Op α) : Option (Chan α) :=
  match perform c op with
  | .ok r => r.map Prod.fst
  | .error _ => none

end Checked

def Op.dropsOldest : Op α → Bool
  | .sendDropOldest _ => true
  | _ => false

/-- The operation is defined, and leaves no more in the buffer than the capacity, which stays. -/
def Safe (c : Chan α) (op : Op α) : Prop :=
  ∃ r, Checked.perform c op = .ok r ∧
    ∀ x ∈ r, x.1.capacity = c.capacity ∧ x.1.buf.length ≤ c.capacity

/-- What `send_drop_oldest` needs: a channel that is closed, or one that can hold something. -/
def MayDrop (c : Chan α) (op : Op α) : Prop :=
  op.dropsOldest = true → c.closed = true ∨ 0 < c.capacity

instance (c : Chan α) (op : Op α) : Decidable (c.MayDrop op) :=
  inferInstanceAs (Decidable (_ → _))

namespace Checked

/-- `send_drop_oldest` takes a channel at its capacity for one with something to evict. -/
theorem sendDropOldest_eq (c : Chan α) (v : α) : sendDropOldest c v =
    if c.closed = false ∧ c.isFull = true ∧ c.buf = [] then .error .popFront
    else .ok (c.sendDropOldest v) := by
  unfold sendDropOldest Chan.sendDropOldest
  cases hc : c.closed with
  | true => rfl
  | false =>
      cases hfull : c.isFull with
      | false => rfl
      | true =>
          cases hbuf : c.buf with
          | nil => simp [popFront, hbuf]
          | cons x rest => simp only [popFront, Chan.popFront, hbuf]; rfl

theorem recv_eq (c : Chan α) : recv c = .ok c.recv := by
  unfold recv Chan.recv
  cases hbuf : c.buf with
  | nil => cases hc : c.closed <;> simp
  | cons x rest => simp only [front, popFront, Chan.popFront, hbuf]; rfl

theorem tryRecv_eq (c : Chan α) : tryRecv c = .ok c.tryRecv := by
  unfold tryRecv Chan.tryRecv
  cases hbuf : c.buf with
  | nil => rfl
  | cons x rest => simp only [front, popFront, Chan.popFront, hbuf]; rfl

theorem perform_eq (c : Chan α) (op : Op α) : perform c op =
    if op.dropsOldest = true ∧ c.closed = false ∧ c.isFull = true ∧ c.buf = [] then
      .error .popFront
    else .ok (c.perform op) := by
  cases op with
  | sendDropOldest v =>
      rw [perform, sendDropOldest_eq]
      have hdrops : (Op.sendDropOldest v).dropsOldest = true := rfl
      simp only [hdrops, true_and]
      split_ifs <;> rfl
  | recv =>
      rw [perform, recv_eq]
      rfl
  | tryRecv =>
      rw [perform, tryRecv_eq]
      rfl
  | _ => rfl

theorem step_some {c c' : Chan α} {op : Op α} (h : step c op = some c') :
    ∃ answer, c.perform op = some (c', answer) := by
  rw [step, perform_eq] at h
  split_ifs at h
  obtain ⟨⟨c', answer⟩, hperform, rfl⟩ := Option.map_eq_some_iff.mp h
  exact ⟨answer, hperform⟩

theorem capacity_step {c c' : Chan α} {op : Op α} (h : step c op = some c') :
    c'.capacity = c.capacity := by
  obtain ⟨answer, hperform⟩ := step_some h
  exact (perform_effect hperform).capacity

end Checked

theorem dropsOldest_of_evicts {op : Op α} {answer : Answer α}
    (h : Call.evicts ⟨op, answer⟩ = true) : op.dropsOldest = true := by
  cases op with
  | sendDropOldest v => rfl
  | _ => cases h

theorem open_of_evicts {c c' : Chan α} {call : Call α} (h : Effect c call c')
    (hev : call.evicts = true) : c.closed = false := by
  cases h with
  | evict v _ _ _ hopen => exact hopen
  | _ => simp_all

/-- On a channel within its capacity an operation is safe exactly if it drops nothing, or may. -/
theorem safe_iff_mayDrop {c : Chan α} (hc : c.buf.length ≤ c.capacity) (op : Op α) :
    c.Safe op ↔ c.MayDrop op := by
  constructor
  · rintro ⟨r, hr, -⟩ hdrops
    by_contra hno
    obtain ⟨hopen, hzero⟩ := not_or.mp hno
    have hempty : c.buf = [] := List.eq_nil_of_length_eq_zero (by omega)
    have hfull : c.isFull = true := c.isFull_iff.mpr (by omega)
    rw [Checked.perform_eq, if_pos ⟨hdrops, by simpa using hopen, hfull, hempty⟩] at hr
    cases hr
  · intro hmay
    refine ⟨c.perform op, ?_, ?_⟩
    · rw [Checked.perform_eq, if_neg]
      rintro ⟨hdrops, hopen, hfull, hempty⟩
      have hpos := (hmay hdrops).resolve_left (by simp [hopen])
      rw [c.isFull_iff, hempty] at hfull
      exact absurd hfull (Nat.not_le.mpr hpos)
    · rintro ⟨c', answer⟩ hperform
      have heffect := perform_effect hperform
      have hroom : Call.evicts ⟨op, answer⟩ = true → 1 ≤ c.capacity := by
        intro hev
        exact (hmay (dropsOldest_of_evicts hev)).resolve_left (by simp [open_of_evicts heffect hev])
      have hcap := heffect.capacity
      exact ⟨hcap, hcap ▸ heffect.bounded hroom hc⟩

theorem Safe.within {c c' : Chan α} {op : Op α} (h : c.Safe op)
    (hstep : Checked.step c op = some c') :
    c'.capacity = c.capacity ∧ c'.buf.length ≤ c.capacity := by
  obtain ⟨r, hr, hall⟩ := h
  rw [Checked.step, hr] at hstep
  obtain ⟨x, hx, rfl⟩ := Option.map_eq_some_iff.mp hstep
  exact hall x hx

/-- With room for one value at least no use of `send_drop_oldest` is out of place. -/
theorem guarded_mayDrop {n : Nat} (hn : 0 < n) (ops : List (Op α)) :
    Guarded Checked.step MayDrop { capacity := n } ops := by
  refine guarded_of_invariant (I := fun c => 0 < c.capacity) (A := fun _ => True) ?_ ?_
    (fun _ _ => trivial) hn
  · intro c op c' hc _ hstep
    exact (Checked.capacity_step hstep).symm ▸ hc
  · exact fun c op hc _ => .inr hc

/-- In any use of a channel of any capacity, `front` and `pop_front` are applied to a buffer
with something in it and no more is buffered than the capacity, if and only if each
`send_drop_oldest` comes to a closed channel or to one of capacity at least one; so always when
the capacity is not zero. -/
theorem safe_iff (n : Nat) (ops : List (Op α)) :
    (Guarded Checked.step Safe { capacity := n } ops ↔
      Guarded Checked.step MayDrop { capacity := n } ops) ∧
    (0 < n → Guarded Checked.step MayDrop { capacity := n } ops) := by
  refine ⟨?_, fun hn => guarded_mayDrop hn ops⟩
  have kept : ∀ (c : Chan α) op c', c.buf.length ≤ c.capacity → c.Safe op →
      Checked.step c op = some c' → c'.buf.length ≤ c'.capacity := by
    intro c op c' _ hsafe hstep
    obtain ⟨hcap, hlen⟩ := hsafe.within hstep
    exact hcap ▸ hlen
  have start : ({ capacity := n } : Chan α).buf.length ≤ n := Nat.zero_le n
  constructor
  · intro h
    exact h.imp_kept (I := fun c => c.buf.length ≤ c.capacity) kept
      (fun c op hc => (safe_iff_mayDrop hc op).mp) start
  · intro h
    exact h.imp_kept (I := fun c => c.buf.length ≤ c.capacity)
      (fun c op c' hc hmay => kept c op c' hc ((safe_iff_mayDrop hc op).mpr hmay))
      (fun c op hc => (safe_iff_mayDrop hc op).mpr) start

/-- An eviction from a channel that can hold nothing. -/
theorem not_safe : ¬ ∀ (n : Nat) (ops : List (Op Nat)),
    Guarded Checked.step Safe { capacity := n } ops := by
  intro h
  obtain ⟨r, hr, -⟩ := (h 0 [.sendDropOldest 1]).1
  cases hr

end Chan
end CppLin
