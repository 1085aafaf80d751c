import CppLin.Virtual.Session

/-!
The bus under concurrent use: any number of threads calling it and any consumers of
its channels, interleaved at the shared mutex, at each turn of the broadcast loop and
at each operation on a channel. What runs under the exclusive lock never waits and
is one step.
-/
namespace CppLin.Virt
open Bytes Relay Run

def ErrTimeout : ErrorCode := .relay .timeout

/-- The bodies that run under the exclusive lock; `closeDrained` is the `close` inside
`close_with_drain`, with whether the deadline had passed. -/
inductive Exclusive where
  | publish (id : UInt8) (data : Payload)
  | publishClassic (id : UInt8) (data : Payload)
  | setSchedule (entries : List ScheduleEntry)
  | subscribe (filters : List Filter) (opts : List SubscriberOption)
  | close
  | closeDrained (timedOut : Bool)

def Exclusive.body (b : Bus) : Exclusive → Bus × Outcome
  | .publish id data => let (b, e) := b.publish id data; (b, .code e)
  | .publishClassic id data => let (b, e) := b.publishClassic id data; (b, .code e)
  | .setSchedule entries => let (b, e) := b.setSchedule entries; (b, .code e)
  | .subscribe filters opts => let (b, r) := b.subscribe filters opts; (b, .channel r)
  | .close => let (b, e) := b.close; (b, .code e)
  | .closeDrained timedOut =>
      let (b, e) := b.close
      (b, .code (e.or (if timedOut then some ErrTimeout else none)))

inductive Section where
  | exclusive (c : Exclusive)
  | sendHeader (id : UInt8)
  | allDrained

/-- The identifier is checked before the lock is taken. -/
def Section.rejects : Section → Option Outcome
  | .exclusive (.publish id _) | .exclusive (.publishClassic id _) =>
      if id > kLINMaxID then some (.code (some (.lin .invalidFrame))) else none
  | .sendHeader id =>
      if id > kLINMaxID then some (.frame (.error (.lin .invalidFrame))) else none
  | _ => none

/-- `all_drained`, and `close` from within `close_with_drain`, are not called from outside. -/
def Section.callable : Section → Bool
  | .allDrained => false
  | .exclusive (.closeDrained _) => false
  | _ => true

/-- Where a thread is. `draining` is the head of the loop of `close_with_drain`;
`broadcasting` and `scanning` are the loops over the subscribers under the shared lock. -/
inductive Pc where
  | idle
  | draining
  | waiting (c : Section)
  | entered (c : Section)
  | broadcasting (n : Nat) (f : Frame) (todo : List Subscription)
  | scanning (todo : List Subscription)

/-- What has happened, for stating properties; emitted frames are numbered. -/
inductive Event where
  | emitted (n : Nat) (f : Frame)
  | enqueued (n : Nat) (ch : Nat) (f : Frame)
  | ended (n : Nat)
  | returned (t : Nat) (out : Outcome)

structure Sys where
  bus : Bus := .create
  readers : Finset Nat := ∅
  writer : Option Nat := none
  pc : Nat → Pc := fun _ => .idle
  emissions : Nat := 0
  received : Nat → List Frame := fun _ => []
  log : List Event := []

inductive Action where
  | call (t : Nat) (c : Section)
  | callDrain (t : Nat)
  | lock (t : Nat)
  | step (t : Nat)
  | poll (t : Nat)
  | timeUp (t : Nat)
  | recv (ch : Nat)
  | tryRecv (ch : Nat)
  | closeChan (ch : Nat)

def Action.byConsumer : Action → Bool
  | .recv _ | .tryRecv _ | .closeChan _ => true
  | _ => false

/-- The thread that moves, unless it is a consumer. -/
def Action.thread : Action → Option Nat
  | .call t _ | .callDrain t | .lock t | .step t | .poll t | .timeUp t => some t
  | _ => none

/-- The delivery places the frame in the subscriber's channel. -/
def Bus.takes (f : Frame) (b : Bus) (s : Subscription) : Bool :=
  matchesAny s.filters f && !(b.chans s.ch).closed &&
    (s.backPressure != .dropNewest || !(b.chans s.ch).isFull)

namespace Sys

def goto (s : Sys) (t : Nat) (p : Pc) : Sys := { s with pc := Function.update s.pc t p }

def record (s : Sys) (es : List Event) : Sys := { s with log := s.log ++ es }

def ret (s : Sys) (t : Nat) (out : Outcome) : Sys := (s.goto t .idle).record [.returned t out]

def unlockShared (s : Sys) (t : Nat) : Sys := { s with readers := s.readers.erase t }

def unlock (s : Sys) : Sys := { s with writer := none }

def setBus (s : Sys) (b : Bus) : Sys := { s with bus := b }

/-- The frame has been built and counted; the loop over the subscribers begins. -/
def emit (s : Sys) (t : Nat) (b : Bus) (f : Frame) : Sys :=
  ({ s with bus := b, emissions := s.emissions + 1 }.goto t
    (.broadcasting s.emissions f b.subs)).record [.emitted s.emissions f]

section
variable (s : Sys) (t : Nat) (p : Pc) (b : Bus) (f : Frame) (es : List Event) (out : Outcome)

@[simp] theorem goto_bus : (s.goto t p).bus = s.bus := rfl
@[simp] theorem record_bus : (s.record es).bus = s.bus := rfl
@[simp] theorem ret_bus : (s.ret t out).bus = s.bus := rfl
@[simp] theorem unlockShared_bus : (s.unlockShared t).bus = s.bus := rfl
@[simp] theorem unlock_bus : s.unlock.bus = s.bus := rfl
@[simp] theorem setBus_bus : (s.setBus b).bus = b := rfl
@[simp] theorem emit_bus : (s.emit t b f).bus = b := rfl

end

def call (s : Sys) (t : Nat) (c : Section) : Option Sys :=
  match s.pc t with
  | .idle =>
      if c.callable = false then none
      else
        match c.rejects with
        | some out => some ((s.setBus s.bus.countError).ret t out)
        | none => some (s.goto t (.waiting c))
  | _ => none

def lock (s : Sys) (t : Nat) : Option Sys :=
  match s.pc t with
  | .waiting (.exclusive c) =>
      if s.writer = none ∧ s.readers = ∅ then
        some ({ s with writer := some t }.goto t (.entered (.exclusive c)))
      else none
  | .waiting c =>
      if s.writer = none then some ({ s with readers := insert t s.readers }.goto t (.entered c))
      else none
  | _ => none

/-- The next step of a thread that holds the lock. -/
def advance (s : Sys) (t : Nat) : Option Sys :=
  match s.pc t with
  | .entered (.exclusive c) =>
      let (b, out) := c.body s.bus
      some (((s.setBus b).unlock).ret t out)
  | .entered (.sendHeader id) =>
      match s.bus.respond id with
      | (b, .error e) => some (((s.setBus b).unlockShared t).ret t (.frame (.error e)))
      | (b, .ok f) => some (s.emit t b f)
  | .entered .allDrained => some (s.goto t (.scanning s.bus.subs))
  | .broadcasting n f [] => some (((s.unlockShared t).record [.ended n]).ret t (.frame (.ok f)))
  | .broadcasting n f (sub :: todo) =>
      (Bus.deliver f s.bus sub).map fun b =>
        ((s.setBus b).goto t (.broadcasting n f todo)).record
          (if s.bus.takes f sub then [.enqueued n sub.ch f] else [])
  | .scanning [] =>
      some ((s.unlockShared t).goto t (.waiting (.exclusive (.closeDrained false))))
  | .scanning (sub :: todo) =>
      if (s.bus.chans sub.ch).size > 0 then some ((s.unlockShared t).goto t .draining)
      else some (s.goto t (.scanning todo))
  | _ => none

/-- A consumer's side of a channel. -/
def take (s : Sys) (ch : Nat) (c : Chan Frame) (f : Option Frame) : Sys :=
  { s with
    bus := s.bus.setChan ch c
    received := Function.update s.received ch (s.received ch ++ f.toList) }

def step (s : Sys) : Action → Option Sys
  | .call t c => s.call t c
  | .callDrain t => match s.pc t with
    | .idle => some (s.goto t .draining)
    | _ => none
  | .lock t => s.lock t
  | .step t => s.advance t
  | .poll t => match s.pc t with
    | .draining => some (s.goto t (.waiting .allDrained))
    | _ => none
  | .timeUp t => match s.pc t with
    | .draining => some (s.goto t (.waiting (.exclusive (.closeDrained true))))
    | _ => none
  | .recv ch => (s.bus.chans ch).recv.map fun (c, f) => s.take ch c f
  | .tryRecv ch => let (c, f) := (s.bus.chans ch).tryRecv; some (s.take ch c f)
  | .closeChan ch => some (s.setBus (s.bus.closeChan ch))

/-- The moves of the system, one by one. -/
inductive Moves (s : Sys) : Action → Sys → Prop
  | reject {t c out} (hpc : s.pc t = .idle) (hr : c.rejects = some out) :
      Moves s (.call t c) ((s.setBus s.bus.countError).ret t out)
  | call {t c} (hpc : s.pc t = .idle) (hr : c.rejects = none) (hc : c.callable = true) :
      Moves s (.call t c) (s.goto t (.waiting c))
  | callDrain {t} (hpc : s.pc t = .idle) : Moves s (.callDrain t) (s.goto t .draining)
  | lock {t c} (hpc : s.pc t = .waiting (.exclusive c)) (hw : s.writer = none)
      (hr : s.readers = ∅) :
      Moves s (.lock t) ({ s with writer := some t }.goto t (.entered (.exclusive c)))
  | lockShared {t c} (hpc : s.pc t = .waiting c) (hc : ∀ e, c ≠ .exclusive e)
      (hw : s.writer = none) :
      Moves s (.lock t) ({ s with readers := insert t s.readers }.goto t (.entered c))
  | exclusive {t c b out} (hpc : s.pc t = .entered (.exclusive c)) (hb : c.body s.bus = (b, out)) :
      Moves s (.step t) (((s.setBus b).unlock).ret t out)
  | respondError {t id b e} (hpc : s.pc t = .entered (.sendHeader id))
      (hb : s.bus.respond id = (b, .error e)) :
      Moves s (.step t) (((s.setBus b).unlockShared t).ret t (.frame (.error e)))
  | emit {t id b f} (hpc : s.pc t = .entered (.sendHeader id))
      (hb : s.bus.respond id = (b, .ok f)) : Moves s (.step t) (s.emit t b f)
  | deliver {t n f sub todo b} (hpc : s.pc t = .broadcasting n f (sub :: todo))
      (hb : Bus.deliver f s.bus sub = some b) :
      Moves s (.step t) (((s.setBus b).goto t (.broadcasting n f todo)).record
        (if s.bus.takes f sub then [.enqueued n sub.ch f] else []))
  | ended {t n f} (hpc : s.pc t = .broadcasting n f []) :
      Moves s (.step t) (((s.unlockShared t).record [.ended n]).ret t (.frame (.ok f)))
  | scan {t} (hpc : s.pc t = .entered .allDrained) :
      Moves s (.step t) (s.goto t (.scanning s.bus.subs))
  | scanEmpty {t sub todo} (hpc : s.pc t = .scanning (sub :: todo)) :
      Moves s (.step t) (s.goto t (.scanning todo))
  | scanFound {t sub todo} (hpc : s.pc t = .scanning (sub :: todo)) :
      Moves s (.step t) ((s.unlockShared t).goto t .draining)
  | scanDone {t} (hpc : s.pc t = .scanning []) :
      Moves s (.step t) ((s.unlockShared t).goto t (.waiting (.exclusive (.closeDrained false))))
  | poll {t} (hpc : s.pc t = .draining) : Moves s (.poll t) (s.goto t (.waiting .allDrained))
  | timeUp {t} (hpc : s.pc t = .draining) :
      Moves s (.timeUp t) (s.goto t (.waiting (.exclusive (.closeDrained true))))
  | recv {ch c f} (hr : (s.bus.chans ch).recv = some (c, f)) : Moves s (.recv ch) (s.take ch c f)
  | tryRecv {ch c f} (hr : (s.bus.chans ch).tryRecv = (c, f)) :
      Moves s (.tryRecv ch) (s.take ch c f)
  | closeChan {ch} : Moves s (.closeChan ch) (s.setBus (s.bus.closeChan ch))

theorem moves_of_advance {s s' : Sys} {t : Nat} (h : s.advance t = some s') :
    Moves s (.step t) s' := by
  unfold advance at h
  split at h
  case h_1 c hpc =>
    obtain rfl := Option.some.inj h
    exact .exclusive hpc rfl
  case h_2 id hpc =>
    split at h <;> obtain rfl := Option.some.inj h
    case h_1 hb => exact .respondError hpc hb
    case h_2 hb => exact .emit hpc hb
  case h_3 hpc =>
    obtain rfl := Option.some.inj h
    exact .scan hpc
  case h_4 n f hpc =>
    obtain rfl := Option.some.inj h
    exact .ended hpc
  case h_5 n f sub todo hpc =>
    obtain ⟨b, hb, rfl⟩ := Option.map_eq_some_iff.mp h
    exact .deliver hpc hb
  case h_6 hpc =>
    obtain rfl := Option.some.inj h
    exact .scanDone hpc
  case h_7 sub todo hpc =>
    split_ifs at h <;> obtain rfl := Option.some.inj h
    · exact .scanFound hpc
    · exact .scanEmpty hpc
  case h_8 => cases h

theorem moves_of_step {s s' : Sys} {a : Action} (h : s.step a = some s') : Moves s a s' := by
  cases a with
  | call t c =>
      change s.call t c = some s' at h
      unfold Sys.call at h
      split at h
      case h_1 hpc =>
        split_ifs at h with hc
        split at h <;> obtain rfl := Option.some.inj h
        case h_1 hr => exact .reject hpc hr
        case h_2 hr => exact .call hpc hr (by simpa using hc)
      case h_2 => cases h
  | callDrain t =>
      simp only [step] at h
      split at h
      case h_1 hpc =>
        obtain rfl := Option.some.inj h
        exact .callDrain hpc
      case h_2 => cases h
  | lock t =>
      change s.lock t = some s' at h
      unfold Sys.lock at h
      split at h
      case h_1 c hpc =>
        split_ifs at h with hl
        obtain rfl := Option.some.inj h
        exact .lock hpc hl.1 hl.2
      case h_2 c hc hpc =>
        split_ifs at h with hl
        obtain rfl := Option.some.inj h
        exact .lockShared hpc hc hl
      case h_3 => cases h
  | step t => exact moves_of_advance h
  | poll t =>
      simp only [step] at h
      split at h
      case h_1 hpc =>
        obtain rfl := Option.some.inj h
        exact .poll hpc
      case h_2 => cases h
  | timeUp t =>
      simp only [step] at h
      split at h
      case h_1 hpc =>
        obtain rfl := Option.some.inj h
        exact .timeUp hpc
      case h_2 => cases h
  | recv ch =>
      obtain ⟨⟨c, f⟩, hr, rfl⟩ := Option.map_eq_some_iff.mp h
      exact .recv hr
  | tryRecv ch =>
      obtain rfl := Option.some.inj h
      exact .tryRecv rfl
  | closeChan ch =>
      obtain rfl := Option.some.inj h
      exact .closeChan

end Sys

def Pc.shares : Pc → Bool
  | .entered (.sendHeader _) => true
  | .entered .allDrained => true
  | .broadcasting _ _ _ => true
  | .scanning _ => true
  | _ => false

def Pc.excludes : Pc → Bool
  | .entered (.exclusive _) => true
  | _ => false

theorem Pc.excludes_of_shares {p : Pc} (h : p.shares = true) : p.excludes = false := by
  unfold Pc.shares at h
  split at h <;> first | rfl | cases h

namespace Sys

/-- The lock is held by the threads that are inside it: any number of readers or one
writer. -/
structure Locked (s : Sys) : Prop where
  readers : ∀ t, t ∈ s.readers ↔ (s.pc t).shares = true
  writer : ∀ t, s.writer = some t ↔ (s.pc t).excludes = true
  apart : s.writer = none ∨ s.readers = ∅

section
variable {s s' : Sys} {t : Nat} {p : Pc}

@[simp] theorem goto_pc_same : (s.goto t p).pc t = p := by
  simp [goto]

theorem forall_pc_update {P : Pc → Prop} (hs : ∀ u, P (s.pc u)) (hp : P p) (u : Nat) :
    P (Function.update s.pc t p u) := by
  by_cases h : u = t
  · subst h
    rwa [Function.update_self]
  · rw [Function.update_of_ne h]
    exact hs u

theorem Locked.keep (hs : s.Locked) (hr : s'.readers = s.readers) (hw : s'.writer = s.writer)
    (hpc : s'.pc = Function.update s.pc t p) (hshares : p.shares = (s.pc t).shares)
    (hexcludes : p.excludes = (s.pc t).excludes) : s'.Locked := by
  obtain ⟨hreaders, hwriter, hapart⟩ := hs
  refine ⟨?_, ?_, by rw [hr, hw]; exact hapart⟩
  · intro u
    rw [hr, hpc, hreaders u]
    by_cases h : u = t
    · subst h
      rw [Function.update_self, hshares]
    · rw [Function.update_of_ne h]
  · intro u
    rw [hw, hpc, hwriter u]
    by_cases h : u = t
    · subst h
      rw [Function.update_self, hexcludes]
    · rw [Function.update_of_ne h]

theorem Locked.leaveShared (hs : s.Locked) (hr : s'.readers = s.readers.erase t)
    (hw : s'.writer = s.writer) (hpc : s'.pc = Function.update s.pc t p)
    (ht : (s.pc t).shares = true) (hshares : p.shares = false) (hexcludes : p.excludes = false) :
    s'.Locked := by
  obtain ⟨hreaders, hwriter, hapart⟩ := hs
  refine ⟨?_, ?_, ?_⟩
  · intro u
    rw [hr, hpc, Finset.mem_erase, hreaders u]
    by_cases h : u = t
    · subst h
      simp [hshares]
    · rw [Function.update_of_ne h]
      exact and_iff_right h
  · intro u
    rw [hw, hpc, hwriter u]
    by_cases h : u = t
    · subst h
      rw [Function.update_self, hexcludes, Pc.excludes_of_shares ht]
    · rw [Function.update_of_ne h]
  · rw [hw, hr]
    exact hapart.imp_right fun he => by rw [he, Finset.erase_empty]

theorem Locked.leave (hs : s.Locked) (hr : s'.readers = s.readers) (hw : s'.writer = none)
    (hpc : s'.pc = Function.update s.pc t p) (ht : (s.pc t).excludes = true)
    (hshares : p.shares = false) (hexcludes : p.excludes = false) : s'.Locked := by
  obtain ⟨hreaders, hwriter, hapart⟩ := hs
  have hhere : s.writer = some t := (hwriter t).mpr ht
  refine ⟨?_, ?_, .inl hw⟩
  · intro u
    rw [hr, hpc, hreaders u]
    by_cases h : u = t
    · subst h
      have hout : (s.pc u).shares ≠ true := fun hu => by
        rw [Pc.excludes_of_shares hu] at ht
        cases ht
      simp [hshares, hout]
    · rw [Function.update_of_ne h]
  · intro u
    rw [hw, hpc]
    by_cases h : u = t
    · subst h
      simp [hexcludes]
    · rw [Function.update_of_ne h, ← hwriter u, hhere]
      simp [Ne.symm h]

theorem Locked.enterShared (hs : s.Locked) (hfree : s.writer = none)
    (hr : s'.readers = insert t s.readers) (hw : s'.writer = s.writer)
    (hpc : s'.pc = Function.update s.pc t p) (hshares : p.shares = true) : s'.Locked := by
  obtain ⟨hreaders, hwriter, -⟩ := hs
  refine ⟨?_, ?_, .inl (hw.trans hfree)⟩
  · intro u
    rw [hr, hpc, Finset.mem_insert, hreaders u]
    by_cases h : u = t
    · subst h
      simp [hshares]
    · rw [Function.update_of_ne h]
      exact or_iff_right h
  · intro u
    rw [hw, hpc, hwriter u]
    by_cases h : u = t
    · subst h
      rw [Function.update_self, Pc.excludes_of_shares hshares, ← hwriter u, hfree]
      simp
    · rw [Function.update_of_ne h]

theorem Locked.enter (hs : s.Locked) (hfree : s.writer = none) (hnone : s.readers = ∅)
    (hr : s'.readers = s.readers) (hw : s'.writer = some t)
    (hpc : s'.pc = Function.update s.pc t p) (hexcludes : p.excludes = true) : s'.Locked := by
  obtain ⟨hreaders, hwriter, -⟩ := hs
  have hshares : p.shares = false := by
    cases hp : p.shares with
    | false => rfl
    | true => rw [Pc.excludes_of_shares hp] at hexcludes; cases hexcludes
  refine ⟨?_, ?_, .inr (hr.trans hnone)⟩
  · intro u
    rw [hr, hpc]
    by_cases h : u = t
    · subst h
      simp [hshares, hnone]
    · rw [Function.update_of_ne h, hreaders u]
  · intro u
    rw [hw, hpc, Option.some.injEq]
    by_cases h : u = t
    · subst h
      simp [hexcludes]
    · rw [Function.update_of_ne h, ← hwriter u, hfree]
      simp [Ne.symm h]

end

theorem pc_of_other {s s' : Sys} {a : Action} (h : Moves s a s') {u : Nat}
    (hu : a.thread ≠ some u) : s'.pc u = s.pc u := by
  cases h with
  | recv hr => rfl
  | tryRecv hr => rfl
  | closeChan => rfl
  | _ => exact Function.update_of_ne (fun he => hu (congrArg some he.symm)) _ _

theorem moves_of_broadcasting {s s' : Sys} {a : Action} (h : Moves s a s') {t : Nat}
    (ht : a.thread = some t) {n : Nat} {f : Frame} {sub : Subscription} {todo : List Subscription}
    (hpc : s.pc t = .broadcasting n f (sub :: todo)) : ∃ b, Bus.deliver f s.bus sub = some b := by
  cases h <;> simp_all [Action.thread]

theorem readers_of_lock {s s' : Sys} {a : Action} (h : Moves s a s') {t : Nat}
    (ht : a.thread = some t) {c : Exclusive} (hpc : s.pc t = .waiting (.exclusive c)) :
    s.readers = ∅ := by
  cases h with
  | lockShared hpc' hc hw =>
      obtain rfl := Option.some.inj ht
      rw [hpc] at hpc'
      exact absurd (Pc.waiting.inj hpc').symm (hc c)
  | _ => simp_all [Action.thread]

theorem Locked.init : Locked {} := ⟨by simp [Pc.shares], by simp [Pc.excludes], .inl rfl⟩

theorem Section.shares {c : Section} (h : ∀ e, c ≠ .exclusive e) : (Pc.entered c).shares = true := by
  cases c with
  | exclusive e => exact absurd rfl (h e)
  | sendHeader id => rfl
  | allDrained => rfl

theorem Locked.step {s s' : Sys} {a : Action} (hs : s.Locked) (h : Moves s a s') : s'.Locked := by
  cases h with
  | reject hpc hr => exact hs.keep rfl rfl rfl (by rw [hpc]) (by rw [hpc])
  | call hpc hr hc => exact hs.keep rfl rfl rfl (by rw [hpc]; rfl) (by rw [hpc]; rfl)
  | callDrain hpc => exact hs.keep rfl rfl rfl (by rw [hpc]; rfl) (by rw [hpc]; rfl)
  | lock hpc hw hr => exact hs.enter hw hr rfl rfl rfl rfl
  | lockShared hpc hc hw => exact hs.enterShared hw rfl rfl rfl (Section.shares hc)
  | exclusive hpc hb => exact hs.leave rfl rfl rfl (by rw [hpc]; rfl) rfl rfl
  | respondError hpc hb => exact hs.leaveShared rfl rfl rfl (by rw [hpc]; rfl) rfl rfl
  | emit hpc hb => exact hs.keep rfl rfl rfl (by rw [hpc]; rfl) (by rw [hpc]; rfl)
  | deliver hpc hb => exact hs.keep rfl rfl rfl (by rw [hpc]; rfl) (by rw [hpc]; rfl)
  | ended hpc => exact hs.leaveShared rfl rfl rfl (by rw [hpc]; rfl) rfl rfl
  | scan hpc => exact hs.keep rfl rfl rfl (by rw [hpc]; rfl) (by rw [hpc]; rfl)
  | scanEmpty hpc => exact hs.keep rfl rfl rfl (by rw [hpc]; rfl) (by rw [hpc]; rfl)
  | scanFound hpc => exact hs.leaveShared rfl rfl rfl (by rw [hpc]; rfl) rfl rfl
  | scanDone hpc => exact hs.leaveShared rfl rfl rfl (by rw [hpc]; rfl) rfl rfl
  | poll hpc => exact hs.keep rfl rfl rfl (by rw [hpc]; rfl) (by rw [hpc]; rfl)
  | timeUp hpc => exact hs.keep rfl rfl rfl (by rw [hpc]; rfl) (by rw [hpc]; rfl)
  | recv hr => exact ⟨hs.readers, hs.writer, hs.apart⟩
  | tryRecv hr => exact ⟨hs.readers, hs.writer, hs.apart⟩
  | closeChan => exact ⟨hs.readers, hs.writer, hs.apart⟩

theorem locked_run {as : List Action} {s : Sys} (h : run Sys.step {} as = some s) : s.Locked :=
  invariant_run (I := Sys.Locked) (fun _ _ _ hs hstep => hs.step (moves_of_step hstep)) Locked.init h

section
variable {s : Sys} (hs : s.Locked) {t : Nat}
include hs

theorem Locked.readers_empty (ht : (s.pc t).excludes = true) : s.readers = ∅ := by
  rcases hs.apart with hw | hr
  · rw [(hs.writer t).mpr ht] at hw
    cases hw
  · exact hr

theorem Locked.not_excludes {u : Nat} (ht : (s.pc t).shares = true) : (s.pc u).excludes = false := by
  rw [Bool.eq_false_iff]
  intro hu
  have hmem := (hs.readers t).mpr ht
  rw [hs.readers_empty hu] at hmem
  exact absurd hmem (Finset.notMem_empty t)

end

end Sys

/-- The subscribers after an exclusive body: old ones, or the one it makes. -/
theorem Exclusive.body_subs {b b' : Bus} {c : Exclusive} {out : Outcome} (h : c.body b = (b', out))
    {sub : Subscription} (hsub : sub ∈ b'.subs) :
    sub ∈ b.subs ∨ ∃ filters opts, c = .subscribe filters opts ∧
      sub = ⟨filters, b.handles, (applyOptions opts).backPressure⟩ := by
  have published : ∀ id data ct, sub ∈ (b.doPublish id data ct).1.subs → sub ∈ b.subs := by
    intro id data ct hmem
    cases hp : b.doPublish id data ct with
    | mk m e =>
        rw [hp] at hmem
        cases e with
        | none =>
            obtain ⟨-, -, rfl⟩ := Bus.doPublish_ok hp
            exact hmem
        | some e =>
            obtain rfl := Bus.doPublish_error hp
            exact hmem
  have closed : sub ∈ b.close.1.subs → sub ∈ b.subs := by
    intro hmem
    unfold Bus.close at hmem
    split_ifs at hmem
    · exact hmem
    · exact absurd hmem List.not_mem_nil
  obtain rfl := congrArg Prod.fst h
  cases c with
  | publish id data => exact .inl (published id data .enhanced hsub)
  | publishClassic id data => exact .inl (published id data .classic hsub)
  | setSchedule entries =>
      simp only [Exclusive.body, Bus.setSchedule] at hsub
      split_ifs at hsub <;> exact .inl hsub
  | subscribe filters opts =>
      simp only [Exclusive.body, Bus.subscribe] at hsub
      split_ifs at hsub
      · exact .inl hsub
      · rcases List.mem_append.mp hsub with hsub | hsub
        · exact .inl hsub
        · exact .inr ⟨filters, opts, rfl, List.mem_singleton.mp hsub⟩
  | close => exact .inl (closed hsub)
  | closeDrained timedOut => exact .inl (closed hsub)

theorem Exclusive.body_buf {b b' : Bus} {c : Exclusive} {out : Outcome} (h : c.body b = (b', out))
    {ch : Nat} (hch : ch < b.handles) : (b'.chans ch).buf = (b.chans ch).buf := by
  obtain rfl := congrArg Prod.fst h
  cases c with
  | publish id data => exact congrArg Chan.buf (congrFun (b.doPublish_chans id data .enhanced) ch)
  | publishClassic id data =>
      exact congrArg Chan.buf (congrFun (b.doPublish_chans id data .classic) ch)
  | setSchedule entries =>
      simp only [Exclusive.body, Bus.setSchedule]
      split_ifs <;> rfl
  | subscribe filters opts =>
      simp only [Exclusive.body, Bus.subscribe]
      split_ifs
      · rfl
      · simp only [Function.update_of_ne hch.ne]
  | close => exact b.close_buf ch
  | closeDrained timedOut => exact b.close_buf ch

theorem Bus.WellFormed.body {b b' : Bus} {c : Exclusive} {out : Outcome} (hb : b.WellFormed)
    (h : c.body b = (b', out)) : b'.WellFormed := by
  obtain rfl := congrArg Prod.fst h
  cases c with
  | publish id data => exact hb.doPublish id data .enhanced
  | publishClassic id data => exact hb.doPublish id data .classic
  | setSchedule entries => exact hb.setSchedule entries
  | subscribe filters opts => exact hb.subscribe filters opts
  | close => exact hb.close
  | closeDrained timedOut => exact hb.close

/-- What becomes of a channel in a move that is neither a consumer's nor exclusive:
nothing, or a broadcast offers it a frame. -/
theorem Sys.chan_step {s s' : Sys} {a : Action} (h : Moves s a s') (ch : Nat) :
    s'.bus.chans ch = s.bus.chans ch ∨ a.byConsumer = true ∨
      (∃ t, (s.pc t).excludes = true) ∨
      ∃ policy f, (s.bus.chans ch).offer policy f = some (s'.bus.chans ch) := by
  cases h with
  | @exclusive t c b out hpc hb => exact .inr (.inr (.inl ⟨t, by rw [hpc]; rfl⟩))
  | respondError hpc hb => exact .inl (congrFun (Bus.respond_frame hb).2 ch)
  | emit hpc hb => exact .inl (congrFun (Bus.respond_frame hb).2 ch)
  | @deliver t n f sub todo b hpc hb =>
      by_cases hch : ch = sub.ch
      · subst hch
        obtain ⟨-, rfl⟩ | ⟨c, m, -, hoffer, rfl⟩ := Bus.deliver_cases hb
        · exact .inl rfl
        · refine .inr (.inr (.inr ⟨sub.backPressure, f, ?_⟩))
          rw [hoffer]
          simp [Bus.setChan]
      · exact .inl (Bus.deliver_chans_of_ne hb hch)
  | recv hr => exact .inr (.inl rfl)
  | tryRecv hr => exact .inr (.inl rfl)
  | closeChan => exact .inr (.inl rfl)
  | _ => exact .inl rfl

theorem Bus.WellFormed.same {b b' : Bus} (hb : b.WellFormed) (h : Bus.SameTables b b') :
    b'.WellFormed := hb.congr h.subs h.handles

theorem Sys.wellFormed_step {s s' : Sys} {a : Action} (hs : s.bus.WellFormed)
    (h : Moves s a s') : s'.bus.WellFormed := by
  cases h with
  | exclusive hpc hb => exact hs.body hb
  | respondError hpc hb => exact hs.same (Bus.respond_frame hb).1
  | emit hpc hb => exact hs.same (Bus.respond_frame hb).1
  | deliver hpc hb => exact hs.same (Bus.deliver_sameTables hb)
  | _ => exact hs.congr rfl rfl

theorem Sys.wellFormed_run {as : List Action} {s : Sys} (h : run Sys.step {} as = some s) :
    s.bus.WellFormed :=
  invariant_run (I := fun s => s.bus.WellFormed)
    (fun _ _ _ hs hstep => Sys.wellFormed_step hs (Sys.moves_of_step hstep))
    ⟨List.nodup_nil, by simp [Bus.create]⟩ h

/-- A broadcast in progress has a rest of the present subscribers ahead of it: while
it holds the shared lock nobody subscribes or closes. -/
def Pc.Ahead (subs : List Subscription) : Pc → Prop
  | .broadcasting _ _ todo => todo <:+ subs
  | _ => True

namespace Sys

theorem ahead_same {s s' : Sys} {t : Nat} {p : Pc} (hs : ∀ u, (s.pc u).Ahead s.bus.subs)
    (hsubs : s'.bus.subs = s.bus.subs) (hpc : s'.pc = Function.update s.pc t p)
    (hp : p.Ahead s.bus.subs) (u : Nat) : (s'.pc u).Ahead s'.bus.subs := by
  rw [hsubs, hpc]
  exact forall_pc_update hs hp u

theorem ahead_step {s s' : Sys} {a : Action} (hlock : s.Locked)
    (hs : ∀ u, (s.pc u).Ahead s.bus.subs) (h : Moves s a s') :
    ∀ u, (s'.pc u).Ahead s'.bus.subs := by
  cases h with
  | @lockShared t c hpc hc hw =>
      refine ahead_same hs rfl rfl ?_
      cases c <;> trivial
  | @exclusive t c b out hpc hb =>
      intro u
      have quiet : ∀ v, (s.pc v).shares = false := by
        intro v
        rw [Bool.eq_false_iff]
        intro hv
        have hex := hlock.not_excludes (u := t) hv
        rw [hpc] at hex
        cases hex
      have hall : ∀ v, (s.pc v).Ahead b.subs := by
        intro v
        have hv := quiet v
        cases hp : s.pc v with
        | broadcasting n f todo =>
            rw [hp] at hv
            cases hv
        | _ => trivial
      exact forall_pc_update (p := .idle) hall trivial u
  | respondError hpc hb => exact ahead_same hs (Bus.respond_frame hb).1.subs rfl trivial
  | emit hpc hb =>
      have hsubs := (Bus.respond_frame hb).1.subs
      exact ahead_same hs hsubs rfl (hsubs ▸ List.suffix_refl s.bus.subs)
  | @deliver t n f sub todo b hpc hb =>
      have ht := hs t
      rw [hpc] at ht
      exact ahead_same hs (Bus.deliver_sameTables hb).subs rfl ((List.suffix_cons sub todo).trans ht)
  | recv hr => exact hs
  | tryRecv hr => exact hs
  | closeChan => exact hs
  | _ => exact ahead_same hs rfl rfl trivial

theorem ahead_run {as : List Action} {s : Sys} (h : run Sys.step {} as = some s) (t : Nat) :
    (s.pc t).Ahead s.bus.subs := by
  have hinv : s.Locked ∧ ∀ u, (s.pc u).Ahead s.bus.subs := by
    refine invariant_run (I := fun s => s.Locked ∧ ∀ u, (s.pc u).Ahead s.bus.subs) ?_
      ⟨Locked.init, fun _ => trivial⟩ h
    rintro m a m' ⟨hlock, hm⟩ hstep
    exact ⟨hlock.step (moves_of_step hstep), ahead_step hlock hm (moves_of_step hstep)⟩
  exact hinv.2 t

end Sys

end CppLin.Virt
