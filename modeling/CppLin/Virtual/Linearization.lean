import CppLin.Virtual.Effects
import CppLin.Virtual.ResponseMap
import CppLin.Virtual.Threads

/-!
What the bus is for its callers, as one object that serves a request at a time, and the bus
under threads against it: every call takes effect at one moment between its call and its
return.
-/
namespace CppLin.Virt
open Bytes Relay Run

deriving instance DecidableEq for Outcome

inductive Request where
  | publish (id : UInt8) (data : Payload)
  | publishClassic (id : UInt8) (data : Payload)
  | setSchedule (entries : List ScheduleEntry)
  | subscribe (filters : List Filter) (opts : List SubscriberOption)
  | close
  | closeWithDrain
  | sendHeader (id : UInt8)

def Section.request : Section → Request
  | .exclusive (.publish id data) => .publish id data
  | .exclusive (.publishClassic id data) => .publishClassic id data
  | .exclusive (.setSchedule entries) => .setSchedule entries
  | .exclusive (.subscribe filters opts) => .subscribe filters opts
  | .exclusive .close => .close
  | .exclusive (.closeDrained _) => .closeWithDrain
  | .sendHeader id => .sendHeader id
  | .allDrained => .closeWithDrain

/-- The responses, the schedule, the subscriptions in force, the capacity of each channel that
was handed out, and whether it is closed. -/
structure Registry where
  responses : ResponseMap := fun _ => none
  schedule : List ScheduleEntry := []
  subs : List Subscription := []
  depths : List Nat := []
  closed : Bool := false

namespace Registry

def write (r : Registry) (id : UInt8) (data : Payload) (ct : ChecksumType) :
    Registry × Option ErrorCode :=
  if h : id ≤ kLINMaxID then
    if r.closed then (r, some ErrClosed)
    else ({ r with responses := r.responses.write ⟨⟨id, h⟩, data, ct⟩ }, none)
  else (r, some (.lin .invalidFrame))

def answer (r : Registry) (id : UInt8) : Except ErrorCode Frame :=
  if h : id ≤ kLINMaxID then
    if r.closed then .error ErrClosed
    else (r.responses ⟨id, h⟩).elim (.error (.lin .noResponse)) fun e =>
      .ok (Bus.frameOf id e.entry)
  else .error (.lin .invalidFrame)

/-- A subscriber has a channel of its own, named by how many were handed out before it. -/
def subscribe (r : Registry) (filters : List Filter) (opts : List SubscriberOption) :
    Registry × Except ErrorCode Nat :=
  if r.closed then (r, .error ErrClosed)
  else
    ({ r with
        subs := r.subs ++ [⟨filters, r.depths.length, (applyOptions opts).backPressure⟩]
        depths := r.depths ++ [((applyOptions opts).effectiveDepth kDefaultChanDepth).toNat] },
      .ok r.depths.length)

/-- Closing ends every subscription; closing again does nothing. -/
def shut (r : Registry) : Registry := if r.closed then r else { r with subs := [], closed := true }

def serve (r : Registry) : Request → Registry × Outcome
  | .publish id data => ((r.write id data .enhanced).1, .code (r.write id data .enhanced).2)
  | .publishClassic id data => ((r.write id data .classic).1, .code (r.write id data .classic).2)
  | .setSchedule entries =>
      if r.closed then (r, .code (some ErrClosed))
      else ({ r with schedule := entries }, .code none)
  | .subscribe filters opts =>
      ((r.subscribe filters opts).1, .channel (r.subscribe filters opts).2)
  | .close => (r.shut, .code none)
  | .closeWithDrain => (r.shut, .code none)
  | .sendHeader id => (r, .frame (r.answer id))

/-- A request with its outcome; only `close_with_drain` has a choice, the timeout. -/
def step (r : Registry) (x : Request × Outcome) : Option Registry :=
  match x.1 with
  | .closeWithDrain =>
      if x.2 = .code none ∨ x.2 = .code (some ErrTimeout) then some (r.serve x.1).1 else none
  | _ => if x.2 = (r.serve x.1).2 then some (r.serve x.1).1 else none

/-- The bus holds what the registry does. -/
structure Mirrors (r : Registry) (b : Bus) : Prop where
  responses : Refines b r.responses
  schedule : b.schedule = r.schedule
  subs : b.subs = r.subs
  channels : b.handles = r.depths.length
  depths : ∀ ch depth, r.depths[ch]? = some depth → (b.chans ch).capacity = depth
  closed : b.closed = r.closed

end Registry

/-- The request that takes effect at a step of the system, with the thread and the outcome. -/
def Sys.commit (s : Sys) : Action → List (Nat × Request × Outcome)
  | .call t c =>
      match s.pc t, c.rejects with
      | .idle, some out => [(t, c.request, out)]
      | _, _ => []
  | .step t =>
      match s.pc t with
      | .entered (.exclusive c) => [(t, (Section.exclusive c).request, (c.body s.bus).2)]
      | .entered (.sendHeader id) => [(t, .sendHeader id, .frame (s.bus.respond id).2)]
      | _ => []
  | _ => []

/-- The requests that the actions call for. -/
def Action.request : Action → Option (Nat × Request)
  | .call t c => some (t, c.request)
  | .callDrain t => some (t, .closeWithDrain)
  | _ => none

/-- What a thread has asked for and not got yet. -/
def Pc.wants : Pc → List Request
  | .draining => [.closeWithDrain]
  | .waiting c => [c.request]
  | .entered c => [c.request]
  | .scanning _ => [.closeWithDrain]
  | _ => []

/-- What a thread has got and not returned yet. -/
def Pc.holds : Pc → List Outcome
  | .broadcasting _ f _ => [.frame (.ok f)]
  | _ => []

def requests (t : Nat) (as : List Action) : List Request :=
  as.filterMap fun a => a.request.bind fun x => if x.1 = t then some x.2 else none

def commits (t : Nat) (history : List (Nat × Request × Outcome)) : List (Request × Outcome) :=
  history.filterMap fun x => if x.1 = t then some x.2 else none

def returns (t : Nat) (log : List Event) : List Outcome :=
  log.filterMap fun e => match e with
    | .returned u out => if u = t then some out else none
    | _ => none

namespace Registry

section
variable {r : Registry} {b b' : Bus}

theorem mirrors_start : ({} : Registry).Mirrors {} :=
  ⟨fun _ => rfl, rfl, rfl, rfl, (fun _ _ hd => by cases hd), rfl⟩

theorem Mirrors.same (h : r.Mirrors b) (hb : Bus.SameTables b b')
    (hcap : ∀ ch, (b'.chans ch).capacity = (b.chans ch).capacity) : r.Mirrors b' := by
  have hdepths : ∀ ch depth, r.depths[ch]? = some depth → (b'.chans ch).capacity = depth :=
    fun ch depth hd => (hcap ch).trans (h.depths ch depth hd)
  rw [hb] at hdepths ⊢
  exact ⟨h.responses, h.schedule, h.subs, h.channels, hdepths, h.closed⟩

theorem Mirrors.countError (h : r.Mirrors b) : r.Mirrors b.countError := h.same rfl fun _ => rfl

theorem step_of_serve {req : Request} {out : Outcome} {r' : Registry} (h : r.serve req = (r', out))
    (hreq : req ≠ .closeWithDrain) : r.step (req, out) = some r' := by
  unfold step
  cases req with
  | closeWithDrain => exact absurd rfl hreq
  | _ => simp only [h, if_true]

theorem Mirrors.write (h : r.Mirrors b) (id : UInt8) (data : Payload) (ct : ChecksumType) :
    (b.doPublish id data ct).2 = (r.write id data ct).2 ∧
      (r.write id data ct).1.Mirrors (b.doPublish id data ct).1 := by
  unfold Registry.write
  by_cases hid : id ≤ kLINMaxID
  · rw [dif_pos hid]
    cases hclosed : r.closed with
    | true =>
        have hb : b.doPublish id data ct = (b.countError, some ErrClosed) := by
          rw [Bus.doPublish, if_neg (UInt8.not_lt.mpr hid), h.closed, hclosed]
          rfl
        rw [hb, if_pos rfl]
        exact ⟨rfl, h.countError⟩
    | false =>
        rw [if_neg Bool.false_ne_true]
        have hopen : b.closed = false := h.closed.trans hclosed
        obtain ⟨b', hb, hopen', -⟩ := Bus.doPublish_of_open hopen hid data ct
        have hb' : b.doPublish (⟨id, hid⟩ : FrameId).val data ct = (b', none) := hb
        have hresp : Refines b' (r.responses.write ⟨⟨id, hid⟩, data, ct⟩) :=
          h.responses.doPublish hb'
        obtain ⟨-, -, rfl⟩ := Bus.doPublish_ok hb
        rw [hb]
        exact ⟨rfl, hresp, h.schedule, h.subs, h.channels, h.depths, hopen⟩
  · rw [dif_neg hid]
    have hb : b.doPublish id data ct = (b.countError, some (.lin .invalidFrame)) := by
      rw [Bus.doPublish, if_pos (UInt8.not_le.mp hid)]
    rw [hb]
    exact ⟨rfl, h.countError⟩

/-- The channel handed out is the one that the subscription names, with the depth asked for. -/
theorem Mirrors.subscribe (h : r.Mirrors b) (filters : List Filter)
    (opts : List SubscriberOption) :
    (b.subscribe filters opts).2 = (r.subscribe filters opts).2 ∧
      (r.subscribe filters opts).1.Mirrors (b.subscribe filters opts).1 := by
  unfold Bus.subscribe Registry.subscribe
  rw [h.closed]
  split_ifs with hc
  · exact ⟨rfl, h.countError⟩
  · refine ⟨congrArg Except.ok h.channels, h.responses, h.schedule, ?_, ?_, ?_, rfl⟩
    · simp only [h.subs, h.channels]
    · simp [h.channels]
    · intro ch depth hd
      rw [List.getElem?_append] at hd
      split_ifs at hd with hlt
      · have hne : ch ≠ b.handles := by
          rw [h.channels]
          exact Nat.ne_of_lt hlt
        simp only [Function.update_of_ne hne]
        exact h.depths ch depth hd
      · rw [List.getElem?_singleton] at hd
        split_ifs at hd with hlast
        obtain rfl := Option.some.inj hd
        obtain rfl : ch = b.handles := by
          rw [h.channels]
          omega
        simp only [Function.update_self]

theorem Mirrors.close (h : r.Mirrors b) :
    b.close.2 = none ∧ r.shut.Mirrors b.close.1 := by
  refine ⟨b.close_code, ?_⟩
  unfold shut
  cases hc : b.closed with
  | true =>
      rw [Bus.close_of_closed hc, if_pos (h.closed.symm.trans hc)]
      exact h
  | false =>
      have hresp : Refines b.close.1 r.responses := h.responses.congr b.close_responses
      have hdepths : ∀ ch depth, r.depths[ch]? = some depth →
          (b.close.1.chans ch).capacity = depth :=
        fun ch depth hd => (b.close_capacity ch).trans (h.depths ch depth hd)
      rw [if_neg (by rw [← h.closed, hc]; exact Bool.false_ne_true)]
      rw [Bus.close_of_open hc] at hresp hdepths ⊢
      exact ⟨hresp, h.schedule, rfl, h.channels, hdepths, rfl⟩

theorem Mirrors.body (h : r.Mirrors b) {c : Exclusive} {out : Outcome} (hb : c.body b = (b', out)) :
    ∃ r', r.step ((Section.exclusive c).request, out) = some r' ∧ r'.Mirrors b' := by
  obtain ⟨rfl, rfl⟩ := Prod.mk.inj hb
  cases c with
  | publish id data =>
      have hw := h.write id data .enhanced
      refine ⟨_, step_of_serve (Prod.ext rfl ?_) (by simp [Section.request]), hw.2⟩
      exact congrArg Outcome.code hw.1.symm
  | publishClassic id data =>
      have hw := h.write id data .classic
      refine ⟨_, step_of_serve (Prod.ext rfl ?_) (by simp [Section.request]), hw.2⟩
      exact congrArg Outcome.code hw.1.symm
  | setSchedule entries =>
      simp only [Bus.setSchedule]
      split_ifs with hc
      · refine ⟨r, step_of_serve ?_ (by simp [Section.request]), h⟩
        rw [Section.request, serve, if_pos (h.closed.symm.trans hc)]
      · refine ⟨{ r with schedule := entries }, step_of_serve ?_ (by simp [Section.request]), ?_⟩
        · rw [Section.request, serve, if_neg (h.closed ▸ hc)]
        · exact ⟨h.responses, rfl, h.subs, h.channels, h.depths, h.closed⟩
  | subscribe filters opts =>
      have hsub := h.subscribe filters opts
      refine ⟨_, step_of_serve (Prod.ext rfl ?_) (by simp [Section.request]), hsub.2⟩
      exact congrArg Outcome.channel hsub.1.symm
  | close =>
      have hclose := h.close
      refine ⟨_, step_of_serve (Prod.ext rfl ?_) (by simp [Section.request]), hclose.2⟩
      exact congrArg Outcome.code hclose.1.symm
  | closeDrained timedOut =>
      have hclose := h.close
      refine ⟨r.shut, ?_, hclose.2⟩
      simp only [Section.request, Registry.step, hclose.1]
      cases timedOut <;> rfl

theorem Mirrors.respond (h : r.Mirrors b) {id : UInt8} {res : Except ErrorCode Frame}
    (hb : b.respond id = (b', res)) :
    r.step (.sendHeader id, .frame res) = some r ∧ r.Mirrors b' := by
  have hchans := (Bus.respond_frame hb).2
  refine ⟨step_of_serve ?_ (by simp), h.same (Bus.respond_frame hb).1 fun ch => by rw [hchans]⟩
  obtain rfl : (b.respond id).2 = res := congrArg Prod.snd hb
  rw [serve, answer]
  by_cases hid : id ≤ kLINMaxID
  · rw [dif_pos hid]
    cases hclosed : r.closed with
    | true =>
        rw [Bus.respond, if_neg (UInt8.not_lt.mpr hid), h.closed, hclosed]
        rfl
    | false =>
        rw [if_neg Bool.false_ne_true]
        have hanswer := respond_of_refines h.responses (h.closed.trans hclosed) ⟨id, hid⟩
        rw [hanswer]
  · rw [dif_neg hid, Bus.respond, if_pos (UInt8.not_le.mp hid)]

theorem step_of_rejects {c : Section} {out : Outcome} (h : c.rejects = some out) :
    r.step (c.request, out) = some r := by
  unfold Section.rejects at h
  split at h
  · split_ifs at h with hid
    obtain rfl := Option.some.inj h
    apply step_of_serve _ (by simp [Section.request])
    rw [Section.request, serve, write, dif_neg (UInt8.not_le.mpr hid)]
  · split_ifs at h with hid
    obtain rfl := Option.some.inj h
    apply step_of_serve _ (by simp [Section.request])
    rw [Section.request, serve, write, dif_neg (UInt8.not_le.mpr hid)]
  · split_ifs at h with hid
    obtain rfl := Option.some.inj h
    apply step_of_serve _ (by simp [Section.request])
    rw [Section.request, serve, answer, dif_neg (UInt8.not_le.mpr hid)]
  · cases h

end

/-- Each step of the threads is served by the registry as it commits. -/
theorem mirrors_step {r : Registry} {s s' : Sys} {a : Action} (h : r.Mirrors s.bus)
    (hstep : s.step a = some s') :
    ∃ r', run (fun r x => r.step x.2) r (s.commit a) = some r' ∧ r'.Mirrors s'.bus := by
  have quiet : s.commit a = [] → Bus.SameTables s.bus s'.bus →
      (∀ ch, (s'.bus.chans ch).capacity = (s.bus.chans ch).capacity) →
      ∃ r', run (fun (r : Registry) x => r.step x.2) r (s.commit a) = some r' ∧
        r'.Mirrors s'.bus := by
    intro hcommit hsame hcap
    exact ⟨r, by rw [hcommit, run_nil], h.same hsame hcap⟩
  cases Sys.moves_of_step hstep with
  | @reject t c out hpc hr =>
      refine ⟨r, ?_, h.countError⟩
      rw [Sys.commit, hpc, hr, run_cons]
      exact ⟨r, step_of_rejects hr, rfl⟩
  | @exclusive t c b out hpc hb =>
      obtain ⟨r', hserve, hmirrors⟩ := h.body hb
      refine ⟨r', ?_, hmirrors⟩
      rw [Sys.commit, hpc, run_cons]
      exact ⟨r', by rw [hb]; exact hserve, rfl⟩
  | @respondError t id b e hpc hb =>
      obtain ⟨hserve, hmirrors⟩ := h.respond hb
      refine ⟨r, ?_, hmirrors⟩
      rw [Sys.commit, hpc, run_cons]
      exact ⟨r, by rw [hb]; exact hserve, rfl⟩
  | @emit t id b f hpc hb =>
      obtain ⟨hserve, hmirrors⟩ := h.respond hb
      refine ⟨r, ?_, hmirrors⟩
      rw [Sys.commit, hpc, run_cons]
      exact ⟨r, by rw [hb]; exact hserve, rfl⟩
  | call hpc hr => exact quiet (by simp only [Sys.commit, hpc, hr]) rfl fun _ => rfl
  | deliver hpc hb =>
      exact quiet (by simp only [Sys.commit, hpc]) (Bus.deliver_sameTables hb) fun ch =>
        (Bus.deliver_shape hb ch).2
  | ended hpc => exact quiet (by simp only [Sys.commit, hpc]) rfl fun _ => rfl
  | scan hpc | scanEmpty hpc | scanFound hpc | scanDone hpc =>
      exact quiet (by simp only [Sys.commit, hpc]) rfl fun _ => rfl
  | recv hr =>
      exact quiet rfl rfl fun ch => (Bus.setChan_shape s.bus _ (Chan.recv_shape hr) ch).2
  | tryRecv hr =>
      exact quiet rfl rfl fun ch => (Bus.setChan_shape s.bus _ (Chan.tryRecv_shape hr) ch).2
  | @closeChan k => exact quiet rfl rfl (s.bus.closeChan_capacity k)
  | _ => exact quiet rfl rfl fun _ => rfl

/-- In every state of a run the registry has served what took effect, and the bus mirrors it. -/
theorem mirrors_run {as : List Action} {s : Sys} (h : run Sys.step {} as = some s) :
    ∃ r, run (fun (r : Registry) x => r.step x.2) {} (along Sys.step Sys.commit {} as) = some r ∧
      r.Mirrors s.bus :=
  simulation_run (R := fun (r : Registry) (s : Sys) => r.Mirrors s.bus)
    (fun _ _ _ _ hr hstep => mirrors_step hr hstep) mirrors_start h

end Registry

/-- What one thread has asked for is what took effect for it and what it waits for; what took
effect is what it returned and what it still holds. -/
structure Sys.Accounts (s : Sys) (as : List Action) (history : List (Nat × Request × Outcome))
    (t : Nat) : Prop where
  requested : requests t as = (commits t history).map Prod.fst ++ (s.pc t).wants
  returned : (commits t history).map Prod.snd = returns t s.log ++ (s.pc t).holds

namespace Sys

@[simp] theorem commits_append (t : Nat) (h h' : List (Nat × Request × Outcome)) :
    commits t (h ++ h') = commits t h ++ commits t h' := List.filterMap_append ..

theorem requests_concat (t : Nat) (as : List Action) (a : Action) :
    requests t (as ++ [a]) = requests t as ++ requests t [a] := List.filterMap_append ..

@[simp] theorem returns_append (t : Nat) (log log' : List Event) :
    returns t (log ++ log') = returns t log ++ returns t log' := List.filterMap_append ..

theorem Accounts.move {s s' : Sys} {as : List Action} {a : Action}
    {history new : List (Nat × Request × Outcome)} {t : Nat} {o : List Outcome}
    (h : s.Accounts as history t)
    (hwants : (s.pc t).wants ++ requests t [a] = (commits t new).map Prod.fst ++ (s'.pc t).wants)
    (hreturns : returns t s'.log = returns t s.log ++ o)
    (hholds : (s.pc t).holds ++ (commits t new).map Prod.snd = o ++ (s'.pc t).holds) :
    s'.Accounts (as ++ [a]) (history ++ new) t := by
  constructor
  · rw [requests_concat, h.requested, List.append_assoc, hwants, commits_append, List.map_append,
      List.append_assoc]
  · rw [commits_append, List.map_append, h.returned, List.append_assoc, hholds, hreturns,
      List.append_assoc]

theorem commit_of_other {s : Sys} {a : Action} {u : Nat} (hu : a.thread ≠ some u) :
    commits u (s.commit a) = [] := by
  have hall : ∀ x ∈ s.commit a, a.thread = some x.1 := by
    intro x hx
    unfold Sys.commit at hx
    split at hx
    · split at hx
      · obtain rfl := List.mem_singleton.mp hx
        rfl
      · cases hx
    · split at hx
      · obtain rfl := List.mem_singleton.mp hx
        rfl
      · obtain rfl := List.mem_singleton.mp hx
        rfl
      · cases hx
    · cases hx
  rw [commits, List.filterMap_eq_nil_iff]
  intro x hx
  exact if_neg fun (he : x.1 = u) => hu (he ▸ hall x hx)

theorem requests_of_other {a : Action} {u : Nat} (hu : a.thread ≠ some u) :
    requests u [a] = [] := by
  cases a with
  | call t c =>
      have ht : t ≠ u := fun he => hu (congrArg some he)
      simp [requests, Action.request, ht]
  | callDrain t =>
      have ht : t ≠ u := fun he => hu (congrArg some he)
      simp [requests, Action.request, ht]
  | _ => rfl

theorem returns_of_other {s s' : Sys} {a : Action} (h : Moves s a s') {u : Nat}
    (hu : a.thread ≠ some u) : returns u s'.log = returns u s.log := by
  have ret : ∀ {m : Sys} {t out}, a.thread = some t → returns u m.log = returns u s.log →
      returns u (m.ret t out).log = returns u s.log := by
    intro m t out ht hm
    have htu : t ≠ u := fun he => hu (he ▸ ht)
    rw [Sys.ret, Sys.record, returns_append, goto]
    simpa [returns, htu] using hm
  cases h with
  | reject hpc hr => exact ret rfl rfl
  | exclusive hpc hb => exact ret rfl rfl
  | respondError hpc hb => exact ret rfl rfl
  | ended hpc => exact ret rfl (returns_append u s.log [.ended _] |>.trans (List.append_nil _))
  | emit hpc hb => exact (returns_append u s.log [.emitted _ _]).trans (List.append_nil _)
  | deliver hpc hb =>
      rw [Sys.record, returns_append]
      split_ifs <;> exact List.append_nil _
  | _ => rfl

theorem returns_ret (m : Sys) (t : Nat) (out : Outcome) :
    returns t (m.ret t out).log = returns t m.log ++ [out] := by
  rw [Sys.ret, Sys.record, returns_append, goto]
  simp [returns]

theorem commits_own (t : Nat) (x : Request × Outcome) : commits t [(t, x)] = [x] := by
  simp [commits]

theorem requests_none {a : Action} (h : a.request = none) (t : Nat) : requests t [a] = [] := by
  simp [requests, h]

/-- A step on the way: what the thread wants stays the same. -/
theorem Accounts.onTheWay {s s' : Sys} {as : List Action} {a : Action}
    {history : List (Nat × Request × Outcome)} {t : Nat} {p : Pc} (h : s.Accounts as history t)
    (hcommit : s.commit a = []) (hrequest : a.request = none)
    (hlog : returns t s'.log = returns t s.log) (hp : s'.pc t = p)
    (hwants : p.wants = (s.pc t).wants) (hholds : p.holds = (s.pc t).holds) :
    s'.Accounts (as ++ [a]) (history ++ s.commit a) t := by
  refine h.move (o := []) ?_ (hlog.trans (List.append_nil _).symm) ?_
  · rw [hcommit, requests_none hrequest, hp, hwants, List.append_nil]
    rfl
  · rw [hcommit, hp, hholds]
    exact List.append_nil _

/-- A request takes effect and returns. -/
theorem Accounts.done {s m : Sys} {as : List Action} {a : Action}
    {history : List (Nat × Request × Outcome)} {t : Nat} {req : Request} {out : Outcome}
    (h : s.Accounts as history t) (hcommit : s.commit a = [(t, req, out)])
    (hrequest : a.request = none) (hlog : m.log = s.log) (hwants : (s.pc t).wants = [req])
    (hholds : (s.pc t).holds = []) :
    (m.ret t out).Accounts (as ++ [a]) (history ++ s.commit a) t := by
  refine h.move (o := [out]) ?_ (by rw [returns_ret, hlog]) ?_
  · rw [hcommit, commits_own, requests_none hrequest, hwants, ret, record, goto_pc_same]
    rfl
  · rw [hcommit, commits_own, hholds, ret, record, goto_pc_same]
    rfl

theorem accounts_step {s s' : Sys} {as : List Action} {a : Action}
    {history : List (Nat × Request × Outcome)} {u : Nat} (h : s.Accounts as history u)
    (hmoves : Moves s a s') : s'.Accounts (as ++ [a]) (history ++ s.commit a) u := by
  by_cases hu : a.thread = some u
  case neg =>
    have hpc := pc_of_other hmoves hu
    refine h.move (o := []) ?_ ((returns_of_other hmoves hu).trans (List.append_nil _).symm) ?_
    · rw [requests_of_other hu, commit_of_other hu, hpc, List.append_nil]
      rfl
    · rw [commit_of_other hu, hpc, List.map_nil, List.append_nil]
      rfl
  case pos =>
    cases hmoves with
    | @reject t c out hpc hr =>
        obtain rfl : t = u := Option.some.inj hu
        have hcommit : s.commit (.call t c) = [(t, c.request, out)] := by
          simp only [Sys.commit, hpc, hr]
        refine h.move (o := [out]) ?_ (returns_ret _ t out) ?_
        · rw [hcommit, commits_own, hpc, ret, record, goto_pc_same]
          simp [requests, Action.request, Pc.wants]
        · rw [hcommit, commits_own, hpc, ret, record, goto_pc_same]
          rfl
    | @call t c hpc hr hc =>
        obtain rfl : t = u := Option.some.inj hu
        have hcommit : s.commit (.call t c) = [] := by simp only [Sys.commit, hpc, hr]
        refine h.move (o := []) ?_ (List.append_nil _).symm ?_
        · rw [hcommit, hpc, goto_pc_same]
          simp [requests, Action.request, Pc.wants, commits]
        · rw [hcommit, hpc, goto_pc_same]
          rfl
    | @callDrain t hpc =>
        obtain rfl : t = u := Option.some.inj hu
        refine h.move (o := []) ?_ (List.append_nil _).symm ?_
        · rw [hpc, goto_pc_same]
          simp [requests, Action.request, Pc.wants, commits, Sys.commit]
        · rw [hpc, goto_pc_same]
          rfl
    | lock hpc | lockShared hpc | poll hpc | timeUp hpc =>
        obtain rfl := Option.some.inj hu
        exact h.onTheWay rfl rfl rfl goto_pc_same (by rw [hpc]; rfl) (by rw [hpc]; rfl)
    | @exclusive t c b out hpc hb =>
        obtain rfl : t = u := Option.some.inj hu
        have hcommit : s.commit (.step t) = [(t, (Section.exclusive c).request, out)] := by
          simp only [Sys.commit, hpc, hb]
        exact h.done hcommit rfl rfl (by rw [hpc]; rfl) (by rw [hpc]; rfl)
    | @respondError t id b e hpc hb =>
        obtain rfl : t = u := Option.some.inj hu
        have hcommit : s.commit (.step t) = [(t, .sendHeader id, .frame (.error e))] := by
          simp only [Sys.commit, hpc, hb]
        exact h.done hcommit rfl rfl (by rw [hpc]; rfl) (by rw [hpc]; rfl)
    | @emit t id b f hpc hb =>
        obtain rfl : t = u := Option.some.inj hu
        have hcommit : s.commit (.step t) = [(t, .sendHeader id, .frame (.ok f))] := by
          simp only [Sys.commit, hpc, hb]
        have hlog : returns t (s.emit t b f).log = returns t s.log ++ [] :=
          returns_append t s.log [.emitted _ _]
        refine h.move (o := []) ?_ hlog ?_
        · rw [hcommit, commits_own, hpc, emit, record, goto_pc_same]
          rfl
        · rw [hcommit, commits_own, hpc, emit, record, goto_pc_same]
          rfl
    | @deliver t n f sub todo b hpc hb =>
        obtain rfl : t = u := Option.some.inj hu
        refine h.onTheWay (by simp only [Sys.commit, hpc]) rfl ?_ goto_pc_same (by rw [hpc]; rfl)
          (by rw [hpc]; rfl)
        rw [record, returns_append]
        split_ifs <;> exact List.append_nil _
    | @ended t n f hpc =>
        obtain rfl : t = u := Option.some.inj hu
        have hcommit : s.commit (.step t) = [] := by simp only [Sys.commit, hpc]
        have hlog : returns t (((s.unlockShared t).record [.ended n]).ret t (.frame (.ok f))).log =
            returns t s.log ++ [.frame (.ok f)] := by
          rw [returns_ret, record, returns_append]
          exact congrArg (· ++ _) (List.append_nil _)
        refine h.move (o := [.frame (.ok f)]) ?_ hlog ?_
        · rw [hcommit, hpc, ret, record, goto_pc_same]
          rfl
        · rw [hcommit, hpc, ret, record, goto_pc_same]
          rfl
    | scan hpc | scanEmpty hpc | scanFound hpc | scanDone hpc =>
        obtain rfl := Option.some.inj hu
        exact h.onTheWay (by simp only [Sys.commit, hpc]) rfl rfl goto_pc_same (by rw [hpc]; rfl)
          (by rw [hpc]; rfl)
    | recv | tryRecv | closeChan => cases hu

theorem accounts_run {as : List Action} {s : Sys} (h : run Sys.step {} as = some s) (t : Nat) :
    s.Accounts as (along Sys.step Sys.commit {} as) t := by
  apply history_run (P := fun as s => s.Accounts as (along Sys.step Sys.commit {} as) t) _ _ h
  · exact ⟨rfl, rfl⟩
  · intro as m a m' hrun hm hstep
    rw [along_concat _ hrun]
    exact accounts_step hm (moves_of_step hstep)

end Sys

/-! The frames that are emitted, in the log and among what takes effect. -/

def emittedFrames (log : List Event) : List Frame :=
  log.filterMap fun e => match e with
    | .emitted _ f => some f
    | _ => none

/-- The frame a request was answered with. -/
def frameSent : Request × Outcome → Option Frame
  | (.sendHeader _, .frame (.ok f)) => some f
  | _ => none

def framesSent (history : List (Nat × Request × Outcome)) : List Frame :=
  history.filterMap fun x => frameSent x.2

namespace Sys

@[simp] theorem emittedFrames_append (log log' : List Event) :
    emittedFrames (log ++ log') = emittedFrames log ++ emittedFrames log' :=
  List.filterMap_append ..

theorem framesSent_of_none {x : Nat × Request × Outcome} (h : frameSent x.2 = none) :
    framesSent [x] = [] :=
  List.filterMap_eq_nil_iff.mpr fun _ hy => List.mem_singleton.mp hy ▸ h

@[simp] theorem framesSent_append (h h' : List (Nat × Request × Outcome)) :
    framesSent (h ++ h') = framesSent h ++ framesSent h' := List.filterMap_append ..

theorem frameSent_rejects {c : Section} {out : Outcome} (h : c.rejects = some out) :
    frameSent (c.request, out) = none := by
  unfold Section.rejects at h
  split at h
  · rfl
  · rfl
  · split_ifs at h
    obtain rfl := Option.some.inj h
    rfl
  · cases h

theorem frameSent_exclusive (c : Exclusive) (out : Outcome) :
    frameSent ((Section.exclusive c).request, out) = none := by
  cases c <;> rfl

theorem emitted_step {s s' : Sys} {a : Action} (h : Moves s a s') :
    emittedFrames s'.log = emittedFrames s.log ++ framesSent (s.commit a) := by
  have ret : ∀ (m : Sys) (t : Nat) (out : Outcome),
      emittedFrames (m.ret t out).log = emittedFrames m.log := by
    intro m t out
    rw [Sys.ret, Sys.record, emittedFrames_append]
    exact List.append_nil _
  have quiet : s.commit a = [] → emittedFrames s'.log = emittedFrames s.log →
      emittedFrames s'.log = emittedFrames s.log ++ framesSent (s.commit a) := by
    intro hcommit hlog
    rw [hcommit, hlog]
    exact (List.append_nil _).symm
  cases h with
  | @reject t c out hpc hr =>
      have hcommit : s.commit (.call t c) = [(t, c.request, out)] := by
        simp only [Sys.commit, hpc, hr]
      rw [ret, hcommit, framesSent_of_none (frameSent_rejects hr)]
      exact (List.append_nil _).symm
  | @exclusive t c b out hpc hb =>
      have hcommit : s.commit (.step t) = [(t, (Section.exclusive c).request, out)] := by
        simp only [Sys.commit, hpc, hb]
      rw [ret, hcommit, framesSent_of_none (frameSent_exclusive c out)]
      exact (List.append_nil _).symm
  | @respondError t id b e hpc hb =>
      have hcommit : s.commit (.step t) = [(t, .sendHeader id, .frame (.error e))] := by
        simp only [Sys.commit, hpc, hb]
      rw [ret, hcommit]
      exact (List.append_nil _).symm
  | @emit t id b f hpc hb =>
      have hcommit : s.commit (.step t) = [(t, .sendHeader id, .frame (.ok f))] := by
        simp only [Sys.commit, hpc, hb]
      rw [hcommit]
      exact emittedFrames_append s.log [.emitted s.emissions f]
  | deliver hpc hb =>
      refine quiet (by simp only [Sys.commit, hpc]) ?_
      rw [Sys.record, emittedFrames_append]
      split_ifs <;> exact List.append_nil _
  | ended hpc =>
      refine quiet (by simp only [Sys.commit, hpc]) ?_
      rw [ret, Sys.record, emittedFrames_append]
      exact List.append_nil _
  | call hpc hr => exact quiet (by simp only [Sys.commit, hpc, hr]) rfl
  | scan hpc | scanEmpty hpc | scanFound hpc | scanDone hpc =>
      exact quiet (by simp only [Sys.commit, hpc]) rfl
  | _ => exact quiet rfl rfl

/-- The bus emits the frames of the headers that take effect, in their order. -/
theorem emitted_run {as : List Action} {s : Sys} (h : run Sys.step {} as = some s) :
    emittedFrames s.log = framesSent (along Sys.step Sys.commit {} as) := by
  refine history_run
    (P := fun as s => emittedFrames s.log = framesSent (along Sys.step Sys.commit {} as)) rfl ?_ h
  intro as m a m' hrun hm hstep
  rw [along_concat _ hrun, framesSent_append, ← hm]
  exact emitted_step (moves_of_step hstep)

end Sys

/-- The bus under threads is the registry, one request at a time: the requests take effect one
after another as the registry serves them, with the outcomes that are returned, and leave the
bus with what the registry holds: a header on its way has only subscriptions of the registry
ahead of it. Each takes effect once, after its call and before its return: at any moment a
thread's requests are those that took effect and the one it waits for, and the outcomes are
those returned and the one it holds. What has taken effect stays so, in order. -/
theorem linearizable {as : List Action} {s : Sys} (h : run Sys.step {} as = some s) :
    (∃ r, run (fun (r : Registry) x => r.step x.2) {} (along Sys.step Sys.commit {} as) = some r ∧
      r.Mirrors s.bus ∧ ∀ t, (s.pc t).Ahead r.subs) ∧
    (∀ t, s.Accounts as (along Sys.step Sys.commit {} as) t) ∧
    ∀ past, past <+: as →
      along Sys.step Sys.commit {} past <+: along Sys.step Sys.commit {} as := by
  refine ⟨?_, Sys.accounts_run h, ?_⟩
  · obtain ⟨r, hr, hmirrors⟩ := Registry.mirrors_run h
    refine ⟨r, hr, hmirrors, fun t => ?_⟩
    rw [← hmirrors.subs]
    exact Sys.ahead_run h t
  · rintro past ⟨later, rfl⟩
    obtain ⟨m, hm, -⟩ := run_append.mp h
    rw [along_append Sys.commit hm]
    exact List.prefix_append _ _

/-- A subscription, and a header asked for while its response is being published and answered
with it: in the middle of its broadcast the header has the subscriber ahead. -/
theorem linearizable_overlapping : ∃ s : Sys,
    (∃ r, run (fun (r : Registry) x => r.step x.2) {}
        [(3, .subscribe [] [Relay.withChannelDepth 2], .channel (.ok 0)),
          (1, .publish 5 [1], .code none),
          (2, .sendHeader 5, .frame (.ok (Bus.frameOf 5 ⟨[1], .enhanced⟩)))] = some r ∧
        r.Mirrors s.bus ∧ ∀ t, (s.pc t).Ahead r.subs) ∧
      s.pc 2 = .broadcasting 0 (Bus.frameOf 5 ⟨[1], .enhanced⟩) [⟨[], 0, .dropNewest⟩] ∧
      returns 3 s.log = [.channel (.ok 0)] :=
  have h : run Sys.step {} [.call 3 (.exclusive (.subscribe [] [Relay.withChannelDepth 2])),
    .lock 3, .step 3, .call 1 (.exclusive (.publish 5 [1])), .call 2 (.sendHeader 5), .lock 1,
    .step 1, .lock 2, .step 2] = some _ := rfl
  ⟨_, (linearizable h).1, rfl, rfl⟩

end CppLin.Virt
