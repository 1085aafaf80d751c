import CppLin.Virtual.Bus

namespace CppLin.Virt
open Bytes Relay Run

inductive Op where
  | publish (id : UInt8) (data : Payload)
  | publishClassic (id : UInt8) (data : Payload)
  | setSchedule (entries : List ScheduleEntry)
  | subscribe (filters : List Filter) (opts : List SubscriberOption)
  | sendHeader (id : UInt8)
  | close
  | recv (ch : Nat)
  | tryRecv (ch : Nat)
  | closeChan (ch : Nat)

inductive Outcome where
  | code (e : Option ErrorCode)
  | frame (r : Except ErrorCode Frame)
  | channel (r : Except ErrorCode Nat)
  | received (f : Option Frame)
  | done

/-- A call with its result; `none` while the call waits. -/
def Bus.exec (b : Bus) : Op → Option (Bus × Outcome)
  | .publish id data => let (b, e) := b.publish id data; some (b, .code e)
  | .publishClassic id data => let (b, e) := b.publishClassic id data; some (b, .code e)
  | .setSchedule entries => let (b, e) := b.setSchedule entries; some (b, .code e)
  | .subscribe filters opts => let (b, r) := b.subscribe filters opts; some (b, .channel r)
  | .sendHeader id => (b.sendHeader id).map fun (b, r) => (b, .frame r)
  | .close => let (b, e) := b.close; some (b, .code e)
  | .recv ch => (b.chans ch).recv.map fun (c, f) => (b.setChan ch c, .received f)
  | .tryRecv ch => let (c, f) := (b.chans ch).tryRecv; some (b.setChan ch c, .received f)
  | .closeChan ch => some (b.closeChan ch, .done)

structure Session where
  bus : Bus := .create
  log : List (Op × Outcome) := []

def Session.step (s : Session) (op : Op) : Option Session :=
  (s.bus.exec op).map fun (b, out) => { bus := b, log := s.log ++ [(op, out)] }

theorem Session.step_some {s s' : Session} {op : Op} (h : s.step op = some s') :
    ∃ out, s.bus.exec op = some (s'.bus, out) ∧ s'.log = s.log ++ [(op, out)] := by
  obtain ⟨⟨b, out⟩, hx, rfl⟩ := Option.map_eq_some_iff.mp h
  exact ⟨out, hx, rfl⟩

/-- Every subscription has a channel of its own. -/
structure Bus.WellFormed (b : Bus) : Prop where
  ownChannels : (b.subs.map Subscription.ch).Nodup
  allocated : ∀ s ∈ b.subs, s.ch < b.handles

section
variable {b b' : Bus} (hb : b.WellFormed)
include hb

theorem Bus.WellFormed.congr (hsubs : b'.subs = b.subs) (hhandles : b'.handles = b.handles) :
    b'.WellFormed := by
  obtain ⟨hnd, hlt⟩ := hb
  rw [← hsubs] at hnd hlt
  rw [← hhandles] at hlt
  exact ⟨hnd, hlt⟩

theorem Bus.WellFormed.doPublish (id : UInt8) (data : Payload) (ct : ChecksumType) :
    (b.doPublish id data ct).1.WellFormed := by
  cases h : b.doPublish id data ct with
  | mk b' e =>
      cases e with
      | none => exact hb.congr (by rw [(doPublish_ok h).2.2]) (by rw [(doPublish_ok h).2.2])
      | some e => exact hb.congr (by rw [doPublish_error h]; rfl) (by rw [doPublish_error h]; rfl)

theorem Bus.WellFormed.setSchedule (entries : List ScheduleEntry) :
    (b.setSchedule entries).1.WellFormed := by
  unfold Bus.setSchedule
  split_ifs <;> exact hb.congr rfl rfl

theorem Bus.WellFormed.subscribe (filters : List Filter) (opts : List SubscriberOption) :
    (b.subscribe filters opts).1.WellFormed := by
  obtain ⟨hnd, hlt⟩ := hb
  unfold Bus.subscribe
  by_cases hc : b.closed = true
  · rw [if_pos hc]
    exact ⟨hnd, hlt⟩
  · rw [if_neg hc]
    constructor
    · rw [List.map_append, List.nodup_append]
      refine ⟨hnd, List.nodup_singleton _, ?_⟩
      intro x hx y hy
      obtain ⟨s, hs, rfl⟩ := List.mem_map.mp hx
      obtain rfl := List.mem_singleton.mp hy
      exact Nat.ne_of_lt (hlt s hs)
    · intro s hs
      rcases List.mem_append.mp hs with hs | hs
      · exact Nat.lt_succ_of_lt (hlt s hs)
      · obtain rfl := List.mem_singleton.mp hs
        exact Nat.lt_succ_self b.handles

theorem Bus.WellFormed.close : b.close.1.WellFormed := by
  unfold Bus.close
  by_cases hc : b.closed = true
  · rw [if_pos hc]
    exact hb
  · rw [if_neg hc]
    exact ⟨List.nodup_nil, fun s hs => absurd hs List.not_mem_nil⟩

theorem Bus.WellFormed.exec {op : Op} {out : Outcome} (h : b.exec op = some (b', out)) :
    b'.WellFormed := by
  cases op with
  | publish id data =>
      obtain ⟨rfl, -⟩ := Prod.mk.inj (Option.some.inj h)
      exact hb.doPublish id data .enhanced
  | publishClassic id data =>
      obtain ⟨rfl, -⟩ := Prod.mk.inj (Option.some.inj h)
      exact hb.doPublish id data .classic
  | setSchedule entries =>
      obtain ⟨rfl, -⟩ := Prod.mk.inj (Option.some.inj h)
      exact hb.setSchedule entries
  | subscribe filters opts =>
      obtain ⟨rfl, -⟩ := Prod.mk.inj (Option.some.inj h)
      exact hb.subscribe filters opts
  | sendHeader id =>
      obtain ⟨⟨m, r⟩, hm, heq⟩ := Option.map_eq_some_iff.mp h
      obtain ⟨rfl, -⟩ := Prod.mk.inj heq
      have hsame := (sendHeader_some hm).1
      exact hb.congr hsame.subs hsame.handles
  | close =>
      obtain ⟨rfl, -⟩ := Prod.mk.inj (Option.some.inj h)
      exact hb.close
  | recv ch =>
      obtain ⟨⟨c, f⟩, -, heq⟩ := Option.map_eq_some_iff.mp h
      obtain ⟨rfl, -⟩ := Prod.mk.inj heq
      exact hb.congr rfl rfl
  | tryRecv ch =>
      obtain ⟨rfl, -⟩ := Prod.mk.inj (Option.some.inj h)
      exact hb.congr rfl rfl
  | closeChan ch =>
      obtain ⟨rfl, -⟩ := Prod.mk.inj (Option.some.inj h)
      exact hb.congr rfl rfl

end

theorem Session.wellFormed_run {ops : List Op} {s : Session} (h : run Session.step {} ops = some s) :
    s.bus.WellFormed := by
  refine invariant_run (I := fun s => s.bus.WellFormed) ?_ ⟨List.nodup_nil, by simp [Bus.create]⟩ h
  intro s op s' hs hstep
  obtain ⟨out, hx, -⟩ := Session.step_some hstep
  exact hs.exec hx

end CppLin.Virt
