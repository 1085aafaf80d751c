import CppLin.ChannelCapacity
import CppLin.Numbering

/-!
The channels of the bus and of the adapter. `Chan` may be built with no room at all, and
`send_drop_oldest` then takes the head of an empty buffer; the bus and the adapter never build
one so, whatever depth is asked of them.
-/
namespace CppLin
open Bytes Relay Run Virt

/-- A channel with room for something and no more in it than it has room for. -/
structure Chan.Usable {α : Type*} (c : Chan α) : Prop where
  room : 0 < c.capacity
  within : c.buf.length ≤ c.capacity

namespace Chan
variable {α : Type*} {c c' : Chan α}

theorem usable_new {n : Nat} (h : 0 < n) : ({ capacity := n } : Chan α).Usable :=
  ⟨h, Nat.zero_le n⟩

theorem Usable.safe (h : c.Usable) (op : Op α) : c.Safe op :=
  (safe_iff_mayDrop h.within op).mpr fun _ => .inr h.room

theorem Usable.perform (h : c.Usable) {op : Op α} {answer : Answer α}
    (hop : c.perform op = some (c', answer)) : c'.Usable := by
  have heffect := perform_effect hop
  exact ⟨heffect.capacity.symm ▸ h.room, heffect.bounded (fun _ => h.room) h.within⟩

theorem Usable.offer (h : c.Usable) {policy : BackPressurePolicy} {v : α}
    (hoffer : c.offer policy v = some c') : c'.Usable := by
  rw [offer_eq_perform] at hoffer
  obtain ⟨⟨c₁, answer⟩, hop, rfl⟩ := Option.map_eq_some_iff.mp hoffer
  exact h.perform hop

theorem Usable.recv (h : c.Usable) {x : Option α} (hrecv : c.recv = some (c', x)) : c'.Usable := by
  have hop : c.perform .recv = some (c', .item x) := by rw [Chan.perform, hrecv, Option.map_some]
  exact h.perform hop

theorem Usable.tryRecv (h : c.Usable) {x : Option α} (hrecv : c.tryRecv = (c', x)) : c'.Usable := by
  have hop : c.perform .tryRecv = some (c', .item x) := by rw [Chan.perform, hrecv]
  exact h.perform hop

theorem Usable.close (h : c.Usable) : c.close.Usable := ⟨h.room, h.within⟩

end Chan

namespace Virt

/-- Every channel, those not made yet among them. -/
def Bus.Usable (b : Bus) : Prop := ∀ ch, (b.chans ch).Usable

namespace Bus
variable {b b' : Bus}

theorem Usable.congr (h : b.Usable) (hchans : b'.chans = b.chans) : b'.Usable :=
  fun ch => hchans ▸ h ch

theorem Usable.setChan (h : b.Usable) (ch : Nat) {c : Chan Frame} (hc : c.Usable) :
    (b.setChan ch c).Usable := by
  intro x
  by_cases hx : x = ch
  · rw [hx, setChan_same]
    exact hc
  · rw [setChan_other b c hx]
    exact h x

theorem Usable.deliver (h : b.Usable) {f : Frame} {s : Subscription}
    (hd : Bus.deliver f b s = some b') : b'.Usable := by
  obtain ⟨-, rfl⟩ | ⟨c, m, -, hoffer, rfl⟩ := deliver_cases hd
  · exact h
  · exact (h.setChan s.ch ((h s.ch).offer hoffer)).congr rfl

theorem Usable.subscribe (h : b.Usable) (filters : List Filter) (opts : List SubscriberOption) :
    (b.subscribe filters opts).1.Usable := by
  unfold Bus.subscribe
  simp only
  split_ifs with hclosed
  · exact h.congr rfl
  · have hdepth := effectiveDepth_pos (applyOptions opts) (by decide : (0 : Int) < kDefaultChanDepth)
    exact (h.setChan b.handles (Chan.usable_new (Int.lt_toNat.mpr hdepth))).congr rfl

theorem Usable.close (h : b.Usable) : b.close.1.Usable := by
  intro ch
  refine ⟨?_, ?_⟩
  · rw [close_capacity]
    exact (h ch).room
  · rw [close_capacity, close_buf]
    exact (h ch).within

theorem Usable.body (h : b.Usable) (c : Exclusive) : (c.body b).1.Usable := by
  cases c with
  | publish id data => exact h.congr (doPublish_chans b id data .enhanced)
  | publishClassic id data => exact h.congr (doPublish_chans b id data .classic)
  | setSchedule entries =>
      unfold Exclusive.body Bus.setSchedule
      split_ifs <;> exact h
  | subscribe filters opts => exact h.subscribe filters opts
  | close => exact h.close
  | closeDrained timedOut => exact h.close

end Bus

theorem Sys.usable_step {s s' : Sys} {a : Action} (h : s.bus.Usable) (hstep : s.step a = some s') :
    s'.bus.Usable := by
  cases moves_of_step hstep with
  | reject hpc hr => exact h.congr rfl
  | call hpc hr hc => exact h
  | callDrain hpc => exact h
  | lock hpc hw hr => exact h
  | lockShared hpc hc hw => exact h
  | @exclusive t c b out hpc hb =>
      have hbody := h.body c
      rw [hb] at hbody
      exact hbody
  | @respondError t id b e hpc hb => exact h.congr (Bus.respond_frame hb).2
  | @emit t id b f hpc hb => exact h.congr (Bus.respond_frame hb).2
  | deliver hpc hb => exact h.deliver hb
  | ended hpc => exact h
  | scan hpc => exact h
  | scanEmpty hpc => exact h
  | scanFound hpc => exact h
  | scanDone hpc => exact h
  | poll hpc => exact h
  | timeUp hpc => exact h
  | @recv ch c f hr => exact h.setChan ch ((h ch).recv hr)
  | @tryRecv ch c f hr => exact h.setChan ch ((h ch).tryRecv hr)
  | @closeChan ch => exact h.setChan ch (h ch).close

theorem Sys.usable_run {as : List Action} {s : Sys} (h : run Sys.step {} as = some s) :
    s.bus.Usable :=
  invariant_run (I := fun s => s.bus.Usable) (fun _ _ _ => usable_step)
    (fun _ => Chan.usable_new (by decide)) h

end Virt

/-- The channels of the bus and the one of the adapter's consumer. -/
def Feed.Usable (s : Feed) : Prop := s.sys.bus.Usable ∧ s.fwd.out.Usable

theorem Feed.usable_step {s s' : Feed} {a : FeedAction} (h : s.Usable)
    (hstep : s.step a = some s') :
    s'.Usable := by
  obtain ⟨hbus, hout⟩ := h
  cases a with
  | bus a =>
      simp only [step] at hstep
      split_ifs at hstep
      obtain ⟨sys, hsys, rfl⟩ := Option.map_eq_some_iff.mp hstep
      exact ⟨Sys.usable_step hbus hsys, hout⟩
  | fetch now =>
      obtain ⟨-, ⟨c, hr, rfl⟩ | ⟨c, f, hr, rfl⟩⟩ := fetch_cases hstep
      · exact ⟨hbus.setChan _ ((hbus _).recv hr), hout⟩
      · exact ⟨hbus.setChan _ ((hbus _).recv hr), hout⟩
  | push =>
      obtain ⟨m, out, -, hoffer, rfl⟩ := push_cases hstep
      exact ⟨hbus, hout.offer hoffer⟩
  | finish =>
      obtain ⟨-, rfl⟩ := finish_cases hstep
      exact ⟨hbus, hout.close⟩
  | recv =>
      obtain ⟨⟨out, m⟩, hr, rfl⟩ := Option.map_eq_some_iff.mp hstep
      exact ⟨hbus, hout.recv hr⟩
  | tryRecv =>
      obtain rfl := Option.some.inj hstep
      exact ⟨hbus, hout.tryRecv rfl⟩
  | close =>
      obtain rfl := Option.some.inj hstep
      exact ⟨hbus, hout.close⟩

/-- Whatever the threads and the consumers of a bus do, and the forwarding thread and the
consumer of an adapter subscription on it, with whatever options: no operation on any of their
channels takes the head of an empty buffer or exceeds the capacity. -/
theorem channels_safe (opts : List SubscriberOption) (as : List Action) (s₀ : Sys) (ch : Nat)
    (w : Forwarder) (acts : List FeedAction) (s : Feed) (hreach : run Sys.step {} as = some s₀)
    (hsub : LinAdapter.subscribe opts (.ok ch) = .ok w)
    (hrun : run Feed.step { sys := s₀, fwd := w } acts = some s) :
    (∀ ch op, (s.sys.bus.chans ch).Safe op) ∧ ∀ op, s.fwd.out.Safe op := by
  have hstart : Feed.Usable { sys := s₀, fwd := w } := by
    refine ⟨Sys.usable_run hreach, ?_⟩
    obtain rfl := Except.ok.inj hsub
    have hdepth := effectiveDepth_pos (applyOptions opts) (by decide : (0 : Int) < 64)
    exact Chan.usable_new (Int.lt_toNat.mpr hdepth)
  obtain ⟨hbus, hout⟩ := invariant_run (I := Feed.Usable) (fun _ _ _ => Feed.usable_step) hstart hrun
  exact ⟨fun ch op => (hbus ch).safe op, fun op => hout.safe op⟩

/-- A depth of less than nothing is asked for on both sides. -/
theorem channels_safe_depth :
    let opts : List SubscriberOption := [withChannelDepth (-1), withBackPressure .dropOldest]
    ∃ s₀ w, run Sys.step {} [.call 0 (.exclusive (.subscribe [] opts)), .lock 0, .step 0] =
        some s₀ ∧
      LinAdapter.subscribe opts (.ok 0) = .ok w ∧ ∀ op, w.out.Safe op := by
  intro opts
  have hreach : run Sys.step {} [.call 0 (.exclusive (.subscribe [] opts)), .lock 0, .step 0] =
      some _ := rfl
  have hsub : LinAdapter.subscribe opts (.ok 0) = .ok _ := rfl
  exact ⟨_, _, hreach, hsub, (channels_safe opts _ _ 0 _ [] _ hreach hsub rfl).2⟩

end CppLin
