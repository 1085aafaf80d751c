import CppLin.Virtual.Effects
import CppLin.Virtual.Threads

/-!
Whether a delivery that is counted took place. The policies that drop look at what the
channel answered; `Block` does not, and counts the frame a closed channel has refused.
-/
namespace CppLin.Virt
open Bytes Relay Run

/-- Neither counter of deliveries differs. -/
def Bus.SameDeliveries (b b' : Bus) : Prop :=
  b'.metrics.deliverCount = b.metrics.deliverCount ∧
    b'.metrics.bytesDelivered = b.metrics.bytesDelivered

/-- The frame is in the channel, behind what was there. -/
def Bus.Placed (f : Frame) (ch : Nat) (b b' : Bus) : Prop :=
  (b'.chans ch).buf = (b.chans ch).buf ++ [f]

/-- The turn of the broadcast loop a step takes: its frame and its subscription. -/
def Sys.turn (s : Sys) : Action → Option (Frame × Subscription)
  | .step t =>
      match s.pc t with
      | .broadcasting _ f (sub :: _) => some (f, sub)
      | _ => none
  | _ => none

/-- A step that counts a delivery is a turn that places its frame, and a turn at a closed
channel counts nothing. -/
def Sys.Honest (s : Sys) (a : Action) : Prop :=
  ∀ s', s.step a = some s' →
    (s'.bus.metrics.deliverCount ≠ s.bus.metrics.deliverCount →
      ∃ f sub, s.turn a = some (f, sub) ∧ Bus.Placed f sub.ch s.bus s'.bus) ∧
    (∀ f sub, s.turn a = some (f, sub) → (s.bus.chans sub.ch).closed = true →
      Bus.SameDeliveries s.bus s'.bus)

/-- The turn is not at a subscriber that blocks, takes the frame and has closed its channel. -/
def Sys.NoClosedBlock (s : Sys) (a : Action) : Prop :=
  ∀ turn ∈ s.turn a, matchesAny turn.2.filters turn.1 = true → turn.2.backPressure = .block →
    (s.bus.chans turn.2.ch).closed = false

instance (s : Sys) (a : Action) : Decidable (s.NoClosedBlock a) :=
  inferInstanceAs (Decidable (∀ turn ∈ s.turn a, _))

namespace Bus

theorem SameDeliveries.refl (b : Bus) : SameDeliveries b b := ⟨rfl, rfl⟩

theorem SameDeliveries.of_metrics {b b' : Bus} (h : b'.metrics = b.metrics) :
    SameDeliveries b b' := by
  rw [SameDeliveries, h]
  exact ⟨rfl, rfl⟩

theorem SameDeliveries.onlyErrors {b b' : Bus} (h : OnlyErrors b b') : SameDeliveries b b' := by
  rw [h]
  exact ⟨rfl, rfl⟩

/-- A turn at a subscriber that blocks and has closed its channel counts the frame. -/
theorem deliver_closedBlock {f : Frame} {b : Bus} {s : Subscription}
    (hm : matchesAny s.filters f = true) (hp : s.backPressure = .block)
    (hc : (b.chans s.ch).closed = true) :
    deliver f b s = some ((b.setChan s.ch (b.chans s.ch)).countDelivery f) := by
  simp [deliver, hm, hp, Chan.send, hc]

/-- What any other turn does: it counts nothing, or it places the frame in an open channel. -/
theorem deliver_honest {f : Frame} {b b' : Bus} {s : Subscription} (h : deliver f b s = some b')
    (hblock : matchesAny s.filters f = true → s.backPressure = .block →
      (b.chans s.ch).closed = false) :
    SameDeliveries b b' ∨ (b.chans s.ch).closed = false ∧ Placed f s.ch b b' := by
  cases hc : (b.chans s.ch).closed with
  | false =>
      obtain ⟨-, rfl⟩ | ⟨-, ⟨-, rfl⟩ | ⟨-, -, rfl⟩ | ⟨-, -, rfl⟩⟩ := deliver_open_cases hc h
      · exact .inl ⟨rfl, rfl⟩
      · refine .inr ⟨rfl, ?_⟩
        change ((b.setChan s.ch ((b.chans s.ch).push f)).chans s.ch).buf = _
        rw [setChan_same, Chan.push_buf]
      · exact .inl ⟨rfl, rfl⟩
      · exact .inl ⟨rfl, rfl⟩
  | true =>
      left
      unfold deliver at h
      by_cases hm : matchesAny s.filters f = false
      · rw [if_pos hm] at h
        exact Option.some.inj h ▸ ⟨rfl, rfl⟩
      · rw [if_neg hm] at h
        cases hp : s.backPressure with
        | dropNewest =>
            simp only [hp, Chan.trySend, hc, if_true, Option.some.injEq] at h
            exact h ▸ ⟨rfl, rfl⟩
        | dropOldest =>
            simp only [hp, Chan.sendDropOldest, hc, if_true, Option.some.injEq] at h
            exact h ▸ ⟨rfl, rfl⟩
        | block =>
            have hopen := hblock (by simpa using hm) hp
            rw [hc] at hopen
            cases hopen

end Bus

theorem Exclusive.body_sameDeliveries {b b' : Bus} {c : Exclusive} {out : Outcome}
    (h : c.body b = (b', out)) : Bus.SameDeliveries b b' := by
  have published : ∀ id data ct, Bus.SameDeliveries b (b.doPublish id data ct).1 := by
    intro id data ct
    unfold Bus.doPublish
    split_ifs <;> exact ⟨rfl, rfl⟩
  obtain rfl := congrArg Prod.fst h
  cases c with
  | publish id data => exact published id data .enhanced
  | publishClassic id data => exact published id data .classic
  | setSchedule entries =>
      simp only [Exclusive.body, Bus.setSchedule]
      split_ifs <;> exact ⟨rfl, rfl⟩
  | subscribe filters opts =>
      simp only [Exclusive.body, Bus.subscribe]
      split_ifs <;> exact ⟨rfl, rfl⟩
  | close => exact .of_metrics b.close_metrics
  | closeDrained timedOut => exact .of_metrics b.close_metrics

namespace Sys

theorem turn_of_broadcasting {s : Sys} {t n : Nat} {f : Frame} {sub : Subscription}
    {todo : List Subscription} (hpc : s.pc t = .broadcasting n f (sub :: todo)) :
    s.turn (.step t) = some (f, sub) := by
  rw [turn, hpc]

theorem sameDeliveries_of_step {s s' : Sys} {a : Action} (h : Moves s a s')
    (hturn : s.turn a = none) : Bus.SameDeliveries s.bus s'.bus := by
  cases h with
  | exclusive hpc hb => exact Exclusive.body_sameDeliveries hb
  | respondError hpc hb =>
      rw [ret_bus, unlockShared_bus, setBus_bus, Bus.respond_error hb]
      exact ⟨rfl, rfl⟩
  | emit hpc hb =>
      obtain ⟨-, -, e, -, -, rfl⟩ := Bus.respond_ok hb
      exact ⟨rfl, rfl⟩
  | deliver hpc hb =>
      rw [turn_of_broadcasting hpc] at hturn
      cases hturn
  | _ => exact ⟨rfl, rfl⟩

theorem turn_eq_some {s : Sys} {a : Action} {f : Frame} {sub : Subscription}
    (h : s.turn a = some (f, sub)) :
    ∃ t n todo, a = .step t ∧ s.pc t = .broadcasting n f (sub :: todo) := by
  cases a with
  | step t =>
      simp only [turn] at h
      split at h
      case h_1 n f' sub' todo hpc =>
        obtain ⟨rfl, rfl⟩ := Prod.mk.inj (Option.some.inj h)
        exact ⟨t, n, todo, rfl, hpc⟩
      case h_2 => cases h
  | _ => cases h

theorem deliver_of_turn {s s' : Sys} {a : Action} {f : Frame} {sub : Subscription}
    (hturn : s.turn a = some (f, sub)) (h : s.step a = some s') :
    Bus.deliver f s.bus sub = some s'.bus := by
  obtain ⟨t, n, todo, rfl, hpc⟩ := turn_eq_some hturn
  change s.advance t = some s' at h
  simp only [advance, hpc] at h
  obtain ⟨b, hb, rfl⟩ := Option.map_eq_some_iff.mp h
  exact hb

theorem honest_iff (s : Sys) (a : Action) : s.Honest a ↔ s.NoClosedBlock a := by
  constructor
  · intro hhonest
    rintro ⟨f, sub⟩ hturn hm hp
    by_contra hc
    have hclosed : (s.bus.chans sub.ch).closed = true := by simpa using hc
    obtain ⟨t, n, todo, rfl, hpc⟩ := turn_eq_some hturn
    have hstep : s.step (.step t) = some (((s.setBus ((s.bus.setChan sub.ch
        (s.bus.chans sub.ch)).countDelivery f)).goto t (.broadcasting n f todo)).record
        (if s.bus.takes f sub then [.enqueued n sub.ch f] else [])) := by
      change s.advance t = _
      simp only [advance, hpc, Bus.deliver_closedBlock hm hp hclosed, Option.map_some]
    have hcount := ((hhonest _ hstep).2 f sub hturn hclosed).1
    exact absurd (UInt64.add_eq_left.mp hcount) (by decide)
  · intro hopen s' hstep
    cases hturn : s.turn a with
    | none =>
        have hsame := sameDeliveries_of_step (moves_of_step hstep) hturn
        refine ⟨fun hne => absurd hsame.1 hne, ?_⟩
        rintro f sub ⟨⟩
    | some turn =>
        obtain ⟨f, sub⟩ := turn
        have hd := deliver_of_turn hturn hstep
        obtain hsame | ⟨hlive, hplaced⟩ := Bus.deliver_honest hd (hopen (f, sub) hturn)
        · refine ⟨fun hne => absurd hsame.1 hne, ?_⟩
          rintro f' sub' ⟨⟩ -
          exact hsame
        · refine ⟨fun _ => ⟨f, sub, rfl, hplaced⟩, ?_⟩
          rintro f' sub' ⟨⟩ hclosed
          rw [hlive] at hclosed
          cases hclosed

end Sys

/-- Along any run every delivery that is counted takes place, and every turn at a closed
channel leaves the counters, if and only if no turn of a broadcast comes to a subscriber that
blocks, takes the frame and has closed its channel. -/
theorem no_phantom_iff (as : List Action) :
    Guarded Sys.step Sys.Honest {} as ↔ Guarded Sys.step Sys.NoClosedBlock {} as :=
  guarded_congr Sys.honest_iff {} as

/-- A subscriber under `Block` closes its channel, and then a header is sent. -/
def phantomDelivery : List Action :=
  [.call 1 (.exclusive (.subscribe [] [withBackPressure .block])), .lock 1, .step 1, .closeChan 0,
    .call 1 (.exclusive (.publish 5 [0xAA])), .lock 1, .step 1,
    .call 1 (.sendHeader 5), .lock 1, .step 1, .step 1]

theorem not_no_phantom : ¬ ∀ as, Guarded Sys.step Sys.Honest {} as := by
  intro h
  have hguarded := (guarded_congr Sys.honest_iff {} phantomDelivery).mp (h phantomDelivery)
  revert hguarded
  decide +kernel

/-- The frame is counted, bytes and all, and the channel is empty. -/
example : (run Sys.step {} phantomDelivery).any fun s =>
    s.bus.metrics.deliverCount == 1 && s.bus.metrics.bytesDelivered == 1 &&
      (s.bus.chans 0).size == 0 := by decide +kernel

end CppLin.Virt
