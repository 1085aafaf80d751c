import CppLin.Forwarding

/-!
Whether closing the bus releases the forwarding thread of an adapter subscription: it
waits on the channel from the bus, which the bus closes, and under `Block` on the channel
of the consumer, which only the consumer closes.
-/
namespace CppLin
open Bytes Relay Run Virt

/-- Under `Block` a `send` to the consumer would wait. -/
def Forwarder.Waits (w : Forwarder) : Prop :=
  w.bp = .block ∧ w.out.closed = false ∧ w.out.isFull = true

def FeedAction.byForwarder : FeedAction → Bool
  | .fetch _ | .push | .finish => true
  | _ => false

/-- Once the channel from the bus is closed, the forwarding thread has ended and closed
the channel of the consumer, or there is a step it can take by itself. -/
def Feed.Released (s : Feed) : Prop :=
  (s.sys.bus.chans s.fwd.frameCh).closed = true →
    (s.fwd.stage = .exited ∧ s.fwd.out.closed = true) ∨
      ∃ a : FeedAction, a.byForwarder = true ∧ (s.step a).isSome

/-- The thread is about to run the body of `close`. -/
def Virt.Sys.closes (s : Sys) : Action → Bool
  | .step t =>
      match s.pc t with
      | .entered (.exclusive .close) | .entered (.exclusive (.closeDrained _)) => true
      | _ => false
  | _ => false

/-- Where the consumer is waited for, the bus does not close over a message held for it,
and the thread does not take another frame from a channel that is closed. -/
def Feed.Spares (s : Feed) : FeedAction → Prop
  | .bus a => s.sys.closes a = true → s.fwd.held ≠ none → ¬ s.fwd.Waits
  | .fetch _ => (s.sys.bus.chans s.fwd.frameCh).closed = true →
      (s.sys.bus.chans s.fwd.frameCh).buf ≠ [] → ¬ s.fwd.Waits
  | _ => True

/-- What holds of a feed in every state: the channel from the bus is closed with the bus. -/
structure Feed.Coupled (s : Feed) : Prop where
  attached : Attached s.fwd.subscription s.sys.bus
  closed : (s.sys.bus.chans s.fwd.frameCh).closed = s.sys.bus.closed
  exited : s.fwd.stage = .exited → s.fwd.out.closed = true

namespace Feed

/-- The thread is held up exactly where it holds a message the consumer has no room for. -/
theorem released_iff {s : Feed} (hexited : s.fwd.stage = .exited → s.fwd.out.closed = true) :
    s.Released ↔ ((s.sys.bus.chans s.fwd.frameCh).closed = true → s.fwd.held ≠ none →
      ¬ s.fwd.Waits) := by
  refine imp_congr_right fun hc => ?_
  cases hstage : s.fwd.stage with
  | receiving =>
    refine iff_of_true (.inr ⟨.fetch 0, rfl, ?_⟩) (by simp [Forwarder.held, hstage])
    cases hbuf : (s.sys.bus.chans s.fwd.frameCh).buf with
    | nil => simp [step, hstage, Chan.recv, hbuf, hc]
    | cons f fs => simp [step, hstage, Chan.recv, hbuf]
  | closing =>
    exact iff_of_true (.inr ⟨.finish, rfl, by simp [step, hstage]⟩)
      (by simp [Forwarder.held, hstage])
  | exited => exact iff_of_true (.inl ⟨rfl, hexited hstage⟩) (by simp [Forwarder.held, hstage])
  | sending m =>
    have hheld : s.fwd.held ≠ none := by simp [Forwarder.held, hstage]
    constructor
    · rintro (⟨hx, -⟩ | ⟨a, ha, hstep⟩) - ⟨hbp, hopen, hfull⟩
      · cases hx
      · cases a with
        | push =>
          have hsend : s.fwd.out.send m = none := (Chan.send_eq_none_iff _ m).mpr ⟨hopen, hfull⟩
          simp [step, hstage, hbp, Chan.offer, hsend] at hstep
        | fetch now => simp [step, hstage] at hstep
        | finish => simp [step, hstage] at hstep
        | _ => cases ha
    · intro hroom
      refine .inr ⟨.push, rfl, ?_⟩
      have hoffer : (s.fwd.out.offer s.fwd.bp m).isSome := by
        cases hbp : s.fwd.bp with
        | dropNewest => rfl
        | dropOldest => rfl
        | block =>
          rw [Chan.offer, Option.isSome_map, Option.isSome_iff_ne_none]
          intro hnone
          obtain ⟨hopen, hfull⟩ := (Chan.send_eq_none_iff _ m).mp hnone
          exact hroom hheld ⟨hbp, hopen, hfull⟩
      simpa [step, hstage] using hoffer

end Feed

/-- The bodies run under the exclusive lock close the bus or leave it as it is. -/
theorem Virt.Exclusive.body_closed (b : Bus) (c : Exclusive) : (c.body b).1.closed =
    (b.closed || match c with | .close | .closeDrained _ => true | _ => false) := by
  have publish : ∀ id data ct, (b.doPublish id data ct).1.closed = b.closed := by
    intro id data ct
    cases hp : b.doPublish id data ct with
    | mk m e =>
      cases e with
      | none => rw [(Bus.doPublish_ok hp).2.2]
      | some e => rw [Bus.doPublish_error hp]; rfl
  cases c with
  | publish id data => exact (publish id data .enhanced).trans (Bool.or_false _).symm
  | publishClassic id data => exact (publish id data .classic).trans (Bool.or_false _).symm
  | setSchedule entries =>
    simp only [Exclusive.body, Bus.setSchedule, Bool.or_false]
    split_ifs <;> rfl
  | subscribe filters opts =>
    simp only [Exclusive.body, Bus.subscribe, Bool.or_false]
    split_ifs <;> rfl
  | close => exact (Bus.close_closed b).trans (Bool.or_true _).symm
  | closeDrained timedOut => exact (Bus.close_closed b).trans (Bool.or_true _).symm

theorem Virt.Sys.closed_step {s s' : Sys} {a : Action} (h : Sys.Moves s a s') :
    s'.bus.closed = (s.bus.closed || s.closes a) := by
  have quiet : s.closes a = false → s'.bus.closed = s.bus.closed →
      s'.bus.closed = (s.bus.closed || s.closes a) := by
    intro hc hsame
    rw [hc, hsame, Bool.or_false]
  cases h with
  | @exclusive t c b out hpc hb =>
    obtain rfl := congrArg Prod.fst hb
    refine (Exclusive.body_closed s.bus c).trans ?_
    cases c <;> simp only [Sys.closes, hpc]
  | respondError hpc hb => exact quiet (by simp [Sys.closes, hpc]) (Bus.respond_frame hb).1.closed
  | emit hpc hb => exact quiet (by simp [Sys.closes, hpc]) (Bus.respond_frame hb).1.closed
  | deliver hpc hb => exact quiet (by simp [Sys.closes, hpc]) (Bus.deliver_sameTables hb).closed
  | ended hpc | scan hpc | scanEmpty hpc | scanFound hpc | scanDone hpc =>
    exact quiet (by simp [Sys.closes, hpc]) rfl
  | _ => exact quiet rfl rfl

section
variable {sub : Subscription}

/-- The channel of a subscription is closed by what closes the bus. -/
theorem Virt.Attached.body_chan_closed {b : Bus} (h : Attached sub b)
    (hc : (b.chans sub.ch).closed = b.closed) (c : Exclusive) :
    ((c.body b).1.chans sub.ch).closed = ((b.chans sub.ch).closed ||
      match c with | .close | .closeDrained _ => true | _ => false) := by
  have close : (b.close.1.chans sub.ch).closed = ((b.chans sub.ch).closed || true) := by
    cases hopen : b.closed with
    | true => rw [Bus.close_of_closed hopen, hc, hopen]; rfl
    | false =>
      have hany : (b.subs.any fun s => s.ch == sub.ch) = true :=
        List.any_eq_true.mpr ⟨sub, (h.present hopen).1, beq_self_eq_true _⟩
      rw [Bus.close_chans_closed hopen, hany]
  cases c with
  | publish id data =>
    exact (congrArg (fun c => (c sub.ch).closed) (b.doPublish_chans id data .enhanced)).trans
      (Bool.or_false _).symm
  | publishClassic id data =>
    exact (congrArg (fun c => (c sub.ch).closed) (b.doPublish_chans id data .classic)).trans
      (Bool.or_false _).symm
  | setSchedule entries =>
    simp only [Exclusive.body, Bus.setSchedule, Bool.or_false]
    split_ifs <;> rfl
  | subscribe filters opts =>
    simp only [Exclusive.body, Bus.subscribe, Bool.or_false]
    split_ifs
    · rfl
    · simp only [Function.update_of_ne h.allocated.ne]
  | close => exact close
  | closeDrained timedOut => exact close

theorem Virt.Attached.chan_closed_step {s s' : Sys} {a : Action} (h : Attached sub s.bus)
    (hc : (s.bus.chans sub.ch).closed = s.bus.closed) (ha : a.channel ≠ some sub.ch)
    (hm : Sys.Moves s a s') :
    (s'.bus.chans sub.ch).closed = ((s.bus.chans sub.ch).closed || s.closes a) := by
  have quiet : s.closes a = false → (s'.bus.chans sub.ch).closed = (s.bus.chans sub.ch).closed →
      (s'.bus.chans sub.ch).closed = ((s.bus.chans sub.ch).closed || s.closes a) := by
    intro hno hsame
    rw [hno, hsame, Bool.or_false]
  have other : ∀ {ch : Nat} {c : Chan Frame}, some ch ≠ some sub.ch →
      ((s.bus.setChan ch c).chans sub.ch).closed = (s.bus.chans sub.ch).closed := by
    intro ch c hne
    rw [Bus.setChan_other _ _ fun he => hne (congrArg some he.symm)]
  cases hm with
  | @exclusive t c b out hpc hb =>
    obtain rfl := congrArg Prod.fst hb
    refine (h.body_chan_closed hc c).trans ?_
    cases c <;> simp only [Sys.closes, hpc]
  | respondError hpc hb =>
    exact quiet (by simp [Sys.closes, hpc])
      (congrArg (fun c => (c sub.ch).closed) (Bus.respond_frame hb).2)
  | emit hpc hb =>
    exact quiet (by simp [Sys.closes, hpc])
      (congrArg (fun c => (c sub.ch).closed) (Bus.respond_frame hb).2)
  | deliver hpc hb =>
    exact quiet (by simp [Sys.closes, hpc]) (Bus.deliver_shape hb sub.ch).1
  | recv hr => exact quiet rfl (other ha)
  | tryRecv hr => exact quiet rfl (other ha)
  | closeChan => exact quiet rfl (other ha)
  | ended hpc | scan hpc | scanEmpty hpc | scanFound hpc | scanDone hpc =>
    exact quiet (by simp [Sys.closes, hpc]) rfl
  | _ => exact quiet rfl rfl

end

namespace Feed

theorem Coupled.bus_step {s s' : Feed} {a : Action} (h : s.Coupled)
    (hstep : s.step (.bus a) = some s') : s'.Coupled ∧ s'.fwd = s.fwd ∧
      (s'.sys.bus.chans s'.fwd.frameCh).closed =
        ((s.sys.bus.chans s.fwd.frameCh).closed || s.sys.closes a) := by
  simp only [step] at hstep
  split_ifs at hstep with ha
  obtain ⟨m, hm, rfl⟩ := Option.map_eq_some_iff.mp hstep
  have hmoves := Sys.moves_of_step hm
  have hchan := h.attached.chan_closed_step h.closed ha hmoves
  refine ⟨⟨h.attached.step ha hmoves, ?_, h.exited⟩, rfl, hchan⟩
  rw [Sys.closed_step hmoves, ← h.closed]
  exact hchan

theorem Coupled.apart {s s' : Feed} (h : s.Coupled) (hch : s'.fwd.frameCh = s.fwd.frameCh)
    (hsubs : s'.sys.bus.subs = s.sys.bus.subs) (hclosed : s'.sys.bus.closed = s.sys.bus.closed)
    (hhandles : s'.sys.bus.handles = s.sys.bus.handles)
    (hchan : (s'.sys.bus.chans s.fwd.frameCh).closed = (s.sys.bus.chans s.fwd.frameCh).closed)
    (hexited : s'.fwd.stage = .exited → s'.fwd.out.closed = true) : s'.Coupled := by
  refine ⟨?_, ?_, hexited⟩
  · rw [Forwarder.subscription_congr hch]
    exact h.attached.same hsubs hclosed hhandles hchan
  · rw [hch, hchan, hclosed]
    exact h.closed

theorem Coupled.consume {s : Feed} (h : s.Coupled) (hr : s.Released) {out : Chan Message}
    {m : Option Message} (hbuf : s.fwd.out.buf = m.toList ++ out.buf)
    (hshape : out.closed = s.fwd.out.closed ∧ out.capacity = s.fwd.out.capacity)
    (received : List Message) :
    Coupled { s with fwd := { s.fwd with out }, received } ∧
      Released { s with fwd := { s.fwd with out }, received } := by
  obtain ⟨hclosed, hcap⟩ := hshape
  have hc : Coupled { s with fwd := { s.fwd with out }, received } :=
    h.apart rfl rfl rfl rfl rfl fun hx => hclosed.trans (h.exited hx)
  rw [released_iff h.exited] at hr
  refine ⟨hc, (released_iff hc.exited).mpr ?_⟩
  rintro hcl hheld ⟨hblock, hopen, hfull⟩
  refine hr hcl hheld ⟨hblock, hclosed.symm.trans hopen, ?_⟩
  rw [Chan.isFull_iff] at hfull ⊢
  rw [hbuf, ← hcap, List.length_append]
  exact Nat.le_add_left_of_le hfull

theorem Coupled.released_of_idle {s : Feed} (h : s.Coupled) (hheld : s.fwd.held = none) :
    s.Released := by
  rw [released_iff h.exited]
  exact fun _ hne => absurd hheld hne

theorem Coupled.fetch {s s' : Feed} {now : Int} (h : s.Coupled)
    (hstep : s.step (.fetch now) = some s') : s'.Coupled ∧ (s'.Released ↔ s.Spares (.fetch now)) := by
  have hshape : ∀ {c f}, (s.sys.bus.chans s.fwd.frameCh).recv = some (c, f) →
      ((s.sys.take s.fwd.frameCh c f).bus.chans s.fwd.frameCh).closed =
        (s.sys.bus.chans s.fwd.frameCh).closed := by
    intro c f hrecv
    rw [Sys.take, Bus.setChan_same, (Chan.recv_shape hrecv).1]
  obtain ⟨-, ⟨c, hrecv, rfl⟩ | ⟨c, f, hrecv, rfl⟩⟩ := Feed.fetch_cases hstep
  · have hc : Coupled { s with sys := s.sys.take s.fwd.frameCh c none
                               fwd := { s.fwd with stage := .closing } } :=
      h.apart rfl rfl rfl rfl (hshape hrecv) fun hx => by cases hx
    have hempty : (s.sys.bus.chans s.fwd.frameCh).buf = [] := by
      unfold Chan.recv at hrecv
      split at hrecv
      · assumption
      · cases hrecv
    exact ⟨hc, iff_of_true (hc.released_of_idle rfl) fun _ hne => absurd hempty hne⟩
  · refine ⟨h.apart rfl rfl rfl rfl (hshape hrecv) (fun hx => by cases hx), ?_⟩
    rw [released_iff (fun hx => by cases hx), hshape hrecv]
    have hne : (s.sys.bus.chans s.fwd.frameCh).buf ≠ [] := by simp [Chan.recv_buf hrecv]
    exact imp_congr_right fun _ => ⟨fun hw _ => hw (by simp [Forwarder.held]), fun hw _ => hw hne⟩

/-- Every step keeps the channels coupled, and leaves the thread released exactly where
it spares it. -/
theorem Coupled.step {s s' : Feed} {a : FeedAction} (h : s.Coupled) (hr : s.Released)
    (hstep : s.step a = some s') : s'.Coupled ∧ (s'.Released ↔ s.Spares a) := by
  cases a with
  | bus a =>
    obtain ⟨hc, hfwd, hchan⟩ := h.bus_step hstep
    refine ⟨hc, ?_⟩
    rw [released_iff h.exited] at hr
    rw [released_iff hc.exited, hchan, hfwd, Spares]
    cases hclosed : (s.sys.bus.chans s.fwd.frameCh).closed with
    | true =>
      have hspared := hr hclosed
      exact iff_of_true (fun _ => hspared) (fun _ => hspared)
    | false => rw [Bool.false_or]
  | fetch now => exact h.fetch hstep
  | push =>
    obtain ⟨m, out, -, -, rfl⟩ := Feed.push_cases hstep
    have hc : Coupled { s with fwd := { s.fwd with out, stage := .receiving } } :=
      h.apart rfl rfl rfl rfl rfl fun hx => by cases hx
    exact ⟨hc, iff_of_true (hc.released_of_idle rfl) trivial⟩
  | finish =>
    obtain ⟨-, rfl⟩ := Feed.finish_cases hstep
    have hc : Coupled { s with fwd := { s.fwd with out := s.fwd.out.close, stage := .exited } } :=
      h.apart rfl rfl rfl rfl rfl fun _ => rfl
    exact ⟨hc, iff_of_true (hc.released_of_idle rfl) trivial⟩
  | recv =>
    obtain ⟨⟨out, m⟩, hm, rfl⟩ := Option.map_eq_some_iff.mp hstep
    obtain ⟨hc, hr'⟩ := h.consume hr (Chan.recv_buf hm) (Chan.recv_shape hm) _
    exact ⟨hc, iff_of_true hr' trivial⟩
  | tryRecv =>
    obtain rfl := Option.some.inj hstep
    obtain ⟨hc, hr'⟩ := h.consume hr (Chan.tryRecv_buf rfl) (Chan.tryRecv_shape rfl) _
    exact ⟨hc, iff_of_true hr' trivial⟩
  | close =>
    obtain rfl := Option.some.inj hstep
    have hc : Coupled { s with fwd := { s.fwd with out := s.fwd.out.close } } :=
      h.apart rfl rfl rfl rfl rfl fun _ => rfl
    refine ⟨hc, iff_of_true ((released_iff hc.exited).mpr ?_) trivial⟩
    rintro - - ⟨-, hopen, -⟩
    cases hopen

end Feed

theorem Feed.released_always_iff {s s' : Feed} {as : List FeedAction} (hc : s.Coupled)
    (hr : s.Released) (h : run Feed.step s as = some s') :
    (∀ past, past <+: as → ∀ m, run Feed.step s past = some m → m.Released) ↔
      Guarded Feed.step Feed.Spares s as :=
  guarded_iff_always (I := Feed.Coupled) (A := fun _ => True)
    (fun _ _ _ _ hc hr hstep => (hc.step hr hstep).1)
    (fun _ _ _ _ hc hr hstep => (hc.step hr hstep).2) (fun _ _ => trivial) hc hr h

theorem Feed.coupled_start {before : List Action} {s₀ s₁ : Sys} {t : Nat}
    {opts : List SubscriberOption} {w : Forwarder} (h₀ : run Sys.step {} before = some s₀)
    (hpc : s₀.pc t = .entered (.exclusive (.subscribe [] []))) (h₁ : s₀.step (.step t) = some s₁)
    (hw : LinAdapter.subscribe opts (s₀.bus.subscribe [] []).2 = .ok w) :
    Coupled { sys := s₁, fwd := w } ∧ Released { sys := s₁, fwd := w } := by
  obtain ⟨-, -, -, hstage, -, -⟩ := LinAdapter.subscribe_ok hw
  obtain ⟨-, hattached, hopen, -⟩ := LinAdapter.attached (Sys.wellFormed_run h₀) hpc h₁ hw
  have hc : Feed.Coupled { sys := s₁, fwd := w } :=
    ⟨hattached, (hattached.present hopen).2.trans hopen.symm, fun hx => by simp [hstage] at hx⟩
  exact ⟨hc, hc.released_of_idle (by simp [Forwarder.held, hstage])⟩

theorem Feed.step_bp {s s' : Feed} {a : FeedAction} (h : s.step a = some s') :
    s'.fwd.bp = s.fwd.bp := by
  cases a with
  | bus a =>
    simp only [Feed.step] at h
    split_ifs at h
    obtain ⟨m, -, rfl⟩ := Option.map_eq_some_iff.mp h
    rfl
  | fetch now => exact (Feed.fetch_some h).2.choose_spec.choose_spec.2.2.2.2.1
  | push =>
    obtain ⟨m, out, -, -, rfl⟩ := Feed.push_cases h
    rfl
  | finish =>
    obtain ⟨-, rfl⟩ := Feed.finish_cases h
    rfl
  | recv =>
    obtain ⟨⟨out, m⟩, -, rfl⟩ := Option.map_eq_some_iff.mp h
    rfl
  | tryRecv | close =>
    obtain rfl := Option.some.inj h
    rfl

/-- Under the two policies that drop nothing is ever held for a full channel. -/
theorem Feed.guarded_of_lossy {s : Feed} (hs : s.fwd.bp ≠ .block) (as : List FeedAction) :
    Guarded Feed.step Feed.Spares s as := by
  refine guarded_of_invariant (I := fun s => s.fwd.bp ≠ .block) (A := fun _ => True)
    (fun s a s' hs _ hstep => (Feed.step_bp hstep).symm ▸ hs) ?_ (fun _ _ => trivial) hs
  intro s a hs
  have hroom : ¬ s.fwd.Waits := fun hwait => hs hwait.1
  cases a <;> simp [Feed.Spares, hroom]

/-- The thread of an adapter subscription is released all along a run exactly when the bus
never closes over a message held for a full channel under `Block`, and the thread never
takes a frame from the closed channel while the consumer has no room; under the two policies
that drop it is so in every run. -/
theorem forwarder_released_iff {before : List Action} {s₀ s₁ : Sys} {t : Nat}
    {opts : List SubscriberOption} {w : Forwarder} (h₀ : run Sys.step {} before = some s₀)
    (hpc : s₀.pc t = .entered (.exclusive (.subscribe [] []))) (h₁ : s₀.step (.step t) = some s₁)
    (hw : LinAdapter.subscribe opts (s₀.bus.subscribe [] []).2 = .ok w)
    {as : List FeedAction} {s : Feed} (h : run Feed.step { sys := s₁, fwd := w } as = some s) :
    ((∀ past, past <+: as → ∀ m, run Feed.step { sys := s₁, fwd := w } past = some m →
      m.Released) ↔ Guarded Feed.step Feed.Spares { sys := s₁, fwd := w } as) ∧
    ((applyOptions opts).backPressure ≠ .block →
      Guarded Feed.step Feed.Spares { sys := s₁, fwd := w } as) := by
  obtain ⟨hc, hr⟩ := Feed.coupled_start h₀ hpc h₁ hw
  obtain ⟨-, -, -, -, hbp, -⟩ := LinAdapter.subscribe_ok hw
  exact ⟨Feed.released_always_iff hc hr h, fun hlossy => Feed.guarded_of_lossy (hbp ▸ hlossy) as⟩

def closing : List FeedAction :=
  [.bus (.call 2 (.exclusive .close)), .bus (.lock 2), .bus (.step 2)]

/-- The consumer has no room for the second of two frames when the bus closes. -/
theorem not_forwarder_released : ¬ ∀ (before : List Action) (s₀ s₁ : Sys) (t : Nat)
    (opts : List SubscriberOption) (w : Forwarder) (as : List FeedAction) (s : Feed),
    run Sys.step {} before = some s₀ → s₀.pc t = .entered (.exclusive (.subscribe [] [])) →
    s₀.step (.step t) = some s₁ → LinAdapter.subscribe opts (s₀.bus.subscribe [] []).2 = .ok w →
    run Feed.step { sys := s₁, fwd := w } as = some s → s.Released := by
  intro h
  let opts : List SubscriberOption := [withBackPressure .block, withChannelDepth 1]
  let as := header ++ [FeedAction.fetch 7, .push] ++ header ++ [FeedAction.fetch 8] ++ closing
  obtain ⟨s₀, s₁, w, h₀, hpc, h₁, hw, hstuck⟩ : ∃ s₀ s₁ w,
      run Sys.step {} adapterSubscribes = some s₀ ∧
      s₀.pc 0 = .entered (.exclusive (.subscribe [] [])) ∧ s₀.step (.step 0) = some s₁ ∧
      LinAdapter.subscribe opts (s₀.bus.subscribe [] []).2 = .ok w ∧
      (run Feed.step { sys := s₁, fwd := w } as).any fun s =>
        decide ((s.sys.bus.chans s.fwd.frameCh).closed = true ∧ s.fwd.held.isSome ∧
          s.fwd.bp = .block ∧ s.fwd.out.closed = false ∧ s.fwd.out.isFull = true) := by
    refine ⟨_, _, _, rfl, rfl, rfl, rfl, ?_⟩
    decide +kernel
  obtain ⟨s, hs, hfacts⟩ := (Option.any_eq_true _ _).mp hstuck
  obtain ⟨hclosed, hheld, hwaits⟩ := of_decide_eq_true hfacts
  have hr := h adapterSubscribes s₀ s₁ 0 opts w as s h₀ hpc h₁ hw hs
  have hlive : s.fwd.stage ≠ .exited := by
    intro hx
    simp [Forwarder.held, hx] at hheld
  rw [Feed.released_iff fun hx => absurd hx hlive] at hr
  exact hr hclosed (Option.isSome_iff_ne_none.mp hheld) hwaits

/-- The bus closes on a message the consumer has room for, and the thread ends. -/
theorem forwarder_released_iff_room : ∃ s₀ s₁ w s,
    run Sys.step {} adapterSubscribes = some s₀ ∧ s₀.step (.step 0) = some s₁ ∧
    LinAdapter.subscribe [withBackPressure .block] (s₀.bus.subscribe [] []).2 = .ok w ∧
    run Feed.step { sys := s₁, fwd := w }
      (header ++ [FeedAction.fetch 7] ++ closing ++ [FeedAction.push, .fetch 8, .finish]) = some s ∧
    ((∀ past, past <+: header ++ [FeedAction.fetch 7] ++ closing ++
        [FeedAction.push, .fetch 8, .finish] →
      ∀ m, run Feed.step { sys := s₁, fwd := w } past = some m → m.Released) ↔
        Guarded Feed.step Feed.Spares { sys := s₁, fwd := w }
          (header ++ [FeedAction.fetch 7] ++ closing ++ [FeedAction.push, .fetch 8, .finish])) := by
  obtain ⟨s₀, s₁, w, h₀, hpc, h₁, hw, hruns⟩ : ∃ s₀ s₁ w,
      run Sys.step {} adapterSubscribes = some s₀ ∧
      s₀.pc 0 = .entered (.exclusive (.subscribe [] [])) ∧ s₀.step (.step 0) = some s₁ ∧
      LinAdapter.subscribe [withBackPressure .block] (s₀.bus.subscribe [] []).2 = .ok w ∧
      (run Feed.step { sys := s₁, fwd := w } (header ++ [FeedAction.fetch 7] ++ closing ++
        [FeedAction.push, .fetch 8, .finish])).isSome = true := by
    refine ⟨_, _, _, rfl, rfl, rfl, rfl, ?_⟩
    decide +kernel
  obtain ⟨s, hrun⟩ := Option.isSome_iff_exists.mp hruns
  exact ⟨s₀, s₁, w, s, h₀, h₁, hw, hrun, (forwarder_released_iff h₀ hpc h₁ hw hrun).1⟩

end CppLin
