import CppLin.Virtual.Turns

/-!
`LinAdapter::subscribe`: a thread of its own takes the frames from the channel it has
subscribed to on the bus and sends them as messages into the channel of the consumer.
Both channels are bounded; the policy asked for is that of the second only.
-/
namespace CppLin
open Bytes Relay Run Virt Causality

/-- Where the forwarding thread is. -/
inductive Forwarding where
  | receiving
  | sending (m : Message)
  | closing
  | exited

/-- What the forwarding thread owns or shares with the bus and the consumer. -/
structure Forwarder where
  frameCh : Nat
  out : Chan Message
  seq : UInt64 := 0
  bp : BackPressurePolicy
  stage : Forwarding := .receiving

/-- `subscribe`, from the answer of the bus to `subscribe({}, {})` on. -/
def LinAdapter.subscribe (opts : List SubscriberOption) (frames : Except ErrorCode Nat) :
    Except ErrorCode Forwarder :=
  let cfg := applyOptions opts
  match frames with
  | .error e => .error e
  | .ok frameCh =>
      let depth := cfg.effectiveDepth 64
      .ok { frameCh, out := { capacity := depth.toNat }, bp := cfg.backPressure }

def Forwarder.held (w : Forwarder) : Option Message :=
  match w.stage with
  | .sending m => some m
  | _ => none

/-- The subscription `subscribe({}, {})` makes. -/
def Forwarder.subscription (w : Forwarder) : Subscription := ⟨[], w.frameCh, .dropNewest⟩

theorem Forwarder.subscription_congr {w w' : Forwarder} (h : w'.frameCh = w.frameCh) :
    w'.subscription = w.subscription := by
  rw [subscription, subscription, h]

/-- A bus, the forwarding thread of one adapter subscription on it, and what its consumer
has received. -/
structure Feed where
  sys : Sys
  fwd : Forwarder
  received : List Message := []

inductive FeedAction where
  | bus (a : Action)
  | fetch (now : Int)
  | push
  | finish
  | recv
  | tryRecv
  | close

/-- Only the forwarding thread takes from the channel of its subscription. -/
def Feed.step (s : Feed) : FeedAction → Option Feed
  | .bus a =>
      if a.channel = some s.fwd.frameCh then none
      else (s.sys.step a).map ({ s with sys := · })
  | .fetch now =>
      match s.fwd.stage with
      | .receiving =>
          (s.sys.bus.chans s.fwd.frameCh).recv.map fun (c, f) =>
            match f with
            | none =>
                { s with sys := s.sys.take s.fwd.frameCh c none, fwd := { s.fwd with stage := .closing } }
            | some f =>
                let seq := s.fwd.seq + 1
                let msg := { toMessage f with timestamp := now, seq }
                { s with
                  sys := s.sys.take s.fwd.frameCh c (some f)
                  fwd := { s.fwd with seq, stage := .sending msg } }
      | _ => none
  | .push =>
      match s.fwd.stage with
      | .sending msg =>
          (s.fwd.out.offer s.fwd.bp msg).map fun out =>
            { s with fwd := { s.fwd with out, stage := .receiving } }
      | _ => none
  | .finish =>
      match s.fwd.stage with
      | .closing => some { s with fwd := { s.fwd with out := s.fwd.out.close, stage := .exited } }
      | _ => none
  | .recv =>
      s.fwd.out.recv.map fun (out, m) =>
        { s with fwd := { s.fwd with out }, received := s.received ++ m.toList }
  | .tryRecv =>
      let (out, m) := s.fwd.out.tryRecv
      some { s with fwd := { s.fwd with out }, received := s.received ++ m.toList }
  | .close => some { s with fwd := { s.fwd with out := s.fwd.out.close } }

/-! What each step of the thread finds and leaves. -/

theorem Feed.fetch_cases {s s' : Feed} {now : Int} (h : s.step (.fetch now) = some s') :
    s.fwd.stage = .receiving ∧
      ((∃ c, (s.sys.bus.chans s.fwd.frameCh).recv = some (c, none) ∧
        s' = { s with
          sys := s.sys.take s.fwd.frameCh c none
          fwd := { s.fwd with stage := .closing } }) ∨
      ∃ c f, (s.sys.bus.chans s.fwd.frameCh).recv = some (c, some f) ∧
        s' = { s with
          sys := s.sys.take s.fwd.frameCh c (some f)
          fwd := { s.fwd with
            seq := s.fwd.seq + 1
            stage := .sending { toMessage f with timestamp := now, seq := s.fwd.seq + 1 } } }) := by
  simp only [step] at h
  cases hstage : s.fwd.stage with
  | receiving =>
      simp only [hstage] at h
      obtain ⟨⟨c, f⟩, hr, hs'⟩ := Option.map_eq_some_iff.mp h
      cases f with
      | none => exact ⟨rfl, .inl ⟨c, hr, hs'.symm⟩⟩
      | some f => exact ⟨rfl, .inr ⟨c, f, hr, hs'.symm⟩⟩
  | sending m => simp [hstage] at h
  | closing => simp [hstage] at h
  | exited => simp [hstage] at h

theorem Feed.push_cases {s s' : Feed} (h : s.step .push = some s') :
    ∃ m out, s.fwd.stage = .sending m ∧ s.fwd.out.offer s.fwd.bp m = some out ∧
      s' = { s with fwd := { s.fwd with out, stage := .receiving } } := by
  simp only [step] at h
  cases hstage : s.fwd.stage with
  | sending m =>
      simp only [hstage] at h
      obtain ⟨out, ho, hs'⟩ := Option.map_eq_some_iff.mp h
      exact ⟨m, out, rfl, ho, hs'.symm⟩
  | receiving => simp [hstage] at h
  | closing => simp [hstage] at h
  | exited => simp [hstage] at h

theorem Feed.finish_cases {s s' : Feed} (h : s.step .finish = some s') :
    s.fwd.stage = .closing ∧
      s' = { s with fwd := { s.fwd with out := s.fwd.out.close, stage := .exited } } := by
  simp only [step] at h
  cases hstage : s.fwd.stage with
  | closing =>
      simp only [hstage] at h
      exact ⟨rfl, (Option.some.inj h).symm⟩
  | receiving => simp [hstage] at h
  | sending m => simp [hstage] at h
  | exited => simp [hstage] at h

/-- The message as `to_message` made it. -/
def untagged (m : Message) : Message := { m with timestamp := 0, seq := 0 }

/-- Everything on the way, from the consumer back to the bus. -/
def Feed.carried (s : Feed) : List Message :=
  (s.received ++ s.fwd.out.buf ++ s.fwd.held.toList).map untagged ++
    (s.sys.bus.chans s.fwd.frameCh).buf.map toMessage

/-- Nothing emitted since the subscription has been lost. -/
def Lossless (s₀ : Sys) (s : Feed) : Prop :=
  ∃ fs, EmittedTo s.fwd.subscription s₀ s.sys fs ∧ s.carried = fs.map fun x => toMessage x.2

/-- A broadcast finds the subscription's channel with room, and the forwarding thread
finds the channel of the consumer open. -/
def Feed.Finds (s : Feed) : FeedAction → Prop
  | .bus a => s.sys.turnAt s.fwd.frameCh a ≠ none →
      (s.sys.bus.chans s.fwd.frameCh).isFull = false
  | .push => s.fwd.out.closed = false
  | _ => True

/-- The images of the frames enqueued by the events. -/
def images (ch : Nat) (es : List Event) : List Message :=
  (queued ch es).map fun x => toMessage x.2

/-- How the messages carried stand to the frames emitted to the subscription. -/
structure Kept (s₀ : Sys) (s : Feed) (es : List Event) : Prop where
  reached : ∃ as, run Sys.step {} as = some s.sys
  attached : Attached s.fwd.subscription s.sys.bus
  hears : Hears s.fwd.subscription s₀ s.sys es
  policy : s.fwd.bp = .block
  carried : List.Sublist s.carried (images s.fwd.frameCh es)

namespace Kept

variable {s₀ : Sys} {s s' : Feed} {es : List Event}

/-- Lossless is a matter of counting. -/
theorem lossless_iff (h : Kept s₀ s es) :
    Lossless s₀ s ↔ s.carried.length = (images s.fwd.frameCh es).length := by
  have hemitted := h.hears.emittedTo
  constructor
  · rintro ⟨fs, hfs, hcarried⟩
    have hmem : ∀ x, x ∈ fs ↔ x ∈ queued s.fwd.frameCh es := fun x =>
      (hfs.emitted x.1 x.2).trans (hemitted.emitted x.1 x.2).symm
    have hperm : List.Perm fs (queued s.fwd.frameCh es) :=
      (List.perm_ext_iff_of_nodup hfs.once.of_map hemitted.once.of_map).mpr hmem
    rw [hcarried, images, List.length_map, List.length_map, hperm.length_eq]
  · intro hlen
    exact ⟨_, hemitted, h.carried.eq_of_length hlen⟩

theorem taken (h : Kept s₀ s es) {c : Chan Frame} {f : Option Frame}
    (hr : (s.sys.bus.chans s.fwd.frameCh).recv = some (c, f)) (hsys : s'.sys = s.sys.take s.fwd.frameCh c f)
    (hch : s'.fwd.frameCh = s.fwd.frameCh) (hbp : s'.fwd.bp = s.fwd.bp)
    (hcarried : s'.carried = s.carried) : Kept s₀ s' es := by
  have hsub := Forwarder.subscription_congr hch
  obtain ⟨as, has⟩ := h.reached
  refine ⟨⟨as ++ [.recv s.fwd.frameCh], ?_⟩, ?_, ?_, hbp.trans h.policy, ?_⟩
  · rw [hsys]
    refine run_concat.mpr ⟨s.sys, has, ?_⟩
    rw [Sys.step, hr, Option.map_some]
  · rw [hsub, hsys]
    refine h.attached.same rfl rfl rfl ?_
    have hshape := (Chan.recv_shape hr).1
    rw [Sys.take, Forwarder.subscription, Bus.setChan_same, hshape]
  · rw [hsub, hsys]
    have hstill : Hears s.fwd.subscription s₀ (s.sys.take s.fwd.frameCh c f) (es ++ []) :=
      h.hears.still (List.append_nil _).symm (by simp) rfl rfl
    rwa [List.append_nil] at hstill
  · rw [hcarried, hch]
    exact h.carried

theorem apart (h : Kept s₀ s es) (hsys : s'.sys = s.sys) (hch : s'.fwd.frameCh = s.fwd.frameCh)
    (hbp : s'.fwd.bp = s.fwd.bp) (hcarried : List.Sublist s'.carried s.carried) :
    Kept s₀ s' es := by
  have hsub := Forwarder.subscription_congr hch
  refine ⟨hsys ▸ h.reached, ?_, ?_, hbp.trans h.policy, ?_⟩
  · rw [hsub, hsys]
    exact h.attached
  · rw [hsub, hsys]
    exact h.hears
  · rw [hch]
    exact hcarried.trans h.carried

end Kept

/-- A step that finds room and an open channel loses nothing; any other loses a message. -/
structure Steps (s₀ : Sys) (s : Feed) (a : FeedAction) (s' : Feed) (es es' : List Event) : Prop where
  kept : Kept s₀ s' es'
  finds : s.Finds a → s'.carried.length + (images s.fwd.frameCh es).length =
    s.carried.length + (images s'.fwd.frameCh es').length
  misses : ¬ s.Finds a → s'.carried.length + (images s.fwd.frameCh es).length + 1 =
    s.carried.length + (images s'.fwd.frameCh es').length

theorem Kept.bus_step {s₀ : Sys} {s s' : Feed} {es : List Event} {a : Action} (h : Kept s₀ s es)
    (hstep : s.step (.bus a) = some s') : ∃ es', Steps s₀ s (.bus a) s' es es' := by
  simp only [Feed.step] at hstep
  split_ifs at hstep with ha
  obtain ⟨m, hm, rfl⟩ := Option.map_eq_some_iff.mp hstep
  obtain ⟨as, has⟩ := h.reached
  have hmoves := Sys.moves_of_step hm
  obtain ⟨es', hturned⟩ := h.hears.step rfl rfl h.attached (Sys.wellFormed_run has)
    (Sys.ahead_run has) ha hmoves
  have hframes : images s.fwd.frameCh es' = images s.fwd.frameCh es ++
      (s.sys.turnAt s.fwd.frameCh a).toList.map fun x => toMessage x.2 := by
    have hqueued : queued s.fwd.frameCh es' = _ := hturned.frames
    rw [images, hqueued, List.map_append]
    rfl
  have hcarried : Feed.carried { s with sys := m } = s.carried ++
      if (s.sys.bus.chans s.fwd.frameCh).isFull then []
      else (s.sys.turnAt s.fwd.frameCh a).toList.map fun x => toMessage x.2 := by
    have hbuf : (m.bus.chans s.fwd.frameCh).buf = _ := hturned.buf
    have hnew : (m.bus.chans s.fwd.frameCh).buf.map toMessage =
        (s.sys.bus.chans s.fwd.frameCh).buf.map toMessage ++
          if (s.sys.bus.chans s.fwd.frameCh).isFull then []
          else (s.sys.turnAt s.fwd.frameCh a).toList.map fun x => toMessage x.2 := by
      rw [hbuf, List.map_append, apply_ite (List.map toMessage), List.map_map]
      rfl
    exact (congrArg (_ ++ ·) hnew).trans (List.append_assoc _ _ _).symm
  have hkept : List.Sublist (Feed.carried { s with sys := m }) (images s.fwd.frameCh es') := by
    rw [hcarried, hframes]
    refine h.carried.append ?_
    split_ifs
    · exact List.nil_sublist _
    · exact List.Sublist.refl _
  refine ⟨es', ⟨⟨as ++ [a], run_concat.mpr ⟨s.sys, has, hm⟩⟩, h.attached.step ha hmoves,
    hturned.hears, h.policy, hkept⟩, ?_, ?_⟩
  · intro hfinds
    rw [hcarried, hframes, List.length_append, List.length_append]
    cases hturn : s.sys.turnAt s.fwd.frameCh a with
    | none => simp
    | some x =>
        have hroom : (s.sys.bus.chans s.fwd.frameCh).isFull = false := hfinds (by simp [hturn])
        rw [if_neg (by simp [hroom])]
        omega
  · intro hmisses
    obtain ⟨hturn, hfull⟩ := Classical.not_imp.mp hmisses
    obtain ⟨x, hx⟩ := Option.ne_none_iff_exists'.mp hturn
    rw [hcarried, hframes, hx, if_pos (by simpa using hfull), List.append_nil, List.length_append]
    change _ + _ + 1 = _ + (_ + 1)
    omega

/-- A step of the forwarding thread or the consumer that carries on what there is. -/
theorem Kept.steps {s₀ : Sys} {s s' : Feed} {es : List Event} {a : FeedAction}
    (h : Kept s₀ s' es) (hch : s'.fwd.frameCh = s.fwd.frameCh) (hcarried : s'.carried = s.carried)
    (hfinds : s.Finds a) : ∃ es', Steps s₀ s a s' es es' := by
  refine ⟨es, h, ?_, ?_⟩
  · intro _
    rw [hcarried, hch]
  · intro hmisses
    exact absurd hfinds hmisses

/-- What the thread fetches it holds, as a message. -/
theorem Feed.fetch_some {s s' : Feed} {now : Int} (h : s.step (.fetch now) = some s') :
    s.fwd.held = none ∧ ∃ c f, (s.sys.bus.chans s.fwd.frameCh).recv = some (c, f) ∧
      s'.sys = s.sys.take s.fwd.frameCh c f ∧ s'.received = s.received ∧
      s'.fwd.frameCh = s.fwd.frameCh ∧ s'.fwd.bp = s.fwd.bp ∧ s'.fwd.out = s.fwd.out ∧
      s'.fwd.held.toList.map untagged = f.toList.map toMessage := by
  obtain ⟨hstage, ⟨c, hr, rfl⟩ | ⟨c, f, hr, rfl⟩⟩ := Feed.fetch_cases h
  · exact ⟨by rw [Forwarder.held, hstage], c, none, hr, rfl, rfl, rfl, rfl, rfl, rfl⟩
  · exact ⟨by rw [Forwarder.held, hstage], c, some f, hr, rfl, rfl, rfl, rfl, rfl, rfl⟩

theorem Kept.fetch {s₀ : Sys} {s s' : Feed} {es : List Event} {now : Int} (h : Kept s₀ s es)
    (hstep : s.step (.fetch now) = some s') : ∃ es', Steps s₀ s (.fetch now) s' es es' := by
  obtain ⟨hheld, c, f, hr, hsys, hrec, hch, hbp, hout, hheld'⟩ := Feed.fetch_some hstep
  have hcarried : s'.carried = s.carried := by
    have htaken : ((s.sys.take s.fwd.frameCh c f).bus.chans s.fwd.frameCh).buf = c.buf := by
      rw [Sys.take, Bus.setChan_same]
    rw [Feed.carried, Feed.carried, hsys, hrec, hch, hout, htaken, hheld, Chan.recv_buf hr]
    simp only [List.map_append, hheld', Option.toList_none, List.append_nil, List.append_assoc]
  exact (h.taken hr hsys hch hbp hcarried).steps hch hcarried trivial

/-- The message the thread holds goes to the consumer, unless the consumer has closed the
channel. -/
theorem Feed.push_some {s s' : Feed} (hp : s.fwd.bp = .block) (h : s.step .push = some s') :
    ∃ m, s.fwd.held = some m ∧ s'.fwd.held = none ∧ s'.sys = s.sys ∧ s'.received = s.received ∧
      s'.fwd.frameCh = s.fwd.frameCh ∧ s'.fwd.bp = s.fwd.bp ∧
      s'.fwd.out.buf = s.fwd.out.buf ++ if s.fwd.out.closed then [] else [m] := by
  obtain ⟨m, out, hstage, ho, rfl⟩ := Feed.push_cases h
  refine ⟨m, by rw [Forwarder.held, hstage], rfl, rfl, rfl, rfl, rfl, ?_⟩
  rw [hp] at ho
  cases hc : s.fwd.out.closed with
  | true =>
      rw [Chan.offer_of_closed hc] at ho
      rw [← Option.some.inj ho, if_pos rfl, List.append_nil]
  | false =>
      obtain ⟨-, rfl⟩ | ⟨-, hno, -⟩ | ⟨-, hno, -⟩ := Chan.offer_cases hc ho
      · rfl
      · cases hno
      · cases hno

theorem Kept.push {s₀ : Sys} {s s' : Feed} {es : List Event} (h : Kept s₀ s es)
    (hstep : s.step .push = some s') : ∃ es', Steps s₀ s .push s' es es' := by
  obtain ⟨m, hheld, hheld', hsys, hrec, hch, hbp, hbuf⟩ := Feed.push_some h.policy hstep
  cases hc : s.fwd.out.closed with
  | false =>
      have hcarried : s'.carried = s.carried := by
        rw [Feed.carried, Feed.carried, hsys, hrec, hch, hbuf, hheld, hheld', hc]
        simp
      exact (h.apart hsys hch hbp (hcarried ▸ List.Sublist.refl _)).steps hch hcarried hc
  | true =>
      have hcarried : s.carried = (s.received ++ s.fwd.out.buf).map untagged ++ [untagged m] ++
          (s.sys.bus.chans s.fwd.frameCh).buf.map toMessage := by
        rw [Feed.carried, hheld, List.map_append]
        rfl
      have hcarried' : s'.carried = (s.received ++ s.fwd.out.buf).map untagged ++
          (s.sys.bus.chans s.fwd.frameCh).buf.map toMessage := by
        rw [Feed.carried, hsys, hrec, hch, hbuf, hheld', hc]
        simp
      have hsub : List.Sublist s'.carried s.carried := by
        rw [hcarried, hcarried']
        exact (List.sublist_append_left _ _).append (List.Sublist.refl _)
      refine ⟨es, h.apart hsys hch hbp hsub, ?_, ?_⟩
      · intro hfinds
        rw [Feed.Finds, hc] at hfinds
        cases hfinds
      · intro _
        rw [hcarried, hcarried', hch]
        simp only [List.length_append, List.length_singleton]
        omega

theorem Kept.consume {s₀ : Sys} {s s' : Feed} {es : List Event} {a : FeedAction}
    (h : Kept s₀ s es) {m : Option Message} (hsys : s'.sys = s.sys)
    (hch : s'.fwd.frameCh = s.fwd.frameCh) (hbp : s'.fwd.bp = s.fwd.bp)
    (hheld : s'.fwd.held = s.fwd.held) (hrec : s'.received = s.received ++ m.toList)
    (hbuf : s.fwd.out.buf = m.toList ++ s'.fwd.out.buf) (hfinds : s.Finds a) :
    ∃ es', Steps s₀ s a s' es es' := by
  have hcarried : s'.carried = s.carried := by
    rw [Feed.carried, Feed.carried, hsys, hch, hheld, hrec, hbuf, List.append_assoc s.received]
  exact (h.apart hsys hch hbp (hcarried ▸ List.Sublist.refl _)).steps hch hcarried hfinds

theorem Kept.step {s₀ : Sys} {s s' : Feed} {es : List Event} {a : FeedAction} (h : Kept s₀ s es)
    (hstep : s.step a = some s') : ∃ es', Steps s₀ s a s' es es' := by
  cases a with
  | bus a => exact h.bus_step hstep
  | fetch now => exact h.fetch hstep
  | push => exact h.push hstep
  | finish =>
      obtain ⟨hstage, rfl⟩ := Feed.finish_cases hstep
      have hheld : s.fwd.held = none := by rw [Forwarder.held, hstage]
      exact h.consume (m := none) rfl rfl rfl hheld.symm (List.append_nil _).symm rfl trivial
  | recv =>
      obtain ⟨⟨out, m⟩, hr, rfl⟩ := Option.map_eq_some_iff.mp hstep
      exact h.consume rfl rfl rfl rfl rfl (Chan.recv_buf hr) trivial
  | tryRecv =>
      obtain rfl := Option.some.inj hstep
      exact h.consume rfl rfl rfl rfl rfl (Chan.tryRecv_buf rfl) trivial
  | close =>
      obtain rfl := Option.some.inj hstep
      exact h.consume (m := none) rfl rfl rfl rfl (List.append_nil _).symm rfl trivial

/-- A call of the adapter that succeeds has made its subscription on the bus. -/
theorem LinAdapter.subscribe_ok {b : Bus} {opts : List SubscriberOption} {w : Forwarder}
    (h : LinAdapter.subscribe opts (b.subscribe [] []).2 = .ok w) :
    b.closed = false ∧ w.frameCh = b.handles ∧ w.out.buf = [] ∧ w.stage = .receiving ∧
      w.bp = (applyOptions opts).backPressure ∧
      (b.subscribe [] []).1 = { b with
        subs := b.subs ++ [w.subscription]
        chans := Function.update b.chans b.handles { capacity := 64 }
        handles := b.handles + 1 } := by
  by_cases hc : b.closed = true
  · simp only [LinAdapter.subscribe, Bus.subscribe, hc, if_true] at h
    cases h
  · have hsub : b.subscribe [] [] = ({ b with
        subs := b.subs ++ [⟨[], b.handles, .dropNewest⟩]
        chans := Function.update b.chans b.handles { capacity := 64 }
        handles := b.handles + 1 }, .ok b.handles) := by
      simp only [Bus.subscribe, if_neg hc]
      rfl
    rw [hsub] at h ⊢
    obtain rfl := Except.ok.inj h
    exact ⟨by simpa using hc, rfl, rfl, rfl, rfl, rfl⟩

theorem LinAdapter.attached {s₀ s₁ : Sys} {t : Nat} {opts : List SubscriberOption} {w : Forwarder}
    (hwf : s₀.bus.WellFormed) (hpc : s₀.pc t = .entered (.exclusive (.subscribe [] [])))
    (h₁ : s₀.step (.step t) = some s₁)
    (hw : LinAdapter.subscribe opts (s₀.bus.subscribe [] []).2 = .ok w) :
    s₁ = ((s₀.setBus (s₀.bus.subscribe [] []).1).unlock).ret t
      (.channel (s₀.bus.subscribe [] []).2) ∧ Attached w.subscription s₁.bus ∧
      s₁.bus.closed = false ∧ (s₁.bus.chans w.frameCh).buf = [] := by
  obtain ⟨hopen, hch, -, -, -, hbus⟩ := LinAdapter.subscribe_ok hw
  have hs₁ : s₁ = ((s₀.setBus (s₀.bus.subscribe [] []).1).unlock).ret t
      (.channel (s₀.bus.subscribe [] []).2) := by
    rw [Sys.step, Sys.advance, hpc] at h₁
    exact (Option.some.inj h₁).symm
  have hbus₁ : s₁.bus = (s₀.bus.subscribe [] []).1 := by
    rw [hs₁]
    rfl
  refine ⟨hs₁, ⟨?_, ?_, ?_, ?_⟩, ?_, ?_⟩
  · rw [hbus₁, hbus, Forwarder.subscription, hch]
    exact Nat.lt_succ_self _
  · rw [hbus₁, hbus]
    intro x hx he
    rcases List.mem_append.mp hx with hold | hnew
    · rw [Forwarder.subscription, hch] at he
      exact absurd he (hwf.allocated x hold).ne
    · exact List.mem_singleton.mp hnew
  · intro _
    rw [hbus₁, hbus, Forwarder.subscription, hch]
    exact ⟨List.mem_append_right _ List.mem_cons_self, by simp only [Function.update_self]⟩
  · rw [hbus₁, hbus]
    intro hc
    exact absurd (hopen.symm.trans hc) Bool.false_ne_true
  · rw [hbus₁, hbus]
    exact hopen
  · rw [hbus₁, hbus, hch]
    simp only [Function.update_self]

theorem Kept.start {before : List Action} {s₀ s₁ : Sys} {t : Nat} {opts : List SubscriberOption}
    {w : Forwarder} (h₀ : run Sys.step {} before = some s₀)
    (hpc : s₀.pc t = .entered (.exclusive (.subscribe [] []))) (h₁ : s₀.step (.step t) = some s₁)
    (hw : LinAdapter.subscribe opts (s₀.bus.subscribe [] []).2 = .ok w)
    (hblock : (applyOptions opts).backPressure = .block) : Kept s₁ { sys := s₁, fwd := w } [] := by
  obtain ⟨-, -, hbuf, hstage, hbp, -⟩ := LinAdapter.subscribe_ok hw
  obtain ⟨hs₁, hattached, -, hempty⟩ := LinAdapter.attached (Sys.wellFormed_run h₀) hpc h₁ hw
  have hquiet : ∀ u, (s₁.pc u).broadcasts = false := by
    have hlock := Sys.locked_run h₀
    have hnone : ∀ u, (s₀.pc u).broadcasts = false :=
      hlock.quiet (hlock.readers_empty (t := t) (by rw [hpc]; rfl))
    rw [hs₁]
    exact Sys.forall_pc_update (P := fun p => p.broadcasts = false) hnone rfl
  refine ⟨⟨before ++ [.step t], run_concat.mpr ⟨s₀, h₀, h₁⟩⟩, hattached, .start hquiet,
    hbp.trans hblock, ?_⟩
  have hheld : w.held = none := by rw [Forwarder.held, hstage]
  rw [Feed.carried, hbuf, hheld, hempty]
  exact List.nil_sublist _

theorem kept_step {s₀ : Sys} {s s' : Feed} {a : FeedAction} (h : ∃ es, Kept s₀ s es)
    (hstep : s.step a = some s') : ∃ es, Kept s₀ s' es := by
  obtain ⟨es, hes⟩ := h
  obtain ⟨es', hes'⟩ := hes.step hstep
  exact ⟨es', hes'.kept⟩

/-- Of a subscription through the adapter under `Block` nothing is lost exactly when every
broadcast finds the channel between the bus and the forwarding thread with room, and the
consumer does not close its own channel on a message held for it. -/
theorem block_forwards_all_iff {before : List Action} {s₀ s₁ : Sys} {t : Nat}
    {opts : List SubscriberOption} {w : Forwarder} (h₀ : run Sys.step {} before = some s₀)
    (hpc : s₀.pc t = .entered (.exclusive (.subscribe [] []))) (h₁ : s₀.step (.step t) = some s₁)
    (hw : LinAdapter.subscribe opts (s₀.bus.subscribe [] []).2 = .ok w)
    (hblock : (applyOptions opts).backPressure = .block) {as : List FeedAction} {s : Feed}
    (h : run Feed.step { sys := s₁, fwd := w } as = some s) :
    Lossless s₁ s ↔ Guarded Feed.step Feed.Finds { sys := s₁, fwd := w } as := by
  have hstart := Kept.start h₀ hpc h₁ hw hblock
  have hlossless : Lossless s₁ { sys := s₁, fwd := w } := by
    rw [hstart.lossless_iff]
    exact hstart.carried.length_le.antisymm (Nat.zero_le _)
  refine guarded_iff (I := fun s => ∃ es, Kept s₁ s es) (P := Lossless s₁)
    (fun _ _ _ => kept_step) ?_ ?_ ⟨[], hstart⟩ hlossless h
  · rintro m a m' ⟨es, hm⟩ hall hstep
    obtain ⟨es', hm'⟩ := hm.step hstep
    rw [hm.lossless_iff] at hall
    rw [hm'.kept.lossless_iff]
    constructor
    · intro hall'
      by_contra hmisses
      have hlen := hm'.misses hmisses
      omega
    · intro hfinds
      have hlen := hm'.finds hfinds
      omega
  · rintro m a m' ⟨es, hm⟩ hlost hstep
    obtain ⟨es', hm'⟩ := hm.step hstep
    have hle := hm.carried.length_le
    rw [hm.lossless_iff] at hlost
    rw [hm'.kept.lossless_iff]
    intro hall'
    by_cases hfinds : m.Finds a
    · have hlen := hm'.finds hfinds
      omega
    · have hlen := hm'.misses hfinds
      omega

def adapterSubscribes : List Action :=
  [.call 0 (.exclusive (.publish 1 [0xA1])), .lock 0, .step 0,
    .call 0 (.exclusive (.subscribe [] [])), .lock 0]

def header : List FeedAction :=
  [.bus (.call 1 (.sendHeader 1)), .bus (.lock 1), .bus (.step 1), .bus (.step 1), .bus (.step 1)]

/-- A header whose frame goes all the way to the consumer. -/
theorem block_forwards_all_iff_received : ∃ s₀ s₁ w s,
    run Sys.step {} adapterSubscribes = some s₀ ∧ s₀.step (.step 0) = some s₁ ∧
    LinAdapter.subscribe [withBackPressure .block] (s₀.bus.subscribe [] []).2 = .ok w ∧
    run Feed.step { sys := s₁, fwd := w } (header ++ [.fetch 7, .push, .recv]) = some s ∧
    (Lossless s₁ s ↔ Guarded Feed.step Feed.Finds { sys := s₁, fwd := w }
      (header ++ [.fetch 7, .push, .recv])) := by
  refine ⟨_, _, _, _, rfl, rfl, rfl, rfl, ?_⟩
  exact @block_forwards_all_iff adapterSubscribes _ _ 0 _ _ rfl rfl rfl rfl rfl _ _ rfl

/-- Sixty-five headers before the forwarding thread runs: the last frame is dropped. -/
theorem not_block_forwards_all : ¬ ∀ (before : List Action) (s₀ s₁ : Sys) (t : Nat)
    (opts : List SubscriberOption) (w : Forwarder) (as : List FeedAction) (s : Feed),
    run Sys.step {} before = some s₀ → s₀.pc t = .entered (.exclusive (.subscribe [] [])) →
    s₀.step (.step t) = some s₁ →
    LinAdapter.subscribe opts (s₀.bus.subscribe [] []).2 = .ok w →
    (applyOptions opts).backPressure = .block →
    run Feed.step { sys := s₁, fwd := w } as = some s → Lossless s₁ s := by
  intro h
  let opts : List SubscriberOption := [withBackPressure .block]
  let flood := (List.replicate 65 header).flatten
  obtain ⟨s₀, s₁, w, h₀, hpc, h₁, hw, hflood⟩ : ∃ s₀ s₁ w,
      run Sys.step {} adapterSubscribes = some s₀ ∧
      s₀.pc 0 = .entered (.exclusive (.subscribe [] [])) ∧ s₀.step (.step 0) = some s₁ ∧
      LinAdapter.subscribe opts (s₀.bus.subscribe [] []).2 = .ok w ∧
      (run Feed.step { sys := s₁, fwd := w } flood).any fun s =>
        decide (s.sys.readers = ∅ ∧ s.carried.length = 64 ∧
          (since s₁ s.sys).filterMap Event.number = List.range 65) := by
    refine ⟨_, _, _, rfl, rfl, rfl, rfl, ?_⟩
    decide +kernel
  obtain ⟨s, hs, hfacts⟩ := (Option.any_eq_true _ _).mp hflood
  obtain ⟨hreaders, hcarried, hemitted⟩ := of_decide_eq_true hfacts
  obtain ⟨fs, hfs, heq⟩ := h adapterSubscribes s₀ s₁ 0 opts w flood s h₀ hpc h₁ hw rfl hs
  obtain ⟨es, hkept⟩ := invariant_run (I := fun s => ∃ es, Kept s₁ s es)
    (fun _ _ _ => kept_step) ⟨[], Kept.start h₀ hpc h₁ hw rfl⟩ hs
  obtain ⟨as, has⟩ := hkept.reached
  have hquiet := (Sys.locked_run has).quiet hreaders
  have hall : List.range 65 ⊆ fs.map Prod.fst := by
    rw [← hemitted]
    exact fun n => hfs.all hquiet
  have hlen := (List.nodup_range.subperm hall).length_le
  rw [heq, List.length_map] at hcarried
  rw [List.length_range, List.length_map, hcarried] at hlen
  exact absurd hlen (by decide)

end CppLin
