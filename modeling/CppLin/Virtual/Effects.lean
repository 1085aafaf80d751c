import CppLin.Virtual.Session

/-!
What a call on the bus can do, said once: each of its effects with the condition it is
taken under, and what a broadcast makes of one channel. The log of a session is read
through the frames sent, the subscriptions made and the frames received.
-/
namespace CppLin.Virt
open Bytes Relay Run

/-- Nothing differs but the count of errors. -/
def OnlyErrors (b b' : Bus) : Prop :=
  b' = { b with metrics := { b.metrics with errorCount := b'.metrics.errorCount } }

theorem OnlyErrors.countError (b : Bus) : OnlyErrors b b.countError := rfl

theorem OnlyErrors.refl (b : Bus) : OnlyErrors b b := rfl

theorem OnlyErrors.same {b b' : Bus} (h : OnlyErrors b b') : b'.closed = b.closed ∧
    b'.subs = b.subs ∧ b'.chans = b.chans ∧ b'.handles = b.handles := by
  rw [h]
  exact ⟨rfl, rfl, rfl, rfl⟩

/-- The error a call reports. -/
def Outcome.failure : Outcome → Option ErrorCode
  | .code e => e
  | .frame (.error e) => some e
  | .channel (.error e) => some e
  | _ => none

/-- The arguments `do_publish` is called with. -/
def Op.asPublish : Op → Option (UInt8 × Payload × ChecksumType)
  | .publish id data => some (id, data, .enhanced)
  | .publishClassic id data => some (id, data, .classic)
  | _ => none

/-- The channel a consumer receives from. -/
def Op.receives : Op → Option Nat
  | .recv ch | .tryRecv ch => some ch
  | _ => none

/-- The effects of a call. -/
inductive Bus.Effect (b : Bus) : Op → Bus → Outcome → Prop
  | failed {op b' out e} (hout : out.failure = some e) (hb : OnlyErrors b b') : Effect b op b' out
  | published {op id data ct b'} (hop : op.asPublish = some (id, data, ct))
      (hb : b.doPublish id data ct = (b', none)) : Effect b op b' (.code none)
  | scheduled {entries} (hopen : b.closed = false) :
      Effect b (.setSchedule entries) { b with schedule := entries } (.code none)
  | subscribed {filters opts} (hopen : b.closed = false) :
      Effect b (.subscribe filters opts)
        { b with
          subs := b.subs ++ [⟨filters, b.handles, (applyOptions opts).backPressure⟩]
          chans := Function.update b.chans b.handles
            { capacity := ((applyOptions opts).effectiveDepth kDefaultChanDepth).toNat }
          handles := b.handles + 1 } (.channel (.ok b.handles))
  | emitted {id m f b'} (hm : b.respond id = (m, .ok f)) (hb : m.broadcast f = some b') :
      Effect b (.sendHeader id) b' (.frame (.ok f))
  | closed : Effect b .close b.close.1 (.code none)
  | received {op ch c f} (hop : op.receives = some ch)
      (hbuf : (b.chans ch).buf = f.toList ++ c.buf)
      (hshape : c.closed = (b.chans ch).closed ∧ c.capacity = (b.chans ch).capacity) :
      Effect b op (b.setChan ch c) (.received f)
  | closedChan {ch} : Effect b (.closeChan ch) (b.closeChan ch) .done

namespace Bus

section
variable (b : Bus) {ch ch' : Nat} (c : Chan Frame)

@[simp] theorem setChan_same : (b.setChan ch c).chans ch = c := by
  simp [setChan]

theorem setChan_other (h : ch' ≠ ch) : (b.setChan ch c).chans ch' = b.chans ch' := by
  simp [setChan, Function.update_of_ne h]

theorem setChan_shape (h : c.closed = (b.chans ch).closed ∧ c.capacity = (b.chans ch).capacity)
    (x : Nat) : ((b.setChan ch c).chans x).closed = (b.chans x).closed ∧
      ((b.setChan ch c).chans x).capacity = (b.chans x).capacity := by
  by_cases hx : x = ch
  · rw [hx, setChan_same]
    exact h
  · rw [setChan_other b c hx]
    exact ⟨rfl, rfl⟩

end

theorem respond_ok {b m : Bus} {id : UInt8} {f : Frame} (h : b.respond id = (m, .ok f)) :
    id ≤ kLINMaxID ∧ b.closed = false ∧
      ∃ e, b.responses.lookup id = some e ∧ f = frameOf id e ∧ m = b.countWrite f := by
  unfold respond at h
  by_cases hid : id > kLINMaxID
  · rw [if_pos hid] at h
    cases h
  by_cases hc : b.closed = true
  · rw [if_neg hid, if_pos hc] at h
    cases h
  rw [if_neg hid, if_neg hc] at h
  cases he : b.responses.lookup id with
  | none =>
      rw [he] at h
      cases h
  | some e =>
      rw [he] at h
      cases h
      exact ⟨UInt8.not_lt.mp hid, by simpa using hc, e, rfl, rfl, rfl⟩

theorem respond_error {b m : Bus} {id : UInt8} {e : ErrorCode} (h : b.respond id = (m, .error e)) :
    m = b.countError := by
  unfold respond at h
  split_ifs at h
  · cases h
    rfl
  · cases h
    rfl
  · split at h <;> cases h
    rfl

theorem emitted_sameTables {b m b' : Bus} {id : UInt8} {f : Frame}
    (hm : b.respond id = (m, .ok f)) (hbr : m.broadcast f = some b') : SameTables b b' :=
  (respond_frame hm).1.trans (foldlM_deliver_sameTables hbr)

theorem close_code (b : Bus) : b.close.2 = none := by
  unfold close
  split_ifs <;> rfl

theorem Effect.ofPublish {b : Bus} {op : Op} {id : UInt8} {data : Payload} {ct : ChecksumType}
    (hop : op.asPublish = some (id, data, ct)) :
    Effect b op (b.doPublish id data ct).1 (.code (b.doPublish id data ct).2) := by
  cases h : b.doPublish id data ct with
  | mk b' e =>
      cases e with
      | none => exact .published hop h
      | some e => exact .failed rfl (doPublish_error h ▸ OnlyErrors.countError b)

theorem Effect.ofSetSchedule (b : Bus) (entries : List ScheduleEntry) :
    Effect b (.setSchedule entries) (b.setSchedule entries).1
      (.code (b.setSchedule entries).2) := by
  unfold Bus.setSchedule
  by_cases hc : b.closed = true
  · rw [if_pos hc]
    exact .failed rfl (OnlyErrors.refl b)
  · rw [if_neg hc]
    exact .scheduled (by simpa using hc)

theorem Effect.ofSubscribe (b : Bus) (filters : List Filter) (opts : List SubscriberOption) :
    Effect b (.subscribe filters opts) (b.subscribe filters opts).1
      (.channel (b.subscribe filters opts).2) := by
  unfold Bus.subscribe
  by_cases hc : b.closed = true
  · simp only [if_pos hc]
    exact .failed rfl (OnlyErrors.countError b)
  · simp only [if_neg hc]
    exact .subscribed (by simpa using hc)

theorem Effect.ofClose (b : Bus) : Effect b .close b.close.1 (.code b.close.2) := by
  rw [close_code]
  exact .closed

theorem Effect.ofSendHeader {b b' : Bus} {id : UInt8} {r : Except ErrorCode Frame}
    (h : b.sendHeader id = some (b', r)) : Effect b (.sendHeader id) b' (.frame r) := by
  unfold Bus.sendHeader at h
  cases hr : b.respond id with
  | mk m res =>
      rw [hr] at h
      cases res with
      | error e =>
          obtain ⟨rfl, rfl⟩ := Prod.mk.inj (Option.some.inj h)
          exact .failed rfl (respond_error hr ▸ OnlyErrors.countError b)
      | ok f =>
          obtain ⟨b₁, hb, heq⟩ := Option.map_eq_some_iff.mp h
          obtain ⟨rfl, rfl⟩ := Prod.mk.inj heq
          exact .emitted hr hb

theorem effect_of_exec {b b' : Bus} {op : Op} {out : Outcome} (h : b.exec op = some (b', out)) :
    Effect b op b' out := by
  cases op with
  | publish id data =>
      obtain ⟨rfl, rfl⟩ := Prod.mk.inj (Option.some.inj h)
      exact .ofPublish rfl
  | publishClassic id data =>
      obtain ⟨rfl, rfl⟩ := Prod.mk.inj (Option.some.inj h)
      exact .ofPublish rfl
  | setSchedule entries =>
      obtain ⟨rfl, rfl⟩ := Prod.mk.inj (Option.some.inj h)
      exact .ofSetSchedule b entries
  | subscribe filters opts =>
      obtain ⟨rfl, rfl⟩ := Prod.mk.inj (Option.some.inj h)
      exact .ofSubscribe b filters opts
  | sendHeader id =>
      obtain ⟨⟨m, r⟩, hm, heq⟩ := Option.map_eq_some_iff.mp h
      obtain ⟨rfl, rfl⟩ := Prod.mk.inj heq
      exact .ofSendHeader hm
  | close =>
      obtain ⟨rfl, rfl⟩ := Prod.mk.inj (Option.some.inj h)
      exact .ofClose b
  | recv ch =>
      obtain ⟨⟨c, f⟩, hr, heq⟩ := Option.map_eq_some_iff.mp h
      obtain ⟨rfl, rfl⟩ := Prod.mk.inj heq
      exact .received rfl (Chan.recv_buf hr) (Chan.recv_shape hr)
  | tryRecv ch =>
      obtain ⟨rfl, rfl⟩ := Prod.mk.inj (Option.some.inj h)
      exact .received rfl (Chan.tryRecv_buf rfl) (Chan.tryRecv_shape rfl)
  | closeChan ch =>
      obtain ⟨rfl, rfl⟩ := Prod.mk.inj (Option.some.inj h)
      exact .closedChan

theorem deliver_own {f : Frame} {b b' : Bus} {s : Subscription} (h : deliver f b s = some b') :
    if matchesAny s.filters f then
      (b.chans s.ch).offer s.backPressure f = some (b'.chans s.ch)
    else b'.chans s.ch = b.chans s.ch := by
  obtain ⟨hm, rfl⟩ | ⟨c, m, hm, hoffer, rfl⟩ := deliver_cases h
  · rw [hm, if_neg Bool.false_ne_true]
  · rw [if_pos hm, hoffer]
    exact congrArg some (Function.update_self s.ch c b.chans).symm

/-- What a turn of the broadcast does at a subscriber whose channel is open, counters and all. -/
theorem deliver_open_cases {f : Frame} {b b' : Bus} {s : Subscription}
    (hopen : (b.chans s.ch).closed = false) (h : deliver f b s = some b') :
    (matchesAny s.filters f = false ∧ b' = b) ∨
      (matchesAny s.filters f = true ∧
        (((b.chans s.ch).isFull = false ∧
            b' = (b.setChan s.ch ((b.chans s.ch).push f)).countDelivery f) ∨
          ((b.chans s.ch).isFull = true ∧ s.backPressure = .dropNewest ∧
            b' = (b.setChan s.ch (b.chans s.ch)).countDrop) ∨
          ((b.chans s.ch).isFull = true ∧ s.backPressure = .dropOldest ∧
            b' = (b.setChan s.ch ((b.chans s.ch).popFront.push f)).countDrop))) := by
  unfold Bus.deliver at h
  cases hm : matchesAny s.filters f with
  | false =>
      rw [if_pos hm, Option.some.injEq] at h
      exact .inl ⟨rfl, h.symm⟩
  | true =>
      rw [if_neg (by simp [hm])] at h
      refine .inr ⟨rfl, ?_⟩
      cases hp : s.backPressure with
      | dropNewest =>
          simp only [hp, Chan.trySend, hopen] at h
          cases hfull : (b.chans s.ch).isFull with
          | true =>
              simp only [hfull] at h
              exact .inr (.inl ⟨rfl, rfl, (Option.some.inj h).symm⟩)
          | false =>
              simp only [hfull] at h
              exact .inl ⟨rfl, (Option.some.inj h).symm⟩
      | dropOldest =>
          simp only [hp, Chan.sendDropOldest, hopen] at h
          cases hfull : (b.chans s.ch).isFull with
          | true =>
              simp only [hfull] at h
              exact .inr (.inr ⟨rfl, rfl, (Option.some.inj h).symm⟩)
          | false =>
              simp only [hfull] at h
              exact .inl ⟨rfl, (Option.some.inj h).symm⟩
      | block =>
          simp only [hp, Chan.send, hopen] at h
          cases hfull : (b.chans s.ch).isFull with
          | true => simp [hfull] at h
          | false =>
              simp only [hfull] at h
              exact .inl ⟨rfl, (Option.some.inj h).symm⟩

theorem deliver_shape {f : Frame} {b b' : Bus} {s : Subscription} (h : deliver f b s = some b')
    (ch : Nat) : (b'.chans ch).closed = (b.chans ch).closed ∧
      (b'.chans ch).capacity = (b.chans ch).capacity := by
  by_cases hch : ch = s.ch
  · subst hch
    have hown := deliver_own h
    split_ifs at hown
    · exact Chan.offer_shape hown
    · rw [hown]
      exact ⟨rfl, rfl⟩
  · rw [deliver_chans_of_ne h hch]
    exact ⟨rfl, rfl⟩

section
variable {f : Frame} {subs : List Subscription} {b b' : Bus}

theorem foldlM_deliver_shape (h : subs.foldlM (deliver f) b = some b') (ch : Nat) :
    (b'.chans ch).closed = (b.chans ch).closed ∧
      (b'.chans ch).capacity = (b.chans ch).capacity := by
  refine rel_foldlM (R := fun b b' => (b'.chans ch).closed = (b.chans ch).closed ∧
    (b'.chans ch).capacity = (b.chans ch).capacity) (fun _ => ⟨rfl, rfl⟩) ?_ ?_ h
  · rintro s m s' ⟨hclosed, hcap⟩ ⟨hclosed', hcap'⟩
    exact ⟨hclosed'.trans hclosed, hcap'.trans hcap⟩
  · exact fun _ _ _ _ hd => deliver_shape hd ch

theorem foldlM_deliver_mem (h : subs.foldlM (deliver f) b = some b') {ch : Nat} {x : Frame}
    (hx : x ∈ (b'.chans ch).buf) : x ∈ (b.chans ch).buf ∨ x = f := by
  refine rel_foldlM (R := fun b b' => x ∈ (b'.chans ch).buf → x ∈ (b.chans ch).buf ∨ x = f)
    (fun _ => .inl) ?_ ?_ h hx
  · intro s m s' hfirst hlater hx
    exact (hlater hx).elim hfirst .inr
  · intro s _ b b' hd hx
    by_cases hch : ch = s.ch
    · subst hch
      have hown := deliver_own hd
      split_ifs at hown
      · exact Chan.offer_mem hown hx
      · exact .inl (hown ▸ hx)
    · exact .inl (deliver_chans_of_ne hd hch ▸ hx)

theorem foldlM_deliver_other (h : subs.foldlM (deliver f) b = some b') {ch : Nat}
    (hch : ∀ s ∈ subs, s.ch ≠ ch) : b'.chans ch = b.chans ch := by
  refine rel_foldlM (R := fun b b' => b'.chans ch = b.chans ch) (fun _ => rfl) ?_ ?_ h
  · intro s m s' hfirst hlater
    exact hlater.trans hfirst
  · exact fun s hs _ _ hd => deliver_chans_of_ne hd (hch s hs).symm

/-- A broadcast to subscribers with channels of their own makes each matching one a single
offer, and leaves the others' channels alone. -/
theorem foldlM_deliver_own (hnd : (subs.map Subscription.ch).Nodup)
    (h : subs.foldlM (deliver f) b = some b') {s : Subscription} (hs : s ∈ subs) :
    if matchesAny s.filters f then
      (b.chans s.ch).offer s.backPressure f = some (b'.chans s.ch)
    else b'.chans s.ch = b.chans s.ch := by
  induction subs generalizing b with
  | nil => cases hs
  | cons t subs ih =>
      rw [List.map_cons, List.nodup_cons] at hnd
      obtain ⟨ht, hnd⟩ := hnd
      rw [List.foldlM_cons] at h
      obtain ⟨m, hm, hrest⟩ := Option.bind_eq_some_iff.mp h
      rcases List.mem_cons.mp hs with rfl | hs
      · have hlater : b'.chans s.ch = m.chans s.ch :=
          foldlM_deliver_other hrest fun u hu he => ht (he ▸ List.mem_map_of_mem hu)
        rw [hlater]
        exact deliver_own hm
      · have hne : s.ch ≠ t.ch := fun he => ht (he ▸ List.mem_map_of_mem hs)
        rw [← deliver_chans_of_ne hm hne]
        exact ih hnd hrest hs

end

theorem foldl_closeChan_chans (subs : List Subscription) (b : Bus) (ch : Nat) :
    ((subs.foldl (fun b s => b.closeChan s.ch) b).chans ch).closed =
      ((b.chans ch).closed || subs.any fun s => s.ch == ch) := by
  induction subs generalizing b with
  | nil => simp
  | cons s subs ih =>
      rw [List.foldl_cons, ih, List.any_cons]
      by_cases h : s.ch = ch
      · subst h
        simp [closeChan, setChan, Chan.close]
      · have hother : ((b.closeChan s.ch).chans ch).closed = (b.chans ch).closed := by
          simp [closeChan, setChan, Function.update_of_ne (Ne.symm h)]
        rw [hother, beq_eq_false_iff_ne.mpr h, Bool.false_or]

theorem close_of_open {b : Bus} (h : b.closed = false) :
    b.close.1 = { b with subs := [], closed := true, chans := b.close.1.chans } := by
  unfold close
  rw [if_neg (by simp [h])]
  simp only
  rw [foldl_closeChan_eq]

theorem close_chans_closed {b : Bus} (h : b.closed = false) (ch : Nat) :
    (b.close.1.chans ch).closed = ((b.chans ch).closed || b.subs.any fun s => s.ch == ch) := by
  unfold close
  rw [if_neg (by simp [h])]
  exact foldl_closeChan_chans b.subs { b with closed := true } ch

theorem close_of_closed {b : Bus} (h : b.closed = true) : b.close = (b, none) := by
  unfold close
  rw [if_pos h]

theorem close_closed (b : Bus) : b.close.1.closed = true := by
  cases hc : b.closed with
  | true =>
      rw [close_of_closed hc]
      exact hc
  | false => rw [close_of_open hc]

theorem close_handles (b : Bus) : b.close.1.handles = b.handles := by
  cases hc : b.closed with
  | true => rw [close_of_closed hc]
  | false => rw [close_of_open hc]

theorem close_metrics (b : Bus) : b.close.1.metrics = b.metrics := by
  cases hc : b.closed with
  | true => rw [close_of_closed hc]
  | false => rw [close_of_open hc]

theorem closeChan_capacity (b : Bus) (k ch : Nat) :
    ((b.closeChan k).chans ch).capacity = (b.chans ch).capacity := by
  by_cases h : ch = k
  · subst h
    rw [closeChan, setChan_same]
    rfl
  · rw [closeChan, setChan_other b _ h]

theorem foldl_closeChan_capacity (subs : List Subscription) (b : Bus) (ch : Nat) :
    ((subs.foldl (fun b s => b.closeChan s.ch) b).chans ch).capacity = (b.chans ch).capacity := by
  induction subs generalizing b with
  | nil => rfl
  | cons s subs ih => rw [List.foldl_cons, ih, closeChan_capacity]

theorem close_capacity (b : Bus) (ch : Nat) :
    (b.close.1.chans ch).capacity = (b.chans ch).capacity := by
  unfold close
  split_ifs
  · rfl
  · exact foldl_closeChan_capacity b.subs { b with closed := true } ch

end Bus

theorem Session.effect_step {s s' : Session} {op : Op} (h : s.step op = some s') :
    ∃ out, Bus.Effect s.bus op s'.bus out ∧ s'.log = s.log ++ [(op, out)] := by
  obtain ⟨out, hx, hlog⟩ := step_some h
  exact ⟨out, Bus.effect_of_exec hx, hlog⟩

/-! What a log tells. -/

def sentBy : Op × Outcome → Option Frame
  | (.sendHeader _, .frame (.ok f)) => some f
  | _ => none

/-- The filters and the channel of a `subscribe` that succeeded. -/
def madeBy : Op × Outcome → Option (List Filter × Nat)
  | (.subscribe filters _, .channel (.ok ch)) => some (filters, ch)
  | _ => none

def receivedBy (ch : Nat) : Op × Outcome → Option Frame
  | (.recv c, .received f) | (.tryRecv c, .received f) => if c = ch then f else none
  | _ => none

/-- The emitted frames, in the order of the calls. -/
def emissions (log : List (Op × Outcome)) : List Frame := log.filterMap sentBy

def subscriptions (log : List (Op × Outcome)) : List (List Filter × Nat) := log.filterMap madeBy

def receivedOn (ch : Nat) (log : List (Op × Outcome)) : List Frame := log.filterMap (receivedBy ch)

section
variable (op : Op) (ch : Nat)

@[simp] theorem sentBy_code (e : Option ErrorCode) : sentBy (op, .code e) = none := by
  cases op <;> rfl

@[simp] theorem madeBy_code (e : Option ErrorCode) : madeBy (op, .code e) = none := by
  cases op <;> rfl

@[simp] theorem receivedBy_code (e : Option ErrorCode) : receivedBy ch (op, .code e) = none := by
  cases op <;> rfl

@[simp] theorem sentBy_received (f : Option Frame) : sentBy (op, .received f) = none := by
  cases op <;> rfl

@[simp] theorem madeBy_received (f : Option Frame) : madeBy (op, .received f) = none := by
  cases op <;> rfl

theorem receivedBy_received {op : Op} {c : Nat} (h : op.receives = some c) (f : Option Frame) :
    receivedBy ch (op, .received f) = if c = ch then f else none := by
  cases op <;> cases h <;> rfl

theorem silent_of_failure {out : Outcome} {e : ErrorCode} (h : out.failure = some e) :
    sentBy (op, out) = none ∧ madeBy (op, out) = none ∧ receivedBy ch (op, out) = none := by
  cases out with
  | code c => simp
  | frame r =>
      cases r with
      | ok f => cases h
      | error c => cases op <;> exact ⟨rfl, rfl, rfl⟩
  | channel r =>
      cases r with
      | ok c => cases h
      | error c => cases op <;> exact ⟨rfl, rfl, rfl⟩
  | _ => cases h

end

/-- A call that sends nothing takes from a channel, off its front, what its consumer is given,
and no more; only the channel a call makes is not the one that was there. -/
theorem Bus.Effect.chan_buf {b b' : Bus} {op : Op} {out : Outcome} (h : Bus.Effect b op b' out)
    (hsent : sentBy (op, out) = none) (ch : Nat) :
    (b.chans ch).buf = (receivedBy ch (op, out)).toList ++ (b'.chans ch).buf ∨
      ch = b.handles ∧ madeBy (op, out) ≠ none ∧ receivedBy ch (op, out) = none ∧
        (b'.chans ch).buf = [] := by
  cases h with
  | failed hout hsame =>
      rw [(silent_of_failure op ch hout).2.2, hsame]
      exact .inl rfl
  | published hop hp =>
      obtain ⟨-, -, rfl⟩ := Bus.doPublish_ok hp
      rw [receivedBy_code]
      exact .inl rfl
  | scheduled hopen => exact .inl rfl
  | subscribed hopen =>
      by_cases hch : ch = b.handles
      · subst hch
        exact .inr ⟨rfl, Option.some_ne_none _, rfl, by simp⟩
      · exact .inl (congrArg Chan.buf (Function.update_of_ne hch _ b.chans)).symm
  | emitted hm hbr => cases hsent
  | closed => exact .inl (b.close_buf ch).symm
  | @received op c ch' f hop hbuf hshape =>
      left
      rw [receivedBy_received ch hop]
      by_cases hc : ch = c
      · rw [if_pos hc.symm, hc, Bus.setChan_same, hbuf]
      · rw [if_neg (Ne.symm hc), Bus.setChan_other b ch' hc]
        rfl
  | @closedChan c =>
      left
      by_cases hc : ch = c
      · subst hc
        rw [Bus.closeChan, Bus.setChan_same]
        rfl
      · rw [Bus.closeChan, Bus.setChan_other b _ hc]
        rfl

theorem Bus.Effect.of_sent {b b' : Bus} {op : Op} {out : Outcome} {f : Frame}
    (h : Bus.Effect b op b' out) (hsent : sentBy (op, out) = some f) :
    ∃ id m, b.respond id = (m, .ok f) ∧ m.broadcast f = some b' ∧
      ∀ ch, receivedBy ch (op, out) = none := by
  cases h with
  | failed hout hsame => rw [(silent_of_failure op 0 hout).1] at hsent; cases hsent
  | emitted hm hbr =>
      obtain rfl := Option.some.inj hsent
      exact ⟨_, _, hm, hbr, fun _ => rfl⟩
  | published hop hp => rw [sentBy_code] at hsent; cases hsent
  | received hop hbuf hshape => rw [sentBy_received] at hsent; cases hsent
  | _ => cases hsent

section
variable (log : List (Op × Outcome)) (x : Op × Outcome) (ch : Nat)

theorem emissions_concat : emissions (log ++ [x]) = emissions log ++ (sentBy x).toList := by
  cases h : sentBy x <;> simp [emissions, h]

theorem subscriptions_concat :
    subscriptions (log ++ [x]) = subscriptions log ++ (madeBy x).toList := by
  cases h : madeBy x <;> simp [subscriptions, h]

theorem receivedOn_concat :
    receivedOn ch (log ++ [x]) = receivedOn ch log ++ (receivedBy ch x).toList := by
  cases h : receivedBy ch x <;> simp [receivedOn, h]

end

end CppLin.Virt
