import CppLin.Virtual.Accounting

/-!
The byte counter of deliveries. An eviction leaves it alone, so that a frame that was
counted is exchanged for one that is not: the counter is right as long as the frames
pushed out are together as large as those that come in for them.
-/
namespace CppLin.Virt
open Bytes Relay Run

def bytes (fs : List Frame) : Nat := (fs.map fun f => f.data.length).sum

@[simp] theorem bytes_append (fs gs : List Frame) : bytes (fs ++ gs) = bytes fs + bytes gs := by
  simp [bytes]

/-- Over all subscriptions ever made: the bytes received plus those still buffered. -/
def deliveredBytes (s : Session) : Nat :=
  ((subscriptions s.log).map fun x =>
    bytes (receivedOn x.2 s.log) + bytes (s.bus.chans x.2).buf).sum

namespace Bus

/-- The delivery pushes the oldest frame out. -/
def evicts (f : Frame) (b : Bus) (s : Subscription) : Bool :=
  matchesAny s.filters f && s.backPressure == .dropOldest && (b.chans s.ch).isFull

/-- The bytes a broadcast pushes out of the channels. -/
def bytesOut (f : Frame) (b : Bus) (subs : List Subscription) : Nat :=
  bytes ((subs.filter (b.evicts f)).flatMap fun s => (b.chans s.ch).buf.take 1)

/-- The bytes it puts in their place. -/
def bytesIn (f : Frame) (b : Bus) (subs : List Subscription) : Nat :=
  subs.countP (b.evicts f) * f.data.length

def stockBytes (b : Bus) : Nat := ∑ ch ∈ Finset.range b.handles, bytes (b.chans ch).buf

/-- What a broadcast does to the bytes in stock and to their counter. -/
def Weighed (b b' : Bus) (pushedOut putIn : Nat) : Prop :=
  ∃ k, b'.stockBytes + pushedOut = b.stockBytes + k + putIn ∧
    b'.metrics.bytesDelivered = b.metrics.bytesDelivered + UInt64.ofNat k

end Bus

/-- The frame a call is about to send. -/
def Session.sends (s : Session) : Op → Option Frame
  | .sendHeader id => (s.bus.respond id).2.toOption
  | _ => none

/-- The frames a header pushes out are together as large, modulo 2^64, as what comes in for
them. -/
def Session.Balanced (s : Session) (op : Op) : Prop :=
  ∀ f ∈ s.sends op,
    UInt64.ofNat (s.bus.bytesOut f s.bus.subs) = UInt64.ofNat (s.bus.bytesIn f s.bus.subs)

instance (s : Session) (op : Op) : Decidable (s.Balanced op) :=
  inferInstanceAs (Decidable (∀ f ∈ s.sends op, _))

namespace Bus

theorem Weighed.refl (b : Bus) : Weighed b b 0 0 :=
  ⟨0, rfl, (UInt64.add_zero _).symm⟩

theorem Weighed.trans {b₁ b₂ b₃ : Bus} {o i o' i' : Nat} (h : Weighed b₁ b₂ o i)
    (h' : Weighed b₂ b₃ o' i') : Weighed b₁ b₃ (o + o') (i + i') := by
  obtain ⟨k, hstock, hcount⟩ := h
  obtain ⟨k', hstock', hcount'⟩ := h'
  refine ⟨k + k', by omega, ?_⟩
  rw [hcount', hcount, UInt64.ofNat_add, UInt64.add_assoc]

theorem Live.weighed {f : Frame} {b b' : Bus} {s : Subscription} (hlive : b.Live s)
    (h : Bus.deliver f b s = some b') : Weighed b b' (b.bytesOut f [s]) (b.bytesIn f [s]) := by
  have kept : b.evicts f s = false → b.bytesOut f [s] = 0 ∧ b.bytesIn f [s] = 0 := by
    intro hno
    simp [bytesOut, bytesIn, hno, bytes]
  have hstock : ∀ c, (b.setChan s.ch c).stockBytes + bytes (b.chans s.ch).buf =
      b.stockBytes + bytes c.buf :=
    fun c => sum_setChan hlive.allocated c fun c => bytes c.buf
  have hone : bytes [f] = f.data.length := by simp [bytes]
  obtain ⟨hm, rfl⟩ | ⟨hm, ⟨hroom, rfl⟩ | ⟨hfull, hp, rfl⟩ | ⟨hfull, hp, rfl⟩⟩ :=
    deliver_open_cases hlive.isOpen h
  · obtain ⟨hout, hin⟩ := kept (by simp [evicts, hm])
    rw [hout, hin]
    exact .refl b'
  · obtain ⟨hout, hin⟩ := kept (by simp [evicts, hroom])
    have hnew := hstock ((b.chans s.ch).push f)
    rw [Chan.push_buf, bytes_append, hone] at hnew
    refine ⟨f.data.length, ?_, rfl⟩
    change (b.setChan s.ch ((b.chans s.ch).push f)).stockBytes + _ = _
    omega
  · obtain ⟨hout, hin⟩ := kept (by simp [evicts, hp])
    have hnew := hstock (b.chans s.ch)
    refine ⟨0, ?_, (UInt64.add_zero _).symm⟩
    change (b.setChan s.ch (b.chans s.ch)).stockBytes + _ = _
    omega
  · have hev : b.evicts f s = true := by simp [evicts, hm, hp, hfull]
    have hout : b.bytesOut f [s] = bytes ((b.chans s.ch).buf.take 1) := by
      simp [bytesOut, hev]
    have hin : b.bytesIn f [s] = f.data.length := by simp [bytesIn, hev]
    have hnew := hstock ((b.chans s.ch).popFront.push f)
    have hhead : bytes (b.chans s.ch).buf =
        bytes ((b.chans s.ch).buf.take 1) + bytes (b.chans s.ch).buf.tail := by
      rw [← List.drop_one, ← bytes_append, List.take_append_drop]
    rw [Chan.push_buf, Chan.popFront_buf, bytes_append, hone] at hnew
    refine ⟨0, ?_, (UInt64.add_zero _).symm⟩
    change (b.setChan s.ch ((b.chans s.ch).popFront.push f)).stockBytes + _ = _
    omega

theorem bytesOut_cons (f : Frame) (b : Bus) (s : Subscription) (subs : List Subscription) :
    b.bytesOut f (s :: subs) = b.bytesOut f [s] + b.bytesOut f subs := by
  cases h : b.evicts f s <;> simp [bytesOut, h, bytes]

theorem bytesIn_cons (f : Frame) (b : Bus) (s : Subscription) (subs : List Subscription) :
    b.bytesIn f (s :: subs) = b.bytesIn f [s] + b.bytesIn f subs := by
  cases h : b.evicts f s <;> simp [bytesIn, h, Nat.add_mul, Nat.add_comm]

theorem bytes_congr {f : Frame} {b b' : Bus} {subs : List Subscription}
    (h : ∀ s ∈ subs, b'.chans s.ch = b.chans s.ch) :
    b'.bytesOut f subs = b.bytesOut f subs ∧ b'.bytesIn f subs = b.bytesIn f subs := by
  have hev : ∀ s ∈ subs, b'.evicts f s = b.evicts f s := by
    intro s hs
    rw [evicts, evicts, h s hs]
  constructor
  · rw [bytesOut, bytesOut, List.filter_congr hev]
    congr 1
    apply List.flatMap_congr
    intro s hs
    rw [h s (List.mem_filter.mp hs).1]
  · rw [bytesIn, bytesIn, List.countP_congr fun s hs => by rw [hev s hs]]

theorem weighed_broadcast {f : Frame} {subs : List Subscription} {b b' : Bus}
    (hlive : ∀ s ∈ subs, b.Live s) (hnd : (subs.map Subscription.ch).Nodup)
    (h : subs.foldlM (Bus.deliver f) b = some b') :
    Weighed b b' (b.bytesOut f subs) (b.bytesIn f subs) := by
  induction subs generalizing b with
  | nil =>
    rw [List.foldlM_nil, Option.pure_def, Option.some.injEq] at h
    subst h
    have hnone : b.bytesOut f [] = 0 ∧ b.bytesIn f [] = 0 := by simp [bytesOut, bytesIn, bytes]
    rw [hnone.1, hnone.2]
    exact .refl b
  | cons s subs ih =>
    rw [List.foldlM_cons] at h
    obtain ⟨m, hm, hrest⟩ := Option.bind_eq_some_iff.mp h
    rw [List.map_cons, List.nodup_cons] at hnd
    have hahead : ∀ x ∈ subs, m.chans x.ch = b.chans x.ch := fun x hx =>
      deliver_chans_of_ne hm fun he => hnd.1 (he ▸ List.mem_map_of_mem hx)
    have hhere := (hlive s List.mem_cons_self).weighed hm
    have hthere := ih (fun x hx => (hlive x (List.mem_cons_of_mem s hx)).kept hm) hnd.2 hrest
    obtain ⟨hout, hin⟩ := bytes_congr (f := f) hahead
    rw [hout, hin] at hthere
    rw [bytesOut_cons, bytesIn_cons]
    exact hhere.trans hthere

end Bus
namespace Session

theorem sentBy_exec {s : Session} {op : Op} {b : Bus} {out : Outcome}
    (h : s.bus.exec op = some (b, out)) : sentBy (op, out) = s.sends op := by
  cases op with
  | sendHeader id =>
    obtain ⟨⟨m, r⟩, hm, heq⟩ := Option.map_eq_some_iff.mp h
    obtain ⟨-, rfl⟩ := Prod.mk.inj heq
    unfold Bus.sendHeader at hm
    rw [sends]
    cases hr : s.bus.respond id with
    | mk m' r' =>
      rw [hr] at hm
      cases r' with
      | error e =>
        obtain ⟨-, rfl⟩ := Prod.mk.inj (Option.some.inj hm)
        rfl
      | ok f =>
        obtain ⟨m, -, heq⟩ := Option.map_eq_some_iff.mp hm
        obtain ⟨-, rfl⟩ := Prod.mk.inj heq
        rfl
  | publish | publishClassic | setSchedule | subscribe | close | tryRecv | closeChan =>
    obtain ⟨-, rfl⟩ := Prod.mk.inj (Option.some.inj h)
    rfl
  | recv ch =>
    obtain ⟨⟨c, f⟩, -, heq⟩ := Option.map_eq_some_iff.mp h
    obtain ⟨-, rfl⟩ := Prod.mk.inj heq
    rfl

/-- A state reached without a consumer closing a channel. -/
def Reached (s : Session) : Prop :=
  ∃ ops, (∀ ch, Op.closeChan ch ∉ ops) ∧ run Session.step {} ops = some s

theorem Reached.step {s s' : Session} {op : Op} (h : Reached s) (hop : ∀ ch, op ≠ .closeChan ch)
    (hstep : s.step op = some s') : Reached s' := by
  obtain ⟨ops, hops, hrun⟩ := h
  refine ⟨ops ++ [op], fun ch hmem => ?_, run_concat.mpr ⟨s, hrun, hstep⟩⟩
  rcases List.mem_append.mp hmem with hold | hnew
  · exact hops ch hold
  · exact hop ch (List.mem_singleton.mp hnew).symm

theorem Reached.deliveredBytes_eq {s : Session} (h : Reached s) {n : Nat}
    (hn : s.bus.handles ≤ n) : deliveredBytes s =
      ∑ ch ∈ Finset.range n, bytes (receivedOn ch s.log ++ (s.bus.chans ch).buf) := by
  obtain ⟨ops, hops, hrun⟩ := h
  have hfresh := (books_run hops hrun).fresh
  have hmap : deliveredBytes s = (((subscriptions s.log).map Prod.snd).map fun ch =>
      bytes (receivedOn ch s.log ++ (s.bus.chans ch).buf)).sum := by
    simp only [deliveredBytes, List.map_map, bytes_append]
    rfl
  have hhandles : deliveredBytes s = ∑ ch ∈ Finset.range s.bus.handles,
      bytes (receivedOn ch s.log ++ (s.bus.chans ch).buf) := by
    rw [hmap, handles_run hrun]
    rfl
  rw [hhandles]
  apply Finset.sum_subset (Finset.range_subset_range.mpr hn)
  intro ch _ hch
  obtain ⟨hrec, hbuf⟩ := hfresh ch (by simpa using hch)
  rw [hrec, hbuf]
  rfl

variable {s s' : Session} {op : Op} {out : Outcome}

theorem handles_le (heffect : Bus.Effect s.bus op s'.bus out) : s.bus.handles ≤ s'.bus.handles := by
  generalize s'.bus = b' at heffect
  cases heffect with
  | failed hout hsame => rw [hsame]
  | published hop hp =>
    obtain ⟨-, -, rfl⟩ := Bus.doPublish_ok hp
    exact Nat.le_refl _
  | subscribed hopen => exact Nat.le_succ _
  | emitted hm hbr =>
    exact (Bus.emitted_sameTables hm hbr).handles.ge
  | closed => exact s.bus.close_handles.ge
  | _ => exact Nat.le_refl _

/-- A call that sends nothing moves frames out of a channel to its consumer at most, and
leaves the counter. -/
theorem deliveredBytes_silent (h : Reached s) (h' : Reached s')
    (heffect : Bus.Effect s.bus op s'.bus out) (hlog : s'.log = s.log ++ [(op, out)])
    (hsent : sentBy (op, out) = none) : deliveredBytes s' = deliveredBytes s ∧
      s'.bus.metrics.bytesDelivered = s.bus.metrics.bytesDelivered := by
  constructor
  · rw [h.deliveredBytes_eq (handles_le heffect), h'.deliveredBytes_eq (Nat.le_refl _)]
    apply Finset.sum_congr rfl
    intro ch _
    obtain ⟨ops, hops, hrun⟩ := h
    rw [hlog, receivedOn_concat]
    rcases heffect.chan_buf hsent ch with hbuf | ⟨rfl, -, hrec, hbuf⟩
    · rw [hbuf, List.append_assoc]
    · rw [hrec, hbuf, ((books_run hops hrun).fresh _ (Nat.le_refl _)).2]
      simp
  · generalize s'.bus = b' at heffect
    cases heffect with
    | failed hout hsame => rw [hsame]
    | published hop hp =>
      obtain ⟨-, -, rfl⟩ := Bus.doPublish_ok hp
      rfl
    | emitted hm hbr => cases hsent
    | closed => rw [s.bus.close_metrics]
    | _ => rfl

/-- A header adds to both what found room; what was pushed out and what came in for it is
the difference. -/
theorem deliveredBytes_sent {f : Frame} (h : Reached s) (h' : Reached s')
    (heffect : Bus.Effect s.bus op s'.bus out) (hlog : s'.log = s.log ++ [(op, out)])
    (hsent : sentBy (op, out) = some f) :
    ∃ k, deliveredBytes s' + s.bus.bytesOut f s.bus.subs =
        deliveredBytes s + k + s.bus.bytesIn f s.bus.subs ∧
      s'.bus.metrics.bytesDelivered = s.bus.metrics.bytesDelivered + UInt64.ofNat k := by
  obtain ⟨id, m, hm, hbr, hnone⟩ := heffect.of_sent hsent
  have hhandles : s'.bus.handles = s.bus.handles :=
    (Bus.emitted_sameTables hm hbr).handles
  have ⟨ops, hops, hrun⟩ := h
  obtain ⟨-, -, e, -, -, rfl⟩ := Bus.respond_ok hm
  have hlive : ∀ x ∈ (s.bus.countWrite f).subs, (s.bus.countWrite f).Live x := by
    intro x hx
    obtain ⟨hopen, hcap, hlt⟩ := (books_run hops hrun).live x hx
    exact ⟨hopen, hcap, hlt⟩
  obtain ⟨k, hstock, hcount⟩ :=
    Bus.weighed_broadcast hlive (Session.wellFormed_run hrun).ownChannels hbr
  refine ⟨k, ?_, hcount⟩
  have htaken : ∀ ch, receivedOn ch s'.log = receivedOn ch s.log := by
    intro ch
    rw [hlog, receivedOn_concat, hnone ch]
    exact List.append_nil _
  have hstock' : s'.bus.stockBytes + s.bus.bytesOut f s.bus.subs =
    s.bus.stockBytes + k + s.bus.bytesIn f s.bus.subs := hstock
  rw [h.deliveredBytes_eq (Nat.le_refl _), h'.deliveredBytes_eq (Nat.le_refl _)]
  simp only [bytes_append, Finset.sum_add_distrib, htaken]
  rw [Bus.stockBytes, Bus.stockBytes, hhandles] at hstock'
  rw [hhandles]
  omega

/-- The counter goes along exactly where the frames exchanged weigh the same. -/
theorem deliveredBytes_step (h : Reached s) (h' : Reached s') (hstep : s.step op = some s')
    (hcount : s.bus.metrics.bytesDelivered = UInt64.ofNat (deliveredBytes s)) :
    s'.bus.metrics.bytesDelivered = UInt64.ofNat (deliveredBytes s') ↔ s.Balanced op := by
  obtain ⟨out, hx, hlog⟩ := step_some hstep
  have heffect := Bus.effect_of_exec hx
  have hsends := sentBy_exec hx
  rw [Balanced, ← hsends]
  cases hsent : sentBy (op, out) with
  | none =>
    obtain ⟨hsame, hcount'⟩ := deliveredBytes_silent h h' heffect hlog hsent
    exact iff_of_true (by rw [hcount', hsame, hcount]) (by simp)
  | some f =>
    obtain ⟨k, hsum, hcount'⟩ := deliveredBytes_sent h h' heffect hlog hsent
    have hwords := congrArg UInt64.ofNat hsum
    rw [UInt64.ofNat_add, UInt64.ofNat_add, UInt64.ofNat_add, ← hcount, ← hcount'] at hwords
    simp only [Option.mem_some_iff, forall_eq']
    constructor
    · intro heq
      rw [← heq] at hwords
      exact (UInt64.add_right_inj _).mp hwords
    · intro heq
      rw [heq] at hwords
      exact ((UInt64.add_left_inj _).mp hwords).symm

end Session

/-- The byte counter is the sum of the sizes of the frames received and still buffered, all
along a run of calls and receives, exactly when every header exchanges as many bytes as it
pushes out. -/
theorem delivered_bytes_iff {ops : List Op} {s : Session} (hops : ∀ ch, Op.closeChan ch ∉ ops)
    (h : run Session.step {} ops = some s) :
    (∀ past, past <+: ops → ∀ m, run Session.step {} past = some m →
      m.bus.metrics.bytesDelivered = UInt64.ofNat (deliveredBytes m)) ↔
      Guarded Session.step Session.Balanced {} ops := by
  have hallowed : ∀ op ∈ ops, ∀ ch, op ≠ .closeChan ch := by
    rintro op hop ch rfl
    exact hops ch hop
  refine guarded_iff_always (I := Session.Reached)
    (P := fun m => m.bus.metrics.bytesDelivered = UInt64.ofNat (deliveredBytes m)) ?_ ?_ hallowed
    ⟨[], by simp, rfl⟩ rfl h
  · exact fun m op m' hop hm _ hstep => hm.step hop hstep
  · exact fun m op m' hop hm hcount hstep => Session.deliveredBytes_step hm (hm.step hop hstep) hstep hcount

/-- A frame of one byte takes the place of a frame of two. -/
theorem not_delivered_bytes : ¬ ∀ (ops : List Op) (s : Session), (∀ ch, Op.closeChan ch ∉ ops) →
    run Session.step {} ops = some s →
    s.bus.metrics.bytesDelivered = UInt64.ofNat (deliveredBytes s) := by
  intro h
  have hrun : run Session.step {} [.publish 5 [1, 2], .publish 6 [3],
      .subscribe [] [withChannelDepth 1, withBackPressure .dropOldest], .sendHeader 5,
      .sendHeader 6] = some _ := rfl
  have heq := h _ _ (by simp) hrun
  revert heq
  decide +kernel

/-- Frames of one size. -/
theorem delivered_bytes_iff_equal :
    let ops : List Op := [.publish 5 [1, 2], .publish 6 [3, 4],
      .subscribe [] [withChannelDepth 1, withBackPressure .dropOldest], .sendHeader 5,
      .sendHeader 6, .recv 0]
    (∀ past, past <+: ops → ∀ m, run Session.step {} past = some m →
      m.bus.metrics.bytesDelivered = UInt64.ofNat (deliveredBytes m)) ↔
      Guarded Session.step Session.Balanced {} ops := by
  intro ops
  have hrun : run Session.step {} ops = some _ := rfl
  exact delivered_bytes_iff (by simp [ops]) hrun

end CppLin.Virt
