import CppLin.Virtual.Closed

/-!
The books of the bus: what the delivery and drop counters say about the channels, and
what the write counters say about the calls, after any sequence of calls.
-/
namespace CppLin.Virt
open Bytes Relay Run

def Bus.stock (b : Bus) : Nat := ∑ ch ∈ Finset.range b.handles, (b.chans ch).buf.length

/-- The log read backwards: each emitted frame with every subscription made before it
whose filters it passes. -/
def pairsBack : List (Op × Outcome) → List (Frame × Nat)
  | [] => []
  | x :: past =>
      pairsBack past ++ (sentBy x).toList.flatMap fun f =>
        ((subscriptions past.reverse).filter fun sub => matchesAny sub.1 f).map fun sub =>
          (f, sub.2)

/-- The pairs of an emitted frame and a matching subscription. -/
def pairs (log : List (Op × Outcome)) : List (Frame × Nat) := pairsBack log.reverse

/-- Over all subscriptions ever made: frames received plus frames still buffered. -/
def delivered (s : Session) : Nat :=
  ((subscriptions s.log).map fun x =>
    (receivedOn x.2 s.log).length + (s.bus.chans x.2).buf.length).sum

theorem pairs_silent {x : Op × Outcome} (log : List (Op × Outcome)) (h : sentBy x = none) :
    pairs (log ++ [x]) = pairs log := by
  simp [pairs, pairsBack, h]

theorem pairs_sent {x : Op × Outcome} {f : Frame} (log : List (Op × Outcome))
    (h : sentBy x = some f) : (pairs (log ++ [x])).length =
      (pairs log).length + (subscriptions log).countP fun sub => matchesAny sub.1 f := by
  simp [pairs, pairsBack, h, List.countP_eq_length_filter]

namespace Bus

/-- A subscriber's channel can take a frame, now or after it has lost one. -/
structure Live (b : Bus) (s : Subscription) : Prop where
  isOpen : (b.chans s.ch).closed = false
  capacity : 0 < (b.chans s.ch).capacity
  allocated : s.ch < b.handles

theorem sum_setChan {b : Bus} {ch : Nat} (h : ch < b.handles) (c : Chan Frame)
    (measure : Chan Frame → Nat) :
    ∑ x ∈ Finset.range b.handles, measure ((b.setChan ch c).chans x) + measure (b.chans ch) =
      ∑ x ∈ Finset.range b.handles, measure (b.chans x) + measure c := by
  have hmem : ch ∈ Finset.range b.handles := Finset.mem_range.mpr h
  have hrest : ∑ x ∈ (Finset.range b.handles).erase ch, measure ((b.setChan ch c).chans x) =
      ∑ x ∈ (Finset.range b.handles).erase ch, measure (b.chans x) := by
    apply Finset.sum_congr rfl
    intro x hx
    rw [setChan_other b c (Finset.ne_of_mem_erase hx)]
  have hnew := Finset.sum_erase_add _ (fun x => measure ((b.setChan ch c).chans x)) hmem
  have hold := Finset.sum_erase_add _ (fun x => measure (b.chans x)) hmem
  simp only [setChan_same] at hnew
  rw [← hnew, ← hold, hrest]
  omega

theorem stock_setChan {b : Bus} {ch : Nat} (h : ch < b.handles) (c : Chan Frame) :
    (b.setChan ch c).stock + (b.chans ch).buf.length = b.stock + c.buf.length :=
  sum_setChan h c fun c => c.buf.length

/-- What a broadcast adds to the stock it counts as delivered, and it counts one delivery
or drop for each subscriber it concerns. -/
structure Booked (b b' : Bus) (concerned : Nat) : Prop where
  counts : ∃ k d, k + d = concerned ∧ b'.stock = b.stock + k ∧
    b'.metrics.deliverCount = b.metrics.deliverCount + UInt64.ofNat k ∧
    b'.metrics.dropCount = b.metrics.dropCount + UInt64.ofNat d
  writes : b'.metrics.writeCount = b.metrics.writeCount
  bytes : b'.metrics.bytesWritten = b.metrics.bytesWritten

theorem Booked.refl (b : Bus) : Booked b b 0 :=
  ⟨⟨0, 0, rfl, rfl, (UInt64.add_zero _).symm, (UInt64.add_zero _).symm⟩, rfl, rfl⟩

theorem Booked.trans {b₁ b₂ b₃ : Bus} {n m : Nat} (h : Booked b₁ b₂ n) (h' : Booked b₂ b₃ m) :
    Booked b₁ b₃ (n + m) := by
  obtain ⟨⟨k, d, hn, hstock, hdel, hdrop⟩, hw, hby⟩ := h
  obtain ⟨⟨k', d', hm, hstock', hdel', hdrop'⟩, hw', hby'⟩ := h'
  refine ⟨⟨k + k', d + d', by omega, by omega, ?_, ?_⟩, hw'.trans hw, hby'.trans hby⟩
  · rw [hdel', hdel, UInt64.ofNat_add, UInt64.add_assoc]
  · rw [hdrop', hdrop, UInt64.ofNat_add, UInt64.add_assoc]

section
variable {f : Frame} {b b' : Bus} {s : Subscription} (hlive : b.Live s)
include hlive

theorem Live.booked_room : Booked b ((b.setChan s.ch ((b.chans s.ch).push f)).countDelivery f) 1 := by
  have hstock := stock_setChan hlive.allocated ((b.chans s.ch).push f)
  rw [Chan.push_buf, List.length_append, List.length_singleton] at hstock
  refine ⟨⟨1, 0, rfl, ?_, rfl, (UInt64.add_zero _).symm⟩, rfl, rfl⟩
  change (b.setChan s.ch ((b.chans s.ch).push f)).stock = b.stock + 1
  omega

/-- A frame that pushed another out leaves the stock as it was: the one evicted had been
counted as delivered, the new one is not. -/
theorem Live.booked_evict (hfull : (b.chans s.ch).isFull = true) :
    Booked b (b.setChan s.ch ((b.chans s.ch).popFront.push f)).countDrop 1 := by
  have hstock := stock_setChan hlive.allocated ((b.chans s.ch).popFront.push f)
  rw [Chan.isFull_iff] at hfull
  have hcap := hlive.capacity
  simp only [Chan.push_buf, Chan.popFront_buf, List.length_append, List.length_tail,
    List.length_singleton] at hstock
  refine ⟨⟨0, 1, rfl, ?_, (UInt64.add_zero _).symm, rfl⟩, rfl, rfl⟩
  change (b.setChan s.ch ((b.chans s.ch).popFront.push f)).stock = b.stock + 0
  omega

theorem Live.booked_full : Booked b (b.setChan s.ch (b.chans s.ch)).countDrop 1 := by
  have hstock := stock_setChan hlive.allocated (b.chans s.ch)
  refine ⟨⟨0, 1, rfl, ?_, (UInt64.add_zero _).symm, rfl⟩, rfl, rfl⟩
  change (b.setChan s.ch (b.chans s.ch)).stock = b.stock + 0
  omega

theorem Live.deliver (h : deliver f b s = some b') :
    Booked b b' (if matchesAny s.filters f then 1 else 0) := by
  obtain ⟨hm, rfl⟩ | ⟨hm, ⟨-, rfl⟩ | ⟨-, -, rfl⟩ | ⟨hfull, -, rfl⟩⟩ :=
    deliver_open_cases hlive.isOpen h <;> rw [hm]
  · exact .refl b'
  · exact hlive.booked_room
  · exact hlive.booked_full
  · exact hlive.booked_evict hfull

end

theorem Live.kept {f : Frame} {b b' : Bus} {s t : Subscription} (ht : b.Live t)
    (h : Bus.deliver f b s = some b') : b'.Live t := by
  obtain ⟨hopen, hcap, hlt⟩ := ht
  obtain ⟨hclosed, hcap'⟩ := deliver_shape h t.ch
  exact ⟨hclosed.trans hopen, hcap' ▸ hcap, (deliver_sameTables h).handles ▸ hlt⟩

theorem booked_broadcast {f : Frame} {subs : List Subscription} {b b' : Bus}
    (hlive : ∀ s ∈ subs, b.Live s) (h : subs.foldlM (Bus.deliver f) b = some b') :
    Booked b b' (subs.countP fun s => matchesAny s.filters f) := by
  induction subs generalizing b with
  | nil =>
      rw [List.foldlM_nil, Option.pure_def, Option.some.injEq] at h
      subst h
      exact .refl b
  | cons s subs ih =>
      rw [List.foldlM_cons] at h
      obtain ⟨m, hm, hrest⟩ := Option.bind_eq_some_iff.mp h
      have hhere := (hlive s List.mem_cons_self).deliver hm
      have hthere := ih (fun t ht => (hlive t (List.mem_cons_of_mem s ht)).kept hm) hrest
      rw [List.countP_cons, Nat.add_comm]
      exact hhere.trans hthere

end Bus

/-- Frames received, over the channels numbered below `n`. -/
def taken (n : Nat) (log : List (Op × Outcome)) : Nat :=
  ∑ ch ∈ Finset.range n, (receivedOn ch log).length

/-- The counters against the log and the channels. -/
structure Books (log : List (Op × Outcome)) (b : Bus) : Prop where
  live : ∀ s ∈ b.subs, b.Live s
  listed : b.closed = false → b.subs.map (fun s => (s.filters, s.ch)) = subscriptions log
  fresh : ∀ ch, b.handles ≤ ch → receivedOn ch log = [] ∧ (b.chans ch).buf = []
  deliveries : b.metrics.deliverCount = UInt64.ofNat (taken b.handles log + b.stock)
  outcomes : b.metrics.deliverCount + b.metrics.dropCount = UInt64.ofNat (pairs log).length
  writes : b.metrics.writeCount = UInt64.ofNat (emissions log).length
  bytes : b.metrics.bytesWritten =
    UInt64.ofNat ((emissions log).map fun f => f.data.length).sum

theorem taken_add_stock (log : List (Op × Outcome)) (b : Bus) : taken b.handles log + b.stock =
    ∑ ch ∈ Finset.range b.handles, ((receivedOn ch log).length + (b.chans ch).buf.length) :=
  Finset.sum_add_distrib.symm

namespace Books

theorem create : Books [] .create :=
  ⟨by simp [Bus.create], fun _ => rfl, fun _ _ => ⟨rfl, rfl⟩, rfl, rfl, rfl, rfl⟩

variable {log : List (Op × Outcome)} {b b' : Bus}

theorem silent (h : Books log b) {op : Op} {out : Outcome} (heffect : Bus.Effect b op b' out)
    (hsent : sentBy (op, out) = none) (hmade : madeBy (op, out) = none) (hlive : ∀ s ∈ b'.subs, s ∈ b.subs ∧
      (b'.chans s.ch).closed = (b.chans s.ch).closed ∧
      (b'.chans s.ch).capacity = (b.chans s.ch).capacity)
    (hopen : b'.closed = false → b.closed = false ∧ b'.subs = b.subs)
    (hhandles : b'.handles = b.handles)
    (hmetrics : ∀ e, { b'.metrics with errorCount := e } = { b.metrics with errorCount := e }) :
    Books (log ++ [(op, out)]) b' := by
  obtain ⟨hlives, hlisted, hfresh, hdel, hout, hwrites, hbytes⟩ := h
  have hbuf : ∀ ch, (b.chans ch).buf = (receivedBy ch (op, out)).toList ++ (b'.chans ch).buf :=
    fun ch => (heffect.chan_buf hsent ch).resolve_right fun hnew => hnew.2.1 hmade
  have hsubs : subscriptions (log ++ [(op, out)]) = subscriptions log := by
    rw [subscriptions_concat, hmade, Option.toList_none, List.append_nil]
  have hemit : emissions (log ++ [(op, out)]) = emissions log := by
    rw [emissions_concat, hsent, Option.toList_none, List.append_nil]
  have hm := Metrics.mk.inj (hmetrics 0)
  have htotal : taken b'.handles (log ++ [(op, out)]) + b'.stock = taken b.handles log + b.stock := by
    rw [taken_add_stock, taken_add_stock, hhandles]
    apply Finset.sum_congr rfl
    intro ch _
    rw [receivedOn_concat, hbuf ch, List.length_append, List.length_append]
    omega
  refine ⟨?_, ?_, ?_, ?_, ?_, ?_, ?_⟩
  · intro s hs
    obtain ⟨hold, hclosed, hcap⟩ := hlive s hs
    obtain ⟨hsopen, hscap, hslt⟩ := hlives s hold
    exact ⟨hclosed.trans hsopen, hcap ▸ hscap, hhandles ▸ hslt⟩
  · intro hc
    obtain ⟨hc', hsame⟩ := hopen hc
    rw [hsubs, hsame]
    exact hlisted hc'
  · intro ch hch
    obtain ⟨hrec, hempty⟩ := hfresh ch (hhandles ▸ hch)
    have hnone := hbuf ch
    rw [hempty] at hnone
    obtain ⟨hx, hb'⟩ := List.append_eq_nil_iff.mp hnone.symm
    exact ⟨by rw [receivedOn_concat, hrec, hx]; rfl, hb'⟩
  · rw [htotal, ← hdel, hm.2.1]
  · rw [pairs_silent log hsent, ← hout, hm.2.1, hm.2.2.1]
  · rw [hemit, ← hwrites, hm.1]
  · rw [hemit, ← hbytes, hm.2.2.2.1]

theorem subscribed (h : Books log b) (hopen : b.closed = false) (filters : List Filter)
    (opts : List SubscriberOption) {c : Chan Frame} (hempty : c.buf = [])
    (hc : c.closed = false) (hcap : 0 < c.capacity)
    (hb' : b' = { b with
      subs := b.subs ++ [⟨filters, b.handles, (applyOptions opts).backPressure⟩]
      chans := Function.update b.chans b.handles c
      handles := b.handles + 1 }) :
    Books (log ++ [(.subscribe filters opts, .channel (.ok b.handles))]) b' := by
  obtain ⟨hlives, hlisted, hfresh, hdel, hout, hwrites, hbytes⟩ := h
  have hsent : sentBy (.subscribe filters opts, .channel (.ok b.handles)) = none := rfl
  have hrec : ∀ ch, receivedOn ch (log ++ [(.subscribe filters opts, .channel (.ok b.handles))]) =
      receivedOn ch log := fun ch => (receivedOn_concat log _ ch).trans (List.append_nil _)
  have hemit : emissions (log ++ [(.subscribe filters opts, .channel (.ok b.handles))]) =
      emissions log := (emissions_concat log _).trans (List.append_nil _)
  have hown : b'.chans b.handles = c := by
    rw [hb']
    exact Function.update_self _ _ _
  have hother : ∀ ch, ch ≠ b.handles → b'.chans ch = b.chans ch := by
    intro ch hch
    rw [hb']
    exact Function.update_of_ne hch _ _
  have hhandles : b'.handles = b.handles + 1 := by rw [hb']
  have hmetrics : b'.metrics = b.metrics := by rw [hb']
  refine ⟨?_, ?_, ?_, ?_, ?_, ?_, ?_⟩
  · intro s hs
    rw [hb'] at hs
    rcases List.mem_append.mp hs with hold | hnew
    · obtain ⟨hsopen, hscap, hslt⟩ := hlives s hold
      have hch := hother s.ch hslt.ne
      exact ⟨hch ▸ hsopen, hch ▸ hscap, hhandles ▸ Nat.lt_succ_of_lt hslt⟩
    · obtain rfl := List.mem_singleton.mp hnew
      exact ⟨hown ▸ hc, hown ▸ hcap, hhandles ▸ Nat.lt_succ_self _⟩
  · intro _
    rw [subscriptions_concat, ← hlisted hopen, hb', List.map_append]
    rfl
  · intro ch hch
    rw [hhandles] at hch
    rw [hrec, hother ch (Nat.ne_of_gt hch)]
    exact hfresh ch (Nat.le_of_succ_le hch)
  · have htotal : taken b'.handles
        (log ++ [(.subscribe filters opts, .channel (.ok b.handles))]) + b'.stock =
        taken b.handles log + b.stock := by
      rw [taken_add_stock, taken_add_stock, hhandles, Finset.sum_range_succ, hrec,
        (hfresh b.handles (Nat.le_refl _)).1, hown, hempty, List.length_nil, Nat.add_zero]
      apply Finset.sum_congr rfl
      intro ch hch
      rw [hrec, hother ch (Finset.mem_range.mp hch).ne]
    rw [htotal, hmetrics, hdel]
  · rw [pairs_silent log hsent, hmetrics, hout]
  · rw [hemit, hmetrics, hwrites]
  · rw [hemit, hmetrics, hbytes]

theorem emitted (h : Books log b) {id : UInt8} {m : Bus} {f : Frame}
    (hm : b.respond id = (m, .ok f)) (hbr : m.broadcast f = some b') :
    Books (log ++ [(.sendHeader id, .frame (.ok f))]) b' := by
  obtain ⟨hlives, hlisted, hfresh, hdel, hout, hwrites, hbytes⟩ := h
  have hafter : Bus.SameTables b b' := Bus.emitted_sameTables hm hbr
  obtain ⟨-, hopen, e, -, -, rfl⟩ := Bus.respond_ok hm
  have hsent : sentBy (.sendHeader id, .frame (.ok f)) = some f := rfl
  have hrec : ∀ ch, receivedOn ch (log ++ [(.sendHeader id, .frame (.ok f))]) =
      receivedOn ch log := fun ch => (receivedOn_concat log _ ch).trans (List.append_nil _)
  have hlive : ∀ s ∈ (b.countWrite f).subs, (b.countWrite f).Live s := fun s hs =>
    ⟨(hlives s hs).isOpen, (hlives s hs).capacity, (hlives s hs).allocated⟩
  obtain ⟨⟨k, d, hkd, hstock, hk, hd⟩, hw, hby⟩ := Bus.booked_broadcast hlive hbr
  have hconcerned : (b.countWrite f).subs.countP (fun s => matchesAny s.filters f) =
      (subscriptions log).countP fun sub => matchesAny sub.1 f := by
    rw [← hlisted hopen, List.countP_map]
    rfl
  refine ⟨?_, ?_, ?_, ?_, ?_, ?_, ?_⟩
  · intro s hs
    obtain ⟨hsopen, hscap, hslt⟩ := hlives s (hafter.subs ▸ hs)
    obtain ⟨hclosed, hcap⟩ := Bus.foldlM_deliver_shape hbr s.ch
    exact ⟨hclosed.trans hsopen, hcap ▸ hscap, hafter.handles ▸ hslt⟩
  · intro _
    rw [subscriptions_concat, hafter.subs, hlisted hopen]
    exact (List.append_nil _).symm
  · intro ch hch
    rw [hafter.handles] at hch
    obtain ⟨hnone, hempty⟩ := hfresh ch hch
    rw [hrec, Bus.foldlM_deliver_other hbr fun s hs => ((hlives s hs).allocated.trans_le hch).ne]
    exact ⟨hnone, hempty⟩
  · have htaken : taken b'.handles (log ++ [(.sendHeader id, .frame (.ok f))]) =
        taken b.handles log := by
      rw [hafter.handles]
      apply Finset.sum_congr rfl
      intro ch _
      rw [hrec]
    have hstock' : b'.stock = b.stock + k := hstock
    have hk' : b'.metrics.deliverCount = b.metrics.deliverCount + UInt64.ofNat k := hk
    rw [htaken, hstock', hk', hdel, ← Nat.add_assoc, UInt64.ofNat_add _ k]
  · have hk' : b'.metrics.deliverCount = b.metrics.deliverCount + UInt64.ofNat k := hk
    have hd' : b'.metrics.dropCount = b.metrics.dropCount + UInt64.ofNat d := hd
    rw [pairs_sent log hsent, ← hconcerned, ← hkd, UInt64.ofNat_add, UInt64.ofNat_add, ← hout, hk',
      hd']
    ac_rfl
  · have hw' : b'.metrics.writeCount = b.metrics.writeCount + 1 := hw
    rw [emissions_concat, hsent, List.length_append, UInt64.ofNat_add, ← hwrites, hw']
    rfl
  · have hby' : b'.metrics.bytesWritten = b.metrics.bytesWritten + UInt64.ofNat f.data.length := hby
    rw [emissions_concat, hsent, Option.toList_some, List.map_append, List.sum_append,
      UInt64.ofNat_add, ← hbytes, hby', List.map_singleton, List.sum_singleton]

theorem effect (h : Books log b) {op : Op} {out : Outcome} (heffect : Bus.Effect b op b' out)
    (hop : ∀ ch, op ≠ .closeChan ch) : Books (log ++ [(op, out)]) b' := by
  have quiet := h.silent heffect
  cases heffect with
  | failed hout hsame =>
      obtain ⟨hsent, hmade, -⟩ := silent_of_failure op 0 hout
      obtain ⟨hclosed, hsubs, hchans, hhandles⟩ := hsame.same
      refine quiet hsent hmade ?_ (fun hc => ⟨hclosed ▸ hc, hsubs⟩) hhandles ?_
      · exact fun s hs => ⟨hsubs ▸ hs, hchans ▸ rfl, hchans ▸ rfl⟩
      · intro e
        rw [hsame]
  | published hpub hp =>
      obtain ⟨-, -, rfl⟩ := Bus.doPublish_ok hp
      exact quiet (sentBy_code op none) (madeBy_code op none) (fun s hs => ⟨hs, rfl, rfl⟩)
        (fun hc => ⟨hc, rfl⟩) rfl fun _ => rfl
  | scheduled hopen =>
      exact quiet rfl rfl (fun s hs => ⟨hs, rfl, rfl⟩) (fun hc => ⟨hc, rfl⟩) rfl fun _ => rfl
  | @subscribed filters opts hopen =>
      refine h.subscribed hopen filters opts rfl rfl ?_ rfl
      have hdepth := effectiveDepth_pos (applyOptions opts) (d := kDefaultChanDepth) (by decide)
      exact Int.lt_toNat.mpr hdepth
  | emitted hm hbr => exact h.emitted hm hbr
  | closed =>
      refine quiet rfl rfl ?_ ?_ b.close_handles ?_
      · intro s hs
        cases hc : b.closed with
        | true =>
            rw [Bus.close_of_closed hc] at hs ⊢
            exact ⟨hs, rfl, rfl⟩
        | false =>
            rw [Bus.close_of_open hc] at hs
            cases hs
      · intro hc
        rw [b.close_closed] at hc
        cases hc
      · intro e
        rw [b.close_metrics]
  | @received op c ch' f hrec hbuf hshape =>
      exact quiet (sentBy_received op f) (madeBy_received op f)
        (fun s hs => ⟨hs, b.setChan_shape ch' hshape s.ch⟩) (fun hc => ⟨hc, rfl⟩) rfl fun _ => rfl
  | @closedChan ch => exact absurd rfl (hop ch)

end Books

theorem books_run {ops : List Op} {s : Session} (hops : ∀ ch, Op.closeChan ch ∉ ops)
    (h : run Session.step {} ops = some s) : Books s.log s.bus := by
  have hallowed : ∀ op ∈ ops, ∀ _ : Session, ∀ ch, op ≠ .closeChan ch := by
    rintro op hop - ch rfl
    exact hops ch hop
  refine guarded_run (I := fun s : Session => Books s.log s.bus) ?_ Books.create
    (guarded_of_forall hallowed _) h
  intro s op s' hs hop hstep
  obtain ⟨out, heffect, hlog⟩ := Session.effect_step hstep
  rw [hlog]
  exact hs.effect heffect hop

/-- In every state reached by calls and receives: the delivery counter is the number of
frames received and still buffered over all subscriptions ever made, deliveries and drops
together are the pairs of an emitted frame and a matching subscription, and the write
counters are the number and the total size of the frames sent, all modulo 2^64. -/
theorem delivery_accounting {ops : List Op} {s : Session} (hops : ∀ ch, Op.closeChan ch ∉ ops)
    (h : run Session.step {} ops = some s) :
    s.bus.metrics.deliverCount = UInt64.ofNat (delivered s) ∧
      s.bus.metrics.deliverCount + s.bus.metrics.dropCount =
        UInt64.ofNat (pairs s.log).length ∧
      s.bus.metrics.writeCount = UInt64.ofNat (emissions s.log).length ∧
      s.bus.metrics.bytesWritten =
        UInt64.ofNat ((emissions s.log).map fun f => f.data.length).sum := by
  have hbooks := books_run hops h
  have hdelivered : delivered s = taken s.bus.handles s.log + s.bus.stock := by
    have hmap : delivered s = (((subscriptions s.log).map Prod.snd).map fun ch =>
        (receivedOn ch s.log).length + (s.bus.chans ch).buf.length).sum := by
      rw [List.map_map]
      rfl
    rw [hmap, Session.handles_run h, taken_add_stock]
    rfl
  exact ⟨hdelivered ▸ hbooks.deliveries, hbooks.outcomes, hbooks.writes, hbooks.bytes⟩

/-- A full channel under each policy, a frame that matches no one, a receive and a close. -/
theorem delivery_accounting_mixed :
    let ops : List Op := [.publish 5 [1, 2], .publish 6 [3],
      .subscribe [{ id := 5 }] [withChannelDepth 1],
      .subscribe [] [withChannelDepth 1, withBackPressure .dropOldest], .sendHeader 5,
      .sendHeader 6, .recv 1, .sendHeader 5, .close]
    ∃ s, run Session.step {} ops = some s ∧
      s.bus.metrics.deliverCount = UInt64.ofNat (delivered s) := by
  intro ops
  have h : run Session.step {} ops = some _ := rfl
  exact ⟨_, h, (delivery_accounting (by simp [ops]) h).1⟩

end CppLin.Virt
