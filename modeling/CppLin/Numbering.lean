import CppLin.ChannelHistory
import CppLin.Forwarding

/-!
The sequence numbers of an adapter subscription: the forwarding thread numbers the frames
it takes, and the numbers a consumer misses are those of the messages lost at its channel.
-/
namespace CppLin
open Bytes Relay Run Virt Ledger

/-- The operation on the consumer's channel a message is passed to. -/
def Chan.sendOp {α : Type*} (bp : BackPressurePolicy) (value : α) : Chan.Op α :=
  match bp with
  | .dropNewest => .trySend value
  | .dropOldest => .sendDropOldest value
  | .block => .send value

theorem Chan.offer_eq_perform {α : Type*} (c : Chan α) (bp : BackPressurePolicy) (v : α) :
    c.offer bp v = (c.perform (sendOp bp v)).map Prod.fst := by
  cases bp with
  | dropNewest => rfl
  | dropOldest => rfl
  | block => rw [offer, sendOp, perform, Option.map_map]; rfl

theorem Chan.sendOp_call {α : Type*} {c c' : Chan α} {bp : BackPressurePolicy} {v : α}
    {answer : Chan.Answer α} (h : c.perform (sendOp bp v) = some (c', answer)) :
    Call.value ⟨sendOp bp v, answer⟩ = some v ∧ Call.received ⟨sendOp bp v, answer⟩ = none := by
  cases bp with
  | dropNewest =>
    obtain ⟨-, rfl⟩ := Prod.mk.inj (Option.some.inj h)
    exact ⟨rfl, rfl⟩
  | dropOldest =>
    obtain ⟨-, rfl⟩ := Prod.mk.inj (Option.some.inj h)
    exact ⟨rfl, rfl⟩
  | block =>
    obtain ⟨⟨c₁, ok⟩, -, he⟩ := Option.map_eq_some_iff.mp h
    obtain ⟨-, rfl⟩ := Prod.mk.inj he
    exact ⟨rfl, rfl⟩

/-- What the messages of a channel's history were refused or evicted. -/
def Chan.Used.lost {α : Type*} (u : Chan.Used α) : List α :=
  u.calls.filterMap Call.rejected ++ u.evicted

namespace Feed

/-- The frame the forwarding thread takes from the bus. -/
def takes (s : Feed) : FeedAction → List Frame
  | .fetch _ =>
      match s.fwd.stage with
      | .receiving => ((s.sys.bus.chans s.fwd.frameCh).recv.bind Prod.snd).toList
      | _ => []
  | .bus _ | .push | .finish | .recv | .tryRecv | .close => []

/-- What is done to the consumer's channel. -/
def outOps (s : Feed) : FeedAction → List (Chan.Op Message)
  | .push =>
      match s.fwd.stage with
      | .sending m => [Chan.sendOp s.fwd.bp m]
      | _ => []
  | .finish => [.close]
  | .recv => [.recv]
  | .tryRecv => [.tryRecv]
  | .close => [.close]
  | .bus _ | .fetch _ => []

end Feed

/-- The `k`-th message of a stream of frames has the number `k`, in 64 bits. -/
def numbered (taken : List Frame) : List (Message × UInt64) :=
  taken.mapIdx fun i f => (toMessage f, UInt64.ofNat (i + 1))

theorem numbered_concat (taken : List Frame) (f : Frame) :
    numbered (taken ++ [f]) = numbered taken ++
      [(toMessage f, UInt64.ofNat (taken.length + 1))] := by
  rw [numbered, List.mapIdx_concat]
  rfl

/-- A message up to its time stamp. -/
def tag (m : Message) : Message × UInt64 := (untagged m, m.seq)

/-- The thread between two steps: the messages passed on, and the one in its hands, are
those of the frames taken. -/
structure Tracks (s : Feed) (u : Chan.Used Message) (taken : List Frame) : Prop where
  chan : u.chan = s.fwd.out
  received : u.calls.filterMap Call.received = s.received
  numbered : (u.calls.filterMap Call.value ++ s.fwd.held.toList).map tag = numbered taken
  seq : s.fwd.seq = UInt64.ofNat taken.length

theorem Tracks.fetch {s s' : Feed} {u : Chan.Used Message} {taken : List Frame} {now : Int}
    (h : Tracks s u taken) (hstep : s.step (.fetch now) = some s') :
    Tracks s' u (taken ++ s.takes (.fetch now)) := by
  obtain ⟨hstage, hfetch⟩ := Feed.fetch_cases hstep
  have hheld : s.fwd.held = none := by rw [Forwarder.held, hstage]
  have hbefore := h.numbered
  rw [hheld, Option.toList_none, List.append_nil] at hbefore
  rcases hfetch with ⟨c, hr, rfl⟩ | ⟨c, f, hr, rfl⟩
  · have htakes : s.takes (.fetch now) = [] := by simp [Feed.takes, hstage, hr]
    rw [htakes, List.append_nil]
    refine ⟨h.chan, h.received, ?_, h.seq⟩
    simpa [Forwarder.held] using hbefore
  · have htakes : s.takes (.fetch now) = [f] := by simp [Feed.takes, hstage, hr]
    have hseq : s.fwd.seq + 1 = UInt64.ofNat (taken.length + 1) := by
      rw [h.seq, UInt64.ofNat_add]
      rfl
    rw [htakes]
    refine ⟨h.chan, h.received, ?_, ?_⟩
    · rw [numbered_concat, ← hbefore, ← hseq, List.map_append]
      rfl
    · rw [List.length_append]
      exact hseq

theorem Tracks.push {s s' : Feed} {u : Chan.Used Message} {taken : List Frame}
    (h : Tracks s u taken) (hstep : s.step .push = some s') :
    ∃ u', run Chan.Used.step u (s.outOps .push) = some u' ∧ Tracks s' u' taken := by
  obtain ⟨m, out, hstage, hoffer, rfl⟩ := Feed.push_cases hstep
  have hops : s.outOps .push = [Chan.sendOp s.fwd.bp m] := by simp [Feed.outOps, hstage]
  rw [Chan.offer_eq_perform, ← h.chan] at hoffer
  obtain ⟨⟨c, answer⟩, hperform, rfl⟩ := Option.map_eq_some_iff.mp hoffer
  have hcall : Call.value ⟨Chan.sendOp s.fwd.bp m, answer⟩ = some m ∧
      Call.received ⟨Chan.sendOp s.fwd.bp m, answer⟩ = none := Chan.sendOp_call hperform
  have hheld : s.fwd.held = some m := by rw [Forwarder.held, hstage]
  rw [hops]
  refine ⟨_, Chan.Used.run_one hperform, rfl, ?_, ?_, h.seq⟩
  · simp [hcall.2, h.received]
  · rw [← h.numbered, hheld, List.filterMap_append]
    simp [hcall.1, Forwarder.held]

theorem Tracks.consume {s s' : Feed} {u : Chan.Used Message} {taken : List Frame}
    (h : Tracks s u taken) {op : Chan.Op Message} (answer : Chan.Answer Message)
    (hperform : s.fwd.out.perform op = some (s'.fwd.out, answer))
    (hvalue : Call.value ⟨op, answer⟩ = none)
    (hreceived : s'.received = s.received ++ (Call.received ⟨op, answer⟩).toList)
    (hheld : s'.fwd.held = s.fwd.held) (hseq : s'.fwd.seq = s.fwd.seq) :
    ∃ u', run Chan.Used.step u [op] = some u' ∧ Tracks s' u' taken := by
  rw [← h.chan] at hperform
  refine ⟨_, Chan.Used.run_one hperform, rfl, ?_, ?_, hseq.trans h.seq⟩
  · rw [hreceived, ← h.received, List.filterMap_append]
    cases hrec : Call.received ⟨op, answer⟩ <;> simp [hrec]
  · rw [← h.numbered, hheld, List.filterMap_append]
    simp [hvalue]

theorem Tracks.step {s s' : Feed} {u : Chan.Used Message} {taken : List Frame} {a : FeedAction}
    (h : Tracks s u taken) (hstep : s.step a = some s') :
    ∃ u', run Chan.Used.step u (s.outOps a) = some u' ∧ Tracks s' u' (taken ++ s.takes a) := by
  cases a with
  | bus a =>
    simp only [Feed.step] at hstep
    split_ifs at hstep
    obtain ⟨m, -, rfl⟩ := Option.map_eq_some_iff.mp hstep
    refine ⟨u, rfl, ?_⟩
    rw [Feed.takes, List.append_nil]
    exact ⟨h.chan, h.received, h.numbered, h.seq⟩
  | fetch now => exact ⟨u, rfl, h.fetch hstep⟩
  | push =>
    rw [Feed.takes, List.append_nil]
    exact h.push hstep
  | finish =>
    obtain ⟨hstage, rfl⟩ := Feed.finish_cases hstep
    rw [Feed.takes, List.append_nil]
    refine h.consume _ rfl rfl (List.append_nil _).symm ?_ rfl
    simp [Forwarder.held, hstage]
  | recv =>
    obtain ⟨⟨out, m⟩, hr, rfl⟩ := Option.map_eq_some_iff.mp hstep
    rw [Feed.takes, List.append_nil]
    refine h.consume (.item m) ?_ rfl rfl rfl rfl
    rw [Chan.perform, hr]
    rfl
  | tryRecv =>
    obtain rfl := Option.some.inj hstep
    rw [Feed.takes, List.append_nil]
    exact h.consume (.item s.fwd.out.tryRecv.2) rfl rfl rfl rfl rfl
  | close =>
    obtain rfl := Option.some.inj hstep
    rw [Feed.takes, List.append_nil]
    exact h.consume _ rfl rfl (List.append_nil _).symm rfl rfl

/-- The numbers of the messages a consumer has received: those of the frames they were made
of, rising, and without those of the messages lost at its channel. -/
structure Numbered (taken : List Frame) (u : Chan.Used Message) (s : Feed) : Prop where
  increasing : (s.received.map Message.seq).Pairwise (· < ·)
  frames : ∀ m ∈ s.received, ∃ k f, m.seq.toNat = k + 1 ∧ taken[k]? = some f ∧
    untagged m = toMessage f
  missing : ∀ m ∈ s.received, ∀ k, 0 < k → k < m.seq →
    ((∀ r ∈ s.received, r.seq ≠ k) ↔ ∃ x ∈ u.lost, x.seq = k)

theorem getElem?_of_numbered {ms later : List Message} {taken : List Frame}
    (h : (ms ++ later).map tag = numbered taken) (hlt : taken.length < 2 ^ 64) {i : Nat}
    {m : Message} (hi : ms[i]? = some m) : m.seq.toNat = i + 1 ∧
      ∃ f, taken[i]? = some f ∧ untagged m = toMessage f := by
  obtain ⟨him, -⟩ := List.getElem?_eq_some_iff.mp hi
  have hentry : (numbered taken)[i]? = some (tag m) := by
    rw [← h, List.getElem?_map, List.getElem?_append_left him, hi, Option.map_some]
  rw [numbered, List.getElem?_mapIdx] at hentry
  obtain ⟨f, hf, htag⟩ := Option.map_eq_some_iff.mp hentry
  obtain ⟨huntagged, hseq⟩ := Prod.mk.inj htag
  have hil : i < taken.length := (List.getElem?_eq_some_iff.mp hf).1
  refine ⟨?_, f, hf, huntagged.symm⟩
  rw [← hseq]
  exact UInt64.toNat_ofNat_of_lt' ((Nat.succ_le_of_lt hil).trans_lt hlt)

theorem seqs_of_numbered {ms later : List Message} {taken : List Frame}
    (h : (ms ++ later).map tag = numbered taken) (hlt : taken.length < 2 ^ 64) :
    ms.map (fun m => m.seq.toNat) = List.range' 1 ms.length := by
  apply List.ext_getElem?
  intro i
  rw [List.getElem?_map]
  cases hi : ms[i]? with
  | none =>
    have hlen : ms.length ≤ i := List.getElem?_eq_none_iff.mp hi
    rw [Option.map_none, eq_comm, List.getElem?_eq_none_iff, List.length_range']
    exact hlen
  | some m =>
    have hlen : i < ms.length := (List.getElem?_eq_some_iff.mp hi).1
    rw [Option.map_some, (getElem?_of_numbered h hlt hi).1, List.getElem?_range' hlen]
    simp [Nat.add_comm]

theorem increasing_of_numbered {ms later : List Message} {taken : List Frame}
    (h : (ms ++ later).map tag = numbered taken) (hlt : taken.length < 2 ^ 64) :
    (ms.map Message.seq).Pairwise (· < ·) := by
  rw [List.pairwise_map]
  simp only [UInt64.lt_iff_toNat_lt]
  rw [← List.pairwise_map (f := fun m : Message => m.seq.toNat), seqs_of_numbered h hlt]
  exact List.pairwise_lt_range'

theorem Tracks.numbers {s : Feed} {u : Chan.Used Message} {taken : List Frame}
    (h : Tracks s u taken) {l : List (Message × Fate)} (hl : Chan.Books u l)
    (hlt : taken.length < 2 ^ 64) : Numbered taken u s := by
  have hvalues : u.calls.filterMap Call.value = l.map Prod.fst := by
    rw [Chan.filterMap_value, hl.offers, Ledger.offers, List.map_map]
    rfl
  have hnumbered := h.numbered
  rw [hvalues] at hnumbered
  have hreceived : s.received = having .received l := h.received.symm.trans hl.received
  have hincreasing := increasing_of_numbered hnumbered hlt
  have hentry : ∀ m ∈ s.received, ∃ i, l[i]? = some (m, .received) ∧ m.seq.toNat = i + 1 ∧
      ∃ f, taken[i]? = some f ∧ untagged m = toMessage f := by
    intro m hm
    rw [hreceived, mem_having] at hm
    obtain ⟨i, hi⟩ := List.getElem?_of_mem hm
    have him : (l.map Prod.fst)[i]? = some m := by rw [List.getElem?_map, hi, Option.map_some]
    exact ⟨i, hi, getElem?_of_numbered hnumbered hlt him⟩
  refine ⟨?_, ?_, ?_⟩
  · rw [hreceived]
    exact hincreasing.sublist ((List.filter_sublist.map Prod.fst).map Message.seq)
  · intro m hm
    obtain ⟨i, -, hseq, f, hf, hmf⟩ := hentry m hm
    exact ⟨i, f, hseq, hf, hmf⟩
  · intro m hm k hpos hk
    obtain ⟨j, hj, hseq, -⟩ := hentry m hm
    obtain ⟨hjl, -⟩ := List.getElem?_eq_some_iff.mp hj
    rw [UInt64.lt_iff_toNat_lt] at hpos hk
    obtain ⟨i, hik⟩ : ∃ i, k.toNat = i + 1 := Nat.exists_eq_add_one.mpr hpos
    have hij : i < j := by omega
    have hi : l[i]? = some l[i] := List.getElem?_eq_getElem (hij.trans hjl)
    have hki : (l[i]).1.seq = k := by
      have him : (l.map Prod.fst)[i]? = some l[i].1 := by
        rw [List.getElem?_map, hi, Option.map_some]
      rw [← UInt64.toNat_inj, (getElem?_of_numbered hnumbered hlt him).1, hik]
    have hkeys : (l.map fun x => Message.seq x.1).Nodup := by
      have hmap : l.map (fun x => Message.seq x.1) = (l.map Prod.fst).map Message.seq := by
        rw [List.map_map]
        rfl
      rw [hmap]
      exact hincreasing.imp UInt64.ne_of_lt
    have hmissing := hl.fromFront.missing_iff Message.seq hkeys hij hi hj rfl
    rw [hki, ← hreceived] at hmissing
    rw [hmissing]
    simp only [Chan.Used.lost, List.mem_append, hl.evicted, Chan.filterMap_rejected, hl.offers,
      rejected_offers]

/-- The numbers of an adapter subscription, as long as the counter does not come round. -/
theorem adapter_numbers (opts : List SubscriberOption) (frames : Except ErrorCode Nat)
    (w : Forwarder) (hw : LinAdapter.subscribe opts frames = .ok w) (s₁ : Sys)
    (as : List FeedAction) (s : Feed) (h : run Feed.step { sys := s₁, fwd := w } as = some s)
    (hlt : (along Feed.step Feed.takes { sys := s₁, fwd := w } as).length < 2 ^ 64) :
    ∃ u, run Chan.Used.step { chan := w.out }
        (along Feed.step Feed.outOps { sys := s₁, fwd := w } as) = some u ∧
      u.chan = s.fwd.out ∧
      Numbered (along Feed.step Feed.takes { sys := s₁, fwd := w } as) u s := by
  obtain ⟨n, hn, hout, hstage, hseq⟩ : ∃ n, 1 ≤ n ∧ w.out = { capacity := n } ∧
      w.stage = .receiving ∧ w.seq = 0 := by
    cases frames with
    | error e => cases hw
    | ok ch =>
      obtain rfl := Except.ok.inj hw
      have hdepth := effectiveDepth_pos (applyOptions opts) (by decide : (0 : Int) < 64)
      exact ⟨_, by omega, rfl, rfl, rfl⟩
  have hheld : w.held = none := by rw [Forwarder.held, hstage]
  obtain ⟨u, hu, htracks⟩ := history_run (P := fun as s => ∃ u,
      run Chan.Used.step { chan := w.out }
        (along Feed.step Feed.outOps { sys := s₁, fwd := w } as) = some u ∧
      Tracks s u (along Feed.step Feed.takes { sys := s₁, fwd := w } as))
    ⟨{ chan := w.out }, rfl, rfl, rfl, by simp [hheld, along, numbered], hseq⟩
    (fun as m a m' hrun hm hstep => by
      obtain ⟨u, hu, hm⟩ := hm
      obtain ⟨u', hu', hm'⟩ := hm.step hstep
      rw [along_concat _ hrun, along_concat _ hrun]
      exact ⟨u', run_append.mpr ⟨u, hu, hu'⟩, hm'⟩) h
  rw [hout] at hu
  obtain ⟨-, -, -, l, hl⟩ := Chan.sound_run hn hu
  exact ⟨u, hout ▸ hu, htracks.chan, htracks.numbers hl hlt⟩

def twoTaken : List FeedAction := header ++ header ++ [.fetch 7, .push, .fetch 8, .push, .recv]

/-- The first number is the one missing. -/
theorem adapter_numbers_evicted : ∃ s₀ s₁ w s,
    run Sys.step {} adapterSubscribes = some s₀ ∧ s₀.step (.step 0) = some s₁ ∧
    LinAdapter.subscribe [withBackPressure .dropOldest, withChannelDepth 1]
      (s₀.bus.subscribe [] []).2 = .ok w ∧
    run Feed.step { sys := s₁, fwd := w } twoTaken = some s ∧
    s.received.map Message.seq = [2] ∧ ∃ u, u.chan = s.fwd.out ∧
      Numbered (along Feed.step Feed.takes { sys := s₁, fwd := w } twoTaken) u s := by
  obtain ⟨s₀, s₁, w, h₀, h₁, hw, hrun, hlen⟩ : ∃ s₀ s₁ w,
      run Sys.step {} adapterSubscribes = some s₀ ∧ s₀.step (.step 0) = some s₁ ∧
      LinAdapter.subscribe [withBackPressure .dropOldest, withChannelDepth 1]
        (s₀.bus.subscribe [] []).2 = .ok w ∧
      ((run Feed.step { sys := s₁, fwd := w } twoTaken).any fun s =>
        decide (s.received.map Message.seq = [2])) = true ∧
      (along Feed.step Feed.takes { sys := s₁, fwd := w } twoTaken).length = 2 := by
    refine ⟨_, _, _, rfl, rfl, rfl, ?_, ?_⟩
    · decide +kernel
    · decide +kernel
  obtain ⟨s, hs, hseqs⟩ := (Option.any_eq_true _ _).mp hrun
  obtain ⟨u, -, hchan, hnumbered⟩ :=
    adapter_numbers _ _ w hw s₁ twoTaken s hs (by rw [hlen]; decide)
  exact ⟨s₀, s₁, w, s, h₀, h₁, hw, hs, of_decide_eq_true hseqs, u, hchan, hnumbered⟩

namespace Virt.Sys

/-- Between two headers: a response for identifier 1, one subscription, nothing on the way. -/
structure Ready (s : Sys) (ch : Nat) : Prop where
  idle : s.pc 1 = .idle
  readers : s.readers = ∅
  writer : s.writer = none
  opened : s.bus.closed = false
  response : s.bus.responses.lookup 1 = some ⟨[0xA1], .enhanced⟩
  subs : s.bus.subs = [⟨[], ch, .dropNewest⟩]
  frames : s.bus.chans ch = {}

theorem Ready.header {s : Sys} {ch : Nat} (h : s.Ready ch) : ∃ s' f,
    run Sys.step s [.call 1 (.sendHeader 1), .lock 1, .step 1, .step 1, .step 1] = some s' ∧
      s'.bus.chans ch = { buf := [f] } ∧ ∀ r, (s'.take ch {} r).Ready ch := by
  obtain ⟨hidle, hreaders, hwriter, hopen, hresponse, hsubs, hframes⟩ := h
  obtain ⟨f, hrespond⟩ : ∃ f, s.bus.respond 1 = (s.bus.countWrite f, .ok f) := by
    rw [Bus.respond, if_neg (by decide), hopen, if_neg Bool.false_ne_true, hresponse]
    exact ⟨_, rfl⟩
  have hdeliver : Bus.deliver f (s.bus.countWrite f) ⟨[], ch, .dropNewest⟩ =
      some (((s.bus.countWrite f).setChan ch { buf := [f] }).countDelivery f) := by
    have hch : (s.bus.countWrite f).chans ch = {} := hframes
    rw [Bus.deliver, hch]
    rfl
  have hpc : ∀ (pc : Nat → Pc) p, Function.update pc 1 p 1 = p :=
    fun pc p => Function.update_self ..
  let s₁ := s.goto 1 (.waiting (.sendHeader 1))
  let s₂ := { s₁ with readers := insert 1 s₁.readers }.goto 1 (.entered (.sendHeader 1))
  let s₃ := s₂.emit 1 (s.bus.countWrite f) f
  have h₁ : s.step (.call 1 (.sendHeader 1)) = some s₁ := by
    rw [Sys.step, Sys.call, hidle]
    rfl
  have h₂ : s₁.step (.lock 1) = some s₂ := by
    have hpc₁ : s₁.pc 1 = .waiting (.sendHeader 1) := hpc s.pc _
    rw [Sys.step, Sys.lock, hpc₁]
    exact if_pos hwriter
  have h₃ : s₂.step (.step 1) = some s₃ := by
    have hpc₂ : s₂.pc 1 = .entered (.sendHeader 1) := hpc s₁.pc _
    have hb : s₂.bus.respond 1 = _ := hrespond
    rw [Sys.step, Sys.advance, hpc₂]
    simp only [hb]
    rfl
  have h₄ : ∃ s₄, s₃.step (.step 1) = some s₄ ∧ s₄.pc 1 = .broadcasting s.emissions f [] ∧
      s₄.readers = s₃.readers ∧ s₄.writer = none ∧
      s₄.bus = ((s.bus.countWrite f).setChan ch { buf := [f] }).countDelivery f := by
    have hpc₃ : s₃.pc 1 = .broadcasting s.emissions f [⟨[], ch, .dropNewest⟩] := by
      have hemit : s₃.pc 1 = .broadcasting s.emissions f s.bus.subs := hpc s₂.pc _
      rw [hemit, hsubs]
    have hb : Bus.deliver f s₃.bus _ = _ := hdeliver
    rw [Sys.step, Sys.advance, hpc₃]
    simp only [hb]
    exact ⟨_, rfl, hpc s₃.pc _, rfl, hwriter, rfl⟩
  obtain ⟨s₄, h₄, hpc₄, hr₄, hw₄, hbus⟩ := h₄
  have h₅ : s₄.step (.step 1) = some (((s₄.unlockShared 1).record [.ended s.emissions]).ret 1
      (.frame (.ok f))) := by
    rw [Sys.step, Sys.advance, hpc₄]
  refine ⟨_, f, run_cons.mpr ⟨s₁, h₁, run_cons.mpr ⟨s₂, h₂, run_cons.mpr ⟨s₃, h₃,
    run_cons.mpr ⟨s₄, h₄, run_cons.mpr ⟨_, h₅, rfl⟩⟩⟩⟩⟩, ?_, fun r => ?_⟩
  · change s₄.bus.chans ch = _
    rw [hbus]
    exact Function.update_self ..
  · refine ⟨hpc s₄.pc _, ?_, hw₄, ?_, ?_, ?_, Function.update_self ..⟩
    · change s₄.readers.erase 1 = ∅
      rw [hr₄]
      change (insert 1 s.readers).erase 1 = ∅
      rw [hreaders]
      rfl
    · change s₄.bus.closed = false
      rw [hbus]
      exact hopen
    · change s₄.bus.responses.lookup 1 = _
      rw [hbus]
      exact hresponse
    · change s₄.bus.subs = _
      rw [hbus]
      exact hsubs

end Virt.Sys

def headerRound : List FeedAction := header ++ [.fetch 0, .push, .recv]

/-- Between two rounds: nothing on the way. -/
structure Feed.Ready (s : Feed) : Prop where
  sys : s.sys.Ready s.fwd.frameCh
  stage : s.fwd.stage = .receiving
  out : s.fwd.out = {}

theorem Feed.run_bus {s : Sys} {fwd : Forwarder} {received : List Message} {as : List Action}
    (has : ∀ a ∈ as, a.channel ≠ some fwd.frameCh) {s' : Sys} (h : run Sys.step s as = some s') :
    run Feed.step ⟨s, fwd, received⟩ (as.map .bus) = some ⟨s', fwd, received⟩ := by
  induction as generalizing s with
  | nil =>
    obtain rfl := Option.some.inj h
    rfl
  | cons a as ih =>
    obtain ⟨m, hm, hrest⟩ := run_cons.mp h
    rw [List.forall_mem_cons] at has
    refine run_cons.mpr ⟨⟨m, fwd, received⟩, ?_, ih has.2 hrest⟩
    rw [Feed.step, if_neg has.1, hm]
    rfl

theorem Feed.Ready.round {s : Feed} (h : s.Ready) : ∃ s' m, run Feed.step s headerRound = some s' ∧
    s'.Ready ∧ s'.fwd.seq = s.fwd.seq + 1 ∧ s'.received = s.received ++ [m] ∧
    m.seq = s.fwd.seq + 1 := by
  obtain ⟨sys, fwd, received⟩ := s
  obtain ⟨hsys, hstage, hout⟩ := h
  simp only at hsys hstage hout
  obtain ⟨sys', f, hrun, hch, hready⟩ := hsys.header
  let m := { toMessage f with timestamp := 0, seq := fwd.seq + 1 }
  let sys'' := sys'.take fwd.frameCh {} (some f)
  refine ⟨⟨sys'', { fwd with seq := fwd.seq + 1 }, received ++ [m]⟩, m, ?_,
    ⟨hready _, hstage, hout⟩, rfl, rfl, rfl⟩
  refine run_append.mpr ⟨⟨sys', fwd, received⟩, Feed.run_bus (by simp [Action.channel]) hrun, ?_⟩
  refine run_cons.mpr
    ⟨⟨sys'', { fwd with seq := fwd.seq + 1, stage := .sending m }, received⟩, ?_, ?_⟩
  · simp only [Feed.step, hstage, hch]
    rfl
  refine run_cons.mpr
    ⟨⟨sys'', { fwd with seq := fwd.seq + 1, out := { buf := [m] } }, received⟩, ?_, ?_⟩
  · cases hbp : fwd.bp <;>
      simp [Feed.step, hout, hstage, Chan.offer, Chan.trySend, Chan.sendDropOldest, Chan.send,
        Chan.isFull, Chan.push]
  refine run_cons.mpr ⟨_, ?_, rfl⟩
  simp [Feed.step, Chan.recv, Chan.popFront, hout]

/-- The numbers of the messages received in `n` rounds, from the first one on. -/
theorem Feed.Ready.rounds {s : Feed} (h : s.Ready) (hseq : s.fwd.seq = 0)
    (hreceived : s.received = []) (n : Nat) : ∃ s',
    run Feed.step s (List.replicate n headerRound).flatten = some s' ∧ s'.Ready ∧
      s'.fwd.seq = UInt64.ofNat n ∧
      s'.received.map Message.seq = (List.range n).map fun i => UInt64.ofNat (i + 1) := by
  induction n with
  | zero => exact ⟨s, rfl, h, hseq, by rw [hreceived]; rfl⟩
  | succ n ih =>
    obtain ⟨m, hm, hready, hmseq, hmreceived⟩ := ih
    obtain ⟨s', x, hs', hready', hseq', hreceived', hx⟩ := hready.round
    have hnext : UInt64.ofNat n + 1 = UInt64.ofNat (n + 1) := (UInt64.ofNat_add n 1).symm
    refine ⟨s', ?_, hready', ?_, ?_⟩
    · rw [List.replicate_succ', List.flatten_append]
      exact run_append.mpr ⟨m, hm, by simpa using hs'⟩
    · rw [hseq', hmseq, hnext]
    · rw [hreceived', List.map_append, hmreceived, List.range_succ, List.map_append,
        List.map_singleton, List.map_singleton, hx, hmseq, hnext]

/-- Once `2^64` messages have been received, the last number is `0`. -/
theorem not_adapter_numbers : ¬ ∀ (before : List Action) (s₀ s₁ : Sys) (t : Nat)
    (opts : List SubscriberOption) (w : Forwarder) (as : List FeedAction) (s : Feed),
    run Sys.step {} before = some s₀ → s₀.pc t = .entered (.exclusive (.subscribe [] [])) →
    s₀.step (.step t) = some s₁ →
    LinAdapter.subscribe opts (s₀.bus.subscribe [] []).2 = .ok w →
    run Feed.step { sys := s₁, fwd := w } as = some s →
    ∃ u, run Chan.Used.step { chan := w.out }
        (along Feed.step Feed.outOps { sys := s₁, fwd := w } as) = some u ∧
      u.chan = s.fwd.out ∧
      Numbered (along Feed.step Feed.takes { sys := s₁, fwd := w } as) u s := by
  intro h
  obtain ⟨s₀, s₁, w, h₀, hpc, h₁, hw, hready, hseq⟩ : ∃ s₀ s₁ w,
      run Sys.step {} adapterSubscribes = some s₀ ∧
      s₀.pc 0 = .entered (.exclusive (.subscribe [] [])) ∧ s₀.step (.step 0) = some s₁ ∧
      LinAdapter.subscribe [] (s₀.bus.subscribe [] []).2 = .ok w ∧
      ({ sys := s₁, fwd := w } : Feed).Ready ∧ w.seq = 0 :=
    ⟨_, _, _, rfl, rfl, rfl, rfl, ⟨⟨rfl, rfl, rfl, rfl, rfl, rfl, rfl⟩, rfl, rfl⟩, rfl⟩
  obtain ⟨s, hs, -, -, hseqs⟩ := hready.rounds hseq rfl (2 ^ 64)
  obtain ⟨u, -, -, hnumbered⟩ := h adapterSubscribes s₀ s₁ 0 [] w _ s h₀ hpc h₁ hw hs
  have hincreasing := hnumbered.increasing
  rw [hseqs, List.pairwise_map] at hincreasing
  have hlast := List.pairwise_iff_getElem.mp hincreasing 0 (2 ^ 64 - 1)
    (by rw [List.length_range]; decide) (by rw [List.length_range]; decide) (by decide)
  rw [List.getElem_range, List.getElem_range] at hlast
  exact absurd hlast (by decide)

end CppLin
