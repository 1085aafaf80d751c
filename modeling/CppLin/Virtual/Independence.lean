import CppLin.Virtual.Turns

/-!
What one subscription gets does not depend on the others. A run of the bus, as far as the
callers and the consumer of one channel can tell, is a run of a bus with that subscription
alone.
-/
namespace CppLin.Virt
open Bytes Relay Run

theorem Chan.eq_of_fields {α : Type*} {c c' : Chan α} (hbuf : c.buf = c'.buf)
    (hcapacity : c.capacity = c'.capacity) (hclosed : c.closed = c'.closed) : c = c' := by
  cases c
  cases c'
  simp only at hbuf hcapacity hclosed
  rw [hbuf, hcapacity, hclosed]

theorem OnlyErrors.sameTables {b b' : Bus} (h : OnlyErrors b b') : Bus.SameTables b b' := by
  rw [h]
  rfl

/-- No broadcast is in progress. -/
def Sys.Quiet (s : Sys) : Prop := ∀ t, (s.pc t).broadcasts = false

/-- The call and its result, when a body makes a call that returns to a caller of the bus or
to the subscriber of `ch`; its channel is written 0. A `close_with_drain` counts as the
`close` it ends with. -/
def Exclusive.shown (ch : Nat) (b : Bus) (c : Exclusive) : Option (Op × Outcome) :=
  match c with
  | .publish _ _ | .publishClassic _ _ => some (c.op, (c.body b).2)
  | .setSchedule _ => none
  | .subscribe _ _ =>
      if b.closed = false ∧ b.handles = ch then some (c.op, .channel (.ok 0)) else none
  | .close | .closeDrained _ => some (.close, .code none)

/-- A call with its result. One that the consumer makes in the middle of a header is marked with
that header, if its turn at the channel is past. -/
abbrev Shown := (Op × Option UInt8) × Outcome

/-- What a step shows: the call that returns in it, or what the consumer of `ch` does; `turned` is
the header that has had its turn at `ch` and has not returned. -/
def Sys.shown (ch : Nat) (turned : Option UInt8) (s : Sys) : Action → Option Shown
  | .call _ (.exclusive c) => (Section.exclusive c).rejects.map ((c.op, none), ·)
  | .call _ (.sendHeader id) => (Section.sendHeader id).rejects.map ((.sendHeader id, none), ·)
  | .step t =>
      match s.pc t with
      | .entered (.exclusive c) => (c.shown ch s.bus).map fun x => ((x.1, none), x.2)
      | .entered (.sendHeader id) =>
          match s.bus.respond id with
          | (_, .error e) => some ((.sendHeader id, none), .frame (.error e))
          | (_, .ok _) => none
      | .broadcasting _ f [] => some ((.sendHeader f.id, none), .frame (.ok f))
      | _ => none
  | .recv c =>
      if c = ch ∧ ch < s.bus.handles then
        (s.bus.chans ch).recv.map fun x => ((.recv 0, turned), .received x.2)
      else none
  | .tryRecv c =>
      if c = ch ∧ ch < s.bus.handles then
        some ((.tryRecv 0, turned), .received (s.bus.chans ch).tryRecv.2)
      else none
  | .closeChan c =>
      if c = ch ∧ ch < s.bus.handles then some ((.closeChan 0, turned), .done) else none
  | _ => none

/-- The header that has had its turn at `ch` and has not returned, after a step. -/
def Sys.turned (ch : Nat) (last : Option UInt8) (s : Sys) : Action → Option UInt8
  | .step t =>
      match s.pc t with
      | .broadcasting _ f (sub :: _) => if sub.ch = ch then some f.id else last
      | .broadcasting _ _ [] => none
      | _ => last
  | _ => last

/-- The calls of a run in the order they return, among them what the consumer of `ch` does. -/
def Sys.trace (ch : Nat) : Option UInt8 → Sys → List Action → List Shown
  | _, _, [] => []
  | turned, s, a :: as =>
      match s.step a with
      | none => []
      | some s' => (s.shown ch turned a).toList ++ trace ch (s.turned ch turned a) s' as

/-- One call after another: no broadcast begins while one is in progress. -/
def Sys.InSequence (s : Sys) (a : Action) : Prop :=
  ∀ t id f, a = .step t → s.pc t = .entered (.sendHeader id) → (s.bus.respond id).2 = .ok f →
    s.Quiet

/-- The subscriptions that hold a channel. -/
def own (ch : Nat) (subs : List Subscription) : List Subscription := subs.filter fun s => s.ch = ch

/-- What a broadcast to these subscriptions makes of a channel they all hold. -/
def offered (f : Frame) (subs : List Subscription) (c : Chan Frame) : Option (Chan Frame) :=
  subs.foldlM (fun c s => if matchesAny s.filters f then c.offer s.backPressure f else some c) c

/-- `b₀` is `b` with the subscription of `ch` alone. -/
structure Bus.Alike (ch : Nat) (b b₀ : Bus) : Prop where
  responses : b₀.responses = b.responses
  closed : b₀.closed = b.closed
  subs : b₀.subs = (own ch b.subs).map fun s => { s with ch := 0 }
  handles : b₀.handles = if ch < b.handles then 1 else 0

/-- The shown call takes `b₀` to `b₀'` with the shown result. -/
def Bus.Echoes (b₀ b₀' : Bus) : Option (Op × Outcome) → Prop
  | none => b₀' = b₀
  | some (op, out) => b₀.exec op = some (b₀', out)

/-- The bus of the one subscription, one call after another; `served` when the header in progress
has been served there already, for a consumer who acts behind its turn. -/
structure Solo where
  bus : Bus := .create
  served : Bool := false

namespace Solo

/-- What a header that was served is answered at its return. -/
def again (x : Solo) : Op → Option Frame
  | .sendHeader id => if x.served then (x.bus.respond id).2.toOption else none
  | _ => none

def serve (x : Solo) (op : Op) : Option (Solo × Outcome) :=
  match x.again op with
  | some f => some ({ x with served := false }, .frame (.ok f))
  | none => (x.bus.exec op).map fun y => ({ x with bus := y.1 }, y.2)

/-- A header that has had its turn comes first. -/
def catchUp (x : Solo) : Option UInt8 → Option Solo
  | none => some x
  | some id => if x.served then some x else (x.bus.sendHeader id).map fun y => ⟨y.1, true⟩

def exec (x : Solo) (call : Op × Option UInt8) : Option (Solo × Outcome) :=
  (x.catchUp call.2).bind fun y => y.serve call.1

/-- A call, with what has been shown so far. -/
def step (x : Solo × List Shown) (call : Op × Option UInt8) : Option (Solo × List Shown) :=
  (x.1.exec call).map fun y => (y.1, x.2 ++ [(call, y.2)])

def Echoes (x x' : Solo) : Option Shown → Prop
  | none => x' = x
  | some (call, out) => x.exec call = some (x', out)

theorem serve_eq {x : Solo} {op : Op} (h : x.again op = none) :
    x.serve op = (x.bus.exec op).map fun y => ({ x with bus := y.1 }, y.2) := by
  rw [serve, h]

theorem again_of_not_served {x : Solo} (h : x.served = false) (op : Op) : x.again op = none := by
  cases op with
  | sendHeader id => simp [again, h]
  | _ => rfl

theorem again_of_error {x : Solo} {id : UInt8} {e : ErrorCode}
    (h : (x.bus.respond id).2 = .error e) : x.again (.sendHeader id) = none := by
  simp [again, h, Except.toOption]

theorem echoes {x : Solo} {b : Bus} {call : Option (Op × Outcome)} (h : x.bus.Echoes b call)
    (hx : ∀ y ∈ call, x.again y.1 = none) :
    x.Echoes { x with bus := b } (call.map fun y => ((y.1, none), y.2)) := by
  cases call with
  | none =>
      obtain rfl : b = x.bus := h
      rfl
  | some y =>
      have hexec : x.bus.exec y.1 = some (b, y.2) := h
      change x.serve y.1 = _
      rw [serve_eq (hx y rfl), hexec]
      rfl

end Solo

section
variable {ch : Nat} {b b' b₀ b₀' : Bus} (h : b.Alike ch b₀)
include h

theorem Bus.Alike.respond (id : UInt8) : (b₀.respond id).2 = (b.respond id).2 := by
  unfold Bus.respond
  rw [h.closed, h.responses]
  split_ifs
  · rfl
  · rfl
  · cases b.responses.lookup id <;> rfl

theorem Bus.Alike.same (hb : SameTables b b') (hb₀ : SameTables b₀ b₀') : b'.Alike ch b₀' := by
  refine ⟨?_, ?_, ?_, ?_⟩
  · rw [hb₀.responses, hb.responses, h.responses]
  · rw [hb₀.closed, hb.closed, h.closed]
  · rw [hb₀.subs, hb.subs, h.subs]
  · rw [hb₀.handles, hb.handles, h.handles]

theorem Bus.Alike.doPublish (hchan : ch < b.handles → b₀.chans 0 = b.chans ch) (id : UInt8)
    (data : Payload) (ct : ChecksumType) :
    (b₀.doPublish id data ct).2 = (b.doPublish id data ct).2 ∧
      (b.doPublish id data ct).1.Alike ch (b₀.doPublish id data ct).1 ∧
      (ch < (b.doPublish id data ct).1.handles →
        (b₀.doPublish id data ct).1.chans 0 = (b.doPublish id data ct).1.chans ch) := by
  obtain ⟨hresponses, hclosed, hsubs, hhandles⟩ := h
  unfold Bus.doPublish
  rw [hclosed, hresponses]
  split_ifs
  · exact ⟨rfl, ⟨hresponses, hclosed, hsubs, hhandles⟩, hchan⟩
  · exact ⟨rfl, ⟨hresponses, hclosed, hsubs, hhandles⟩, hchan⟩
  · exact ⟨rfl, ⟨rfl, rfl, hsubs, hhandles⟩, hchan⟩
  · exact ⟨rfl, ⟨rfl, rfl, hsubs, hhandles⟩, hchan⟩
  · exact ⟨rfl, ⟨rfl, rfl, hsubs, hhandles⟩, hchan⟩

/-- Another subscription changes nothing for this one, nor does one that is refused. -/
theorem Bus.Alike.subscribe_other (hchan : ch < b.handles → b₀.chans 0 = b.chans ch)
    (hother : ¬ (b.closed = false ∧ b.handles = ch)) (filters : List Filter)
    (opts : List SubscriberOption) : (b.subscribe filters opts).1.Alike ch b₀ ∧
      (ch < (b.subscribe filters opts).1.handles →
        b₀.chans 0 = (b.subscribe filters opts).1.chans ch) := by
  obtain ⟨hresponses, hclosed, hsubs, hhandles⟩ := h
  unfold Bus.subscribe
  by_cases hc : b.closed = true
  · rw [if_pos hc]
    exact ⟨⟨hresponses, hclosed, hsubs, hhandles⟩, hchan⟩
  · rw [if_neg hc]
    have hne : b.handles ≠ ch := fun he => hother ⟨by simpa using hc, he⟩
    refine ⟨⟨hresponses, hclosed, ?_, ?_⟩, ?_⟩
    · simp [own, hsubs, hne]
    · simp only [hhandles, Nat.lt_succ_iff_lt_or_eq, Ne.symm hne, or_false]
    · intro hlt
      have hold := hchan ((Nat.lt_succ_iff_lt_or_eq.mp hlt).resolve_right (Ne.symm hne))
      exact hold.trans (Function.update_of_ne (Ne.symm hne) _ _).symm

theorem Bus.Alike.subscribe_own (hopen : b.closed = false) (hch : b.handles = ch)
    (filters : List Filter) (opts : List SubscriberOption) :
    (b₀.subscribe filters opts).2 = .ok 0 ∧
      (b.subscribe filters opts).1.Alike ch (b₀.subscribe filters opts).1 ∧
      (b₀.subscribe filters opts).1.chans 0 = (b.subscribe filters opts).1.chans ch := by
  obtain ⟨hresponses, hclosed, hsubs, hhandles⟩ := h
  have hzero : b₀.handles = 0 := by rw [hhandles, if_neg (by omega)]
  have hopen₀ : b₀.closed = false := hclosed.trans hopen
  unfold Bus.subscribe
  rw [if_neg (hopen₀ ▸ Bool.false_ne_true), if_neg (hopen ▸ Bool.false_ne_true)]
  refine ⟨congrArg _ hzero, ⟨hresponses, hclosed, ?_, ?_⟩, ?_⟩
  · simp [own, hsubs, hch, hzero]
  · simp [hzero, hch]
  · simp [hzero, hch]

theorem Bus.Alike.close (hchan : ch < b.handles → b₀.chans 0 = b.chans ch) :
    b.close.1.Alike ch b₀.close.1 ∧
      (ch < b.close.1.handles → b₀.close.1.chans 0 = b.close.1.chans ch) := by
  cases hc : b.closed with
  | true =>
      rw [Bus.close_of_closed hc, Bus.close_of_closed (h.closed.trans hc)]
      exact ⟨h, hchan⟩
  | false =>
      have hc₀ : b₀.closed = false := h.closed.trans hc
      refine ⟨⟨?_, ?_, ?_, ?_⟩, ?_⟩
      · rw [Bus.close_responses, Bus.close_responses, h.responses]
      · rw [Bus.close_closed, Bus.close_closed]
      · rw [Bus.close_of_open hc, Bus.close_of_open hc₀]
        rfl
      · rw [Bus.close_handles, Bus.close_handles, h.handles]
      · rw [Bus.close_handles]
        intro hch
        have hany : (b₀.subs.any fun s => s.ch == 0) = b.subs.any fun s => s.ch == ch := by
          rw [h.subs, own, List.any_map, List.any_filter]
          simp only [Function.comp_apply, beq_self_eq_true, Bool.and_true]
          rfl
        refine Chan.eq_of_fields ?_ ?_ ?_
        · rw [Bus.close_buf, Bus.close_buf, hchan hch]
        · rw [Bus.close_capacity, Bus.close_capacity, hchan hch]
        · rw [Bus.close_chans_closed hc, Bus.close_chans_closed hc₀, hchan hch, hany]

theorem Bus.Alike.body (hchan : ch < b.handles → b₀.chans 0 = b.chans ch) (c : Exclusive) :
    ∃ b₀', (c.body b).1.Alike ch b₀' ∧
      (ch < (c.body b).1.handles → b₀'.chans 0 = (c.body b).1.chans ch) ∧
      b₀.Echoes b₀' (c.shown ch b) := by
  cases c with
  | publish id data =>
      obtain ⟨hresult, halike, hkept⟩ := h.doPublish hchan id data .enhanced
      refine ⟨_, halike, hkept, ?_⟩
      exact congrArg (fun e => some ((b₀.publish id data).1, Outcome.code e)) hresult
  | publishClassic id data =>
      obtain ⟨hresult, halike, hkept⟩ := h.doPublish hchan id data .classic
      refine ⟨_, halike, hkept, ?_⟩
      exact congrArg (fun e => some ((b₀.publishClassic id data).1, Outcome.code e)) hresult
  | setSchedule entries =>
      refine ⟨b₀, ?_, ?_, rfl⟩
      · obtain ⟨hresponses, hclosed, hsubs, hhandles⟩ := h
        simp only [Exclusive.body, Bus.setSchedule]
        split_ifs <;> exact ⟨hresponses, hclosed, hsubs, hhandles⟩
      · simp only [Exclusive.body, Bus.setSchedule]
        split_ifs <;> exact hchan
  | subscribe filters opts =>
      by_cases hown : b.closed = false ∧ b.handles = ch
      · obtain ⟨hresult, halike, hsame⟩ := h.subscribe_own hown.1 hown.2 filters opts
        refine ⟨_, halike, fun _ => hsame, ?_⟩
        rw [Exclusive.shown, if_pos hown]
        exact congrArg (fun r => some ((b₀.subscribe filters opts).1, Outcome.channel r)) hresult
      · obtain ⟨halike, hkept⟩ := h.subscribe_other hchan hown filters opts
        refine ⟨b₀, halike, hkept, ?_⟩
        rw [Exclusive.shown, if_neg hown]
        rfl
  | close =>
      obtain ⟨halike, hkept⟩ := h.close hchan
      refine ⟨_, halike, hkept, ?_⟩
      exact congrArg (fun e => some (b₀.close.1, Outcome.code e)) b₀.close_code
  | closeDrained timedOut =>
      obtain ⟨halike, hkept⟩ := h.close hchan
      refine ⟨_, halike, hkept, ?_⟩
      exact congrArg (fun e => some (b₀.close.1, Outcome.code e)) b₀.close_code

end

theorem offered_cons (f : Frame) (s : Subscription) (subs : List Subscription) (c : Chan Frame) :
    offered f (s :: subs) c =
      (if matchesAny s.filters f then c.offer s.backPressure f else some c).bind (offered f subs) :=
  List.foldlM_cons

/-- A turn of the broadcast takes the channel on by the turn of its own subscription, if it is
that one's. -/
theorem offered_deliver {f : Frame} {b b' : Bus} {s : Subscription}
    (h : Bus.deliver f b s = some b') (ch : Nat) (todo : List Subscription) :
    offered f (own ch (s :: todo)) (b.chans ch) = offered f (own ch todo) (b'.chans ch) := by
  by_cases hch : s.ch = ch
  · subst hch
    have hown := Bus.deliver_own h
    rw [own, List.filter_cons_of_pos (by simp), offered_cons]
    split_ifs at hown ⊢
    · rw [hown]
      rfl
    · rw [hown]
      rfl
  · rw [own, List.filter_cons_of_neg (by simpa using hch), Bus.deliver_chans_of_ne h (Ne.symm hch)]
    rfl

theorem broadcast_offered {f : Frame} {subs : List Subscription} {ch : Nat}
    (hsubs : ∀ s ∈ subs, s.ch = ch) {b : Bus} {c : Chan Frame}
    (h : offered f subs (b.chans ch) = some c) :
    ∃ b', subs.foldlM (Bus.deliver f) b = some b' ∧ b'.chans ch = c := by
  induction subs generalizing b with
  | nil => exact ⟨b, rfl, Option.some.inj h⟩
  | cons s subs ih =>
      obtain rfl := hsubs s List.mem_cons_self
      have hrest := fun x hx => hsubs x (List.mem_cons_of_mem s hx)
      rw [List.foldlM_cons]
      cases hd : Bus.deliver f b s with
      | none =>
          obtain ⟨hmatch, hblock, hopen, hfull⟩ := Bus.deliver_eq_none_iff.mp hd
          rw [offered_cons, if_pos hmatch, hblock, Chan.offer, Chan.send, hopen, hfull] at h
          cases h
      | some m =>
          have hm := offered_deliver hd s.ch subs
          have hall : ∀ l : List Subscription, (∀ x ∈ l, x.ch = s.ch) → own s.ch l = l :=
            fun l hl => List.filter_eq_self.mpr fun x hx => decide_eq_true (hl x hx)
          rw [hall _ hsubs, hall _ hrest] at hm
          exact ih hrest (hm.symm.trans h)

/-- A header is answered on the bus of the one subscription as it is on the whole one, when
the channel takes the frame. -/
theorem Bus.Alike.sendHeader {ch : Nat} {b b₀ : Bus} (h : b.Alike ch b₀) {id : UInt8} {f : Frame}
    (hf : (b₀.respond id).2 = .ok f) {c : Chan Frame}
    (hc : offered f b₀.subs (b₀.chans 0) = some c) :
    ∃ b', b₀.sendHeader id = some (b', .ok f) ∧ b.Alike ch b' ∧ b'.chans 0 = c := by
  have hchans := Bus.respond_chans b₀ id
  have htables := Bus.respond_sameTables b₀ id
  unfold Bus.sendHeader
  cases hr : b₀.respond id with
  | mk m r =>
      rw [hr] at hf hchans htables
      obtain rfl : r = .ok f := hf
      have hzero : ∀ s ∈ b₀.subs, s.ch = 0 := by
        rw [h.subs]
        intro s hs
        obtain ⟨t, -, rfl⟩ := List.mem_map.mp hs
        rfl
      have hm : offered f b₀.subs (m.chans 0) = some c := by rw [hchans]; exact hc
      obtain ⟨b', hb', hchan⟩ := broadcast_offered hzero hm
      have hsubs : m.subs = b₀.subs := Bus.SameTables.subs htables
      refine ⟨b', ?_, ?_, hchan⟩
      · simp only [Bus.broadcast, hsubs, hb', Option.map_some]
      · exact h.same rfl (Bus.SameTables.trans htables (Bus.foldlM_deliver_sameTables hb'))

theorem own_rest {ch : Nat} {subs todo : List Subscription} {sub : Subscription}
    (hnd : (subs.map Subscription.ch).Nodup) (hmem : sub :: todo <:+ subs) (hch : sub.ch = ch) :
    own ch todo = [] := by
  have hsuffix := (hmem.map Subscription.ch).sublist.nodup hnd
  rw [List.map_cons, List.nodup_cons] at hsuffix
  refine List.filter_eq_nil_iff.mpr fun x hx he => hsuffix.1 ?_
  rw [hch, ← of_decide_eq_true he]
  exact List.mem_map_of_mem hx

namespace Sys

/-- Where the header in progress stands: its turn at the channel is ahead, or it is past, and
then the bus of the one subscription has served it as well or can. -/
structure Standing (ch : Nat) (turned : Option UInt8) (s : Sys) (x : Solo) (f : Frame)
    (todo : List Subscription) : Prop where
  answer : (x.bus.respond f.id).2 = .ok f
  place : (turned = none ∧ x.served = false ∧ own ch todo = own ch s.bus.subs) ∨
    (turned = some f.id ∧ own ch todo = [] ∧ ch < s.bus.handles ∧
      (x.served = false → offered f x.bus.subs (x.bus.chans 0) = some (s.bus.chans ch)))

/-- `x` has been through what the trace shows of the run to `s`. -/
structure Alone (ch : Nat) (turned : Option UInt8) (s : Sys) (x : Solo) : Prop where
  alike : s.bus.Alike ch x.bus
  single : ∀ t u, (s.pc t).broadcasts = true → (s.pc u).broadcasts = true → t = u
  quiet : s.Quiet → turned = none ∧ x.served = false
  same : turned = none ∨ x.served = true → ch < s.bus.handles → x.bus.chans 0 = s.bus.chans ch
  busy : ∀ t n f todo, s.pc t = .broadcasting n f todo → s.Standing ch turned x f todo

theorem Quiet.update {s s' : Sys} {t : Nat} {p : Pc} (h : s.Quiet)
    (hpc : s'.pc = Function.update s.pc t p) (hp : p.broadcasts = false) : s'.Quiet := by
  intro u
  rw [hpc]
  exact forall_pc_update (P := fun p => p.broadcasts = false) h hp u

theorem Alone.ofQuiet {ch : Nat} {s : Sys} {x : Solo} (hs : s.Quiet) (halike : s.bus.Alike ch x.bus)
    (hserved : x.served = false) (hchan : ch < s.bus.handles → x.bus.chans 0 = s.bus.chans ch) :
    s.Alone ch none x := by
  refine ⟨halike, ?_, fun _ => ⟨rfl, hserved⟩, fun _ => hchan, ?_⟩
  · intro t u ht
    rw [hs t] at ht
    cases ht
  · intro t n f todo ht
    exact absurd ht (Pc.ne_broadcasting (hs t) n f todo)

section
variable {ch t : Nat} {turned : Option UInt8} {s s' : Sys} {x x' : Solo} {p : Pc}

/-- Only a header in progress has had its turn. -/
theorem Alone.standing (h : s.Alone ch turned x) (hturned : turned ≠ none) :
    ∃ t n f todo, s.pc t = .broadcasting n f todo ∧ s.Standing ch turned x f todo := by
  by_contra hnone
  refine hturned (h.quiet fun t => ?_).1
  rw [Bool.eq_false_iff]
  intro ht
  cases hpc : s.pc t with
  | broadcasting n f todo => exact hnone ⟨t, n, f, todo, hpc, h.busy t n f todo hpc⟩
  | _ =>
      rw [hpc] at ht
      cases ht

theorem Alone.allocated (h : s.Alone ch turned x) (hturned : turned ≠ none) :
    ch < s.bus.handles := by
  obtain ⟨t, n, f, todo, -, hstanding⟩ := h.standing hturned
  obtain ⟨hnone, -⟩ | ⟨-, -, hlt, -⟩ := hstanding.place
  · exact absurd hnone hturned
  · exact hlt

theorem Alone.moved (h : s.Alone ch turned x) (hb : OnlyErrors s.bus s'.bus)
    (hx : OnlyErrors x.bus x'.bus) (hserved : x'.served = x.served)
    (hpc : s'.pc = Function.update s.pc t p) (ht : (s.pc t).broadcasts = false)
    (hp : p.broadcasts = false) : s'.Alone ch turned x' := by
  have hback : ∀ u, (s'.pc u).broadcasts = true → s'.pc u = s.pc u := by
    intro u hu
    rw [hpc] at hu ⊢
    by_cases he : u = t
    · rw [he, Function.update_self, hp] at hu
      cases hu
    · exact Function.update_of_ne he p s.pc
  have hquiet : s'.Quiet → s.Quiet := by
    intro hs' u
    by_cases he : u = t
    · exact he ▸ ht
    · have hu := hs' u
      rwa [hpc, Function.update_of_ne he] at hu
  obtain ⟨halike, hsingle, hcalm, hsame, hbusy⟩ := h
  obtain ⟨-, hsubs, hchans, hhandles⟩ := hb.same
  obtain ⟨-, hsubs₀, hchans₀, -⟩ := hx.same
  refine ⟨halike.same hb.sameTables hx.sameTables, ?_, ?_, ?_, ?_⟩
  · intro u v hu hv
    rw [hback u hu] at hu
    rw [hback v hv] at hv
    exact hsingle u v hu hv
  · intro hs'
    rw [hserved]
    exact hcalm (hquiet hs')
  · rw [hserved, hchans, hchans₀, hhandles]
    exact hsame
  · intro u n f todo hu
    rw [hback u (by rw [hu]; rfl)] at hu
    obtain ⟨hanswer, hplace⟩ := hbusy u n f todo hu
    have htables : Bus.SameTables s.bus s.bus := rfl
    refine ⟨?_, ?_⟩
    · rw [(halike.same htables hx.sameTables).respond f.id, ← halike.respond f.id]
      exact hanswer
    · rw [hserved, hsubs, hchans, hhandles, hsubs₀, hchans₀]
      exact hplace

theorem Alone.elsewhere (h : s.Alone ch turned x) {c : Nat} (hc : ch ≠ c) {k : Chan Frame}
    (hbus : s'.bus = s.bus.setChan c k) (hpc : s'.pc = s.pc) : s'.Alone ch turned x := by
  obtain ⟨halike, hsingle, hcalm, hsame, hbusy⟩ := h
  have hchan : s'.bus.chans ch = s.bus.chans ch := by
    rw [hbus, Bus.setChan_other _ _ hc]
  have htables : Bus.SameTables s.bus s'.bus := by
    rw [hbus]
    rfl
  refine ⟨halike.same htables rfl, ?_, ?_, ?_, ?_⟩
  · rw [hpc]
    exact hsingle
  · exact fun hs' => hcalm fun t => hpc ▸ hs' t
  · rw [hchan, htables.handles]
    exact hsame
  · intro u n f todo hu
    rw [hpc] at hu
    obtain ⟨hanswer, hplace⟩ := hbusy u n f todo hu
    refine ⟨hanswer, ?_⟩
    rw [htables.subs, htables.handles, hchan]
    exact hplace

theorem Alone.taken (h : s.Alone ch turned x) (hx : turned = none ∨ x.served = true)
    {k : Chan Frame} (hbus : s'.bus = s.bus.setChan ch k) (hpc : s'.pc = s.pc) :
    s'.Alone ch turned (if ch < s.bus.handles then { x with bus := x.bus.setChan 0 k } else x) := by
  obtain ⟨halike, hsingle, hcalm, -, hbusy⟩ := h
  have htables : Bus.SameTables s.bus s'.bus := by
    rw [hbus]
    rfl
  have hsolo : ∃ b, (if ch < s.bus.handles then { x with bus := x.bus.setChan 0 k } else x) =
      { x with bus := b } ∧ Bus.SameTables x.bus b := by
    split_ifs
    · exact ⟨x.bus.setChan 0 k, rfl, rfl⟩
    · exact ⟨x.bus, rfl, rfl⟩
  refine ⟨?_, ?_, ?_, ?_, ?_⟩
  · obtain ⟨b, hb, hsolo⟩ := hsolo
    rw [hb]
    exact halike.same htables hsolo
  · rw [hpc]
    exact hsingle
  · obtain ⟨b, hb, -⟩ := hsolo
    rw [hb]
    exact fun hs' => hcalm fun t => hpc ▸ hs' t
  · intro _ hlt
    rw [htables.handles] at hlt
    rw [if_pos hlt, hbus, Bus.setChan_same, Bus.setChan_same]
  · obtain ⟨b, hb, hsolo⟩ := hsolo
    rw [hb]
    intro u n f todo hu
    rw [hpc] at hu
    obtain ⟨hanswer, hplace⟩ := hbusy u n f todo hu
    refine ⟨?_, ?_⟩
    · have hself : Bus.SameTables s.bus s.bus := rfl
      rw [(halike.same hself hsolo).respond, ← halike.respond]
      exact hanswer
    · rw [htables.subs, htables.handles]
      refine hplace.imp id ?_
      rintro ⟨hturned, htodo, hlt, -⟩
      refine ⟨hturned, htodo, hlt, fun hserved => ?_⟩
      obtain hnone | htrue := hx
      · rw [hnone] at hturned
        cases hturned
      · rw [htrue] at hserved
        cases hserved

theorem offered_ownOnly (f : Frame) (subs : List Subscription) (c : Chan Frame) :
    offered f (subs.map fun s => { s with ch := 0 }) c = offered f subs c := by
  unfold offered
  rw [List.foldlM_map]

/-- Where the consumer acts behind the turn of a header, the bus of the one subscription serves
the header first. -/
theorem Alone.catchUp (h : s.Alone ch turned x) : ∃ x', x.catchUp turned = some x' ∧
    s.Alone ch turned x' ∧ (turned = none ∨ x'.served = true) := by
  cases hturned : turned with
  | none => exact ⟨x, rfl, hturned ▸ h, .inl rfl⟩
  | some id =>
      cases hserved : x.served with
      | true => exact ⟨x, by rw [Solo.catchUp, if_pos hserved], hturned ▸ h, .inr hserved⟩
      | false =>
          obtain ⟨t, n, f, todo, hpc, hstanding⟩ := h.standing (by simp [hturned])
          obtain ⟨hnone, -⟩ | ⟨hid, htodo, hlt, hoffered⟩ := hstanding.place
          · rw [hturned] at hnone
            cases hnone
          obtain ⟨b, hsend, halike, hchan⟩ :=
            h.alike.sendHeader hstanding.answer (hoffered hserved)
          obtain rfl : id = f.id := Option.some.inj (hturned.symm.trans hid)
          refine ⟨⟨b, true⟩, ?_, ⟨halike, h.single, ?_, fun _ _ => hchan, ?_⟩, .inr rfl⟩
          · rw [Solo.catchUp, if_neg (by simp [hserved]), hsend]
            rfl
          · intro hs
            exact absurd hpc (Pc.ne_broadcasting (hs t) n f todo)
          · intro u m g rest hu
            have htu : u = t := h.single u t (by rw [hu]; rfl) (by rw [hpc]; rfl)
            obtain ⟨-, rfl, rfl⟩ := Pc.broadcasting.inj (hpc.symm.trans (htu ▸ hu))
            refine ⟨?_, .inr ⟨rfl, htodo, hlt, fun hfalse => by cases hfalse⟩⟩
            rw [halike.respond, ← h.alike.respond]
            exact hstanding.answer

theorem Alone.emit (h : s.Alone ch turned x) (hs : s.Quiet) {id : UInt8} {b : Bus} {f : Frame}
    (hb : s.bus.respond id = (b, .ok f)) : (s.emit t b f).Alone ch turned x := by
  obtain ⟨htables, hchans⟩ := Bus.respond_frame hb
  obtain ⟨-, -, e, -, hf, -⟩ := Bus.respond_ok hb
  have hid : f.id = id := congrArg Frame.id hf
  obtain ⟨hturned, hserved⟩ := h.quiet hs
  have honly : ∀ u, ((s.emit t b f).pc u).broadcasts = true → u = t := by
    intro u hu
    by_contra hne
    have hother : (s.emit t b f).pc u = s.pc u := Function.update_of_ne hne _ _
    rw [hother, hs u] at hu
    cases hu
  have hhere : (s.emit t b f).pc t = .broadcasting s.emissions f b.subs := Function.update_self _ _ _
  refine ⟨h.alike.same htables rfl, ?_, fun _ => ⟨hturned, hserved⟩, ?_, ?_⟩
  · intro u v hu hv
    rw [honly u hu, honly v hv]
  · rw [Sys.emit_bus, hchans, htables.handles]
    exact h.same
  · intro u n g todo hu
    obtain rfl := honly u (by rw [hu]; rfl)
    rw [hhere] at hu
    obtain ⟨-, rfl, rfl⟩ := Pc.broadcasting.inj hu
    refine ⟨?_, .inl ⟨hturned, hserved, rfl⟩⟩
    rw [h.alike.respond, hid, hb]

theorem Alone.deliver (h : s.Alone ch turned x) (hwf : s.bus.WellFormed) {n : Nat} {f : Frame}
    {sub : Subscription} {todo : List Subscription}
    (ht : s.pc t = .broadcasting n f (sub :: todo)) (hmem : sub :: todo <:+ s.bus.subs)
    (hd : Bus.deliver f s.bus sub = some s'.bus)
    (hpc : s'.pc = Function.update s.pc t (.broadcasting n f todo)) :
    s'.Alone ch (if sub.ch = ch then some f.id else turned) x := by
  have htables := Bus.deliver_sameTables hd
  have hhere : s'.pc t = .broadcasting n f todo := by rw [hpc, Function.update_self]
  have honly : ∀ u, (s'.pc u).broadcasts = true → u = t := by
    intro u hu
    by_contra hne
    rw [hpc, Function.update_of_ne hne] at hu
    exact hne (h.single u t hu (by rw [ht]; rfl))
  have hbusy : ∀ g more, s'.pc t = .broadcasting n g more → g = f ∧ more = todo := by
    intro g more hu
    obtain ⟨-, hg, hmore⟩ := Pc.broadcasting.inj (hhere.symm.trans hu)
    exact ⟨hg.symm, hmore.symm⟩
  obtain ⟨hanswer, hplace⟩ := h.busy t n f (sub :: todo) ht
  have hsingle : ∀ u v, (s'.pc u).broadcasts = true → (s'.pc v).broadcasts = true → u = v := by
    intro u v hu hv
    rw [honly u hu, honly v hv]
  have hloud : ¬ s'.Quiet := by
    intro hquiet
    have hq := hquiet t
    rw [hhere] at hq
    cases hq
  by_cases hch : sub.ch = ch
  · -- the turn of the one subscription
    rw [if_pos hch]
    have hown : own ch (sub :: todo) = sub :: own ch todo :=
      List.filter_cons_of_pos (decide_eq_true hch)
    obtain ⟨hturned, hserved, hsubs⟩ | ⟨-, hnil, -, -⟩ := hplace
    case inr =>
      rw [hown] at hnil
      cases hnil
    have hlt : ch < s.bus.handles := hch ▸ hwf.allocated sub (hmem.subset List.mem_cons_self)
    have hoffered : offered f x.bus.subs (x.bus.chans 0) = some (s'.bus.chans ch) := by
      rw [h.alike.subs, offered_ownOnly, ← hsubs, h.same (.inl hturned) hlt, offered_deliver hd,
        own_rest hwf.ownChannels hmem hch]
      rfl
    refine ⟨h.alike.same htables rfl, hsingle, fun hs => absurd hs hloud, ?_, ?_⟩
    · rintro (hnone | htrue)
      · cases hnone
      · rw [hserved] at htrue
        cases htrue
    · intro u m g more hu
      obtain rfl := honly u (by rw [hu]; rfl)
      obtain ⟨-, rfl, rfl⟩ := Pc.broadcasting.inj (hhere.symm.trans hu)
      exact ⟨hanswer, .inr ⟨rfl, own_rest hwf.ownChannels hmem hch, htables.handles.symm ▸ hlt,
        fun _ => hoffered⟩⟩
  · rw [if_neg hch]
    have hown : own ch (sub :: todo) = own ch todo :=
      List.filter_cons_of_neg (by simpa using hch)
    have hchan : s'.bus.chans ch = s.bus.chans ch := Bus.deliver_chans_of_ne hd (Ne.symm hch)
    refine ⟨h.alike.same htables rfl, hsingle, fun hs => absurd hs hloud, ?_, ?_⟩
    · rw [htables.handles, hchan]
      exact h.same
    · intro u m g more hu
      obtain rfl := honly u (by rw [hu]; rfl)
      obtain ⟨-, rfl, rfl⟩ := Pc.broadcasting.inj (hhere.symm.trans hu)
      rw [hown] at hplace
      refine ⟨hanswer, ?_⟩
      rw [htables.subs, htables.handles, hchan]
      exact hplace

/-- The broadcast ends, and with it the header on the bus of the one subscription. -/
theorem Alone.ended (h : s.Alone ch turned x) {n : Nat} {f : Frame}
    (ht : s.pc t = .broadcasting n f []) (hbus : s'.bus = s.bus)
    (hpc : s'.pc = Function.update s.pc t .idle) :
    ∃ x', x.exec (.sendHeader f.id, none) = some (x', .frame (.ok f)) ∧ s'.Alone ch none x' := by
  obtain ⟨hanswer, hplace⟩ := h.busy t n f [] ht
  have hquiet : s'.Quiet := by
    intro u
    rw [hpc]
    by_cases he : u = t
    · rw [he, Function.update_self]
      rfl
    · rw [Function.update_of_ne he, Bool.eq_false_iff]
      exact fun hu => he (h.single u t hu (by rw [ht]; rfl))
  cases hserved : x.served with
  | true =>
      refine ⟨{ x with served := false }, ?_, .ofQuiet hquiet (hbus ▸ h.alike) rfl ?_⟩
      · change x.serve _ = _
        rw [Solo.serve, Solo.again, if_pos hserved, hanswer]
        rfl
      · rw [hbus]
        exact h.same (.inr hserved)
  | false =>
      have htakes : ∃ c, offered f x.bus.subs (x.bus.chans 0) = some c ∧
          (ch < s.bus.handles → c = s.bus.chans ch) := by
        obtain ⟨hturned, -, hnone⟩ | ⟨-, -, hlt, hoffered⟩ := hplace
        · rw [h.alike.subs, ← hnone]
          exact ⟨x.bus.chans 0, rfl, h.same (.inl hturned)⟩
        · exact ⟨_, hoffered hserved, fun _ => rfl⟩
      obtain ⟨c, hc, hchan⟩ := htakes
      obtain ⟨b, hsend, halike, hown⟩ := h.alike.sendHeader hanswer hc
      refine ⟨{ x with bus := b }, ?_, .ofQuiet hquiet (hbus ▸ halike) hserved ?_⟩
      · change x.serve _ = _
        rw [Solo.serve_eq (Solo.again_of_not_served hserved _), Bus.exec, hsend]
        rfl
      · rw [hbus, hown]
        exact hchan

theorem Alone.walks (h : s.Alone ch turned x) {q : Pc} (ht : s.pc t = q) {a : Action}
    (hturned : s.turned ch turned a = turned) (hshown : s.shown ch turned a = none)
    (hq : q.broadcasts = false) (hp : p.broadcasts = false)
    (hbus : s'.bus = s.bus) (hpc : s'.pc = s.pc) :
    (s'.goto t p).Alone ch (s.turned ch turned a) x ∧ x.Echoes x (s.shown ch turned a) := by
  rw [hturned, hshown]
  refine ⟨h.moved (t := t) (p := p) ?_ (.refl _) rfl ?_ (ht ▸ hq) hp, rfl⟩
  · rw [goto_bus, hbus]
    exact .refl _
  · rw [← hpc]
    rfl

theorem Alone.reject (h : s.Alone ch turned x) {c : Section} {out : Outcome}
    (hpc : s.pc t = .idle) (hr : c.rejects = some out) :
    ∃ x', ((s.setBus s.bus.countError).ret t out).Alone ch turned x' ∧
      x.Echoes x' (s.shown ch turned (.call t c)) := by
  refine ⟨{ x with bus := x.bus.countError }, ?_, ?_⟩
  · exact h.moved (OnlyErrors.countError _) (OnlyErrors.countError _) rfl rfl (by rw [hpc]; rfl) rfl
  · unfold Section.rejects at hr
    split at hr
    case h_1 id data =>
      split_ifs at hr with hid
      simp [Sys.shown, Section.rejects, hid, Solo.Echoes, Solo.exec, Solo.catchUp, Solo.serve,
        Solo.again, Exclusive.op, Bus.exec, Bus.publish, Bus.doPublish]
    case h_2 id data =>
      split_ifs at hr with hid
      simp [Sys.shown, Section.rejects, hid, Solo.Echoes, Solo.exec, Solo.catchUp, Solo.serve,
        Solo.again, Exclusive.op, Bus.exec, Bus.publishClassic, Bus.doPublish]
    case h_3 id =>
      split_ifs at hr with hid
      have herr : x.bus.respond id = (x.bus.countError, .error (.lin .invalidFrame)) := by
        rw [Bus.respond, if_pos hid]
      have hserve := Solo.serve_eq (Solo.again_of_error (congrArg Prod.snd herr))
      simp [Sys.shown, Section.rejects, hid, Solo.Echoes, Solo.exec, Solo.catchUp, hserve,
        Bus.exec, Bus.sendHeader, herr]
    case h_4 => cases hr

/-- A header that gets no response is answered alike. -/
theorem Alone.unanswered (h : s.Alone ch turned x) {id : UInt8} {b : Bus} {e : ErrorCode}
    (ht : (s.pc t).broadcasts = false) (hb : s.bus.respond id = (b, .error e))
    (hbus : s'.bus = b) (hpc : s'.pc = Function.update s.pc t .idle) :
    ∃ x', s'.Alone ch turned x' ∧
      x.exec (.sendHeader id, none) = some (x', .frame (.error e)) := by
  have herr : (x.bus.respond id).2 = .error e := by rw [h.alike.respond, hb]
  cases hr : x.bus.respond id with
  | mk b₀ r =>
      rw [hr] at herr
      obtain rfl : r = .error e := herr
      refine ⟨{ x with bus := b₀ }, ?_, ?_⟩
      · refine h.moved ?_ ?_ rfl hpc ht rfl
        · rw [hbus]
          exact Bus.respond_error hb ▸ OnlyErrors.countError _
        · exact Bus.respond_error hr ▸ OnlyErrors.countError _
      · change x.serve _ = _
        rw [Solo.serve_eq (Solo.again_of_error (congrArg Prod.snd hr)), Bus.exec, Bus.sendHeader, hr]
        rfl

theorem Alone.takenBy (h : s.Alone ch turned x) {a : Action} (ha : a.channel = some ch)
    (hm : Moves s a s') : ∃ x', s'.Alone ch turned x' ∧ x.Echoes x' (s.shown ch turned a) := by
  obtain ⟨y, hy, halone, hready⟩ := h.catchUp
  by_cases hlt : ch < s.bus.handles
  case neg =>
    -- before the subscription nothing is shown
    have hnone : turned = none := by
      by_contra hsome
      exact hlt (h.allocated hsome)
    refine ⟨x, ?_, ?_⟩
    · obtain ⟨k, hbus, hpc⟩ : ∃ k, s'.bus = s.bus.setChan ch k ∧ s'.pc = s.pc := by
        cases hm with
        | recv | tryRecv | closeChan =>
            obtain rfl := Option.some.inj ha
            exact ⟨_, rfl, rfl⟩
        | _ => cases ha
      have hafter := h.taken (.inl hnone) hbus hpc
      rwa [if_neg hlt] at hafter
    · cases a with
      | recv c | tryRecv c | closeChan c => simp [Sys.shown, hlt, Solo.Echoes]
      | _ => cases ha
  case pos =>
    have hchan := halone.same hready hlt
    have taken : ∀ {k : Chan Frame}, s'.bus = s.bus.setChan ch k → s'.pc = s.pc →
        s'.Alone ch turned { y with bus := y.bus.setChan 0 k } := by
      intro k hbus hpc
      have hafter := halone.taken hready hbus hpc
      rwa [if_pos hlt] at hafter
    cases hm with
    | @recv c k f hr =>
        obtain rfl := Option.some.inj ha
        refine ⟨{ y with bus := y.bus.setChan 0 k }, taken rfl rfl, ?_⟩
        simp [Sys.shown, hlt, hr, Solo.Echoes, Solo.exec, hy, Solo.serve, Solo.again, Bus.exec,
          hchan]
    | @tryRecv c k f hr =>
        obtain rfl := Option.some.inj ha
        refine ⟨{ y with bus := y.bus.setChan 0 k }, taken rfl rfl, ?_⟩
        simp [Sys.shown, hlt, hr, Solo.Echoes, Solo.exec, hy, Solo.serve, Solo.again, Bus.exec,
          hchan]
    | @closeChan c =>
        obtain rfl := Option.some.inj ha
        refine ⟨{ y with bus := y.bus.setChan 0 (s.bus.chans c).close }, taken rfl rfl, ?_⟩
        simp [Sys.shown, hlt, Solo.Echoes, Solo.exec, hy, Solo.serve, Solo.again, Bus.exec,
          Bus.closeChan, hchan]
    | _ => cases ha

/-- What a step shows happens on the bus of the one subscription too. -/
theorem Alone.step (h : s.Alone ch turned x) (hlock : s.Locked) (hwf : s.bus.WellFormed)
    (hahead : ∀ u, (s.pc u).Ahead s.bus.subs) {a : Action} (hseq : s.InSequence a)
    (hm : Moves s a s') :
    ∃ x', s'.Alone ch (s.turned ch turned a) x' ∧ x.Echoes x' (s.shown ch turned a) := by
  by_cases hown : a.channel = some ch
  · have hturned : s.turned ch turned a = turned := by
      cases a <;> first | rfl | cases hown
    rw [hturned]
    exact h.takenBy hown hm
  cases hm with
  | reject hpc hr => exact h.reject hpc hr
  | @call t c hpc hr hc =>
      have hshown : s.shown ch turned (.call t c) = none := by
        cases c <;> simp [Sys.shown, hr]
      exact ⟨x, h.walks hpc rfl hshown rfl rfl rfl rfl⟩
  | callDrain hpc | lock hpc | lockShared hpc | poll hpc | timeUp hpc =>
      refine ⟨x, h.walks hpc ?_ ?_ ?_ ?_ ?_ ?_⟩ <;> rfl
  | @exclusive t c b out hpc hb =>
      have hs : s.Quiet := hlock.quiet (hlock.readers_empty (t := t) (by rw [hpc]; rfl))
      obtain ⟨rfl, hserved⟩ := h.quiet hs
      obtain ⟨b₀', halike, hkept, hecho⟩ := h.alike.body (h.same (.inl rfl)) c
      rw [hb] at halike hkept
      refine ⟨{ x with bus := b₀' }, ?_, ?_⟩
      · simp only [Sys.turned, hpc]
        exact .ofQuiet (hs.update rfl rfl) halike hserved hkept
      · simp only [Sys.shown, hpc]
        exact Solo.echoes hecho fun y _ => Solo.again_of_not_served hserved y.1
  | @respondError t id b e hpc hb =>
      have hafter : ∃ x', (((s.setBus b).unlockShared t).ret t (.frame (.error e))).Alone ch turned
          x' ∧ x.exec (.sendHeader id, none) = some (x', .frame (.error e)) :=
        h.unanswered (by rw [hpc]; rfl) hb rfl rfl
      obtain ⟨x', halone, hexec⟩ := hafter
      refine ⟨x', ?_, ?_⟩
      · simp only [Sys.turned, hpc]
        exact halone
      · simp only [Sys.shown, hpc, hb]
        exact hexec
  | @emit t id b f hpc hb =>
      refine ⟨x, ?_, ?_⟩
      · simp only [Sys.turned, hpc]
        exact h.emit (hseq t id f rfl hpc (by rw [hb])) hb
      · simp [Sys.shown, hpc, hb, Solo.Echoes]
  | @deliver t n f sub todo b hpc hb =>
      have hmem := hahead t
      rw [hpc] at hmem
      refine ⟨x, ?_, ?_⟩
      · simp only [Sys.turned, hpc]
        exact h.deliver hwf hpc hmem hb rfl
      · simp [Sys.shown, hpc, Solo.Echoes]
  | @ended t n f hpc =>
      have hended : ∃ x', x.exec (.sendHeader f.id, none) = some (x', .frame (.ok f)) ∧
          (((s.unlockShared t).record [.ended n]).ret t (.frame (.ok f))).Alone ch none x' :=
        h.ended hpc rfl rfl
      obtain ⟨x', hexec, halone⟩ := hended
      refine ⟨x', ?_, ?_⟩
      · simp only [Sys.turned, hpc]
        exact halone
      · simp only [Sys.shown, hpc]
        exact hexec
  | scan hpc | scanEmpty hpc | scanFound hpc | scanDone hpc =>
      refine ⟨x, h.walks hpc (by simp [Sys.turned, hpc]) (by simp [Sys.shown, hpc]) ?_ ?_ ?_ ?_⟩ <;>
        rfl
  | @recv c k f hr =>
      have hne : ch ≠ c := fun he => hown (congrArg some he.symm)
      refine ⟨x, h.elsewhere hne rfl rfl, ?_⟩
      simp [Sys.shown, Ne.symm hne, Solo.Echoes]
  | @tryRecv c k f hr =>
      have hne : ch ≠ c := fun he => hown (congrArg some he.symm)
      refine ⟨x, h.elsewhere hne rfl rfl, ?_⟩
      simp [Sys.shown, Ne.symm hne, Solo.Echoes]
  | @closeChan c =>
      have hne : ch ≠ c := fun he => hown (congrArg some he.symm)
      refine ⟨x, h.elsewhere hne rfl rfl, ?_⟩
      simp [Sys.shown, Ne.symm hne, Solo.Echoes]

end

/-- The bus of the one subscription goes through the whole trace. -/
theorem Alone.run {ch : Nat} {turned : Option UInt8} {s s' : Sys} {as : List Action} {x : Solo}
    (h : s.Alone ch turned x) (hlock : s.Locked) (hwf : s.bus.WellFormed)
    (hahead : ∀ u, (s.pc u).Ahead s.bus.subs) (hseq : Guarded Sys.step InSequence s as)
    (hrun : Run.run Sys.step s as = some s') (log : List Shown) :
    ∃ x', Run.run Solo.step (x, log) ((trace ch turned s as).map Prod.fst) =
      some (x', log ++ trace ch turned s as) := by
  induction as generalizing s x turned log with
  | nil => exact ⟨x, by rw [trace, List.append_nil]; rfl⟩
  | cons a as ih =>
      obtain ⟨m, hstep, hrest⟩ := run_cons.mp hrun
      obtain ⟨hfirst, hlater⟩ := hseq
      have hmoves := moves_of_step hstep
      obtain ⟨x', halone, hecho⟩ := h.step hlock hwf hahead hfirst hmoves
      have hrec := ih halone (hlock.step hmoves) (wellFormed_step hwf hmoves)
        (ahead_step hlock hahead hmoves) (hlater m hstep) hrest
      rw [trace, hstep]
      simp only
      cases hshown : s.shown ch turned a with
      | none =>
          rw [hshown] at hecho
          obtain rfl : x' = x := hecho
          exact hrec log
      | some y =>
          obtain ⟨call, out⟩ := y
          rw [hshown] at hecho
          have hx : x.exec call = some (x', out) := hecho
          obtain ⟨x'', hrun'⟩ := hrec (log ++ [(call, out)])
          refine ⟨x'', run_cons.mpr ⟨(x', log ++ [(call, out)]), ?_, ?_⟩⟩
          · rw [Solo.step, hx]
            rfl
          · refine hrun'.trans ?_
            rw [List.append_assoc]
            rfl

theorem alone_init (ch : Nat) : Alone ch none {} {} := by
  refine .ofQuiet (fun _ => rfl) ⟨rfl, rfl, rfl, rfl⟩ rfl ?_
  intro hch
  exact absurd hch (Nat.not_lt_zero ch)

end Sys

/-- Two runs that make the same calls, and in which one subscriber does the same between them and
in the middle of a header, on the same side of its turn, whatever the other subscriptions are
and do: every header and every publish has the same result, and the subscriber is given the
same frames. -/
theorem subscriber_independent {as as' : List Action} {s s' : Sys} {ch ch' : Nat}
    (h : run Sys.step {} as = some s) (h' : run Sys.step {} as' = some s')
    (hseq : Guarded Sys.step Sys.InSequence {} as)
    (hseq' : Guarded Sys.step Sys.InSequence {} as')
    (hsame : (Sys.trace ch none {} as).map Prod.fst = (Sys.trace ch' none {} as').map Prod.fst) :
    Sys.trace ch none {} as = Sys.trace ch' none {} as' := by
  have hwf : Bus.create.WellFormed := ⟨List.nodup_nil, by simp [Bus.create]⟩
  obtain ⟨x, hx⟩ := (Sys.alone_init ch).run Sys.Locked.init hwf (fun _ => trivial) hseq h []
  obtain ⟨x', hx'⟩ := (Sys.alone_init ch').run Sys.Locked.init hwf (fun _ => trivial) hseq' h' []
  rw [hsame, hx'] at hx
  exact (Prod.mk.inj (Option.some.inj hx)).2.symm

/-- The shared lock is held by nobody else when a thread goes on. -/
def Sys.ByTurns (s : Sys) (a : Action) : Prop := ∀ t ∈ a.thread, s.readers ⊆ {t}

instance (s : Sys) (a : Action) : Decidable (s.ByTurns a) :=
  inferInstanceAs (Decidable (∀ t ∈ a.thread, s.readers ⊆ {t}))

theorem Sys.ByTurns.inSequence {s : Sys} {a : Action} (hs : s.Locked) (h : s.ByTurns a) :
    s.InSequence a := by
  rintro t id f rfl hpc - u
  by_cases hu : u = t
  · rw [hu, hpc]
    rfl
  · have hout : ¬ (s.pc u).shares = true := by
      rw [← hs.readers u]
      exact fun hmem => hu (Finset.mem_singleton.mp (h t rfl hmem))
    cases hp : s.pc u with
    | broadcasting n g todo => exact absurd (by rw [hp]; rfl) hout
    | _ => rfl

theorem Sys.inSequence_of_byTurns {as : List Action} (h : Guarded Sys.step Sys.ByTurns {} as) :
    Guarded Sys.step Sys.InSequence {} as :=
  h.imp (fun _ _ _ hs hstep => Sys.Locked.step hs (Sys.moves_of_step hstep))
    (fun _ _ hs hturn => hturn.inSequence hs) Sys.Locked.init

/-- The second header waits for room in the subscriber's channel under `Block`, until its
consumer takes the first frame; behind its turn the consumer takes the second one. Once behind
another subscriber whose channel drops it, and once alone. -/
theorem subscriber_independent_blocked :
    let body (c : Section) (n : Nat) : List Action := .call 0 c :: .lock 0 :: List.replicate n (.step 0)
    let mine : List Action := body (.exclusive (.subscribe [{ id := 5 }]
      [withChannelDepth 1, withBackPressure .block])) 1 ++ body (.exclusive (.publish 5 [1])) 1
    let as := body (.exclusive (.subscribe [] [withChannelDepth 1])) 1 ++
      mine ++ body (.sendHeader 5) 4 ++ body (.sendHeader 5) 2 ++
      [.recv 1, .step 0, .tryRecv 1, .step 0]
    let as' := mine ++ body (.sendHeader 5) 3 ++ body (.sendHeader 5) 1 ++
      [.recv 0, .step 0, .tryRecv 0, .step 0]
    Sys.trace 1 none {} as = Sys.trace 0 none {} as' := by
  intro body mine as as'
  have h : (run Sys.step {} as).isSome = true := by decide +kernel
  have h' : (run Sys.step {} as').isSome = true := by decide +kernel
  obtain ⟨s, hs⟩ := Option.isSome_iff_exists.mp h
  obtain ⟨s', hs'⟩ := Option.isSome_iff_exists.mp h'
  exact subscriber_independent hs hs' (Sys.inSequence_of_byTurns (by decide +kernel))
    (Sys.inSequence_of_byTurns (by decide +kernel)) rfl

end CppLin.Virt
