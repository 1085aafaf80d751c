import CppLin.Channel
import CppLin.Lib.Run
import CppLin.Lin

/-!
The in-process broadcast bus. The channels it shares with its subscribers are named
by handles, and `chans` is the memory they live in; the subscribers' side of a
channel acts on it there.
-/
namespace CppLin.Virt
open Bytes Relay

def kDefaultChanDepth : Int := 64

structure ResponseEntry where
  data : Payload
  checksumType : ChecksumType := .enhanced
  deriving DecidableEq, Repr

structure Subscription where
  filters : List Filter
  ch : Nat
  backPressure : BackPressurePolicy
  deriving DecidableEq, Repr

/-- `handles` counts the channels made so far. -/
structure Bus where
  responses : AList (fun _ : UInt8 => ResponseEntry) := ∅
  schedule : List ScheduleEntry := []
  subs : List Subscription := []
  closed : Bool := false
  metrics : Metrics := {}
  chans : Nat → Chan Frame := fun _ => {}
  handles : Nat := 0

def matchesAny (filters : List Filter) (f : Frame) : Bool :=
  filters.isEmpty || filters.any (·.isMatch f)

namespace Bus

def create : Bus := {}

def countError (b : Bus) : Bus :=
  { b with metrics := { b.metrics with errorCount := b.metrics.errorCount + 1 } }

def countWrite (b : Bus) (f : Frame) : Bus :=
  { b with metrics := { b.metrics with
      writeCount := b.metrics.writeCount + 1
      bytesWritten := b.metrics.bytesWritten + UInt64.ofNat f.data.length } }

def countDelivery (b : Bus) (f : Frame) : Bus :=
  { b with metrics := { b.metrics with
      deliverCount := b.metrics.deliverCount + 1
      bytesDelivered := b.metrics.bytesDelivered + UInt64.ofNat f.data.length } }

def countDrop (b : Bus) : Bus :=
  { b with metrics := { b.metrics with dropCount := b.metrics.dropCount + 1 } }

def setChan (b : Bus) (ch : Nat) (c : Chan Frame) : Bus :=
  { b with chans := Function.update b.chans ch c }

def doPublish (b : Bus) (id : UInt8) (data : Payload) (ct : ChecksumType) :
    Bus × Option ErrorCode :=
  if id > kLINMaxID then (b.countError, some (.lin .invalidFrame))
  else if b.closed then (b.countError, some ErrClosed)
  else if data = [] then ({ b with responses := b.responses.erase id }, none)
  else
    let ct := if isDiagnostic id then .classic else ct
    ({ b with responses := b.responses.insert id { data, checksumType := ct } }, none)

def publish (b : Bus) (id : UInt8) (data : Payload) : Bus × Option ErrorCode :=
  b.doPublish id data .enhanced

def publishClassic (b : Bus) (id : UInt8) (data : Payload) : Bus × Option ErrorCode :=
  b.doPublish id data .classic

def frameOf (id : UInt8) (e : ResponseEntry) : Frame :=
  { id, data := e.data, checksum := calcChecksum (protectId id) e.data e.checksumType,
    checksumType := e.checksumType }

/-- `send_header` up to its broadcast: the frame, and the write counters. -/
def respond (b : Bus) (id : UInt8) : Bus × Except ErrorCode Frame :=
  if id > kLINMaxID then (b.countError, .error (.lin .invalidFrame))
  else if b.closed then (b.countError, .error ErrClosed)
  else
    match b.responses.lookup id with
    | none => (b.countError, .error (.lin .noResponse))
    | some e => (b.countWrite (frameOf id e), .ok (frameOf id e))

/-- One turn of the broadcast loop; it waits at a full channel under `Block`,
which counts as a delivery whatever `send` returns. -/
def deliver (f : Frame) (b : Bus) (s : Subscription) : Option Bus :=
  if matchesAny s.filters f = false then some b
  else
    match s.backPressure with
    | .dropNewest =>
        match (b.chans s.ch).trySend f with
        | (c, .ok) => some ((b.setChan s.ch c).countDelivery f)
        | (c, .full) => some (b.setChan s.ch c).countDrop
        | (c, _) => some (b.setChan s.ch c)
    | .dropOldest =>
        match (b.chans s.ch).sendDropOldest f with
        | (c, .evicted) => some (b.setChan s.ch c).countDrop
        | (c, .ok) => some ((b.setChan s.ch c).countDelivery f)
        | (c, _) => some (b.setChan s.ch c)
    | .block =>
        ((b.chans s.ch).send f).map fun (c, _) => (b.setChan s.ch c).countDelivery f

def broadcast (b : Bus) (f : Frame) : Option Bus := b.subs.foldlM (deliver f) b

/-- `none` when the broadcast waits at a full channel. -/
def sendHeader (b : Bus) (id : UInt8) : Option (Bus × Except ErrorCode Frame) :=
  match b.respond id with
  | (b, .error e) => some (b, .error e)
  | (b, .ok f) => (b.broadcast f).map (·, .ok f)

/-- The result names the new channel. -/
def subscribe (b : Bus) (filters : List Filter) (opts : List SubscriberOption) :
    Bus × Except ErrorCode Nat :=
  let cfg := applyOptions opts
  let depth := cfg.effectiveDepth kDefaultChanDepth
  if b.closed then (b.countError, .error ErrClosed)
  else
    ({ b with
        subs := b.subs ++ [{ filters, ch := b.handles, backPressure := cfg.backPressure }]
        chans := Function.update b.chans b.handles { capacity := depth.toNat }
        handles := b.handles + 1 }, .ok b.handles)

/-- Unlike its siblings it does not count its error. -/
def setSchedule (b : Bus) (entries : List ScheduleEntry) : Bus × Option ErrorCode :=
  if b.closed then (b, some ErrClosed) else ({ b with schedule := entries }, none)

def closeChan (b : Bus) (ch : Nat) : Bus := b.setChan ch (b.chans ch).close

def close (b : Bus) : Bus × Option ErrorCode :=
  if b.closed then (b, none)
  else
    let b := b.subs.foldl (fun b s => b.closeChan s.ch) { b with closed := true }
    ({ b with subs := [] }, none)

def health (b : Bus) : Health :=
  if b.closed then { status := .down, details := "bus closed".toList } else {}

def allDrained (b : Bus) : Bool := b.subs.all fun s => (b.chans s.ch).size = 0

/-- Only the channels and the counters may differ. -/
def SameTables (b b' : Bus) : Prop := b' = { b with chans := b'.chans, metrics := b'.metrics }

theorem SameTables.trans {a b c : Bus} (hab : SameTables a b) (hbc : SameTables b c) :
    SameTables a c := by
  unfold SameTables at *
  rw [hbc, hab]

section
variable {b b' : Bus} (h : SameTables b b')
include h

theorem SameTables.responses : b'.responses = b.responses := by
  rw [h]

theorem SameTables.subs : b'.subs = b.subs := by
  rw [h]

theorem SameTables.closed : b'.closed = b.closed := by
  rw [h]

theorem SameTables.handles : b'.handles = b.handles := by
  rw [h]

end

theorem respond_sameTables (b : Bus) (id : UInt8) : SameTables b (b.respond id).1 := by
  unfold respond
  split_ifs
  · rfl
  · rfl
  · split <;> rfl

@[simp] theorem respond_chans (b : Bus) (id : UInt8) : (b.respond id).1.chans = b.chans := by
  unfold respond
  split_ifs
  · rfl
  · rfl
  · split <;> rfl

theorem respond_frame {b b' : Bus} {id : UInt8} {r : Except ErrorCode Frame}
    (h : b.respond id = (b', r)) : SameTables b b' ∧ b'.chans = b.chans := by
  obtain rfl := congrArg Prod.fst h
  exact ⟨respond_sameTables b id, respond_chans b id⟩

/-- One turn of the broadcast touches nothing but the subscriber's own channel,
and that as its policy says. -/
theorem deliver_cases {f : Frame} {b b' : Bus} {s : Subscription} (h : deliver f b s = some b') :
    (matchesAny s.filters f = false ∧ b' = b) ∨
      ∃ c m, matchesAny s.filters f = true ∧ (b.chans s.ch).offer s.backPressure f = some c ∧
        b' = { b.setChan s.ch c with metrics := m } := by
  unfold deliver at h
  by_cases hm : matchesAny s.filters f = false
  · rw [if_pos hm, Option.some.injEq] at h
    exact .inl ⟨hm, h.symm⟩
  · rw [if_neg hm] at h
    refine .inr ?_
    rw [Bool.not_eq_false] at hm
    cases hp : s.backPressure with
    | dropNewest =>
        simp only [hp] at h
        refine ⟨((b.chans s.ch).trySend f).1, b'.metrics, hm, rfl, ?_⟩
        split at h <;> rename_i heq <;> rw [Option.some.injEq] at h <;> rw [← h, heq] <;> rfl
    | dropOldest =>
        simp only [hp] at h
        refine ⟨((b.chans s.ch).sendDropOldest f).1, b'.metrics, hm, rfl, ?_⟩
        split at h <;> rename_i heq <;> rw [Option.some.injEq] at h <;> rw [← h, heq] <;> rfl
    | block =>
        simp only [hp] at h
        obtain ⟨⟨c, r⟩, hsend, hb⟩ := Option.map_eq_some_iff.mp h
        refine ⟨c, b'.metrics, hm, ?_, ?_⟩
        · rw [Chan.offer, hsend, Option.map_some]
        · rw [← hb]
          rfl

/-- The subscription at which a broadcast of `f` waits. -/
def WaitsAt (b : Bus) (f : Frame) (s : Subscription) : Prop :=
  matchesAny s.filters f = true ∧ s.backPressure = .block ∧
    (b.chans s.ch).closed = false ∧ (b.chans s.ch).isFull = true

instance (b : Bus) (f : Frame) (s : Subscription) : Decidable (b.WaitsAt f s) :=
  inferInstanceAs (Decidable (_ ∧ _ ∧ _ ∧ _))

theorem deliver_eq_none_iff {f : Frame} {b : Bus} {s : Subscription} :
    deliver f b s = none ↔ b.WaitsAt f s := by
  unfold deliver WaitsAt
  by_cases hm : matchesAny s.filters f = false
  · simp [hm]
  · rw [if_neg hm]
    rw [Bool.not_eq_false] at hm
    cases hp : s.backPressure with
    | dropNewest => simp only; split <;> simp
    | dropOldest => simp only; split <;> simp
    | block => simp [hm, Chan.send_eq_none_iff]

theorem deliver_sameTables {f : Frame} {b b' : Bus} {s : Subscription}
    (h : deliver f b s = some b') : SameTables b b' := by
  obtain ⟨-, rfl⟩ | ⟨c, m, -, -, rfl⟩ := deliver_cases h <;> rfl

theorem deliver_chans_of_ne {f : Frame} {b b' : Bus} {s : Subscription}
    (h : deliver f b s = some b') {ch : Nat} (hne : ch ≠ s.ch) : b'.chans ch = b.chans ch := by
  obtain ⟨-, rfl⟩ | ⟨c, m, -, -, rfl⟩ := deliver_cases h
  · rfl
  · exact Function.update_of_ne hne c b.chans

theorem foldlM_deliver_sameTables {f : Frame} {subs : List Subscription} {b b' : Bus}
    (h : subs.foldlM (deliver f) b = some b') : SameTables b b' :=
  Run.rel_foldlM (R := SameTables) (fun _ => rfl) (fun h h' => h.trans h')
    (fun _ _ _ _ => deliver_sameTables) h

/-- A broadcast to subscribers with channels of their own waits exactly when one
of these channels is full to begin with. -/
theorem foldlM_deliver_eq_none_iff {f : Frame} {subs : List Subscription} {b : Bus}
    (hnd : (subs.map Subscription.ch).Nodup) :
    subs.foldlM (deliver f) b = none ↔ ∃ s ∈ subs, b.WaitsAt f s := by
  induction subs generalizing b with
  | nil => simp
  | cons s subs ih =>
      rw [List.map_cons, List.nodup_cons] at hnd
      obtain ⟨hs, hnd⟩ := hnd
      rw [List.foldlM_cons, List.exists_mem_cons_iff]
      cases hd : deliver f b s with
      | none => simp [deliver_eq_none_iff.mp hd]
      | some m =>
          have hhere : ¬ b.WaitsAt f s := by
            intro hw
            rw [deliver_eq_none_iff.mpr hw] at hd
            exact absurd hd (by simp)
          have hthere : ∀ t ∈ subs, m.WaitsAt f t ↔ b.WaitsAt f t := by
            intro t ht
            have hne : t.ch ≠ s.ch := fun he => hs (he ▸ List.mem_map_of_mem ht)
            unfold WaitsAt
            rw [deliver_chans_of_ne hd hne]
          simp only [Option.bind_eq_bind, Option.bind_some, ih hnd, hhere, false_or]
          exact exists_congr fun t => and_congr_right (hthere t)

theorem sendHeader_some {b b' : Bus} {id : UInt8} {r : Except ErrorCode Frame}
    (h : b.sendHeader id = some (b', r)) : SameTables b b' ∧ r = (b.respond id).2 := by
  have hr := respond_sameTables b id
  unfold sendHeader at h
  cases he : b.respond id with
  | mk m res =>
      rw [he] at h hr
      cases res with
      | error e =>
          obtain ⟨rfl, rfl⟩ := Prod.mk.inj (Option.some.inj h)
          exact ⟨hr, rfl⟩
      | ok f =>
          obtain ⟨b₁, hb, heq⟩ := Option.map_eq_some_iff.mp h
          obtain ⟨rfl, rfl⟩ := Prod.mk.inj heq
          exact ⟨hr.trans (foldlM_deliver_sameTables hb), rfl⟩

/-- A header whose response is there waits exactly at a full channel. -/
theorem sendHeader_eq_none_iff {b : Bus} {id : UInt8} (hnd : (b.subs.map Subscription.ch).Nodup) :
    b.sendHeader id = none ↔ ∃ f, (b.respond id).2 = .ok f ∧ ∃ s ∈ b.subs, b.WaitsAt f s := by
  have hr := respond_sameTables b id
  have hc := respond_chans b id
  unfold sendHeader
  cases he : b.respond id with
  | mk m res =>
      rw [he] at hr hc
      have hsubs : m.subs = b.subs := SameTables.subs hr
      cases res with
      | error e => simp
      | ok f =>
          have hwait : ∀ s, m.WaitsAt f s ↔ b.WaitsAt f s := fun s => by
            simp only [WaitsAt, show m.chans = b.chans from hc]
          simp [broadcast, hsubs, foldlM_deliver_eq_none_iff hnd, hwait]

theorem foldl_closeChan_eq (subs : List Subscription) (b : Bus) :
    subs.foldl (fun b s => b.closeChan s.ch) b =
      { b with chans := (subs.foldl (fun b s => b.closeChan s.ch) b).chans } := by
  induction subs generalizing b with
  | nil => rfl
  | cons s subs ih =>
      rw [List.foldl_cons, ih]
      rfl

@[simp] theorem close_responses (b : Bus) : b.close.1.responses = b.responses := by
  unfold close
  split_ifs
  · rfl
  · simp only
    rw [foldl_closeChan_eq]

theorem foldl_closeChan_buf (subs : List Subscription) (b : Bus) (ch : Nat) :
    ((subs.foldl (fun b s => b.closeChan s.ch) b).chans ch).buf = (b.chans ch).buf := by
  induction subs generalizing b with
  | nil => rfl
  | cons s subs ih =>
      rw [List.foldl_cons, ih]
      by_cases h : ch = s.ch
      · subst h
        simp [closeChan, setChan]
      · simp [closeChan, setChan, h]

theorem close_buf (b : Bus) (ch : Nat) : (b.close.1.chans ch).buf = (b.chans ch).buf := by
  unfold close
  split_ifs
  · rfl
  · exact foldl_closeChan_buf b.subs { b with closed := true } ch

theorem doPublish_chans (b : Bus) (id : UInt8) (data : Payload) (ct : ChecksumType) :
    (b.doPublish id data ct).1.chans = b.chans := by
  unfold doPublish
  split_ifs <;> rfl

theorem doPublish_ok {b b' : Bus} {id : UInt8} {data : Payload} {ct : ChecksumType}
    (h : b.doPublish id data ct = (b', none)) :
    id ≤ kLINMaxID ∧ b.closed = false ∧
      b' = { b with responses := if data = [] then b.responses.erase id else
        b.responses.insert id ⟨data, if isDiagnostic id then .classic else ct⟩ } := by
  unfold doPublish at h
  by_cases hid : id > kLINMaxID
  · simp [hid] at h
  by_cases hc : b.closed = true
  · simp [hid, hc] at h
  refine ⟨UInt8.not_lt.mp hid, Bool.not_eq_true _ ▸ hc, ?_⟩
  rw [if_neg hid, if_neg hc] at h
  by_cases hd : data = []
  · rw [if_pos hd] at h ⊢
    exact (Prod.mk.inj h).1.symm
  · rw [if_neg hd] at h ⊢
    exact (Prod.mk.inj h).1.symm

theorem doPublish_of_open {b : Bus} (hopen : b.closed = false) {id : UInt8} (hid : id ≤ kLINMaxID)
    (data : Payload) (ct : ChecksumType) :
    ∃ b', b.doPublish id data ct = (b', none) ∧ b'.closed = false ∧
      ∀ i, i ∈ b'.responses ↔ if i = id then data ≠ [] else i ∈ b.responses := by
  cases h : b.doPublish id data ct with
  | mk b' e =>
      cases e with
      | some e =>
          unfold doPublish at h
          rw [if_neg (UInt8.not_lt.mpr hid), hopen, if_neg Bool.false_ne_true] at h
          split_ifs at h <;> cases (Prod.mk.inj h).2
      | none =>
          obtain ⟨-, -, rfl⟩ := doPublish_ok h
          refine ⟨_, rfl, hopen, fun i => ?_⟩
          by_cases hd : data = []
          · by_cases hi : i = id <;> simp [hd, hi]
          · by_cases hi : i = id <;> simp [hd, hi]

theorem doPublish_error {b b' : Bus} {id : UInt8} {data : Payload} {ct : ChecksumType}
    {e : ErrorCode} (h : b.doPublish id data ct = (b', some e)) : b' = b.countError := by
  unfold doPublish at h
  split_ifs at h <;> simp only [Prod.mk.injEq, reduceCtorEq, and_false] at h <;> exact h.1.symm

end Bus

instance : IBus Bus where
  publish := Bus.publish
  publishClassic := Bus.publishClassic
  close := Bus.close

end CppLin.Virt
