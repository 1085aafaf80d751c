import CppLin.Safety.Stream
import CppLin.Virtual.Effects
import CppLin.Virtual.ResponseMap

/-!
End-to-end protection over the bus: the slave publishes what its protector makes of a
payload, the master asks for it and unwraps the answer, payload after payload, while others
use the bus.
-/
namespace CppLin.Virt
open Bytes Relay Run

/-- A call of someone else; `none` while it waits. -/
def Bus.call (b : Bus) (op : Op) : Option Bus := (b.exec op).map Prod.fst

/-- Neither a publish for `id` nor a close. -/
def Op.elsewhere (id : FrameId) (op : Op) : Prop := ¬ op.publishesFor id ∧ op ≠ .close

theorem Op.asPublish_elsewhere {id : FrameId} {op : Op} (hop : op.elsewhere id) {i : UInt8}
    {data : Payload} {ct : ChecksumType} (h : op.asPublish = some (i, data, ct)) : i ≠ id.val := by
  cases op with
  | publish j d =>
      obtain ⟨rfl, -⟩ := Prod.mk.inj (Option.some.inj h)
      exact hop.1
  | publishClassic j d =>
      obtain ⟨rfl, -⟩ := Prod.mk.inj (Option.some.inj h)
      exact hop.1
  | _ => cases h

theorem Bus.Effect.elsewhere {b b' : Bus} {op : Op} {out : Outcome} (h : Bus.Effect b op b' out)
    {id : FrameId} (hop : op.elsewhere id) :
    b'.closed = b.closed ∧ b'.responses.lookup id.val = b.responses.lookup id.val := by
  cases h with
  | failed hout hsame =>
      rw [hsame]
      exact ⟨rfl, rfl⟩
  | @published op i data ct b' hpub hp =>
      have hne := Op.asPublish_elsewhere hop hpub
      obtain ⟨-, -, rfl⟩ := Bus.doPublish_ok hp
      refine ⟨rfl, ?_⟩
      by_cases hd : data = []
      · rw [if_pos hd, AList.lookup_erase_ne hne.symm]
      · rw [if_neg hd, AList.lookup_insert_ne hne.symm]
  | scheduled hopen => exact ⟨rfl, rfl⟩
  | subscribed hopen => exact ⟨rfl, rfl⟩
  | emitted hm hbr =>
      have htables := Bus.emitted_sameTables hm hbr
      rw [htables.closed, htables.responses]
      exact ⟨rfl, rfl⟩
  | closed => exact absurd rfl hop.2
  | received hrec hbuf hshape => exact ⟨rfl, rfl⟩
  | closedChan => exact ⟨rfl, rfl⟩

/-- An open bus, and what the master is to get for `id`. -/
structure Bus.Serves (b : Bus) (id : FrameId) (entry : Option ResponseEntry) : Prop where
  isOpen : b.closed = false
  wellFormed : b.WellFormed
  registered : b.responses.lookup id.val = entry

theorem Bus.Serves.run {b b' : Bus} {id : FrameId} {entry : Option ResponseEntry}
    (h : b.Serves id entry) {ops : List Op} (hops : ∀ op ∈ ops, op.elsewhere id)
    (hrun : Run.run Bus.call b ops = some b') : b'.Serves id entry := by
  refine guarded_run (I := fun b => b.Serves id entry) (G := fun _ op => op.elsewhere id) ?_ h
    (guarded_of_forall (fun op hop _ => hops op hop) b) hrun
  intro b op b' hb hop hcall
  obtain ⟨⟨b', out⟩, hx, rfl⟩ := Option.map_eq_some_iff.mp hcall
  obtain ⟨hclosed, hlookup⟩ := (Bus.effect_of_exec hx).elsewhere hop
  exact ⟨hclosed.trans hb.isOpen, hb.wellFormed.exec hx, hlookup.trans hb.registered⟩

theorem Bus.Serves.doPublish {b : Bus} {id : FrameId} {entry : Option ResponseEntry}
    (h : b.Serves id entry) {data : Payload} (hdata : data ≠ []) (ct : ChecksumType) :
    (b.doPublish id data ct).2 = none ∧ (b.doPublish id data ct).1.Serves id
      (some ⟨data, if isDiagnostic id then .classic else ct⟩) := by
  obtain ⟨b', hp, hopen, -⟩ := Bus.doPublish_of_open h.isOpen id.property data ct
  have hwf := h.wellFormed.doPublish id data ct
  rw [hp] at hwf ⊢
  refine ⟨rfl, hopen, hwf, ?_⟩
  obtain ⟨-, -, rfl⟩ := Bus.doPublish_ok hp
  simp only [if_neg hdata, AList.lookup_insert]

theorem Bus.Serves.respond {b : Bus} {id : FrameId} {e : ResponseEntry} (h : b.Serves id (some e)) :
    (b.respond id).2 = .ok (Bus.frameOf id e) := by
  unfold Bus.respond
  rw [if_neg (UInt8.not_lt.mpr id.property), h.isOpen, if_neg Bool.false_ne_true, h.registered]

end CppLin.Virt

namespace CppLin.Safety
open Bytes Run Virt

/-- One payload: what others call before the slave publishes it and before the master asks
for it, and the checksum type the slave publishes under. -/
structure Turn where
  before : List Op := []
  payload : Payload
  checksumType : ChecksumType := .enhanced
  between : List Op := []

/-- What one turn gives: the result of the publish, and the answer to the header, unwrapped. -/
structure Report where
  published : Option ErrorCode
  answer : Except ErrorCode (Except E2EError Payload)

/-- The slave's protector, the bus and the master's receiver. -/
structure Link where
  bus : Bus
  protector : Protector
  receiver : Receiver
  reports : List Report := []

namespace Link

def publish (id : FrameId) (l : Link) (payload : Payload) (ct : ChecksumType) :
    Link × Option ErrorCode :=
  let (msg, protector) := l.protector.protect payload
  let (bus, e) := l.bus.doPublish id msg ct
  ({ l with bus, protector }, e)

/-- The master sends the header and unwraps the data it is given; `none` while it waits. -/
def request (id : FrameId) (l : Link) : Option (Link × Except ErrorCode (Except E2EError Payload)) :=
  (l.bus.sendHeader id).map fun (bus, r) =>
    match r with
    | .error e => ({ l with bus }, .error e)
    | .ok f =>
        let (x, receiver) := l.receiver.unwrap f.data
        ({ l with bus, receiver }, .ok x)

/-- A turn up to the header. -/
def offer (id : FrameId) (l : Link) (t : Turn) : Option (Link × Option ErrorCode) := do
  let bus ← run Bus.call l.bus t.before
  let (l, e) := publish id { l with bus } t.payload t.checksumType
  let bus ← run Bus.call l.bus t.between
  some ({ l with bus }, e)

def turn (id : FrameId) (l : Link) (t : Turn) : Option Link := do
  let (l, published) ← l.offer id t
  let (l, answer) ← l.request id
  some { l with reports := l.reports ++ [{ published, answer }] }

/-- Between two turns: the receiver waits for the protector's next counter. -/
structure Ready (id : FrameId) (l : Link) : Prop where
  bus : ∃ entry, l.bus.Serves id entry
  config : l.receiver.cfg = l.protector.cfg
  expected : ∀ e ∈ l.receiver.expected, l.protector.seq = e

/-- The response a turn leaves on the bus. -/
def response (id : FrameId) (l : Link) (t : Turn) : ResponseEntry where
  data := message l.protector.cfg l.protector.seq t.payload
  checksumType := if isDiagnostic id then .classic else t.checksumType

variable {id : FrameId} {l l' : Link} {t : Turn}

/-- Up to the header nothing fails, and the protected payload is what the bus then holds. -/
theorem Ready.offer (h : l.Ready id) (ht : ∀ op ∈ t.before ++ t.between, op.elsewhere id)
    {e : Option ErrorCode} (hoffer : l.offer id t = some (l', e)) :
    e = none ∧ l'.bus.Serves id (some (l.response id t)) ∧
      l' = { l with bus := l'.bus, protector := { l.protector with seq := l.protector.seq + 1 } } := by
  obtain ⟨entry, hserves⟩ := h.bus
  obtain ⟨b₁, hbefore, hoffer⟩ := Option.bind_eq_some_iff.mp hoffer
  obtain ⟨b₂, hbetween, hoffer⟩ := Option.bind_eq_some_iff.mp hoffer
  obtain ⟨rfl, rfl⟩ := Prod.mk.inj (Option.some.inj hoffer)
  have hdata : message l.protector.cfg l.protector.seq t.payload ≠ [] := List.cons_ne_nil _ _
  have hb₁ := hserves.run (fun op hop => ht op (List.mem_append_left _ hop)) hbefore
  obtain ⟨hok, hpublished⟩ := hb₁.doPublish hdata t.checksumType
  have hb₂ := hpublished.run (fun op hop => ht op (List.mem_append_right _ hop)) hbetween
  exact ⟨hok, hb₂, rfl⟩

/-- The header is answered with that payload, or waits at a full channel. -/
theorem request_serves {m : Link} {l : Link} {p : Payload} {q : UInt32} {ct : ChecksumType}
    (hbus : m.bus.Serves id (some ⟨message m.receiver.cfg q p, ct⟩))
    (hq : ∀ e ∈ m.receiver.expected, q = e) :
    (∀ a, m.request id = some (l, a) → a = .ok (.ok p) ∧ l.bus.Serves id
      (some ⟨message m.receiver.cfg q p, ct⟩) ∧
      l = { m with bus := l.bus, receiver := { m.receiver with first := false, lastSeq := q } }) ∧
    (m.request id = none ↔ ∃ sub ∈ m.bus.subs,
      m.bus.WaitsAt (Bus.frameOf id ⟨message m.receiver.cfg q p, ct⟩) sub) := by
  have hanswer := hbus.respond
  constructor
  · intro a h
    obtain ⟨⟨b, r⟩, hb, heq⟩ := Option.map_eq_some_iff.mp h
    obtain ⟨htables, hr⟩ := Bus.sendHeader_some hb
    have hafter : b.Serves id (some ⟨message m.receiver.cfg q p, ct⟩) := by
      refine ⟨htables.closed.trans hbus.isOpen, ?_, ?_⟩
      · exact hbus.wellFormed.congr htables.subs htables.handles
      · rw [htables.responses]
        exact hbus.registered
    rw [hanswer] at hr
    subst hr
    simp only [Bus.frameOf, unwrap_message_expected p hq, Prod.mk.injEq] at heq
    obtain ⟨rfl, rfl⟩ := heq
    exact ⟨rfl, hafter, rfl⟩
  · rw [request, Option.map_eq_none_iff, Bus.sendHeader_eq_none_iff hbus.wellFormed.ownChannels,
      hanswer]
    simp

theorem Ready.turn (h : l.Ready id) (ht : ∀ op ∈ t.before ++ t.between, op.elsewhere id)
    (hturn : l.turn id t = some l') :
    l'.Ready id ∧ l'.reports = l.reports ++ [⟨none, .ok (.ok t.payload)⟩] := by
  obtain ⟨⟨m, e⟩, hoffer, hturn⟩ := Option.bind_eq_some_iff.mp hturn
  obtain ⟨⟨k, a⟩, hrequest, hturn⟩ := Option.bind_eq_some_iff.mp hturn
  obtain rfl := Option.some.inj hturn
  obtain ⟨rfl, hserves, hm⟩ := h.offer ht hoffer
  rw [response, ← h.config] at hserves
  have hreceiver : m.receiver = l.receiver := by rw [hm]
  rw [← hreceiver] at hserves
  have hq : ∀ e ∈ m.receiver.expected, l.protector.seq = e := hreceiver ▸ h.expected
  obtain ⟨rfl, hafter, hk⟩ := (request_serves hserves hq).1 a hrequest
  refine ⟨⟨⟨_, hafter⟩, ?_, ?_⟩, ?_⟩
  · rw [hk, hm]
    exact h.config
  · rw [hk, hm]
    intro e he
    exact Option.some.inj he
  · rw [hk, hm]

theorem Ready.run (h : l.Ready id) {turns : List Turn}
    (hturns : ∀ t ∈ turns, ∀ op ∈ t.before ++ t.between, op.elsewhere id)
    (hrun : run (Link.turn id) l turns = some l') :
    l'.Ready id ∧ l'.reports = l.reports ++ turns.map fun t => ⟨none, .ok (.ok t.payload)⟩ := by
  induction turns generalizing l with
  | nil =>
      rw [run_nil, Option.some.injEq] at hrun
      subst hrun
      exact ⟨h, (List.append_nil _).symm⟩
  | cons t turns ih =>
      obtain ⟨m, hturn, hrest⟩ := run_cons.mp hrun
      obtain ⟨hm, hreport⟩ := h.turn (hturns t List.mem_cons_self) hturn
      obtain ⟨hl', hreports⟩ := ih hm (fun t ht => hturns t (List.mem_cons_of_mem _ ht)) hrest
      refine ⟨hl', ?_⟩
      rw [hreports, hreport, List.append_assoc]
      rfl

/-- A protector and a fresh receiver of one configuration at the two ends of an open bus. -/
def start (b : Bus) (cfg : Config) (seq : UInt32) : Link :=
  { bus := b, protector := { cfg, seq }, receiver := { cfg } }

theorem start_ready {b : Bus} (hopen : b.closed = false) (hb : b.WellFormed) (id : FrameId)
    (cfg : Config) (seq : UInt32) : (start b cfg seq).Ready id := by
  refine ⟨⟨_, hopen, hb, rfl⟩, rfl, ?_⟩
  intro e he
  cases he

end Link

/-- Whatever else is called on the bus, as long as nobody else publishes for the identifier
or closes it: every publish succeeds, and every header that returns brings the payload
through. A header does not return only while a `Block` subscriber's channel is full. -/
theorem exchange_delivers {ops : List Op} {s : Session} (hrun : run Session.step {} ops = some s)
    (hopen : s.bus.closed = false) (id : FrameId) (cfg : Config) (seq : UInt32) (turns : List Turn)
    (hturns : ∀ t ∈ turns, ∀ op ∈ t.before ++ t.between, ¬ op.publishesFor id ∧ op ≠ .close) :
    (∀ l, run (Link.turn id) (.start s.bus cfg seq) turns = some l →
      l.reports = turns.map fun t => ⟨none, .ok (.ok t.payload)⟩) ∧
    ∀ past t, past ++ [t] <+: turns → ∀ l, run (Link.turn id) (.start s.bus cfg seq) past = some l →
      l.reports = (past.map fun t => ⟨none, .ok (.ok t.payload)⟩) ∧
      ∀ m e, l.offer id t = some (m, e) →
        e = none ∧ (∀ k a, m.request id = some (k, a) → a = .ok (.ok t.payload)) ∧
        (m.request id = none ↔ ∃ sub ∈ m.bus.subs,
          m.bus.WaitsAt (Bus.frameOf id (l.response id t)) sub) := by
  have hready := Link.start_ready hopen (Session.wellFormed_run hrun) id cfg seq
  refine ⟨fun l hl => (hready.run hturns hl).2, ?_⟩
  intro past t hpast l hl
  have hmem : ∀ x ∈ past ++ [t], ∀ op ∈ x.before ++ x.between, op.elsewhere id :=
    fun x hx => hturns x (hpast.subset hx)
  obtain ⟨hready', hreports⟩ := hready.run (fun x hx => hmem x (List.mem_append_left _ hx)) hl
  refine ⟨hreports, ?_⟩
  intro m e hoffer
  obtain ⟨rfl, hserves, hm⟩ := hready'.offer (hmem t (List.mem_append_right _ List.mem_cons_self)) hoffer
  have hreceiver : m.receiver = l.receiver := by rw [hm]
  have hentry : l.response id t = ⟨message m.receiver.cfg l.protector.seq t.payload,
      if isDiagnostic id then .classic else t.checksumType⟩ := by
    rw [hreceiver, hready'.config]
    rfl
  rw [hentry] at hserves ⊢
  refine ⟨rfl, ?_, ?_⟩
  · intro k a hk
    exact ((Link.request_serves hserves (hreceiver ▸ hready'.expected)).1 a hk).1
  · exact (Link.request_serves (l := m) hserves (hreceiver ▸ hready'.expected)).2

/-- Two payloads, the second empty and published as classic, with traffic on another
identifier in between. -/
theorem exchange_delivers_two :
    let turns : List Turn := [{ payload := [1, 2] },
      { before := [.publish 5 [9]], payload := [], checksumType := .classic,
        between := [.sendHeader 5, .tryRecv 0] }]
    let cfg : Config := { dataId := 0x1234, sourceId := 0x5678 }
    ∃ s l, run Session.step {} [.subscribe [] []] = some s ∧
      run (Link.turn ⟨0x10, by decide⟩) (.start s.bus cfg 0xFFFFFFFF) turns = some l ∧
      l.reports = turns.map fun t => ⟨none, .ok (.ok t.payload)⟩ := by
  intro turns cfg
  have hrun : run Session.step {} [.subscribe [] []] =
      some ⟨(Bus.create.subscribe [] []).1, [(.subscribe [] [], .channel (.ok 0))]⟩ := rfl
  have hturns : (run (Link.turn ⟨0x10, by decide⟩)
      (.start (Bus.create.subscribe [] []).1 cfg 0xFFFFFFFF) turns).isSome = true := by
    decide +kernel
  obtain ⟨l, hl⟩ := Option.isSome_iff_exists.mp hturns
  refine ⟨_, l, hrun, hl, (exchange_delivers hrun rfl _ cfg _ turns ?_).1 l hl⟩
  simp [turns, Op.publishesFor]

/-- A `Block` subscriber with room for one frame: the second header does not return. -/
theorem not_exchange_returns : ¬ ∀ (ops : List Op) (s : Session), run Session.step {} ops = some s →
    s.bus.closed = false → ∀ (id : FrameId) (cfg : Config) (turns : List Turn),
      (∀ t ∈ turns, ∀ op ∈ t.before ++ t.between, ¬ op.publishesFor id ∧ op ≠ .close) →
      ∀ past t, past ++ [t] <+: turns → ∀ l, run (Link.turn id) (.start s.bus cfg 0) past = some l →
        ∀ m e, l.offer id t = some (m, e) →
          e = none ∧ ∃ k, m.request id = some (k, .ok (.ok t.payload)) := by
  intro h
  let ops : List Op :=
    [.subscribe [] [Relay.withChannelDepth 1, Relay.withBackPressure .block]]
  let id : FrameId := ⟨5, by decide⟩
  have hstuck : (run Session.step {} ops).any fun s => !s.bus.closed &&
      (run (Link.turn id) (.start s.bus {} 0) [{ payload := [1] }]).any fun l =>
        (l.offer id { payload := [2] }).any fun x => (x.1.request id).isNone := by
    decide +kernel
  obtain ⟨s, hs, hstuck⟩ := (Option.any_eq_true _ _).mp hstuck
  rw [Bool.and_eq_true, Bool.not_eq_true'] at hstuck
  obtain ⟨l, hl, hoffers⟩ := (Option.any_eq_true _ _).mp hstuck.2
  obtain ⟨⟨m, e⟩, hm, hnone⟩ := (Option.any_eq_true _ _).mp hoffers
  obtain ⟨-, k, hk⟩ := h ops s hs hstuck.1 id {} [{ payload := [1] }, { payload := [2] }]
    (by simp) [{ payload := [1] }] { payload := [2] } (List.prefix_refl _) l hl m e hm
  rw [hk] at hnone
  cases hnone

end CppLin.Safety
