import CppLin.Slave.Registration
import CppLin.Virtual.Linearization

/-!
Several slave nodes on one bus, each driven by a thread of its own, beside any other threads.
Each identifier is served by one node at most, and nobody else publishes for it.
-/
namespace CppLin.Slave
open Bytes Run Virt

/-- The bus with its threads; node `t` is driven by the thread `t`. -/
structure Nodes where
  sys : Sys := {}
  node : Nat → Node Unit := fun _ => { bus := () }
  pc : Nat → Pc := fun _ => .idle

namespace Nodes

inductive Action where
  | bus (a : Virt.Action)
  | setResponse (t : Nat) (id : UInt8) (data : Payload)
  | published (t : Nat)
  | record (t : Nat)

def goto (s : Nodes) (t : Nat) (p : Pc) : Nodes := { s with pc := Function.update s.pc t p }

/-- What the last call of a thread that is in none returned, if it was a call with a code. -/
def code (s : Nodes) (t : Nat) : Option (Option ErrorCode) :=
  match s.sys.pc t, (returns t s.sys.log).getLast? with
  | .idle, some (.code e) => some e
  | _, _ => none

/-- The thread is in no call of `set_response`, or does not call the bus. -/
def mayCall (s : Nodes) (a : Virt.Action) : Bool :=
  match a.request with
  | some (t, _) => (s.pc t).isIdle
  | none => true

/-- While a thread is in `set_response` it makes no other call of the bus. -/
def step (s : Nodes) : Action → Option Nodes
  | .bus a => if s.mayCall a then (s.sys.step a).map ({ s with sys := · }) else none
  | .setResponse t id data =>
      match s.pc t with
      | .idle =>
          if id > kLINMaxID then some s
          else (s.sys.step (.call t (.exclusive (.publish id data)))).map fun sys =>
            { s with sys }.goto t (.publishing id data)
      | _ => none
  | .published t =>
      match s.pc t, s.code t with
      | .publishing _ _, some (some _) => some (s.goto t .idle)
      | .publishing id data, some none => some (s.goto t (.recording id data))
      | _, _ => none
  | .record t =>
      match s.pc t with
      | .recording id data =>
          some ({ s with
            node := Function.update s.node t ((s.node t).recordId id data) }.goto t .idle)
      | _ => none

/-- The moves, one by one. -/
inductive Moves (s : Nodes) : Action → Nodes → Prop
  | bus {a sys} (hmay : s.mayCall a = true) (hs : Sys.Moves s.sys a sys) :
      Moves s (.bus a) { s with sys }
  | reject {t id data} (hpc : s.pc t = .idle) (hid : kLINMaxID < id) :
      Moves s (.setResponse t id data) s
  | call {t id data sys} (hpc : s.pc t = .idle) (hid : id ≤ kLINMaxID)
      (hs : Sys.Moves s.sys (.call t (.exclusive (.publish id data))) sys) :
      Moves s (.setResponse t id data) ({ s with sys }.goto t (.publishing id data))
  | failed {t id data e} (hpc : s.pc t = .publishing id data) (hcode : s.code t = some (some e)) :
      Moves s (.published t) (s.goto t .idle)
  | published {t id data} (hpc : s.pc t = .publishing id data) (hcode : s.code t = some none) :
      Moves s (.published t) (s.goto t (.recording id data))
  | record {t id data} (hpc : s.pc t = .recording id data) :
      Moves s (.record t) ({ s with
        node := Function.update s.node t ((s.node t).recordId id data) }.goto t .idle)

theorem moves_of_step {s s' : Nodes} {a : Action} (h : s.step a = some s') : Moves s a s' := by
  cases a with
  | bus a =>
      simp only [step] at h
      split_ifs at h with hmay
      obtain ⟨sys, hs, rfl⟩ := Option.map_eq_some_iff.mp h
      exact .bus hmay (Sys.moves_of_step hs)
  | setResponse t id data =>
      simp only [step] at h
      split at h
      case h_1 hpc =>
        split_ifs at h with hid
        · obtain rfl := Option.some.inj h
          exact .reject hpc hid
        · obtain ⟨sys, hs, rfl⟩ := Option.map_eq_some_iff.mp h
          exact .call hpc (UInt8.not_lt.mp hid) (Sys.moves_of_step hs)
      case h_2 => cases h
  | published t =>
      simp only [step] at h
      split at h
      case h_1 hpc hcode =>
        obtain rfl := Option.some.inj h
        exact .failed hpc hcode
      case h_2 hpc hcode =>
        obtain rfl := Option.some.inj h
        exact .published hpc hcode
      case h_3 => cases h
  | record t =>
      simp only [step] at h
      split at h
      case h_1 hpc =>
        obtain rfl := Option.some.inj h
        exact .record hpc
      case h_2 => cases h

/-- The node as it is to be once what its thread has published is recorded. -/
def due (s : Nodes) (t : Nat) : Node Unit :=
  match s.pc t with
  | .idle => s.node t
  | .publishing id data => if s.code t = some none then (s.node t).recordId id data else s.node t
  | .recording id data => (s.node t).recordId id data

end Nodes

/-! What a body does to the responses. -/

def target : Exclusive → Option UInt8
  | .publish id _ | .publishClassic id _ => some id
  | _ => none

theorem responses_doPublish {b b' : Bus} {id : UInt8} {data : Payload} {ct : ChecksumType}
    {e : Option ErrorCode} (h : b.doPublish id data ct = (b', e)) :
    (e = none ∧ ∀ i, i ∈ b'.responses ↔ if i = id then data ≠ [] else i ∈ b.responses) ∨
      e ≠ none ∧ b'.responses = b.responses := by
  cases e with
  | none =>
      obtain ⟨hid, hopen, -⟩ := Bus.doPublish_ok h
      obtain ⟨b'', hb, -, hmem⟩ := Bus.doPublish_of_open hopen hid data ct
      obtain rfl := (Prod.mk.inj (h.symm.trans hb)).1
      exact .inl ⟨rfl, hmem⟩
  | some e =>
      rw [Bus.doPublish_error h]
      exact .inr ⟨Option.some_ne_none e, rfl⟩

/-- A publish that succeeds sets the response of its identifier; any other body leaves the
responses. -/
theorem responses_body {b b' : Bus} {c : Exclusive} {out : Outcome} (h : c.body b = (b', out)) :
    (∃ id data, out = .code none ∧ (c = .publish id data ∨ c = .publishClassic id data) ∧
        ∀ i, i ∈ b'.responses ↔ if i = id then data ≠ [] else i ∈ b.responses) ∨
      (target c = none ∨ ∃ e, out = .code (some e)) ∧ b'.responses = b.responses := by
  have published : ∀ {id data ct}, (c = .publish id data ∨ c = .publishClassic id data) →
      b' = (b.doPublish id data ct).1 → out = .code (b.doPublish id data ct).2 →
      (∃ id data, out = .code none ∧ (c = .publish id data ∨ c = .publishClassic id data) ∧
        ∀ i, i ∈ b'.responses ↔ if i = id then data ≠ [] else i ∈ b.responses) ∨
      (target c = none ∨ ∃ e, out = .code (some e)) ∧ b'.responses = b.responses := by
    rintro id data ct hc rfl rfl
    rcases responses_doPublish (Prod.mk.eta (p := b.doPublish id data ct)).symm with
      ⟨hok, hmem⟩ | ⟨herr, hsame⟩
    · exact .inl ⟨id, data, congrArg _ hok, hc, hmem⟩
    · obtain ⟨e, he⟩ := Option.ne_none_iff_exists'.mp herr
      exact .inr ⟨.inr ⟨e, congrArg _ he⟩, hsame⟩
  obtain ⟨rfl, rfl⟩ := Prod.mk.inj h.symm
  cases c with
  | publish id data => exact published (.inl rfl) rfl rfl
  | publishClassic id data => exact published (.inr rfl) rfl rfl
  | setSchedule entries =>
      refine .inr ⟨.inl rfl, ?_⟩
      simp only [Bus.setSchedule]
      split_ifs <;> rfl
  | subscribe filters opts =>
      refine .inr ⟨.inl rfl, ?_⟩
      simp only [Bus.subscribe]
      split_ifs <;> rfl
  | close => exact .inr ⟨.inl rfl, b.close_responses⟩
  | closeDrained timedOut => exact .inr ⟨.inl rfl, b.close_responses⟩

/-! The moves of one thread. -/

/-- The exclusive body that a thread is about to run. -/
def body : Virt.Pc → Option Exclusive
  | .waiting (.exclusive c) | .entered (.exclusive c) => some c
  | _ => none

theorem moves_of_body {s s' : Sys} {a : Virt.Action} {t : Nat} {c : Exclusive}
    (h : Sys.Moves s a s') (ha : a.thread = some t) (hc : body (s.pc t) = some c) :
    (s'.bus = s.bus ∧ s'.log = s.log ∧ s.pc t = .waiting (.exclusive c) ∧
        s'.pc t = .entered (.exclusive c)) ∨
      ∃ b out, a = .step t ∧ s.pc t = .entered (.exclusive c) ∧ c.body s.bus = (b, out) ∧
        s' = ((s.setBus b).unlock).ret t out := by
  cases h with
  | lock hpc hw hr =>
      obtain rfl := Option.some.inj ha
      rw [hpc] at hc
      obtain rfl := Option.some.inj hc
      exact .inl ⟨rfl, rfl, hpc, Function.update_self _ _ _⟩
  | exclusive hpc hb =>
      obtain rfl := Option.some.inj ha
      rw [hpc] at hc
      obtain rfl := Option.some.inj hc
      exact .inr ⟨_, _, rfl, hpc, hb, rfl⟩
  | lockShared hpc hne hw =>
      obtain rfl := Option.some.inj ha
      rw [hpc] at hc
      unfold body at hc
      split at hc
      case h_1 heq => exact absurd (Pc.waiting.inj heq) (hne _)
      case h_2 heq => cases heq
      case h_3 => cases hc
  | recv | tryRecv | closeChan => cases ha
  | reject hpc | call hpc | callDrain hpc | respondError hpc | emit hpc | deliver hpc | ended hpc
  | scan hpc | scanEmpty hpc | scanFound hpc | scanDone hpc | poll hpc | timeUp hpc =>
      obtain rfl := Option.some.inj ha
      rw [hpc] at hc
      cases hc

theorem request_of_idle {s s' : Sys} {a : Virt.Action} {t : Nat} (h : Sys.Moves s a s')
    (ha : a.thread = some t) (hpc : s.pc t = .idle) : ∃ req, a.request = some (t, req) := by
  cases h with
  | recv | tryRecv | closeChan => cases ha
  | reject | call | callDrain =>
      obtain rfl := Option.some.inj ha
      exact ⟨_, rfl⟩
  | lock hpc' | lockShared hpc' | exclusive hpc' | respondError hpc' | emit hpc' | deliver hpc'
  | ended hpc' | scan hpc' | scanEmpty hpc' | scanFound hpc' | scanDone hpc' | poll hpc'
  | timeUp hpc' =>
      obtain rfl := Option.some.inj ha
      rw [hpc] at hpc'
      cases hpc'

theorem responses_step {s s' : Sys} {a : Virt.Action} (h : Sys.Moves s a s') :
    (s'.bus.responses = s.bus.responses ∧ ∀ t c, a = .step t → s.pc t ≠ .entered (.exclusive c)) ∨
      ∃ t c b out, a = .step t ∧ s.pc t = .entered (.exclusive c) ∧ c.body s.bus = (b, out) ∧
        s' = ((s.setBus b).unlock).ret t out := by
  cases h with
  | exclusive hpc hb => exact .inr ⟨_, _, _, _, rfl, hpc, hb, rfl⟩
  | respondError hpc hb =>
      refine .inl ⟨(Bus.respond_frame hb).1.responses, ?_⟩
      rintro t c ⟨⟩ hpc'
      rw [hpc] at hpc'
      cases hpc'
  | emit hpc hb =>
      refine .inl ⟨(Bus.respond_frame hb).1.responses, ?_⟩
      rintro t c ⟨⟩ hpc'
      rw [hpc] at hpc'
      cases hpc'
  | deliver hpc hb =>
      refine .inl ⟨(Bus.deliver_sameTables hb).responses, ?_⟩
      rintro t c ⟨⟩ hpc'
      rw [hpc] at hpc'
      cases hpc'
  | ended hpc | scan hpc | scanEmpty hpc | scanFound hpc | scanDone hpc =>
      refine .inl ⟨rfl, ?_⟩
      rintro t c ⟨⟩ hpc'
      rw [hpc] at hpc'
      cases hpc'
  | _ => exact .inl ⟨rfl, fun t c ha => by cases ha⟩

theorem body_step {s s' : Sys} {a : Virt.Action} (h : Sys.Moves s a s') {t : Nat} {c : Exclusive}
    {id : UInt8} (hc : body (s'.pc t) = some c) (htarget : target c = some id) :
    body (s.pc t) = some c ∨ a = .call t (.exclusive c) := by
  by_cases ha : a.thread = some t
  · cases h with
    | recv hr => cases ha
    | tryRecv hr => cases ha
    | closeChan => cases ha
    | @lock u d hpc hw hr =>
        obtain rfl := Option.some.inj ha
        refine .inl ?_
        rw [Sys.goto_pc_same] at hc
        rw [hpc, ← hc]
        rfl
    | @lockShared u d hpc hne hw =>
        obtain rfl := Option.some.inj ha
        rw [Sys.goto_pc_same] at hc
        cases d with
        | exclusive d => exact absurd rfl (hne d)
        | sendHeader id => cases hc
        | allDrained => cases hc
    | @call u d hpc hr hcallable =>
        obtain rfl := Option.some.inj ha
        rw [Sys.goto_pc_same] at hc
        cases d with
        | exclusive d =>
            obtain rfl := Option.some.inj hc
            exact .inr rfl
        | sendHeader id => cases hc
        | allDrained => cases hc
    | scanDone hpc =>
        obtain rfl := Option.some.inj ha
        rw [Sys.goto_pc_same] at hc
        obtain rfl := Option.some.inj hc
        cases htarget
    | timeUp hpc =>
        obtain rfl := Option.some.inj ha
        rw [Sys.goto_pc_same] at hc
        obtain rfl := Option.some.inj hc
        cases htarget
    | _ =>
        obtain rfl := Option.some.inj ha
        simp [Sys.ret, Sys.record, Sys.emit, Sys.goto, body] at hc
  · exact .inl ((Sys.pc_of_other h ha) ▸ hc)

namespace Nodes

/-- Identifiers are published for by their nodes, those without a node by anyone. -/
def Action.Respects (owner : UInt8 → Option Nat) : Action → Prop
  | .bus (.call _ (.exclusive c)) => ∀ id, target c = some id → owner id = none
  | .setResponse t id _ => owner id = some t
  | _ => True

/-- Each node is to hold what the bus holds a response for among its identifiers. -/
structure Exact (owner : UInt8 → Option Nat) (s : Nodes) : Prop where
  nodup : ∀ t, (s.node t).ids.Nodup
  due : ∀ t id, id ∈ (s.due t).ids ↔ owner id = some t ∧ id ∈ s.sys.bus.responses
  publishing : ∀ t id data, s.pc t = .publishing id data → owner id = some t ∧
    (body (s.sys.pc t) = some (.publish id data) ∨ s.sys.pc t = .idle)
  pending : ∀ t c id, body (s.sys.pc t) = some c → target c = some id →
    owner id = none ∨ ∃ data, c = .publish id data ∧ s.pc t = .publishing id data

section
variable {owner : UInt8 → Option Nat} {s s' : Nodes}

theorem due_congr {t : Nat} (hnode : s'.node t = s.node t) (hpc : s'.pc t = s.pc t)
    (hcode : ∀ id data, s.pc t = .publishing id data →
      (s'.code t = some none ↔ s.code t = some none)) : s'.due t = s.due t := by
  unfold due
  rw [hpc, hnode]
  cases hp : s.pc t with
  | idle => rfl
  | publishing id data => simp only [hcode id data hp]
  | recording id data => rfl

theorem code_of_body {t : Nat} {c : Exclusive} (h : body (s.sys.pc t) = some c) :
    s.code t = none := by
  unfold code
  split
  case h_1 hpc hlast =>
    rw [hpc] at h
    cases h
  case h_2 => rfl

theorem code_of_other {sys : Sys} {a : Virt.Action} (h : Sys.Moves s.sys a sys) {t : Nat}
    (ha : a.thread ≠ some t) : ({ s with sys } : Nodes).code t = s.code t := by
  unfold code
  simp only [Sys.pc_of_other h ha, Sys.returns_of_other h ha]

/-- A thread in `set_response` makes no move on the bus but those of its publish. -/
theorem Exact.body_of_thread (hs : s.Exact owner) {sys : Sys} {a : Virt.Action} {t : Nat}
    (hmay : s.mayCall a = true) (h : Sys.Moves s.sys a sys) (ha : a.thread = some t) {id : UInt8}
    {data : Payload} (hpc : s.pc t = .publishing id data) :
    body (s.sys.pc t) = some (.publish id data) := by
  refine (hs.publishing t id data hpc).2.resolve_right fun hidle => ?_
  obtain ⟨req, hreq⟩ := request_of_idle h ha hidle
  rw [mayCall, hreq] at hmay
  simp only [hpc] at hmay
  cases hmay

theorem code_ret (m : Sys) (u : Nat) (out : Outcome) :
    ({ s with sys := m.ret u out } : Nodes).code u =
      match out with
      | .code e => some e
      | _ => none := by
  have hpc : (m.ret u out).pc u = .idle := Sys.goto_pc_same
  unfold code
  simp only [hpc, Sys.returns_ret, List.getLast?_concat]
  cases out <;> rfl

/-- Of the identifiers of a node only its own publish changes the responses. -/
theorem responses_other {b b' : Bus} {t : Nat} {id i : UInt8} {data : Payload}
    (hother : owner id ≠ some t)
    (hmem : ∀ i, i ∈ b'.responses ↔ if i = id then data ≠ [] else i ∈ b.responses) :
    (owner i = some t ∧ i ∈ b'.responses) ↔ (owner i = some t ∧ i ∈ b.responses) := by
  refine and_congr_right fun hi => ?_
  rw [hmem, if_neg]
  rintro rfl
  exact hother hi

/-- A node's thread has no body under way but that of its publish. -/
theorem Exact.eq_publish (hs : s.Exact owner) {t : Nat} {c : Exclusive} {id : UInt8}
    {data : Payload} (hc : body (s.sys.pc t) = some c) (hpc : s.pc t = .publishing id data) :
    c = .publish id data := by
  rcases (hs.publishing t id data hpc).2 with hbody | hidle
  · exact Option.some.inj (hc.symm.trans hbody)
  · rw [hidle] at hc
    cases hc

theorem Exact.due_body (hs : s.Exact owner) {u : Nat} {c : Exclusive} {b : Bus} {out : Outcome}
    (hpc : s.sys.pc u = .entered (.exclusive c)) (hb : c.body s.sys.bus = (b, out)) (t : Nat)
    (i : UInt8) :
    i ∈ (({ s with sys := ((s.sys.setBus b).unlock).ret u out } : Nodes).due t).ids ↔
      owner i = some t ∧ i ∈ b.responses := by
  have hrun : body (s.sys.pc u) = some c := by rw [hpc]; rfl
  have hcode := code_ret (s := s) ((s.sys.setBus b).unlock) u out
  -- what is due to a node that has published nothing here
  have quiet : (∀ id data, t = u → s.pc t = .publishing id data → out ≠ .code none) →
      ({ s with sys := ((s.sys.setBus b).unlock).ret u out } : Nodes).due t = s.due t := by
    intro hquiet
    refine due_congr rfl rfl fun id data hp => ?_
    by_cases htu : t = u
    · subst htu
      rw [hcode, code_of_body hrun]
      refine iff_of_false ?_ (by simp)
      have hout := hquiet id data rfl hp
      cases out <;> simp_all
    · rw [code_of_other (.exclusive hpc hb) fun he => htu (Option.some.inj he).symm]
  rcases responses_body hb with ⟨id, data, rfl, hc, hmem⟩ | ⟨hfail, hsame⟩
  · have htarget : target c = some id := by rcases hc with rfl | rfl <;> rfl
    by_cases hown : owner id = some t
    · rcases hs.pending u c id hrun htarget with hnone | ⟨data', rfl, hpub⟩
      · rw [hnone] at hown
        cases hown
      · obtain rfl : t = u := Option.some.inj (hown.symm.trans (hs.publishing u id data' hpub).1)
        obtain rfl : data' = data := by
          rcases hc with hc | hc
          · exact (Exclusive.publish.inj hc).2
          · cases hc
        have hbefore : s.due t = s.node t := by
          rw [Nodes.due, hpub]
          simp only [code_of_body hrun, reduceCtorEq, if_false]
        have hafter : ({ s with sys := ((s.sys.setBus b).unlock).ret t (.code none) } : Nodes).due t =
            (s.node t).recordId id data' := by
          rw [Nodes.due]
          simp only [hpub, hcode, if_true]
        have hids := hs.due t i
        rw [hbefore] at hids
        rw [hafter, Node.mem_recordId (hs.nodup t), hmem i]
        by_cases hi : i = id
        · simp [hi, hown]
        · simp [hi, hids]
    · rw [quiet ?_, hs.due t i, responses_other hown hmem]
      rintro id' data' rfl hpub
      obtain rfl := hs.eq_publish hrun hpub
      obtain rfl := Option.some.inj htarget
      exact absurd (hs.publishing t id' data' hpub).1 hown
  · rw [quiet ?_, hs.due t i, hsame]
    rintro id data rfl hpub rfl
    obtain rfl := hs.eq_publish hrun hpub
    rcases hfail with hnone | ⟨e, he⟩
    · cases hnone
    · cases he

theorem Exact.bus (hs : s.Exact owner) {a : Virt.Action} {sys : Sys} (hmay : s.mayCall a = true)
    (hown : Action.Respects owner (.bus a)) (h : Sys.Moves s.sys a sys) :
    ({ s with sys } : Nodes).Exact owner := by
  refine ⟨hs.nodup, ?_, ?_, ?_⟩
  · intro t id
    rcases responses_step h with ⟨hsame, hquiet⟩ | ⟨u, c, b, out, rfl, hpc, hb, rfl⟩
    · have hdue : ({ s with sys } : Nodes).due t = s.due t := by
        refine due_congr rfl rfl fun i data hpc => ?_
        by_cases ha : a.thread = some t
        · have hbody := hs.body_of_thread hmay h ha hpc
          rcases moves_of_body h ha hbody with ⟨-, -, -, hentered⟩ | ⟨-, -, hstep, hentered, -⟩
          · have hafter : body (({ s with sys } : Nodes).sys.pc t) = some (.publish i data) := by
              simp only [hentered]
              rfl
            rw [code_of_body hbody, code_of_body hafter]
          · exact absurd hentered (hquiet t _ hstep)
        · rw [code_of_other h ha]
      rw [hsame, ← hs.due t id, hdue]
    · exact hs.due_body hpc hb t id
  · intro t id data hpc
    obtain ⟨howner, hat⟩ := hs.publishing t id data hpc
    refine ⟨howner, ?_⟩
    by_cases ha : a.thread = some t
    · have hbody := hs.body_of_thread hmay h ha hpc
      rcases moves_of_body h ha hbody with ⟨-, -, -, hentered⟩ | ⟨b, out, -, -, -, rfl⟩
      · exact .inl (by rw [hentered]; rfl)
      · exact .inr Sys.goto_pc_same
    · rw [Sys.pc_of_other h ha]
      exact hat
  · intro t c id hc htarget
    rcases body_step h hc htarget with hold | rfl
    · exact hs.pending t c id hold htarget
    · exact .inl (hown id htarget)

theorem Exact.moved (hs : s.Exact owner) {t : Nat} {p : Pc} (hsys : s'.sys = s.sys)
    (hnode : ∀ u, u ≠ t → s'.node u = s.node u) (hpc : s'.pc = Function.update s.pc t p)
    (hnodup : (s'.node t).ids.Nodup) (hdue : s'.due t = s.due t)
    (hp : ∀ id data, p ≠ .publishing id data)
    (hpending : ∀ c id, body (s.sys.pc t) = some c → target c = some id → owner id = none) :
    s'.Exact owner := by
  have hother : ∀ u, u ≠ t → s'.pc u = s.pc u := fun u hu => by
    rw [hpc, Function.update_of_ne hu]
  have hsame : s'.pc t = p := by rw [hpc, Function.update_self]
  refine ⟨fun u => ?_, fun u id => ?_, fun u id data hu => ?_, fun u c id hc htarget => ?_⟩
  · by_cases hut : u = t
    · exact hut ▸ hnodup
    · rw [hnode u hut]
      exact hs.nodup u
  · rw [hsys, ← hs.due u id]
    by_cases hut : u = t
    · rw [hut, hdue]
    · rw [due_congr (hnode u hut) (hother u hut) fun _ _ _ => by rw [code, code, hsys]]
  · by_cases hut : u = t
    · rw [hut, hsame] at hu
      exact absurd hu (hp id data)
    · rw [hother u hut] at hu
      rw [hsys]
      exact hs.publishing u id data hu
  · rw [hsys] at hc
    by_cases hut : u = t
    · exact .inl (hpending c id (hut ▸ hc) htarget)
    · rw [hother u hut]
      exact hs.pending u c id hc htarget

theorem Exact.call (hs : s.Exact owner) {t : Nat} {id : UInt8} {data : Payload} {sys : Sys}
    (hown : owner id = some t) (hpc : s.pc t = .idle) (hid : id ≤ kLINMaxID)
    (h : Sys.Moves s.sys (.call t (.exclusive (.publish id data))) sys) :
    ({ s with sys }.goto t (.publishing id data) : Nodes).Exact owner := by
  have hother : ∀ u, u ≠ t → ({ s with sys }.goto t (.publishing id data) : Nodes).pc u = s.pc u :=
    fun u hu => Function.update_of_ne hu _ _
  have hsame : ({ s with sys }.goto t (.publishing id data) : Nodes).pc t = .publishing id data :=
    Function.update_self _ _ _
  have hthread : ∀ u, u ≠ t → (Virt.Action.call t (.exclusive (.publish id data))).thread ≠ some u :=
    fun u hu he => hu (Option.some.inj he).symm
  have hcalled : sys.bus = s.sys.bus ∧ body (sys.pc t) = some (.publish id data) := by
    cases h with
    | reject _ hr =>
        rw [Section.rejects, if_neg (UInt8.not_lt.mpr hid)] at hr
        cases hr
    | call => exact ⟨rfl, by rw [Sys.goto_pc_same]; rfl⟩
  obtain ⟨hbus, hbody⟩ := hcalled
  refine ⟨hs.nodup, fun u i => ?_, fun u i d hu => ?_, fun u c i hc htarget => ?_⟩
  · have hdue : ({ s with sys }.goto t (.publishing id data) : Nodes).due u = s.due u := by
      by_cases hut : u = t
      · subst hut
        rw [Nodes.due, Nodes.due, hsame, hpc]
        simp only
        rw [code_of_body hbody]
        exact if_neg (by simp)
      · refine due_congr rfl (hother u hut) fun _ _ _ => ?_
        exact iff_of_eq (congrArg (· = some none) (code_of_other h (hthread u hut)))
    rw [hdue, hs.due u i, ← hbus]
    rfl
  · by_cases hut : u = t
    · subst hut
      rw [hsame] at hu
      obtain ⟨rfl, rfl⟩ := Pc.publishing.inj hu
      exact ⟨hown, .inl hbody⟩
    · rw [hother u hut] at hu
      obtain ⟨howner, hat⟩ := hs.publishing u i d hu
      refine ⟨howner, ?_⟩
      change body (sys.pc u) = _ ∨ sys.pc u = _
      rwa [Sys.pc_of_other h (hthread u hut)]
  · by_cases hut : u = t
    · subst hut
      obtain rfl := Option.some.inj (hbody.symm.trans hc)
      obtain rfl := Option.some.inj htarget
      exact .inr ⟨data, rfl, hsame⟩
    · rw [hother u hut]
      refine hs.pending u c i ?_ htarget
      rw [← Sys.pc_of_other h (hthread u hut)]
      exact hc

theorem Exact.step {a : Action} (hs : s.Exact owner) (hown : a.Respects owner)
    (h : Moves s a s') : s'.Exact owner := by
  cases h with
  | bus hmay hmoves => exact hs.bus hmay hown hmoves
  | reject hpc hid => exact hs
  | @call t id data sys hpc hid hmoves => exact hs.call hown hpc hid hmoves
  | @failed t id data e hpc hcode =>
      refine hs.moved (t := t) rfl (fun _ _ => rfl) rfl (hs.nodup t) ?_ (fun _ _ => Pc.noConfusion) ?_
      · simp [Nodes.due, goto, hpc, hcode]
      · intro c id' hc
        rw [code_of_body hc] at hcode
        cases hcode
  | @published t id data hpc hcode =>
      refine hs.moved (t := t) rfl (fun _ _ => rfl) rfl (hs.nodup t) ?_ (fun _ _ => Pc.noConfusion) ?_
      · simp [Nodes.due, goto, hpc, hcode]
      · intro c id' hc
        rw [code_of_body hc] at hcode
        cases hcode
  | @record t id data hpc =>
      refine hs.moved (t := t) rfl (fun u hu => ?_) rfl ?_ ?_ (fun _ _ => Pc.noConfusion) ?_
      · simp [goto, hu]
      · simp only [goto, Function.update_self]
        exact Node.recordId_nodup (hs.nodup t) id data
      · simp [Nodes.due, goto, hpc]
      · intro c id' hc htarget
        refine (hs.pending t c id' hc htarget).resolve_right ?_
        rintro ⟨data', -, hpub⟩
        rw [hpc] at hpub
        cases hpub

end

theorem exact_run {owner : UInt8 → Option Nat} {acts : List Action} {s : Nodes}
    (hown : ∀ a ∈ acts, a.Respects owner) (h : run step {} acts = some s) : s.Exact owner := by
  refine guarded_run (I := Exact owner) (G := fun _ a => a.Respects owner)
    (fun _ _ _ hm ha hstep => hm.step ha (moves_of_step hstep)) ?_
    (guarded_of_forall (fun a ha _ => hown a ha) _) h
  refine ⟨fun _ => List.nodup_nil, fun t id => ?_, ?_, ?_⟩
  · exact iff_of_false List.not_mem_nil fun h => absurd h.2 (by simp [Bus.create])
  · exact fun t id data hpc => by cases hpc
  · exact fun t c id hc => by cases hc

end Nodes

/-- Several slave nodes on one bus, each called from one thread, beside any other threads,
whatever they do and however they interleave: when each identifier has one node at most that
publishes for it, then a node that is in no call has registered exactly the identifiers of its
own that the bus holds a response for. -/
theorem nodes_registered {owner : UInt8 → Option Nat} {acts : List Nodes.Action} {s : Nodes}
    (hown : ∀ a ∈ acts, a.Respects owner) (h : run Nodes.step {} acts = some s) {t : Nat}
    (ht : s.pc t = .idle) : (s.node t).registeredIds.Nodup ∧
      ∀ id, id ∈ (s.node t).registeredIds ↔ owner id = some t ∧ id ∈ s.sys.bus.responses := by
  have hs := Nodes.exact_run hown h
  refine ⟨hs.nodup t, fun id => ?_⟩
  rw [← hs.due t id, Nodes.due, ht]
  rfl

/-- Two nodes in each other's way, and a thread that publishes for an identifier of its own;
the second node takes its response away again. -/
def twoNodes : List Nodes.Action :=
  [.setResponse 1 5 [1], .setResponse 2 6 [2], .bus (.lock 2),
    .bus (.call 3 (.exclusive (.publish 7 [3]))), .bus (.step 2), .bus (.lock 1), .bus (.step 1),
    .published 2, .bus (.lock 3), .bus (.step 3), .record 2, .setResponse 2 6 [], .published 1,
    .bus (.lock 2), .record 1, .bus (.step 2), .published 2, .record 2]

theorem nodes_registered_two : ∃ s, run Nodes.step {} twoNodes = some s ∧
    (∀ id, id ∈ (s.node 1).registeredIds ↔ id = 5 ∧ id ∈ s.sys.bus.responses) ∧
    ∀ id, id ∈ (s.node 2).registeredIds ↔ id = 6 ∧ id ∈ s.sys.bus.responses := by
  let owner : UInt8 → Option Nat := fun id => if id = 5 then some 1 else if id = 6 then some 2 else none
  have hown : ∀ a ∈ twoNodes, a.Respects owner := by
    intro a ha
    fin_cases ha <;> first
      | exact rfl
      | exact trivial
      | exact fun id hid => by obtain rfl := Option.some.inj hid; rfl
  have hrests : (run Nodes.step {} twoNodes).map (fun s => ((s.pc 1).isIdle, (s.pc 2).isIdle)) =
      some (true, true) := by decide +kernel
  obtain ⟨s, hs, hidle⟩ := Option.map_eq_some_iff.mp hrests
  obtain ⟨h₁, h₂⟩ := Prod.mk.inj hidle
  refine ⟨s, hs, fun id => ?_, fun id => ?_⟩
  · rw [(nodes_registered hown hs (Pc.isIdle_iff.mp h₁)).2 id]
    by_cases h5 : id = 5 <;> by_cases h6 : id = 6 <;> simp [owner, h5, h6]
  · rw [(nodes_registered hown hs (Pc.isIdle_iff.mp h₂)).2 id]
    by_cases h5 : id = 5 <;> by_cases h6 : id = 6 <;> simp [owner, h5, h6]

end CppLin.Slave
