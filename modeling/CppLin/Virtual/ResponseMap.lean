import CppLin.Lib.LastWrite
import CppLin.Virtual.Session

/-!
What the bus is for, as the master sees it: a map from frame identifiers to
responses in which the last write wins. The bus refines it over every sequence of
calls.
-/
namespace CppLin.Virt
open Bytes Relay Run LastWrite

abbrev FrameId := {id : UInt8 // id ≤ kLINMaxID}

/-- A response registered for an identifier is never empty, and classic where LIN
requires it. -/
structure Response (id : FrameId) where
  data : Payload
  checksumType : ChecksumType
  nonempty : data ≠ []
  diagnostic : isDiagnostic id = true → checksumType = .classic

/-- A successful publish call: the identifier, the data, and the checksum type it asks for. -/
structure Write where
  id : FrameId
  data : Payload
  checksumType : ChecksumType

/-- Empty data leaves no response. -/
def Write.response (id : FrameId) (w : Write) : Option (Response id) :=
  if h : w.data = [] then none
  else some {
    data := w.data
    checksumType := if isDiagnostic id then .classic else w.checksumType
    nonempty := h
    diagnostic := fun hd => if_pos hd }

abbrev ResponseMap := (id : FrameId) → Option (Response id)

def ResponseMap.write (m : ResponseMap) (w : Write) : ResponseMap :=
  Function.update m w.id (w.response w.id)

@[simp] theorem ResponseMap.write_same (m : ResponseMap) (w : Write) :
    m.write w w.id = w.response w.id := Function.update_self _ _ m

theorem ResponseMap.write_other (m : ResponseMap) (w : Write) {id : FrameId} (h : id ≠ w.id) :
    m.write w id = m id := Function.update_of_ne h _ m

def ResponseMap.after (ws : List Write) : ResponseMap := ws.foldl write fun _ => none

theorem ResponseMap.after_apply (ws : List Write) (id : FrameId) :
    after ws id = (latest Write.id id ws).elim none (Write.response id) :=
  foldl_update_apply Write.id Write.response (fun _ => none) ws id

def Response.entry {id : FrameId} (r : Response id) : ResponseEntry :=
  { data := r.data, checksumType := r.checksumType }

/-- The bus holds exactly the responses of the map. -/
def Refines (b : Bus) (m : ResponseMap) : Prop :=
  ∀ id : FrameId, b.responses.lookup id.val = (m id).map Response.entry

theorem Refines.congr {b b' : Bus} {m : ResponseMap} (h : Refines b m)
    (hresp : b'.responses = b.responses) : Refines b' m := fun id => hresp ▸ h id

theorem Refines.create : Refines .create (.after []) := fun _ => rfl

theorem Refines.doPublish {b b' : Bus} {m : ResponseMap} (h : Refines b m) {id : FrameId}
    {data : Payload} {ct : ChecksumType} (hp : b.doPublish id data ct = (b', none)) :
    Refines b' (m.write ⟨id, data, ct⟩) := by
  obtain ⟨-, -, rfl⟩ := Bus.doPublish_ok hp
  intro j
  by_cases hj : j = id
  · subst hj
    rw [ResponseMap.write_same m ⟨j, data, ct⟩, Write.response]
    by_cases hd : data = []
    · simp [hd]
    · simp [hd, Response.entry]
  · have hval : j.val ≠ id.val := fun he => hj (Subtype.ext he)
    rw [ResponseMap.write_other m ⟨id, data, ct⟩ hj, ← h j]
    by_cases hd : data = []
    · simp only [if_pos hd, AList.lookup_erase_ne hval]
    · simp only [if_neg hd, AList.lookup_insert_ne hval]

theorem respond_of_refines {b : Bus} {m : ResponseMap} (h : Refines b m) (hopen : b.closed = false)
    (id : FrameId) :
    (b.respond id).2 = (m id).elim (.error (.lin .noResponse)) fun r => .ok (Bus.frameOf id r.entry) := by
  unfold Bus.respond
  rw [if_neg (UInt8.not_lt.mpr id.property), hopen, if_neg Bool.false_ne_true, h id]
  cases m id <;> rfl

/-- The write a logged call amounts to; a successful one never has an identifier
out of range. -/
def writeOf : Op × Outcome → Option Write
  | (.publish id data, .code none) =>
      if h : id ≤ kLINMaxID then some ⟨⟨id, h⟩, data, .enhanced⟩ else none
  | (.publishClassic id data, .code none) =>
      if h : id ≤ kLINMaxID then some ⟨⟨id, h⟩, data, .classic⟩ else none
  | _ => none

def writes (log : List (Op × Outcome)) : List Write := log.filterMap writeOf

theorem writes_concat (log : List (Op × Outcome)) (x : Op × Outcome) :
    writes (log ++ [x]) = writes log ++ (writeOf x).toList := by
  cases h : writeOf x <;> simp [writes, h]

theorem ResponseMap.after_concat (ws : List Write) (w : Write) :
    after (ws ++ [w]) = (after ws).write w := by
  rw [after, List.foldl_append]
  rfl

theorem Refines.logged_publish {b : Bus} {ws : List Write} (h : Refines b (.after ws)) {op : Op}
    {id : UInt8} {data : Payload} {ct : ChecksumType}
    (hop : writeOf (op, .code none) = if h : id ≤ kLINMaxID then some ⟨⟨id, h⟩, data, ct⟩ else none)
    (hother : ∀ e, writeOf (op, .code (some e)) = none) :
    Refines (b.doPublish id data ct).1
      (.after (ws ++ (writeOf (op, .code (b.doPublish id data ct).2)).toList)) := by
  cases hp : b.doPublish id data ct with
  | mk b' e =>
      cases e with
      | none =>
          have hid := (Bus.doPublish_ok hp).1
          rw [hop, dif_pos hid, Option.toList_some, ResponseMap.after_concat]
          have hwritten : Refines b' ((ResponseMap.after ws).write ⟨⟨id, hid⟩, data, ct⟩) :=
            h.doPublish hp
          exact hwritten
      | some e =>
          rw [hother, Option.toList_none, List.append_nil]
          exact h.congr (by rw [Bus.doPublish_error hp]; rfl)

theorem Bus.exec_responses {b b' : Bus} {op : Op} {out : Outcome} (h : b.exec op = some (b', out))
    (hop : ∀ id data, op ≠ .publish id data ∧ op ≠ .publishClassic id data) :
    b'.responses = b.responses := by
  cases op with
  | publish id data => exact absurd rfl (hop id data).1
  | publishClassic id data => exact absurd rfl (hop id data).2
  | setSchedule entries =>
      have hb : (b.setSchedule entries).1 = b' := congrArg Prod.fst (Option.some.inj h)
      rw [← hb, Bus.setSchedule]
      split_ifs <;> rfl
  | subscribe filters opts =>
      have hb : (b.subscribe filters opts).1 = b' := congrArg Prod.fst (Option.some.inj h)
      rw [← hb, Bus.subscribe]
      split_ifs <;> rfl
  | sendHeader id =>
      obtain ⟨⟨m, r⟩, hm, heq⟩ := Option.map_eq_some_iff.mp h
      obtain ⟨rfl, -⟩ := Prod.mk.inj heq
      exact (sendHeader_some hm).1.responses
  | close =>
      have hb : b.close.1 = b' := congrArg Prod.fst (Option.some.inj h)
      rw [← hb]
      exact b.close_responses
  | recv ch =>
      obtain ⟨⟨c, f⟩, -, heq⟩ := Option.map_eq_some_iff.mp h
      obtain ⟨rfl, -⟩ := Prod.mk.inj heq
      rfl
  | tryRecv ch => exact congrArg (fun x => x.1.responses) (Option.some.inj h).symm
  | closeChan ch => exact congrArg (fun x => x.1.responses) (Option.some.inj h).symm

/-- Every call takes a bus that holds the responses of the log to one that holds
those of the longer log. -/
theorem refines_step {s s' : Session} {op : Op} (h : Refines s.bus (.after (writes s.log)))
    (hstep : s.step op = some s') : Refines s'.bus (.after (writes s'.log)) := by
  obtain ⟨out, hx, hlog⟩ := Session.step_some hstep
  rw [hlog, writes_concat]
  have quiet : (∀ id data, op ≠ .publish id data ∧ op ≠ .publishClassic id data) →
      Refines s'.bus (.after (writes s.log ++ (writeOf (op, out)).toList)) := by
    intro hop
    have hw : writeOf (op, out) = none := by
      cases op with
      | publish id data => exact absurd rfl (hop id data).1
      | publishClassic id data => exact absurd rfl (hop id data).2
      | _ => rfl
    rw [hw, Option.toList_none, List.append_nil]
    exact h.congr (Bus.exec_responses hx hop)
  cases op with
  | publish id data =>
      obtain ⟨hb, rfl⟩ := Prod.mk.inj (Option.some.inj hx)
      rw [← hb]
      exact h.logged_publish rfl fun _ => rfl
  | publishClassic id data =>
      obtain ⟨hb, rfl⟩ := Prod.mk.inj (Option.some.inj hx)
      rw [← hb]
      exact h.logged_publish rfl fun _ => rfl
  | _ => exact quiet fun _ _ => ⟨Op.noConfusion, Op.noConfusion⟩

theorem refines_run {ops : List Op} {s : Session} (h : run Session.step {} ops = some s) :
    Refines s.bus (.after (writes s.log)) :=
  invariant_run (I := fun s => Refines s.bus (.after (writes s.log)))
    (fun _ _ _ => refines_step) Refines.create h

/-- What the master is to get for an identifier when `last` is the last write to it. -/
def Answers (id : FrameId) (last : Option Write) (r : Except ErrorCode Frame) : Prop :=
  match last with
  | none => r = .error (.lin .noResponse)
  | some w =>
      if w.data = [] then r = .error (.lin .noResponse)
      else ∃ f, r = .ok f ∧ f.id = id.val ∧ f.data = w.data ∧
        f.checksumType =
          (if w.checksumType = .classic ∨ isDiagnostic id = true then .classic else .enhanced) ∧
        verifyChecksum (protectId f.id) f.data f.checksum f.checksumType = true

theorem Answers.unique {id : FrameId} {last : Option Write} {r r' : Except ErrorCode Frame}
    (h : Answers id last r) (h' : Answers id last r') : r = r' := by
  cases last with
  | none => exact Eq.trans h h'.symm
  | some w =>
      unfold Answers at h h'
      by_cases hd : w.data = []
      · simp only [if_pos hd] at h h'
        rw [h, h']
      · simp only [if_neg hd] at h h'
        obtain ⟨f, rfl, hid, hdata, hct, hcs⟩ := h
        obtain ⟨f', rfl, hid', hdata', hct', hcs'⟩ := h'
        simp only [verifyChecksum, beq_iff_eq] at hcs hcs'
        congr 1
        cases f
        cases f'
        simp_all

theorem respond_answers {b : Bus} {ws : List Write} (h : Refines b (.after ws))
    (hopen : b.closed = false) (id : FrameId) :
    Answers id (latest Write.id id ws) (b.respond id).2 := by
  rw [respond_of_refines h hopen, ResponseMap.after_apply]
  cases latest Write.id id ws with
  | none => rfl
  | some w =>
      by_cases hd : w.data = []
      · simp [Answers, Write.response, hd]
      · simp only [Answers, if_neg hd, Option.elim_some, Write.response, dif_neg hd]
        refine ⟨_, rfl, rfl, rfl, ?_, by simp [verifyChecksum, Bus.frameOf]⟩
        simp only [Bus.frameOf, Response.entry]
        cases hct : w.checksumType <;> cases hdg : isDiagnostic id <;> simp

/-- The calls that can register or remove the response of `id`. -/
def Op.publishesFor (id : FrameId) : Op → Prop
  | .publish i _ => i = id.val
  | .publishClassic i _ => i = id.val
  | _ => False

theorem latest_writes_step {s s' : Session} {op : Op} {id : FrameId} (hop : ¬ op.publishesFor id)
    (hstep : s.step op = some s') :
    latest Write.id id (writes s'.log) = latest Write.id id (writes s.log) := by
  obtain ⟨out, -, hlog⟩ := Session.step_some hstep
  rw [hlog, writes_concat]
  apply latest_append_other
  intro w hw he
  rw [Option.mem_toList] at hw
  subst he
  unfold writeOf at hw
  split at hw
  case h_1 heq =>
    obtain ⟨rfl, -⟩ := Prod.mk.inj heq
    split_ifs at hw
    obtain rfl := Option.some.inj hw
    exact hop rfl
  case h_2 heq =>
    obtain ⟨rfl, -⟩ := Prod.mk.inj heq
    split_ifs at hw
    obtain rfl := Option.some.inj hw
    exact hop rfl
  case h_3 => cases hw

/-- After any calls, `send_header` on the open bus answers from the last write to
its identifier, whatever else was called before or since. It does not return only
while a `Block` subscriber's channel is full. -/
theorem send_header_last_write {ops : List Op} {s : Session} (hrun : run Session.step {} ops = some s)
    (hopen : s.bus.closed = false) (id : FrameId) :
    (∀ b r, s.bus.sendHeader id = some (b, r) → Answers id (latest Write.id id (writes s.log)) r) ∧
    (s.bus.sendHeader id = none ↔
      ∃ f, Answers id (latest Write.id id (writes s.log)) (.ok f) ∧
        ∃ sub ∈ s.bus.subs, s.bus.WaitsAt f sub) ∧
    ∀ more s', (∀ op ∈ more, ¬ op.publishesFor id) → run Session.step s more = some s' →
      s'.bus.closed = false → ∀ b r, s'.bus.sendHeader id = some (b, r) →
        Answers id (latest Write.id id (writes s.log)) r := by
  have hall := respond_answers (refines_run hrun) hopen id
  refine ⟨?_, ?_, ?_⟩
  · intro b r h
    rw [(Bus.sendHeader_some h).2]
    exact hall
  · rw [Bus.sendHeader_eq_none_iff (Session.wellFormed_run hrun).ownChannels]
    refine exists_congr fun f => and_congr_left fun _ => ?_
    constructor
    · intro hf
      exact hf ▸ hall
    · exact hall.unique
  · intro more s' hmore hrun' hopen' b r h
    have hlatest : latest Write.id id (writes s'.log) = latest Write.id id (writes s.log) :=
      guarded_run (I := fun t => latest Write.id id (writes t.log) = latest Write.id id (writes s.log))
        (fun _ _ _ hI hop hstep => (latest_writes_step hop hstep).trans hI) rfl
        (guarded_of_forall (fun op hop _ => hmore op hop) s) hrun'
    have hrefines : Refines s'.bus (.after (writes s'.log)) :=
      refines_run (run_append.mpr ⟨s, hrun, hrun'⟩)
    rw [(Bus.sendHeader_some h).2, ← hlatest]
    exact respond_answers hrefines hopen' id

/-- A diagnostic response, published, removed and published again. -/
theorem send_header_last_write_diagnostic :
    let ops : List Op := [.subscribe [] [], .publish 0x3C [1], .publish 0x3C [],
      .publish 0x3C [0xAA], .publish 5 [9], .sendHeader 5]
    ∃ s, run Session.step {} ops = some s ∧ ∀ b r, s.bus.sendHeader 0x3C = some (b, r) →
      Answers ⟨0x3C, by decide⟩ (latest Write.id ⟨0x3C, by decide⟩ (writes s.log)) r := by
  intro ops
  have hrun : run Session.step {} ops = some _ := rfl
  exact ⟨_, hrun, (send_header_last_write hrun rfl ⟨0x3C, by decide⟩).1⟩

/-- The calls of the bus itself; its consumers do nothing. -/
def Op.onBus : Op → Bool
  | .recv _ | .tryRecv _ | .closeChan _ => false
  | _ => true

/-- A `Block` subscriber with room for one frame: the second header does not return. -/
theorem not_send_header_returns : ¬ ∀ (ops : List Op) (s : Session),
    (∀ op ∈ ops, op.onBus = true) → run Session.step {} ops = some s → s.bus.closed = false →
      ∀ id : FrameId, ∃ b r, s.bus.sendHeader id = some (b, r) ∧
        Answers id (latest Write.id id (writes s.log)) r := by
  intro h
  let ops : List Op := [.subscribe [] [withChannelDepth 1, withBackPressure .block],
    .publish 5 [0xAA], .sendHeader 5]
  have hruns : (run Session.step {} ops).isSome = true := by decide +kernel
  have hstuck : (run Session.step {} ops).all fun s =>
      !s.bus.closed && (s.bus.sendHeader 5).isNone := by decide +kernel
  obtain ⟨s, hs⟩ := Option.isSome_iff_exists.mp hruns
  rw [hs, Option.all_some, Bool.and_eq_true, Bool.not_eq_true'] at hstuck
  obtain ⟨b, r, hr, -⟩ := h ops s (by decide) hs hstuck.1 ⟨5, by decide⟩
  rw [hr] at hstuck
  exact absurd hstuck.2 (by simp)

end CppLin.Virt
