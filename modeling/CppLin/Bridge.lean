import CppLin.Adapter
import CppLin.Virtual.Effects
import CppLin.Virtual.ResponseMap

/-!
A bus and the adapters on it together, and bridging: a frame sent on one bus and handed
to the adapter of another is sent there unchanged.
-/
namespace CppLin
open Bytes CNumber Relay Run Virt

/-- A call on the bus, or a message sent through an adapter of it. -/
inductive NodeCall where
  | bus (op : Op)
  | send (m : Message)

/-- The call on the bus a message comes to, unless it is refused. -/
def publishedBy (m : Message) : Option Op :=
  match fromMessage m with
  | .error _ => none
  | .ok f =>
      if f.checksumType = .classic ∨ isDiagnostic f.id = true then
        some (.publishClassic f.id f.data)
      else some (.publish f.id f.data)

/-- The log keeps the calls the bus sees: a refused message is none. -/
def NodeCall.step (s : Session) : NodeCall → Option Session
  | .bus op => s.step op
  | .send m =>
      let (a, e) := LinAdapter.send { bus := s.bus } m
      some { bus := a.bus, log := s.log ++ (publishedBy m).toList.map (·, .code e) }

theorem NodeCall.send_step (s : Session) (m : Message) : NodeCall.step s (.send m) =
    (publishedBy m).elim (some s) s.step := by
  unfold NodeCall.step publishedBy LinAdapter.send
  cases hf : fromMessage m with
  | error e => simp [hf]
  | ok f =>
      by_cases hc : f.checksumType = .classic ∨ isDiagnostic f.id = true
      · simp only [hf, if_pos hc]
        rfl
      · simp only [hf, if_neg hc]
        rfl

theorem bus_run {calls : List NodeCall} {s s' : Session}
    (h : run NodeCall.step s calls = some s') : ∃ ops, run Session.step s ops = some s' := by
  induction calls generalizing s with
  | nil => exact ⟨[], h⟩
  | cons c calls ih =>
      obtain ⟨m, hstep, hrest⟩ := run_cons.mp h
      obtain ⟨ops, hops⟩ := ih hrest
      cases c with
      | bus op => exact ⟨op :: ops, run_cons.mpr ⟨m, hstep, hops⟩⟩
      | send msg =>
          rw [NodeCall.send_step] at hstep
          cases hp : publishedBy msg with
          | none =>
              rw [hp] at hstep
              obtain rfl := Option.some.inj hstep
              exact ⟨ops, hops⟩
          | some op =>
              rw [hp] at hstep
              exact ⟨op :: ops, run_cons.mpr ⟨m, hstep, hops⟩⟩

/-! A frame as a message and back. -/

theorem readChecksumType_toMessage (f : Frame) : readChecksumType (toMessage f) = .ok f.checksumType := by
  have hlookup : (toMessage f).metaData.lookup checksumTypeKey =
      some (if f.checksumType = .enhanced then "enhanced".toList else "classic".toList) := by
    rw [toMessage, AList.lookup_insert_ne (by decide), AList.lookup_insert]
  unfold readChecksumType
  rw [hlookup]
  cases f.checksumType <;> rfl

theorem readChecksum_toMessage (f : Frame) : readChecksum (toMessage f) = f.checksum := by
  have hlookup : (toMessage f).metaData.lookup checksumKey = some (toCString f.checksum.toNat) := by
    rw [toMessage, AList.lookup_insert]
  have hlt : f.checksum.toNat < 2 ^ 64 := f.checksum.toNat_lt.trans (by decide)
  unfold readChecksum
  simp only [hlookup, if_neg (toCString_isDecimal f.checksum.toNat).1, stoull_toCString hlt]
  exact UInt8.ofNat_toNat

theorem fromMessage_toMessage {f : Frame} (hid : f.id ≤ kLINMaxID) :
    fromMessage (toMessage f) = .ok f := by
  have hlt : f.id.toNat < 2 ^ 64 := f.id.toNat_lt.trans (by decide)
  have hread : ReadsAs (toMessage f).id f.id.toNat := stoull_ok_iff.mp (stoull_toCString hlt)
  apply (fromMessage_ok_iff (readChecksumType_toMessage f) f).mpr
  refine ⟨f.id.toNat, UInt8.le_iff_toNat_le.mp hid, hread, ?_⟩
  rw [readChecksum_toMessage, UInt8.ofNat_toNat]
  rfl

namespace Virt.Bus

theorem doPublish_stores {b : Bus} (hopen : b.closed = false) {id : UInt8} (hid : id ≤ kLINMaxID)
    {data : Payload} (hdata : data ≠ []) (ct : ChecksumType) : b.doPublish id data ct =
      ({ b with responses :=
          b.responses.insert id ⟨data, if isDiagnostic id then .classic else ct⟩ }, none) := by
  rw [doPublish, if_neg (UInt8.not_lt.mpr hid), hopen, if_neg Bool.false_ne_true, if_neg hdata]

/-- A frame as a bus sends it. -/
structure Sendable (f : Frame) : Prop where
  id : f.id ≤ kLINMaxID
  data : f.data ≠ []
  checksum : f.checksum = calcChecksum (protectId f.id) f.data f.checksumType
  diagnostic : isDiagnostic f.id = true → f.checksumType = .classic

theorem sendable_of_respond {b m : Bus} {ws : List Write} (hrefines : Refines b (.after ws))
    {id : UInt8} {f : Frame} (h : b.respond id = (m, .ok f)) : Sendable f := by
  obtain ⟨hid, -, e, he, rfl, -⟩ := respond_ok h
  have hr := hrefines ⟨id, hid⟩
  rw [he] at hr
  obtain ⟨r, -, rfl⟩ := Option.map_eq_some_iff.mp hr.symm
  exact ⟨hid, r.nonempty, rfl, r.diagnostic⟩

end Virt.Bus

/-- The adapter of an open bus stores a sent frame as the response it was sent from. -/
theorem LinAdapter.send_toMessage {b : Bus} (hopen : b.closed = false) {f : Frame}
    (hf : Bus.Sendable f) : LinAdapter.send { bus := b } (toMessage f) =
      ({ bus := { b with responses := b.responses.insert f.id ⟨f.data, f.checksumType⟩ } },
        none) := by
  have hstores := Bus.doPublish_stores hopen hf.id hf.data
  rw [LinAdapter.send, fromMessage_toMessage hf.id]
  by_cases hc : f.checksumType = .classic ∨ isDiagnostic f.id = true
  · have hclassic : f.checksumType = .classic := hc.elim id hf.diagnostic
    simp only [if_pos hc, IBus.publishClassic, Bus.publishClassic, hstores]
    rw [hclassic, ite_self]
  · obtain ⟨hct, hdiag⟩ := not_or.mp hc
    have henhanced : f.checksumType = .enhanced := by
      cases h : f.checksumType with
      | classic => exact absurd h hct
      | enhanced => rfl
    simp only [if_neg hc, IBus.publish, Bus.publish, hstores, if_neg hdiag]
    rw [henhanced]

theorem respond_stored {b : Bus} (hopen : b.closed = false) {f : Frame} (hf : Bus.Sendable f) :
    (Bus.respond { b with responses := b.responses.insert f.id ⟨f.data, f.checksumType⟩ } f.id).2 =
      .ok f := by
  unfold Bus.respond
  simp only [if_neg (UInt8.not_lt.mpr hf.id), hopen, AList.lookup_insert]
  rw [if_neg Bool.false_ne_true, Bus.frameOf, ← hf.checksum]

/-- A frame comes back from its message in all four fields. A frame sent on one bus is
taken by the adapter of any other open bus, which then answers its identifier with exactly
that frame; it does not return only while a `Block` subscriber's channel is full. -/
theorem bridge_preserves :
    (∀ f : Frame, f.id ≤ kLINMaxID → fromMessage (toMessage f) = .ok f) ∧
    ∀ (callsA callsB : List NodeCall) (sA sB : Session), run NodeCall.step {} callsA = some sA →
      run NodeCall.step {} callsB = some sB → sB.bus.closed = false →
      ∀ id f b', sA.bus.sendHeader id = some (b', .ok f) →
        ∃ bus, LinAdapter.send { bus := sB.bus } (toMessage f) = ({ bus }, none) ∧
          (∀ b r, bus.sendHeader f.id = some (b, r) → r = .ok f) ∧
          (bus.sendHeader f.id = none ↔ ∃ sub ∈ sB.bus.subs, sB.bus.WaitsAt f sub) := by
  refine ⟨fun f hid => fromMessage_toMessage hid, ?_⟩
  intro callsA callsB sA sB hA hB hopen id f b' hsend
  obtain ⟨opsA, hopsA⟩ := bus_run hA
  obtain ⟨opsB, hopsB⟩ := bus_run hB
  have hf : Bus.Sendable f :=
    Bus.sendable_of_respond (refines_run hopsA) (Prod.ext rfl (Bus.sendHeader_some hsend).2.symm)
  have hresp := respond_stored hopen hf
  refine ⟨_, LinAdapter.send_toMessage hopen hf, ?_, ?_⟩
  · intro b r h
    rw [(Bus.sendHeader_some h).2, hresp]
  · have hiff := @Bus.sendHeader_eq_none_iff
      { sB.bus with responses := sB.bus.responses.insert f.id ⟨f.data, f.checksumType⟩ } f.id
      (Session.wellFormed_run hopsB).ownChannels
    rw [hiff, hresp]
    constructor
    · rintro ⟨g, hg, hwait⟩
      rw [Except.ok.inj hg]
      exact hwait
    · intro hwait
      exact ⟨f, rfl, hwait⟩

/-- A diagnostic frame crosses to a bus with a subscriber. -/
theorem bridge_preserves_diagnostic :
    let f : Frame := ⟨0x3C, [1, 2], calcChecksum (protectId 0x3C) [1, 2] .classic, .classic⟩
    ∃ sA sB b', run NodeCall.step {} [.bus (.publish 0x3C [1, 2])] = some sA ∧
      run NodeCall.step {} [.bus (.subscribe [] [])] = some sB ∧
      sA.bus.sendHeader 0x3C = some (b', .ok f) ∧
      ∃ bus, LinAdapter.send { bus := sB.bus } (toMessage f) = ({ bus }, none) ∧
        ∀ b r, bus.sendHeader f.id = some (b, r) → r = .ok f := by
  intro f
  refine ⟨_, _, _, rfl, rfl, rfl, ?_⟩
  obtain ⟨bus, hsend, hreturns, -⟩ := bridge_preserves.2 [.bus (.publish 0x3C [1, 2])]
    [.bus (.subscribe [] [])] _ _ rfl rfl rfl 0x3C f _ rfl
  exact ⟨bus, hsend, hreturns⟩

/-- The other bus has a `Block` subscriber with no room left: its header does not return. -/
theorem not_bridge_returns : ¬ ∀ (callsA callsB : List NodeCall) (sA sB : Session),
    run NodeCall.step {} callsA = some sA → run NodeCall.step {} callsB = some sB →
    sB.bus.closed = false → ∀ id f b', sA.bus.sendHeader id = some (b', .ok f) →
      ∃ bus, LinAdapter.send { bus := sB.bus } (toMessage f) = ({ bus }, none) ∧
        ∃ b, bus.sendHeader f.id = some (b, .ok f) := by
  intro h
  let callsA : List NodeCall := [.bus (.publish 5 [1])]
  let callsB : List NodeCall :=
    [.bus (.subscribe [] [withChannelDepth 1, withBackPressure .block]), .bus (.publish 5 [1]),
      .bus (.sendHeader 5)]
  let f : Frame := ⟨5, [1], 0x79, .enhanced⟩
  have hruns : (run NodeCall.step {} callsB).isSome = true := by decide +kernel
  have hstuck : (run NodeCall.step {} callsB).all fun s => !s.bus.closed &&
      ((LinAdapter.send { bus := s.bus } (toMessage f)).1.bus.sendHeader 5).isNone := by
    decide +kernel
  obtain ⟨sB, hB⟩ := Option.isSome_iff_exists.mp hruns
  rw [hB, Option.all_some, Bool.and_eq_true, Bool.not_eq_true'] at hstuck
  have hA : run NodeCall.step {} callsA = some _ := rfl
  obtain ⟨bus, hbus, b, hb⟩ := h callsA callsB _ sB hA hB hstuck.1 5 f _ rfl
  rw [hbus, hb] at hstuck
  exact absurd hstuck.2 (by simp)

end CppLin
