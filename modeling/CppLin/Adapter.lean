import CppLin.Virtual.Bus

namespace CppLin
open Bytes CNumber Virt

/-- `LinAdapter` wraps a bus as a node of the relay. -/
structure LinAdapter (β : Type) where
  bus : β

namespace LinAdapter

variable {β : Type} [IBus β]

/-- An invalid message is reported as a payload that is too large, the closest of the
errors a relay node may return. -/
def send (a : LinAdapter β) (m : Relay.Message) : LinAdapter β × Option ErrorCode :=
  match fromMessage m with
  | .error _ => (a, some (.relay .payloadTooLarge))
  | .ok f =>
      let (bus, e) :=
        if f.checksumType = .classic ∨ isDiagnostic f.id = true then
          IBus.publishClassic a.bus f.id f.data
        else IBus.publish a.bus f.id f.data
      ({ bus }, e)

def close (a : LinAdapter β) : LinAdapter β × Option ErrorCode :=
  let (bus, e) := IBus.close a.bus
  ({ bus }, e)

end LinAdapter

/-- A non-empty string of decimal digits that denotes a frame identifier. -/
def DenotesId (s : CString) (n : Nat) : Prop :=
  IsDecimal s ∧ Nat.ofDigitChars 10 s 0 = n ∧ n ≤ kLINMaxID.toNat

/-- The identifier of the message is taken when it denotes a frame identifier, for
that identifier, and otherwise the message is refused and the bus keeps its responses. -/
structure ParsesExactly (m : Relay.Message) : Prop where
  accepts : ∀ n, DenotesId m.id n → ∃ f, fromMessage m = .ok f ∧ f.id.toNat = n
  rejects : (∀ n, ¬ DenotesId m.id n) → (∃ e, fromMessage m = .error e) ∧
    ∀ bus : Bus, ∃ a e, LinAdapter.send { bus } m = (a, some e) ∧ a.bus.responses = bus.responses

theorem fromMessage_ok_iff {m : Relay.Message} {ct : ChecksumType}
    (hct : readChecksumType m = .ok ct) (f : Frame) :
    fromMessage m = .ok f ↔ ∃ n, n ≤ kLINMaxID.toNat ∧ ReadsAs m.id n ∧
      f = ⟨UInt8.ofNat n, m.payload, readChecksum m, ct⟩ := by
  simp only [← stoull_ok_iff]
  unfold fromMessage
  cases stoull 10 m.id with
  | error e => simp
  | ok n =>
      simp only [hct]
      split_ifs with hn
      · simp only [false_iff, not_exists, not_and]
        rintro k hk hkn -
        exact absurd (Except.ok.inj hkn ▸ hk) (Nat.not_le.mpr hn)
      · constructor
        · intro h
          exact ⟨n, Nat.not_lt.mp hn, rfl, (Except.ok.inj h).symm⟩
        · rintro ⟨k, -, hkn, rfl⟩
          rw [Except.ok.inj hkn]

theorem readsAs_of_decimal {s : CString} (h : IsDecimal s) (hlt : Nat.ofDigitChars 10 s 0 < 2 ^ 64) :
    ReadsAs s (Nat.ofDigitChars 10 s 0) := by
  rw [← stoull_ok_iff, stoull_decimal h, if_neg (Nat.not_le.mpr hlt)]

theorem eq_of_readsAs_decimal {s : CString} {n : Nat} (h : IsDecimal s) (hn : ReadsAs s n) :
    Nat.ofDigitChars 10 s 0 = n := by
  rw [← stoull_ok_iff, stoull_decimal h] at hn
  split_ifs at hn
  exact Except.ok.inj hn

/-- A refused message leaves the bus alone. -/
theorem LinAdapter.send_of_error {β : Type} [IBus β] {bus : β} {m : Relay.Message}
    {e : ErrInvalidFrame} (h : fromMessage m = .error e) :
    LinAdapter.send { bus } m = ({ bus }, some (.relay .payloadTooLarge)) := by
  rw [send, h]

/-- The identifier is parsed exactly unless it is one of the other texts that convert to
a frame identifier: digits with white space or a sign before them or anything after them. -/
theorem from_message_exact_iff {m : Relay.Message} (hct : ∃ ct, readChecksumType m = .ok ct) :
    ParsesExactly m ↔ (IsDecimal m.id ∨ ∀ n, n ≤ kLINMaxID.toNat → ¬ ReadsAs m.id n) := by
  obtain ⟨ct, hct⟩ := hct
  constructor
  · intro h
    by_contra hnot
    push Not at hnot
    obtain ⟨hdec, n, hn, hreads⟩ := hnot
    obtain ⟨e, he⟩ := (h.rejects fun k hk => hdec hk.1).1
    have hok := (fromMessage_ok_iff hct _).mpr ⟨n, hn, hreads, rfl⟩
    rw [he] at hok
    cases hok
  · intro h
    refine ⟨?_, fun hnone => ?_⟩
    · rintro n ⟨hdec, hval, hn⟩
      have hn63 : n ≤ 63 := hn
      have hlt : Nat.ofDigitChars 10 m.id 0 < 2 ^ 64 := by omega
      have hreads := readsAs_of_decimal hdec hlt
      rw [hval] at hreads
      refine ⟨_, (fromMessage_ok_iff hct _).mpr ⟨n, hn, hreads, rfl⟩, ?_⟩
      exact UInt8.toNat_ofNat_of_lt' (Nat.lt_of_le_of_lt hn63 (by decide))
    · have herror : ∃ e, fromMessage m = .error e := by
        cases hf : fromMessage m with
        | error e => exact ⟨e, rfl⟩
        | ok f =>
            obtain ⟨n, hn, hreads, -⟩ := (fromMessage_ok_iff hct f).mp hf
            rcases h with hdec | hother
            · exact absurd ⟨hdec, eq_of_readsAs_decimal hdec hreads, hn⟩ (hnone n)
            · exact absurd hreads (hother n hn)
      obtain ⟨e, he⟩ := herror
      exact ⟨⟨e, he⟩, fun bus => ⟨_, _, LinAdapter.send_of_error he, rfl⟩⟩

theorem from_message_exact_iff_plain :
    ParsesExactly { id := "42".toList } ↔
      (IsDecimal "42".toList ∨ ∀ n, n ≤ kLINMaxID.toNat → ¬ ReadsAs "42".toList n) :=
  from_message_exact_iff (m := { id := "42".toList }) ⟨.classic, rfl⟩

/-- `5abc` is taken for the identifier 5. -/
theorem not_from_message_exact : ¬ ∀ m : Relay.Message,
    (∃ ct, readChecksumType m = .ok ct) → ParsesExactly m := by
  intro h
  have hexact := h { id := "5abc".toList } ⟨.classic, rfl⟩
  obtain ⟨e, he⟩ := (hexact.rejects fun n hn => absurd hn.1 (by decide)).1
  have hreads : ReadsAs "5abc".toList 5 :=
    ⟨[], [], false, ['5'], "abc".toList, rfl, by simp, .none, by decide, by simp,
      by decide, rfl⟩
  have hok := (fromMessage_ok_iff (m := { id := "5abc".toList }) rfl _).mpr
    ⟨5, by decide, hreads, rfl⟩
  rw [he] at hok
  cases hok

/-! What sending changes. -/

theorem readChecksumType_enhanced_iff (m : Relay.Message) :
    readChecksumType m = .ok .enhanced ↔
      m.metaData.lookup checksumTypeKey = some "enhanced".toList := by
  have hother : ¬ ("enhanced".toList = [] ∨ "enhanced".toList = "classic".toList) := by decide
  unfold readChecksumType
  generalize "enhanced".toList = enhanced at hother ⊢
  generalize "classic".toList = classic at hother ⊢
  cases m.metaData.lookup checksumTypeKey with
  | none => simp
  | some v =>
    by_cases hv : v = enhanced
    · subst hv
      simp [hother]
    · by_cases hclassic : v = [] ∨ v = classic <;> simp [hclassic, hv]

theorem fromMessage_parts {m : Relay.Message} {f : Frame} (h : fromMessage m = .ok f) :
    f.id ≤ kLINMaxID ∧ f.data = m.payload ∧ readChecksumType m = .ok f.checksumType := by
  unfold fromMessage at h
  cases hid : stoull 10 m.id with
  | error e => simp [hid] at h
  | ok n =>
    simp only [hid] at h
    split_ifs at h with hn
    have hn63 : n ≤ 63 := Nat.not_lt.mp hn
    have hsmall : (UInt8.ofNat n).toNat = n := UInt8.toNat_ofNat_of_lt' (hn63.trans_lt (by decide))
    cases hct : readChecksumType m with
    | error e => simp [hct] at h
    | ok ct =>
      simp only [hct] at h
      obtain rfl := Except.ok.inj h
      exact ⟨UInt8.le_iff_toNat_le.mpr (hsmall.trans_le hn63), rfl, rfl⟩

/-- The checksum type a message is registered with under an identifier. -/
def sentChecksumType (m : Relay.Message) (id : UInt8) : ChecksumType :=
  if m.metaData.lookup checksumTypeKey = some "enhanced".toList ∧ id ≠ 0x3C ∧ id ≠ 0x3D then
    .enhanced
  else .classic

theorem isDiagnostic_iff (id : UInt8) : isDiagnostic id = true ↔ id = 0x3C ∨ id = 0x3D := by
  rw [isDiagnostic, Bool.or_eq_true, beq_iff_eq, beq_iff_eq, kLINDiagRequestID, kLINDiagResponseID]

theorem sentChecksumType_eq {m : Relay.Message} {f : Frame} (h : fromMessage m = .ok f) :
    sentChecksumType m f.id = if isDiagnostic f.id = true then .classic else f.checksumType := by
  have hread := (fromMessage_parts h).2.2
  have htype := readChecksumType_enhanced_iff m
  rw [hread, Except.ok.injEq] at htype
  have hdiag : isDiagnostic f.id = true ↔ ¬ (f.id ≠ 0x3C ∧ f.id ≠ 0x3D) := by
    rw [isDiagnostic_iff, not_and_or, not_not, not_not]
  simp only [sentChecksumType, ← htype, hdiag]
  by_cases hid : f.id ≠ 0x3C ∧ f.id ≠ 0x3D
  · cases f.checksumType <;> simp [hid]
  · simp only [hid, and_false, if_false, not_false_eq_true, if_true]

theorem doPublish_error_closed {b b' : Bus} {id : UInt8} {data : Payload} {ct : ChecksumType}
    {e : ErrorCode} (hid : id ≤ kLINMaxID) (h : b.doPublish id data ct = (b', some e)) :
    e = ErrClosed := by
  rw [Bus.doPublish, if_neg (UInt8.not_lt.mpr hid)] at h
  split_ifs at h
  · exact (Option.some.inj (Prod.mk.inj h).2).symm
  · cases (Prod.mk.inj h).2
  · cases (Prod.mk.inj h).2
  · cases (Prod.mk.inj h).2

namespace LinAdapter

theorem send_of_ok (bus : Bus) {m : Relay.Message} {f : Frame} (h : fromMessage m = .ok f) :
    ∃ ct, (if isDiagnostic f.id = true then .classic else ct) = sentChecksumType m f.id ∧
      send { bus } m =
        ({ bus := (bus.doPublish f.id m.payload ct).1 }, (bus.doPublish f.id m.payload ct).2) := by
  rw [sentChecksumType_eq h, ← (fromMessage_parts h).2.1]
  by_cases hclassic : f.checksumType = .classic ∨ isDiagnostic f.id = true
  · refine ⟨.classic, ?_, ?_⟩
    · rcases hclassic with hc | hd
      · rw [hc]
      · rw [if_pos hd, if_pos hd]
    · rw [send, h]
      simp only [if_pos hclassic]
      rfl
  · obtain ⟨hc, hd⟩ := not_or.mp hclassic
    refine ⟨.enhanced, ?_, ?_⟩
    · cases hct : f.checksumType with
      | classic => exact absurd hct hc
      | enhanced => rfl
    · rw [send, h]
      simp only [if_neg hclassic]
      rfl

/-- Sending changes the entry of the message's identifier, or it changes no response and
reports one of two errors. -/
theorem send_atomic (bus : Bus) (m : Relay.Message) :
    ((send { bus } m).2 = none ∨ (send { bus } m).2 = some ErrClosed ∨
      (send { bus } m).2 = some (.relay .payloadTooLarge)) ∧
    ((send { bus } m).2 ≠ none → (send { bus } m).1.bus.responses = bus.responses) ∧
    ((send { bus } m).2 = none → ∃ f, fromMessage m = .ok f ∧
      ∀ id, (send { bus } m).1.bus.responses.lookup id =
        if id = f.id then
          if m.payload = [] then none else some ⟨m.payload, sentChecksumType m id⟩
        else bus.responses.lookup id) := by
  cases hf : fromMessage m with
  | error e =>
    rw [send_of_error hf]
    exact ⟨.inr (.inr rfl), fun _ => rfl, fun h => absurd h (by simp)⟩
  | ok f =>
    obtain ⟨ct, hct, hsend⟩ := send_of_ok bus hf
    rw [hsend]
    cases hpub : bus.doPublish f.id m.payload ct with
    | mk bus' e =>
      cases e with
      | some e =>
        obtain rfl := doPublish_error_closed (fromMessage_parts hf).1 hpub
        obtain rfl := Bus.doPublish_error hpub
        exact ⟨.inr (.inl rfl), fun _ => rfl, fun h => absurd h (by simp)⟩
      | none =>
        obtain ⟨-, -, rfl⟩ := Bus.doPublish_ok hpub
        refine ⟨.inl rfl, fun h => absurd rfl h, fun _ => ⟨f, rfl, fun id => ?_⟩⟩
        simp only
        by_cases hid : id = f.id
        · subst hid
          by_cases hdata : m.payload = []
          · rw [if_pos hdata, if_pos rfl, if_pos hdata, AList.lookup_erase]
          · rw [if_neg hdata, if_pos rfl, if_neg hdata, AList.lookup_insert, hct]
        · by_cases hdata : m.payload = []
          · rw [if_pos hdata, if_neg hid, AList.lookup_erase_ne hid]
          · rw [if_neg hdata, if_neg hid, AList.lookup_insert_ne hid]

end LinAdapter

end CppLin
