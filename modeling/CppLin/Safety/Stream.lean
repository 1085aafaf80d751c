import CppLin.Safety.Receiver

/-!
Whole streams through a receiver: what a protector sends comes back unchanged across
the wrap of the counter, and among arbitrary inputs the rejected ones might as well
not have been there.
-/
namespace CppLin.Safety
open Bytes InOrder

theorem message_length (cfg : Config) (q : UInt32) (p : Payload) :
    (message cfg q p).length = kHeaderSize + p.length := by
  rw [message, List.length_append, buildHeader_length]

theorem protectAll_cons (s : Protector) (p : Payload) (ps : List Payload) :
    (s.protectAll (p :: ps)).1 =
      message s.cfg s.seq p :: (Protector.protectAll { s with seq := s.seq + 1 } ps).1 := rfl

theorem protectAll_lengths (s : Protector) (ps : List Payload) :
    (s.protectAll ps).1.map List.length = ps.map fun p => kHeaderSize + p.length := by
  induction ps generalizing s with
  | nil => rfl
  | cons p ps ih => rw [protectAll_cons, List.map_cons, List.map_cons, message_length, ih]

theorem unwrapAll_ok {r r' : Receiver} {d p : Payload} (h : r.unwrap d = (.ok p, r'))
    (ds : List Payload) :
    r.unwrapAll (d :: ds) = (.ok p :: (r'.unwrapAll ds).1, (r'.unwrapAll ds).2) := by
  rw [Receiver.unwrapAll, h]

theorem unwrapAll_error {r : Receiver} {d : Payload} {e : E2EError}
    (h : (r.unwrap d).1 = .error e) (ds : List Payload) :
    r.unwrapAll (d :: ds) = (.error e :: (r.unwrapAll ds).1, (r.unwrapAll ds).2) := by
  have hstep : r.unwrap d = (.error e, r) := Prod.ext h (unwrap_error h)
  rw [Receiver.unwrapAll, hstep]

/-- A receiver that waits for the protector's next counter takes the whole stream. -/
theorem unwrapAll_protectAll (s : Protector) (ps : List Payload) (r : Receiver)
    (hcfg : r.cfg = s.cfg) (h : ∀ e ∈ r.expected, s.seq = e) :
    (r.unwrapAll (s.protectAll ps).1).1 = ps.map .ok := by
  induction ps generalizing s r with
  | nil => rfl
  | cons p ps ih =>
      have hstep := unwrap_message_expected p h
      have hnext : ∀ e ∈ Receiver.expected { r with first := false, lastSeq := s.seq },
          s.seq + 1 = e := by
        intro e he
        exact Option.some.inj he
      have hrest := ih { s with seq := s.seq + 1 } { r with first := false, lastSeq := s.seq } hcfg hnext
      rw [hcfg] at hstep
      rw [protectAll_cons, unwrapAll_ok hstep, List.map_cons, ← hrest, hcfg]

/-- Protected in order and unwrapped in order, every payload comes back, whatever the
counter starts at: `s + i` wraps to zero behind 2^32 - 1 on both sides. -/
theorem stream_round_trip (cfg : Config) (start : UInt32) (payloads : List Payload) (r : Receiver)
    (hr : r = { cfg } ∨ r = { cfg, first := false, lastSeq := start - 1 }) :
    let sent := (Protector.protectAll { cfg, seq := start } payloads).1
    (r.unwrapAll sent).1 = payloads.map .ok ∧
      sent.map List.length = payloads.map fun p => 10 + p.length := by
  intro sent
  refine ⟨?_, protectAll_lengths _ payloads⟩
  apply unwrapAll_protectAll
  · rcases hr with rfl | rfl <;> rfl
  · rcases hr with rfl | rfl
    · intro e he
      cases he
    · intro e he
      rw [← Option.some.inj he]
      exact (UInt32.sub_add_cancel start 1).symm

/-- Three payloads, the second of them empty, with the wrap after the first. -/
theorem stream_round_trip_wrap :
    let cfg : Config := { dataId := 0x1234, sourceId := 0x5678 }
    let sent := (Protector.protectAll { cfg, seq := 0xFFFFFFFF } [[1], [], [2, 3]]).1
    let r : Receiver := { cfg, first := false, lastSeq := 0xFFFFFFFE }
    (r.unwrapAll sent).1 = [[1], [], [2, 3]].map .ok ∧
      sent.map List.length = ([[1], [], [2, 3]] : List Payload).map fun p => 10 + p.length :=
  stream_round_trip { dataId := 0x1234, sourceId := 0x5678 } 0xFFFFFFFF [[1], [], [2, 3]] _
    (.inr rfl)

def keptInputs (inputs : List Payload) (results : List (Except E2EError Payload)) : List Payload :=
  (accepted inputs results).map Prod.fst

@[simp] theorem keptInputs_ok (d p : Payload) (ds : List Payload)
    (rs : List (Except E2EError Payload)) :
    keptInputs (d :: ds) (.ok p :: rs) = d :: keptInputs ds rs := rfl

@[simp] theorem keptInputs_error (d : Payload) (e : E2EError) (ds : List Payload)
    (rs : List (Except E2EError Payload)) :
    keptInputs (d :: ds) (.error e :: rs) = keptInputs ds rs := rfl

/-- Fed the kept inputs alone, the receiver takes all of them and ends in the same state. -/
theorem unwrapAll_kept (r : Receiver) (ds : List Payload) :
    r.unwrapAll (keptInputs ds (r.unwrapAll ds).1) =
      ((returned (r.unwrapAll ds).1).map .ok, (r.unwrapAll ds).2) := by
  induction ds generalizing r with
  | nil => rfl
  | cons d ds ih =>
      cases h : r.unwrap d with
      | mk x r' =>
          cases x with
          | ok p =>
              rw [unwrapAll_ok h, keptInputs_ok, returned_ok, List.map_cons, unwrapAll_ok h, ih]
          | error e =>
              rw [unwrapAll_error (congrArg Prod.fst h), keptInputs_error, returned_error]
              exact ih r

theorem counter_expected {r r' : Receiver} {d p : Payload} (h : r.unwrap d = (.ok p, r')) :
    ∀ e ∈ r.expected, readCounter d = e := by
  obtain ⟨-, -, -, hseq, -⟩ := (unwrap_ok_iff r r' d p).mp h
  intro e he
  unfold Receiver.expected at he
  rcases hseq with hfirst | hnext
  · rw [if_pos hfirst] at he
    cases he
  · split_ifs at he
    · cases he
    · exact hnext.trans (Option.some.inj he)

/-- The kept counters go up by one from the counter waited for; a fresh receiver waits
for the first one it keeps. -/
theorem kept_counters (r : Receiver) (ds : List Payload) :
    ∃ c k, (∀ e ∈ r.expected, c = e) ∧
      (keptInputs ds (r.unwrapAll ds).1).map readCounter = List.iterate (· + 1) c k := by
  induction ds generalizing r with
  | nil =>
      cases r.expected with
      | none => exact ⟨0, 0, by simp, rfl⟩
      | some e => exact ⟨e, 0, by simp, rfl⟩
  | cons d ds ih =>
      cases h : r.unwrap d with
      | mk x r' =>
          cases x with
          | error e =>
              rw [unwrapAll_error (congrArg Prod.fst h), keptInputs_error]
              exact ih r
          | ok p =>
              obtain ⟨-, -, -, -, rfl⟩ := (unwrap_ok_iff r r' d p).mp h
              obtain ⟨c, k, hc, hk⟩ := ih { r with first := false, lastSeq := readCounter d }
              have hc' : c = readCounter d + 1 := hc _ rfl
              refine ⟨readCounter d, k + 1, counter_expected h, ?_⟩
              rw [unwrapAll_ok h, keptInputs_ok, List.map_cons, hk, hc', List.iterate]

/-- Whatever is fed to a receiver, the counters of the messages it accepts follow one
another modulo 2^32, and what it rejects has no effect: without the rejected inputs it
returns the same payloads and ends in the same state. -/
theorem unwrap_arbitrary_inputs (cfg : Config) (inputs : List Payload) :
    let r : Receiver := { cfg }
    let kept := keptInputs inputs (r.unwrapAll inputs).1
    (∀ c ∈ (kept.map readCounter).head?,
      kept.map readCounter = List.iterate (· + 1) c kept.length) ∧
    (r.unwrapAll kept).1 = (returned (r.unwrapAll inputs).1).map .ok ∧
    (r.unwrapAll kept).2 = (r.unwrapAll inputs).2 := by
  intro r kept
  have hkept : r.unwrapAll kept = _ := unwrapAll_kept r inputs
  refine ⟨?_, by rw [hkept], by rw [hkept]⟩
  intro c hc
  obtain ⟨c', k, -, hk⟩ := kept_counters r inputs
  have hlen : kept.length = k := by
    rw [← List.length_map (f := readCounter), hk, List.length_iterate]
  rw [hlen, hk]
  rw [hk] at hc
  cases k with
  | zero => cases hc
  | succ k =>
      obtain rfl : c' = c := Option.some.inj hc
      rfl

end CppLin.Safety
