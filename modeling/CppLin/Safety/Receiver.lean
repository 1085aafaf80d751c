import CppLin.Lib.InOrder
import CppLin.Safety.E2E

namespace CppLin.Safety
open Bytes InOrder

/-- The receiver a sequence of `unwrap` calls leaves behind. -/
def Receiver.after (cfg : Config) (history : List Payload) : Receiver :=
  history.foldl (fun r d => (r.unwrap d).2) { cfg }

theorem Receiver.after_cfg (cfg : Config) (history : List Payload) :
    (Receiver.after cfg history).cfg = cfg := by
  have run : ∀ r : Receiver, (history.foldl (fun r d => (r.unwrap d).2) r).cfg = r.cfg := by
    induction history with
    | nil => exact fun r => rfl
    | cons d ds ih => exact fun r => (ih _).trans (unwrap_cfg r d)
  exact run { cfg }

/-- The message a protector writes for a payload under a counter. -/
def message (cfg : Config) (seq : UInt32) (payload : Payload) : Payload :=
  buildHeader cfg.dataId cfg.sourceId seq payload ++ payload

/-- The receiver hands on nothing of `d` unless `d` is the message of its
configuration, and rejects `d` when any of its header bytes is not that message's. -/
structure AcceptsOnlyGenuine (r : Receiver) (d : Payload) : Prop where
  whole : ∀ p, (r.unwrap d).1 = .ok p → d = message r.cfg (readCounter d) p
  header : ∀ i < kHeaderSize,
    d.getD i 0 ≠ (buildHeader r.cfg.dataId r.cfg.sourceId (readCounter d)
      (d.drop kHeaderSize)).getD i 0 → ∀ p, (r.unwrap d).1 ≠ .ok p

/-- Bytes 0–3 are the receiver's own DataID and SourceID. -/
def IdsIntact (cfg : Config) (d : Payload) : Prop := d.take 4 = idBytes cfg.dataId cfg.sourceId

theorem message_of_ids {cfg : Config} {d : Payload} (hlen : kHeaderSize ≤ d.length)
    (hids : IdsIntact cfg d) (hcrc : readCrc d = headerCrc cfg (readCounter d) (d.drop kHeaderSize)) :
    d = message cfg (readCounter d) (d.drop kHeaderSize) := by
  have hd := header_split d hlen
  rw [hids, hcrc] at hd
  rw [message, buildHeader_eq]
  exact hd

theorem ids_of_message {cfg : Config} {d p : Payload} {q : UInt32} (h : d = message cfg q p) :
    IdsIntact cfg d := by
  subst h
  rfl

theorem unwrap_fst_ok_iff (r : Receiver) (d p : Payload) :
    (r.unwrap d).1 = .ok p ↔ kHeaderSize ≤ d.length ∧ p = d.drop kHeaderSize ∧
      readCrc d = headerCrc r.cfg (readCounter d) p ∧
      (r.first = true ∨ readCounter d = r.lastSeq + 1) := by
  constructor
  · intro h
    obtain ⟨hlen, hp, hcrc, hseq, -⟩ := (unwrap_ok_iff r _ d p).mp (Prod.ext h rfl)
    exact ⟨hlen, hp, hcrc, hseq⟩
  · rintro ⟨hlen, hp, hcrc, hseq⟩
    exact congrArg Prod.fst ((unwrap_ok_iff r _ d p).mpr ⟨hlen, hp, hcrc, hseq, rfl⟩)

theorem acceptsOnlyGenuine_iff (r : Receiver) (d : Payload) :
    AcceptsOnlyGenuine r d ↔ ((r.unwrap d).1 = .ok (d.drop kHeaderSize) → IdsIntact r.cfg d) := by
  constructor
  · intro h hok
    exact ids_of_message (h.whole _ hok)
  · intro h
    have whole : ∀ p, (r.unwrap d).1 = .ok p → d = message r.cfg (readCounter d) p := by
      intro p hok
      obtain ⟨hlen, rfl, hcrc, hseq⟩ := (unwrap_fst_ok_iff r d p).mp hok
      exact message_of_ids hlen (h hok) hcrc
    refine ⟨whole, ?_⟩
    intro i hi hne p hok
    obtain ⟨-, rfl, -, -⟩ := (unwrap_fst_ok_iff r d p).mp hok
    apply hne
    conv_lhs => rw [whole _ hok, message]
    exact List.getD_append _ _ _ _ hi

/-- The received DataID and SourceID are never compared with the receiver's own:
a message is taken for genuine with any bytes 0–3, as long as its CRC is the one
its counter and payload have under the receiver's identifiers. -/
theorem accepts_only_genuine_iff (cfg : Config) (history : List Payload) (d : Payload) :
    AcceptsOnlyGenuine (Receiver.after cfg history) d ↔
      (IdsIntact cfg d ∨ d.length < kHeaderSize ∨
        readCrc d ≠ headerCrc cfg (readCounter d) (d.drop kHeaderSize) ∨
        ((Receiver.after cfg history).first = false ∧
          readCounter d ≠ (Receiver.after cfg history).lastSeq + 1)) := by
  rw [acceptsOnlyGenuine_iff, unwrap_fst_ok_iff, Receiver.after_cfg]
  simp only [true_and]
  cases (Receiver.after cfg history).first <;> grind

/-- One bit of the DataID of a genuine message is flipped, and the message is accepted. -/
theorem not_accepts_only_genuine : ¬ ∀ (cfg : Config) (history : List Payload) (d : Payload),
    AcceptsOnlyGenuine (Receiver.after cfg history) d := by
  intro h
  have hids := (acceptsOnlyGenuine_iff _ _).mp
    (h { dataId := 0x1234, sourceId := 0x5678 } [] ((0x35 : UInt8) ::
      (message { dataId := 0x1234, sourceId := 0x5678 } 0 [0xAB]).drop 1))
  exact absurd (hids (by decide +kernel)) (by unfold IdsIntact; decide +kernel)

/-! A stream of genuine messages, delivered by a network that loses, repeats and
reorders them. -/

/-- The counter the receiver waits for; a fresh receiver takes any. -/
def Receiver.expected (r : Receiver) : Option UInt32 :=
  if r.first then none else some (r.lastSeq + 1)

def Receiver.unwrapAll : Receiver → List Payload → List (Except E2EError Payload) × Receiver
  | r, [] => ([], r)
  | r, d :: ds =>
      let (x, r') := r.unwrap d
      let (xs, r'') := r'.unwrapAll ds
      (x :: xs, r'')

def Protector.protectAll : Protector → List Payload → List Payload × Protector
  | s, [] => ([], s)
  | s, p :: ps =>
      let (m, s') := s.protect p
      let (ms, s'') := s'.protectAll ps
      (m :: ms, s'')

def returned (results : List (Except E2EError Payload)) : List Payload :=
  results.filterMap Except.toOption

/-- The payloads handed on, each with the tag of the delivery that carried it. -/
def accepted {τ : Type*} (tags : List τ) (results : List (Except E2EError Payload)) :
    List (τ × Payload) :=
  (tags.zip results).filterMap fun x => x.2.toOption.map (x.1, ·)

section
variable {τ : Type*} (t : τ) (ts : List τ) (rs : List (Except E2EError Payload)) (p : Payload)

@[simp] theorem accepted_ok : accepted (t :: ts) (.ok p :: rs) = (t, p) :: accepted ts rs := rfl

@[simp] theorem accepted_error (e : E2EError) :
    accepted (t :: ts) (.error e :: rs) = accepted ts rs := rfl

@[simp] theorem returned_ok : returned (.ok p :: rs) = p :: returned rs := rfl

@[simp] theorem returned_error (e : E2EError) : returned (.error e :: rs) = returned rs := rfl

end

theorem unwrap_message_expected {r : Receiver} {q : UInt32} (p : Payload)
    (h : ∀ e ∈ r.expected, q = e) :
    r.unwrap (message r.cfg q p) = (.ok p, { r with first := false, lastSeq := q }) := by
  have hq : readCounter (message r.cfg q p) = q := readCounter_buildHeader _ _ q p p
  apply (unwrap_ok_iff r _ _ p).mpr
  refine ⟨by simp [message], rfl, ?_, ?_, by rw [hq]⟩
  · rw [hq]
    exact readCrc_buildHeader r.cfg q p p
  · rw [hq]
    cases hf : r.first with
    | true => exact .inl rfl
    | false => exact .inr (h _ (by simp [Receiver.expected, hf]))

theorem unwrap_message_other {r : Receiver} {q e : UInt32} (p : Payload)
    (he : r.expected = some e) (h : q ≠ e) :
    (r.unwrap (message r.cfg q p)).2 = r ∧
      ∃ err, (r.unwrap (message r.cfg q p)).1 = .error err ∧ err.kind = .sequenceGap := by
  have hq : readCounter (message r.cfg q p) = q := readCounter_buildHeader _ _ q p p
  have hcrc : readCrc (message r.cfg q p) = headerCrc r.cfg q p := readCrc_buildHeader r.cfg q p p
  have hexp := readCrc_buildHeader r.cfg q p []
  rw [List.append_nil] at hexp
  have hgap : r.first = false ∧ q ≠ r.lastSeq + 1 := by
    cases hf : r.first with
    | true => simp [Receiver.expected, hf] at he
    | false => exact ⟨rfl, by simp only [Receiver.expected, hf] at he; grind⟩
  have hlong : ¬ (message r.cfg q p).length < kHeaderSize := by simp [message]
  have hdrop : (message r.cfg q p).drop kHeaderSize = p := drop_header _ _ q p p
  unfold Receiver.unwrap
  simp only [if_neg hlong, hq, hdrop, hcrc, hexp, ne_eq, not_true, if_false, if_pos hgap]
  exact ⟨trivial, _, rfl, rfl⟩

/-- On genuine messages the receiver is an in-order acceptor of their counters. -/
theorem accepted_messages {τ : Type*} (ctr : τ → UInt32) (body : τ → Payload) (ts : List τ)
    (r : Receiver) :
    let results := (r.unwrapAll (ts.map fun t => message r.cfg (ctr t) (body t))).1
    accepted ts results = (keep ctr (· + 1) r.expected ts).map (fun t => (t, body t)) ∧
      returned results = (keep ctr (· + 1) r.expected ts).map body ∧
      ∀ x ∈ results, ∀ e, x = .error e → e.kind = .sequenceGap := by
  induction ts generalizing r with
  | nil => simp [Receiver.unwrapAll, accepted, returned]
  | cons t ts ih =>
      by_cases h : ∀ e ∈ r.expected, ctr t = e
      · have hstep := unwrap_message_expected (body t) h
        have hkeep : keep ctr (· + 1) r.expected (t :: ts) =
            t :: keep ctr (· + 1) (some (ctr t + 1)) ts := by
          cases ho : r.expected with
          | none => rfl
          | some e =>
              have he : ctr t = e := h e ho
              rw [keep_expected ctr _ he, he]
        have hrest := ih { r with first := false, lastSeq := ctr t }
        simp only [Receiver.expected, Bool.false_eq_true, if_false] at hrest
        obtain ⟨hacc, hret, herr⟩ := hrest
        simp only [List.map_cons, Receiver.unwrapAll, hstep, hkeep]
        refine ⟨?_, ?_, ?_⟩
        · rw [accepted_ok, hacc]
        · rw [returned_ok, hret]
        · simpa using herr
      · obtain ⟨e, he, hne⟩ : ∃ e, r.expected = some e ∧ ctr t ≠ e := by
          cases ho : r.expected with
          | none => exact absurd (by simp [ho]) h
          | some e => exact ⟨e, rfl, fun hc => h (by simpa [ho] using hc)⟩
        obtain ⟨hstate, err, hres, hkind⟩ := unwrap_message_other (body t) he hne
        have hstep : r.unwrap (message r.cfg (ctr t) (body t)) = (.error err, r) :=
          Prod.ext hres hstate
        obtain ⟨hacc, hret, herr⟩ := ih r
        rw [he] at hacc hret ⊢
        simp only [List.map_cons, Receiver.unwrapAll, hstep, keep_other ctr _ hne]
        refine ⟨?_, ?_, ?_⟩
        · rw [accepted_error, hacc]
        · rw [returned_error, hret]
        · simpa [hkind] using herr

theorem protectAll_getElem? (s : Protector) (ps : List Payload) (i : Nat) :
    (s.protectAll ps).1[i]? = ps[i]?.map (message s.cfg (s.seq + UInt32.ofNat i)) := by
  induction ps generalizing s i with
  | nil => rfl
  | cons p ps ih =>
      cases i with
      | zero => simp [Protector.protectAll, Protector.protect, message]
      | succ i =>
          have hseq : s.seq + 1 + UInt32.ofNat i = s.seq + UInt32.ofNat (i + 1) := by
            rw [UInt32.ofNat_add, UInt32.add_assoc, UInt32.add_comm 1]
            rfl
          simp [Protector.protectAll, Protector.protect, ih, hseq]

/-- Fewer than 2^32 consecutive counters are told apart, wrap-around included. -/
theorem counter_injOn (start : UInt32) {n : Nat} (hn : n < 2 ^ 32) :
    Set.InjOn (fun i => start + UInt32.ofNat i) {i | i ≤ n} := by
  intro i (hi : i ≤ n) j (hj : j ≤ n) hij
  have h := congrArg UInt32.toNat hij
  simp only [UInt32.toNat_add, UInt32.toNat_ofNat'] at h
  omega

/-- On indices below `n < 2^32` in-order acceptance of the counters is in-order
acceptance of the indices, so it keeps a block of them. -/
theorem keep_indices (start : UInt32) {n : Nat} (hn : n < 2 ^ 32) (is : List Nat)
    (his : ∀ i ∈ is, i < n) :
    ∃ s k, s + k ≤ n ∧
      keep (fun i => start + UInt32.ofNat i) (· + 1) none is = List.range' s k := by
  have hnum : keep (fun i => start + UInt32.ofNat i) (· + 1) none is = keep id Nat.succ none is := by
    refine keep_renumber id Nat.succ _ _ {i | i ≤ n} (counter_injOn start hn) ?_ none is
      (by simp) ?_
    · intro i _
      rw [Nat.succ_eq_add_one, UInt32.ofNat_add, UInt32.add_assoc]
      rfl
    · intro i hi
      exact ⟨(his i hi).le, his i hi⟩
  rw [hnum]
  cases is with
  | nil => exact ⟨0, 0, Nat.zero_le n, rfl⟩
  | cons i is =>
      obtain ⟨k, hk⟩ := keep_none_iterate id Nat.succ i is
      rw [List.map_id, iterate_succ_eq_range'] at hk
      refine ⟨i, k + 1, ?_, hk⟩
      have hlast : i + k ∈ keep id Nat.succ none (i :: is) := by
        rw [hk, List.mem_range'_1]
        simp only [id]
        omega
      exact his _ ((keep_sublist id Nat.succ none (i :: is)).mem hlast)

/-- A receiver that is given nothing but messages of fewer than 2^32 payloads, in whatever order
and however often, hands on a block of them. -/
theorem accepted_block (cfg : Config) (seq : UInt32) (body : Nat → Payload) {n : Nat}
    (hn : n < 2 ^ 32) {inputs : List Payload}
    (h : ∀ d ∈ inputs, ∃ i < n, d = message cfg (seq + UInt32.ofNat i) (body i)) :
    ∃ (is : List Nat) (s k : Nat),
      inputs = is.map (fun i => message cfg (seq + UInt32.ofNat i) (body i)) ∧ s + k ≤ n ∧
      accepted is (Receiver.unwrapAll { cfg } inputs).1 =
        (List.range' s k).map (fun i => (i, body i)) ∧
      ∀ x ∈ (Receiver.unwrapAll { cfg } inputs).1, ∀ e, x = .error e → e.kind = .sequenceGap := by
  choose! number hlt hmessage using h
  have hinputs : inputs = (inputs.map number).map
      (fun i => message cfg (seq + UInt32.ofNat i) (body i)) := by
    rw [List.map_map]
    exact (List.map_id' _).symm.trans (List.map_congr_left hmessage)
  obtain ⟨hacc, -, herr⟩ := accepted_messages (fun i => seq + UInt32.ofNat i) body
    (inputs.map number) { cfg }
  simp only [← hinputs] at hacc herr
  have hbound : ∀ i ∈ inputs.map number, i < n := by
    intro i hi
    obtain ⟨d, hd, rfl⟩ := List.mem_map.mp hi
    exact hlt d hd
  obtain ⟨s, k, hsk, hkeep⟩ := keep_indices seq hn _ hbound
  refine ⟨inputs.map number, s, k, hinputs, hsk, ?_, herr⟩
  rw [hacc, ← hkeep]
  rfl

/-- Through any network that loses, repeats and reorders the messages of one
protector, fewer than 2^32 of them, a fresh receiver hands on exactly the messages
numbered s, …, s+k-1, once each and in order, and answers every other delivery
with a sequence gap. -/
theorem delivered_block (cfg : Config) (start : UInt32) (payloads : List Payload)
    (hn : payloads.length < 2 ^ 32) (deliveries : List (Fin payloads.length)) :
    let sent := (Protector.protectAll { cfg, seq := start } payloads).1
    let results := (Receiver.unwrapAll { cfg } (deliveries.map fun i => sent.getD i.val [])).1
    ∃ s k, s + k ≤ payloads.length ∧
      returned results = (payloads.drop s).take k ∧
      accepted (deliveries.map Fin.val) results =
        (List.range' s k).map (fun i => (i, payloads.getD i [])) ∧
      ∀ x ∈ results, ∀ e, x = .error e → e.kind = .sequenceGap := by
  intro sent results
  let ctr : Nat → UInt32 := fun i => start + UInt32.ofNat i
  let body : Nat → Payload := fun i => payloads.getD i []
  have hsent : (deliveries.map fun i => sent.getD i.val []) =
      (deliveries.map Fin.val).map fun i => message cfg (ctr i) (body i) := by
    rw [List.map_map]
    apply List.map_congr_left
    intro i _
    simp [sent, List.getD_eq_getElem?_getD, protectAll_getElem?, ctr, body]
  obtain ⟨hacc, hret, herr⟩ := accepted_messages ctr body (deliveries.map Fin.val) { cfg }
  simp only [← hsent] at hacc hret herr
  obtain ⟨s, k, hsk, hkeep⟩ := keep_indices start hn (deliveries.map Fin.val) (by simp)
  have hexp : Receiver.expected { cfg } = none := rfl
  rw [hexp, hkeep] at hacc hret
  refine ⟨s, k, hsk, ?_, hacc, herr⟩
  rw [hret]
  apply List.ext_getElem
  · simp; omega
  · intro i hi hi'
    simp only [List.length_map, List.length_range'] at hi
    simp [body, show s + i < payloads.length by omega]

/-- Three messages; the second arrives first, the first is a replay, the third follows twice. -/
theorem delivered_block_replay :
    let sent := (Protector.protectAll { cfg := {}, seq := 0 } [[1], [2], [3]]).1
    let results := (Receiver.unwrapAll { cfg := {} }
      (([1, 0, 2, 2] : List (Fin 3)).map fun i => sent.getD i.val [])).1
    ∃ s k, s + k ≤ 3 ∧ returned results = (([[1], [2], [3]] : List Payload).drop s).take k ∧
      accepted [1, 0, 2, 2] results =
        (List.range' s k).map (fun i => (i, ([[1], [2], [3]] : List Payload).getD i [])) ∧
      ∀ x ∈ results, ∀ e, x = .error e → e.kind = .sequenceGap :=
  delivered_block {} 0 [[1], [2], [3]] (by decide) [1, 0, 2, 2]

end CppLin.Safety
