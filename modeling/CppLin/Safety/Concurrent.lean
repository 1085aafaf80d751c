import CppLin.Lib.Run
import CppLin.Safety.Receiver

/-!
A protector and a receiver that any number of threads share, with a network between them.
`protect` takes its counter in one atomic step and builds the message on its own; `unwrap`
checks the CRC on its own and takes the mutex for the counter.
-/
namespace CppLin.Safety
open Bytes InOrder Run

/-- `unwrap` up to its lock: the counter and the payload. -/
def Receiver.inspect (cfg : Config) (data : Payload) : Except E2EError (UInt32 × Payload) :=
  if data.length < kHeaderSize then
    .error { kind := .headerTooShort, counter := 0,
             msg := "need ".toList ++ toCString kHeaderSize ++ " bytes, got ".toList ++
               toCString data.length }
  else
    let seq := readCounter data
    let payload := data.drop kHeaderSize
    let expectedHdr := buildHeader cfg.dataId cfg.sourceId seq payload
    if readCrc data ≠ readCrc expectedHdr then
      .error { kind := .crcMismatch, counter := seq, msg := "CRC mismatch".toList }
    else .ok (seq, payload)

/-- `unwrap` under its lock. -/
def Receiver.settle (r : Receiver) (seq : UInt32) (payload : Payload) :
    Except E2EError Payload × Receiver :=
  if r.first = false ∧ seq ≠ r.lastSeq + 1 then
    (.error { kind := .sequenceGap, counter := seq,
              msg := "expected ".toList ++ toCString (r.lastSeq + 1).toNat ++ ", got ".toList ++
                toCString seq.toNat }, r)
  else (.ok payload, { r with first := false, lastSeq := seq })

theorem unwrap_eq (r : Receiver) (data : Payload) : r.unwrap data =
    match Receiver.inspect r.cfg data with
    | .error e => (.error e, r)
    | .ok (seq, payload) => r.settle seq payload := by
  unfold Receiver.unwrap Receiver.inspect Receiver.settle
  simp only
  by_cases hshort : data.length < kHeaderSize
  · rw [if_pos hshort, if_pos hshort]
  · rw [if_neg hshort, if_neg hshort]
    by_cases hcrc : readCrc data ≠ readCrc (buildHeader r.cfg.dataId r.cfg.sourceId
        (readCounter data) (data.drop kHeaderSize))
    · rw [if_pos hcrc, if_pos hcrc]
    · rw [if_neg hcrc, if_neg hcrc]

inductive SenderPc where
  | idle
  | called (payload : Payload)
  | numbered (seq : UInt32) (payload : Payload)

inductive ReceiverPc where
  | idle
  | called (data : Payload)
  | inspected (data : Payload) (seq : UInt32) (payload : Payload)

/-- `sent` are the payloads in the order in which they took their counters, `network` the
messages that `protect` has returned, `results` what `unwrap` made of its inputs, in the order
in which it decided. -/
structure Ends where
  protector : Protector
  receiver : Receiver
  senders : Nat → SenderPc := fun _ => .idle
  receivers : Nat → ReceiverPc := fun _ => .idle
  sent : List Payload := []
  network : List Payload := []
  results : List (Payload × Except E2EError Payload) := []

namespace Ends

inductive Action where
  | protect (t : Nat) (payload : Payload)
  | fetch (t : Nat)
  | build (t : Nat)
  | unwrap (t : Nat) (data : Payload)
  | inspect (t : Nat)
  | settle (t : Nat)

def goSend (l : Ends) (t : Nat) (p : SenderPc) : Ends :=
  { l with senders := Function.update l.senders t p }

def goReceive (l : Ends) (t : Nat) (p : ReceiverPc) : Ends :=
  { l with receivers := Function.update l.receivers t p }

def conclude (l : Ends) (data : Payload) (r : Except E2EError Payload) : Ends :=
  { l with results := l.results ++ [(data, r)] }

def step (l : Ends) : Action → Option Ends
  | .protect t payload => match l.senders t with
    | .idle => some (l.goSend t (.called payload))
    | _ => none
  | .fetch t => match l.senders t with
    | .called payload =>
        some ({ l with protector.seq := l.protector.seq + 1,
                       sent := l.sent ++ [payload] }.goSend t (.numbered l.protector.seq payload))
    | _ => none
  | .build t => match l.senders t with
    | .numbered seq payload =>
        some ({ l with network := l.network ++ [buildHeader l.protector.cfg.dataId
          l.protector.cfg.sourceId seq payload ++ payload] }.goSend t .idle)
    | _ => none
  | .unwrap t data => match l.receivers t with
    | .idle => some (l.goReceive t (.called data))
    | _ => none
  | .inspect t => match l.receivers t with
    | .called data => match Receiver.inspect l.receiver.cfg data with
      | .error e => some ((l.conclude data (.error e)).goReceive t .idle)
      | .ok (seq, payload) => some (l.goReceive t (.inspected data seq payload))
    | _ => none
  | .settle t => match l.receivers t with
    | .inspected data seq payload =>
        let (r, receiver) := l.receiver.settle seq payload
        some (({ l with receiver }.conclude data r).goReceive t .idle)
    | _ => none

/-- Both ends fresh, the protector at some counter. -/
def start (cfg : Config) (seq : UInt32) : Ends :=
  { protector := { cfg, seq }, receiver := { cfg } }

inductive Moves (l : Ends) : Action → Ends → Prop
  | protect {t payload} (hpc : l.senders t = .idle) :
      Moves l (.protect t payload) (l.goSend t (.called payload))
  | fetch {t payload} (hpc : l.senders t = .called payload) :
      Moves l (.fetch t)
        ({ l with protector.seq := l.protector.seq + 1, sent := l.sent ++ [payload] }.goSend t
          (.numbered l.protector.seq payload))
  | build {t seq payload} (hpc : l.senders t = .numbered seq payload) :
      Moves l (.build t) ({ l with
        network := l.network ++ [message l.protector.cfg seq payload] }.goSend t .idle)
  | unwrap {t data} (hpc : l.receivers t = .idle) :
      Moves l (.unwrap t data) (l.goReceive t (.called data))
  | reject {t data e} (hpc : l.receivers t = .called data)
      (hi : Receiver.inspect l.receiver.cfg data = .error e) :
      Moves l (.inspect t) ((l.conclude data (.error e)).goReceive t .idle)
  | pass {t data seq payload} (hpc : l.receivers t = .called data)
      (hi : Receiver.inspect l.receiver.cfg data = .ok (seq, payload)) :
      Moves l (.inspect t) (l.goReceive t (.inspected data seq payload))
  | settle {t data seq payload r receiver} (hpc : l.receivers t = .inspected data seq payload)
      (ha : l.receiver.settle seq payload = (r, receiver)) :
      Moves l (.settle t) (({ l with receiver }.conclude data r).goReceive t .idle)

theorem moves_of_step {l l' : Ends} {a : Action} (h : l.step a = some l') : Moves l a l' := by
  unfold step at h
  split at h
  case h_1 t payload =>
    split at h
    · obtain rfl := Option.some.inj h
      exact .protect ‹_›
    · cases h
  case h_2 t =>
    split at h
    · obtain rfl := Option.some.inj h
      exact .fetch ‹_›
    · cases h
  case h_3 t =>
    split at h
    · obtain rfl := Option.some.inj h
      exact .build ‹_›
    · cases h
  case h_4 t data =>
    split at h
    · obtain rfl := Option.some.inj h
      exact .unwrap ‹_›
    · cases h
  case h_5 t =>
    split at h
    · split at h
      · obtain rfl := Option.some.inj h
        exact .reject ‹_› ‹_›
      · obtain rfl := Option.some.inj h
        exact .pass ‹_› ‹_›
    · cases h
  case h_6 t =>
    split at h
    · obtain rfl := Option.some.inj h
      exact .settle ‹_› rfl
    · cases h

/-! The receiver's side. -/

theorem unwrapAll_concat (r : Receiver) (ds : List Payload) (d : Payload) :
    r.unwrapAll (ds ++ [d]) = ((r.unwrapAll ds).1 ++ [((r.unwrapAll ds).2.unwrap d).1],
      ((r.unwrapAll ds).2.unwrap d).2) := by
  induction ds generalizing r with
  | nil => rfl
  | cons x ds ih =>
      simp only [List.cons_append, Receiver.unwrapAll, ih]

/-- The results are those of one caller, who unwraps the inputs in the order of the decisions. -/
structure Decided (cfg : Config) (l : Ends) : Prop where
  config : l.receiver.cfg = cfg
  results : Receiver.unwrapAll { cfg } (l.results.map Prod.fst) =
    (l.results.map Prod.snd, l.receiver)
  inspected : ∀ t d q p, l.receivers t = .inspected d q p → Receiver.inspect cfg d = .ok (q, p)

theorem Decided.conclude {cfg : Config} {l : Ends} (hl : l.Decided cfg) {d : Payload}
    {r : Except E2EError Payload} {receiver : Receiver} (h : l.receiver.unwrap d = (r, receiver)) :
    Receiver.unwrapAll { cfg } ((l.results ++ [(d, r)]).map Prod.fst) =
      ((l.results ++ [(d, r)]).map Prod.snd, receiver) := by
  rw [List.map_append, List.map_singleton, unwrapAll_concat, hl.results, h, List.map_append,
    List.map_singleton]

/-- A receiving thread goes where it has inspected nothing. -/
theorem inspected_update {cfg : Config} {receivers : Nat → ReceiverPc} {pc : ReceiverPc} {t : Nat}
    (h : ∀ t d q p, receivers t = .inspected d q p → Receiver.inspect cfg d = .ok (q, p))
    (hpc : ∀ d q p, pc = .inspected d q p → Receiver.inspect cfg d = .ok (q, p)) (u : Nat)
    (d : Payload) (q : UInt32) (p : Payload)
    (hu : Function.update receivers t pc u = .inspected d q p) :
    Receiver.inspect cfg d = .ok (q, p) := by
  by_cases he : u = t
  · subst he
    rw [Function.update_self] at hu
    exact hpc d q p hu
  · rw [Function.update_of_ne he] at hu
    exact h u d q p hu

theorem Decided.step {cfg : Config} {l l' : Ends} {a : Action} (hl : l.Decided cfg)
    (h : Moves l a l') : l'.Decided cfg := by
  have hcfg := hl.config
  cases h with
  | protect hpc => exact ⟨hl.config, hl.results, hl.inspected⟩
  | fetch hpc => exact ⟨hl.config, hl.results, hl.inspected⟩
  | build hpc => exact ⟨hl.config, hl.results, hl.inspected⟩
  | unwrap hpc =>
      exact ⟨hl.config, hl.results, inspected_update hl.inspected fun d q p hp => by cases hp⟩
  | @reject t data e hpc hi =>
      have hunwrap : l.receiver.unwrap data = (.error e, l.receiver) := by rw [unwrap_eq, hi]
      exact ⟨hl.config, hl.conclude hunwrap,
        inspected_update hl.inspected fun d q p hp => by cases hp⟩
  | @pass t data seq payload hpc hi =>
      refine ⟨hl.config, hl.results, inspected_update hl.inspected fun d q p hp => ?_⟩
      obtain ⟨rfl, rfl, rfl⟩ := ReceiverPc.inspected.inj hp
      exact hcfg ▸ hi
  | @settle t data seq payload r receiver hpc ha =>
      have hi := hl.inspected t data seq payload hpc
      have hunwrap : l.receiver.unwrap data = (r, receiver) := by
        rw [unwrap_eq, hcfg, hi]
        exact ha
      refine ⟨?_, hl.conclude hunwrap, inspected_update hl.inspected fun d q p hp => by cases hp⟩
      have hsame := unwrap_cfg l.receiver data
      rw [hunwrap] at hsame
      exact hsame.trans hcfg

theorem decided_run {cfg : Config} {seq : UInt32} {as : List Action} {l : Ends}
    (h : run step (start cfg seq) as = some l) : l.Decided cfg :=
  invariant_run (I := Decided cfg) (fun _ _ _ hl hstep => hl.step (moves_of_step hstep))
    ⟨rfl, rfl, fun _ _ _ _ hp => by cases hp⟩ h

/-! The sender's side. -/

/-- The message of the `i`-th payload that took a counter. -/
def nth (l : Ends) (cfg : Config) (seq : UInt32) (i : Nat) : Payload :=
  message cfg (seq + UInt32.ofNat i) (l.sent.getD i [])

/-- Every number taken is that of one message built, or of one thread that builds it. -/
structure Numbered (cfg : Config) (seq : UInt32) (l : Ends) (built : List Nat)
    (ticket : Nat → Option Nat) : Prop where
  config : l.protector.cfg = cfg
  counter : l.protector.seq = seq + UInt32.ofNat l.sent.length
  network : l.network = built.map (l.nth cfg seq)
  nodup : built.Nodup
  lt : ∀ i ∈ built, i < l.sent.length
  has : ∀ t i, ticket t = some i → i < l.sent.length ∧ i ∉ built ∧
    l.senders t = .numbered (seq + UInt32.ofNat i) (l.sent.getD i [])
  hasNot : ∀ t, ticket t = none → ∀ q p, l.senders t ≠ .numbered q p
  distinct : ∀ t u i, ticket t = some i → ticket u = some i → t = u
  all : ∀ i < l.sent.length, i ∈ built ∨ ∃ t, ticket t = some i

section
variable {cfg : Config} {seq : UInt32} {l l' : Ends} {built : List Nat} {ticket : Nat → Option Nat}

theorem Numbered.same (hl : l.Numbered cfg seq built ticket) (hprotector : l'.protector = l.protector)
    (hsent : l'.sent = l.sent) (hnetwork : l'.network = l.network)
    (hsenders : ∀ t q p, l'.senders t = .numbered q p ↔ l.senders t = .numbered q p) :
    l'.Numbered cfg seq built ticket := by
  have hnth : l'.nth cfg seq = l.nth cfg seq := by
    funext i
    rw [nth, nth, hsent]
  refine ⟨by rw [hprotector]; exact hl.config, by rw [hprotector, hsent]; exact hl.counter,
    by rw [hnetwork, hnth]; exact hl.network, hl.nodup, by rw [hsent]; exact hl.lt, ?_, ?_,
    hl.distinct, by rw [hsent]; exact hl.all⟩
  · intro t i ht
    rw [hsent, hsenders]
    exact hl.has t i ht
  · intro t ht q p hp
    exact hl.hasNot t ht q p ((hsenders t q p).mp hp)

theorem Numbered.fetch (hl : l.Numbered cfg seq built ticket) {t : Nat} {payload : Payload}
    (hpc : l.senders t = .called payload) :
    ({ l with protector.seq := l.protector.seq + 1, sent := l.sent ++ [payload] }.goSend t
      (.numbered l.protector.seq payload)).Numbered cfg seq built
        (Function.update ticket t (some l.sent.length)) := by
  have hfree : ticket t = none := by
    cases ht : ticket t with
    | none => rfl
    | some i =>
        have hhas := (hl.has t i ht).2.2
        rw [hpc] at hhas
        cases hhas
  have hold : ∀ i < l.sent.length, (l.sent ++ [payload]).getD i [] = l.sent.getD i [] := by
    intro i hi
    exact List.getD_append _ _ _ _ hi
  have hnew : (l.sent ++ [payload]).getD l.sent.length [] = payload := by
    rw [List.getD_append_right _ _ _ _ (Nat.le_refl _), Nat.sub_self]
    rfl
  constructor
  · exact hl.config
  · change l.protector.seq + 1 = _
    rw [hl.counter, goSend, List.length_append, List.length_singleton, UInt32.ofNat_add,
      UInt32.add_assoc]
    rfl
  · rw [goSend]
    simp only
    rw [hl.network]
    apply List.map_congr_left
    intro i hi
    rw [nth, nth, hold i (hl.lt i hi)]
  · exact hl.nodup
  · intro i hi
    rw [goSend, List.length_append]
    exact Nat.lt_add_right _ (hl.lt i hi)
  · intro u i hu
    by_cases he : u = t
    · subst he
      rw [Function.update_self, Option.some.injEq] at hu
      subst hu
      refine ⟨by simp [goSend], fun hmem => absurd (hl.lt _ hmem) (Nat.lt_irrefl _), ?_⟩
      rw [goSend]
      simp only [Function.update_self]
      rw [hnew, hl.counter]
    · rw [Function.update_of_ne he] at hu
      obtain ⟨hi, hnot, hsenders⟩ := hl.has u i hu
      refine ⟨?_, hnot, ?_⟩
      · rw [goSend, List.length_append]
        exact Nat.lt_add_right _ hi
      · rw [goSend]
        simp only [Function.update_of_ne he]
        rw [hold i hi, hsenders]
  · intro u hu q p hp
    by_cases he : u = t
    · subst he
      rw [Function.update_self] at hu
      cases hu
    · rw [Function.update_of_ne he] at hu
      rw [goSend] at hp
      simp only [Function.update_of_ne he] at hp
      exact hl.hasNot u hu q p hp
  · intro u v i hu hv
    by_cases hut : u = t
    · subst hut
      rw [Function.update_self, Option.some.injEq] at hu
      by_contra hne
      rw [Function.update_of_ne (Ne.symm hne)] at hv
      exact absurd (hl.has v i hv).1 (hu ▸ Nat.lt_irrefl _)
    · rw [Function.update_of_ne hut] at hu
      by_cases hvt : v = t
      · subst hvt
        rw [Function.update_self, Option.some.injEq] at hv
        exact absurd (hl.has u i hu).1 (hv ▸ Nat.lt_irrefl _)
      · rw [Function.update_of_ne hvt] at hv
        exact hl.distinct u v i hu hv
  · intro i hi
    rw [goSend, List.length_append, List.length_singleton, Nat.lt_succ_iff_lt_or_eq] at hi
    cases hi with
    | inr he =>
        refine .inr ⟨t, ?_⟩
        rw [Function.update_self, he]
    | inl hi =>
        refine (hl.all i hi).imp_right ?_
        rintro ⟨u, hu⟩
        have hut : u ≠ t := by
          rintro rfl
          rw [hfree] at hu
          cases hu
        exact ⟨u, by rw [Function.update_of_ne hut, hu]⟩

theorem Numbered.build (hl : l.Numbered cfg seq built ticket) {t : Nat} {q : UInt32}
    {payload : Payload} (hpc : l.senders t = .numbered q payload) :
    ∃ i, ({ l with network := l.network ++ [message l.protector.cfg q payload] }.goSend t
      .idle).Numbered cfg seq (built ++ [i]) (Function.update ticket t none) := by
  obtain ⟨i, hi⟩ : ∃ i, ticket t = some i := by
    cases ht : ticket t with
    | none => exact absurd hpc (hl.hasNot t ht q payload)
    | some i => exact ⟨i, rfl⟩
  obtain ⟨hlt, hnot, hsenders⟩ := hl.has t i hi
  rw [hpc] at hsenders
  obtain ⟨rfl, rfl⟩ := SenderPc.numbered.inj hsenders
  refine ⟨i, hl.config, hl.counter, ?_, ?_, ?_, ?_, ?_, ?_, ?_⟩
  · rw [goSend]
    simp only
    rw [hl.config, hl.network, List.map_append]
    rfl
  · rw [List.nodup_append]
    refine ⟨hl.nodup, List.nodup_singleton i, ?_⟩
    rintro j hj k hk rfl
    exact hnot (List.mem_singleton.mp hk ▸ hj)
  · intro j hj
    rcases List.mem_append.mp hj with hj | hj
    · exact hl.lt j hj
    · exact List.mem_singleton.mp hj ▸ hlt
  · intro u j hu
    have hut : u ≠ t := by
      rintro rfl
      rw [Function.update_self] at hu
      cases hu
    rw [Function.update_of_ne hut] at hu
    obtain ⟨hj, hnot', hsenders'⟩ := hl.has u j hu
    refine ⟨hj, ?_, ?_⟩
    · intro hmem
      rcases List.mem_append.mp hmem with hmem | hmem
      · exact hnot' hmem
      · obtain rfl := List.mem_singleton.mp hmem
        exact hut (hl.distinct u t j hu hi)
    · rw [goSend]
      simp only [Function.update_of_ne hut]
      exact hsenders'
  · intro u hu q p hp
    rw [goSend] at hp
    by_cases hut : u = t
    · subst hut
      simp only [Function.update_self] at hp
      cases hp
    · rw [Function.update_of_ne hut] at hu
      simp only [Function.update_of_ne hut] at hp
      exact hl.hasNot u hu q p hp
  · intro u v j hu hv
    have hut : u ≠ t := by
      rintro rfl
      rw [Function.update_self] at hu
      cases hu
    have hvt : v ≠ t := by
      rintro rfl
      rw [Function.update_self] at hv
      cases hv
    rw [Function.update_of_ne hut] at hu
    rw [Function.update_of_ne hvt] at hv
    exact hl.distinct u v j hu hv
  · intro j hj
    rcases hl.all j hj with hmem | ⟨u, hu⟩
    · exact .inl (List.mem_append_left _ hmem)
    · by_cases hut : u = t
      · subst hut
        obtain rfl := Option.some.inj (hu.symm.trans hi)
        exact .inl (List.mem_append_right _ (List.mem_singleton.mpr rfl))
      · exact .inr ⟨u, by rw [Function.update_of_ne hut, hu]⟩

theorem Numbered.step {a : Action} (hl : l.Numbered cfg seq built ticket) (h : Moves l a l') :
    ∃ built ticket, l'.Numbered cfg seq built ticket := by
  cases h with
  | @protect t payload hpc =>
      refine ⟨built, ticket, hl.same rfl rfl rfl ?_⟩
      intro u q p
      rw [goSend]
      by_cases hu : u = t
      · subst hu
        simp [hpc]
      · simp only [Function.update_of_ne hu]
  | fetch hpc => exact ⟨built, _, hl.fetch hpc⟩
  | build hpc =>
      obtain ⟨i, hi⟩ := hl.build hpc
      exact ⟨_, _, hi⟩
  | unwrap hpc => exact ⟨built, ticket, hl.same rfl rfl rfl fun _ _ _ => Iff.rfl⟩
  | reject hpc hi => exact ⟨built, ticket, hl.same rfl rfl rfl fun _ _ _ => Iff.rfl⟩
  | pass hpc hi => exact ⟨built, ticket, hl.same rfl rfl rfl fun _ _ _ => Iff.rfl⟩
  | settle hpc ha => exact ⟨built, ticket, hl.same rfl rfl rfl fun _ _ _ => Iff.rfl⟩

theorem numbered_run {as : List Action} (h : run Ends.step (start cfg seq) as = some l) :
    ∃ built ticket, l.Numbered cfg seq built ticket := by
  refine invariant_run (I := fun l => ∃ built ticket, Numbered cfg seq l built ticket) ?_ ?_ h
  · rintro l a l' ⟨built, ticket, hl⟩ hstep
    exact hl.step (moves_of_step hstep)
  · refine ⟨[], fun _ => none, rfl, ?_, rfl, List.nodup_nil, ?_, ?_, ?_, ?_, ?_⟩
    · exact (UInt32.add_zero seq).symm
    · exact fun i hi => absurd hi List.not_mem_nil
    · exact fun t i ht => by cases ht
    · exact fun t _ q p hp => by cases hp
    · exact fun t u i ht => by cases ht
    · exact fun i hi => absurd hi (Nat.not_lt_zero i)

end

/-- However the calls on both ends overlap: each message that `protect` returns carries the
counter of one payload, in the order in which they were taken, no two the same one, and once no
call is under way all of them are there; and `unwrap` answers as if the inputs came one at a
time, in the order in which it decided them. -/
theorem ends_in_turn {cfg : Config} {seq : UInt32} {as : List Action} {l : Ends}
    (h : run step (start cfg seq) as = some l) :
    (∃ built : List Nat, built.Nodup ∧ (∀ i ∈ built, i < l.sent.length) ∧
      l.network = built.map (fun i => message cfg (seq + UInt32.ofNat i) (l.sent.getD i [])) ∧
      ((∀ t q p, l.senders t ≠ .numbered q p) → built.Perm (List.range l.sent.length))) ∧
    Receiver.unwrapAll { cfg } (l.results.map Prod.fst) =
      (l.results.map Prod.snd, l.receiver) := by
  obtain ⟨built, ticket, hl⟩ := numbered_run h
  refine ⟨⟨built, hl.nodup, hl.lt, hl.network, ?_⟩, (decided_run h).results⟩
  intro hidle
  rw [List.perm_ext_iff_of_nodup hl.nodup List.nodup_range]
  intro i
  rw [List.mem_range]
  constructor
  · exact hl.lt i
  · intro hi
    rcases hl.all i hi with hmem | ⟨t, ht⟩
    · exact hmem
    · exact absurd (hl.has t i ht).2.2 (hidle t _ _)

/-- Two senders; the second to take a counter is the first to return. -/
theorem ends_in_turn_overtaken :
    ∃ l : Ends, l.network = [message {} 8 [2], message {} 7 [1]] ∧
      l.results.map Prod.snd = [.ok [2]] ∧
      Receiver.unwrapAll { cfg := {} } (l.results.map Prod.fst) =
        (l.results.map Prod.snd, l.receiver) := by
  let as : List Action := [.protect 1 [1], .protect 2 [2], .fetch 1, .fetch 2, .build 2,
    .unwrap 3 (message {} 8 [2]), .build 1, .inspect 3, .settle 3]
  have hseen : (run step (start {} 7) as).map (fun l => (l.network, l.results.map Prod.snd)) =
      some ([message {} 8 [2], message {} 7 [1]], [.ok [2]]) := by decide +kernel
  obtain ⟨l, hl, heq⟩ := Option.map_eq_some_iff.mp hseen
  obtain ⟨hnetwork, hresults⟩ := Prod.mk.inj heq
  exact ⟨l, hnetwork, hresults, (ends_in_turn hl).2⟩

/-! A network between them, which loses, repeats and reorders what it is given. -/

/-- The input is a message that has been returned to a sender. -/
def FromNetwork (l : Ends) : Action → Prop
  | .unwrap _ d => d ∈ l.network
  | _ => True

instance (l : Ends) : ∀ a, Decidable (l.FromNetwork a)
  | .unwrap _ d => inferInstanceAs (Decidable (d ∈ l.network))
  | .protect _ _ | .fetch _ | .build _ | .inspect _ | .settle _ => .isTrue trivial

/-- The input is the message of a payload that took a counter. -/
def IsMessage (cfg : Config) (seq : UInt32) (l : Ends) (d : Payload) : Prop :=
  ∃ i < l.sent.length, d = l.nth cfg seq i

/-- What a receiving thread was given. -/
def input : ReceiverPc → Option Payload
  | .idle => none
  | .called d => some d
  | .inspected d _ _ => some d

section
variable {cfg : Config} {seq : UInt32} {l l' : Ends}

/-- Every input is a message. -/
structure Carries (cfg : Config) (seq : UInt32) (l : Ends) : Prop where
  opened : ∀ t d, input (l.receivers t) = some d → IsMessage cfg seq l d
  decided : ∀ d ∈ l.results.map Prod.fst, IsMessage cfg seq l d

theorem IsMessage.later {d : Payload} (h : IsMessage cfg seq l d) {more : List Payload}
    (hsent : l'.sent = l.sent ++ more) : IsMessage cfg seq l' d := by
  obtain ⟨i, hi, rfl⟩ := h
  refine ⟨i, ?_, ?_⟩
  · rw [hsent, List.length_append]
    exact Nat.lt_add_right _ hi
  · rw [nth, nth, hsent, List.getD_append _ _ _ _ hi]

theorem Carries.keep (hl : l.Carries cfg seq) {more : List Payload} (hsent : l'.sent = l.sent ++ more)
    (hopen : ∀ t d, input (l'.receivers t) = some d → ∃ u, input (l.receivers u) = some d)
    (hdecided : ∀ d ∈ l'.results.map Prod.fst,
      d ∈ l.results.map Prod.fst ∨ ∃ u, input (l.receivers u) = some d) : l'.Carries cfg seq := by
  constructor
  · intro t d ht
    obtain ⟨u, hu⟩ := hopen t d ht
    exact (hl.opened u d hu).later hsent
  · intro d hd
    rcases hdecided d hd with hd | ⟨u, hu⟩
    · exact (hl.decided d hd).later hsent
    · exact (hl.opened u d hu).later hsent

theorem input_update {receivers : Nat → ReceiverPc} {t : Nat} {pc : ReceiverPc}
    (hpc : ∀ d, input pc = some d → ∃ u, input (receivers u) = some d) (u : Nat) (d : Payload)
    (hu : input (Function.update receivers t pc u) = some d) :
    ∃ u, input (receivers u) = some d := by
  by_cases he : u = t
  · subst he
    rw [Function.update_self] at hu
    exact hpc d hu
  · rw [Function.update_of_ne he] at hu
    exact ⟨u, hu⟩

theorem Carries.step {built : List Nat} {ticket : Nat → Option Nat} {a : Action}
    (hnumbered : l.Numbered cfg seq built ticket) (hl : l.Carries cfg seq) (hg : l.FromNetwork a)
    (h : Moves l a l') : l'.Carries cfg seq := by
  have same : ∀ t d, input (l.receivers t) = some d → ∃ u, input (l.receivers u) = some d :=
    fun t d ht => ⟨t, ht⟩
  have idle : ∀ d, input .idle = some d → ∃ u, input (l.receivers u) = some d :=
    fun d hd => by cases hd
  have concluded : ∀ {t d r}, input (l.receivers t) = some d →
      ∀ x ∈ (l.results ++ [(d, r)]).map Prod.fst,
        x ∈ l.results.map Prod.fst ∨ ∃ u, input (l.receivers u) = some x := by
    intro t d r ht x hx
    rw [List.map_append, List.mem_append] at hx
    refine hx.imp_right fun hx => ?_
    obtain rfl := List.mem_singleton.mp hx
    exact ⟨t, ht⟩
  cases h with
  | protect hpc => exact hl.keep (List.append_nil _).symm same fun d hd => .inl hd
  | fetch hpc => exact hl.keep rfl same fun d hd => .inl hd
  | build hpc => exact hl.keep (List.append_nil _).symm same fun d hd => .inl hd
  | @unwrap t data hpc =>
      refine ⟨?_, hl.decided⟩
      intro u d hu
      by_cases he : u = t
      · subst he
        rw [goReceive] at hu
        simp only [Function.update_self] at hu
        obtain rfl := Option.some.inj hu
        have hmem : data ∈ l.network := hg
        rw [hnumbered.network] at hmem
        obtain ⟨i, hi, rfl⟩ := List.mem_map.mp hmem
        exact ⟨i, hnumbered.lt i hi, rfl⟩
      · rw [goReceive] at hu
        simp only [Function.update_of_ne he] at hu
        exact hl.opened u d hu
  | @reject t data e hpc hi =>
      exact hl.keep (List.append_nil _).symm (input_update idle) (concluded (by rw [hpc]; rfl))
  | @pass t data seq payload hpc hi =>
      refine hl.keep (List.append_nil _).symm (input_update ?_) fun d hd => .inl hd
      intro d hd
      exact ⟨t, by rw [hpc]; exact hd⟩
  | @settle t data seq payload r receiver hpc ha =>
      exact hl.keep (List.append_nil _).symm (input_update idle) (concluded (by rw [hpc]; rfl))

theorem carries_run {as : List Action} (hg : Guarded Ends.step FromNetwork (start cfg seq) as)
    (h : run Ends.step (start cfg seq) as = some l) : l.Carries cfg seq := by
  have hstart : (∃ built ticket, (start cfg seq).Numbered cfg seq built ticket) ∧
      (start cfg seq).Carries cfg seq := by
    refine ⟨numbered_run (run_nil (start cfg seq)), ?_, ?_⟩
    · exact fun t d ht => by cases ht
    · exact fun d hd => absurd hd List.not_mem_nil
  refine (guarded_run (I := fun l => (∃ built ticket, Numbered cfg seq l built ticket) ∧
    Carries cfg seq l) ?_ hstart hg h).2
  rintro l a l' ⟨⟨built, ticket, hnumbered⟩, hl⟩ hfrom hstep
  exact ⟨hnumbered.step (moves_of_step hstep), hl.step hnumbered hfrom (moves_of_step hstep)⟩

end

/-- Any number of threads that protect fewer than 2^32 payloads, a network that loses, repeats
and reorders their messages, and any number of threads that unwrap what comes out of it: what is
handed on is a block of the payloads as they took their counters, each of it once and in that
order, and every other input is answered with a sequence gap. -/
theorem shared_block {cfg : Config} {seq : UInt32} {as : List Action} {l : Ends}
    (h : run step (start cfg seq) as = some l)
    (hg : Guarded step FromNetwork (start cfg seq) as) (hn : l.sent.length < 2 ^ 32) :
    ∃ (inputs : List Nat) (s k : Nat),
      l.results.map Prod.fst =
        inputs.map (fun i => message cfg (seq + UInt32.ofNat i) (l.sent.getD i [])) ∧
      s + k ≤ l.sent.length ∧
      accepted inputs (l.results.map Prod.snd) =
        (List.range' s k).map (fun i => (i, l.sent.getD i [])) ∧
      ∀ x ∈ l.results, ∀ e, x.2 = .error e → e.kind = .sequenceGap := by
  have hcarries := carries_run hg h
  have hresults := (decided_run h).results
  obtain ⟨inputs, s, k, hinputs, hsk, hacc, herr⟩ :=
    accepted_block cfg seq (fun i => l.sent.getD i []) hn hcarries.decided
  simp only [hresults] at hacc herr
  exact ⟨inputs, s, k, hinputs, hsk, hacc, fun x hx e he => herr x.2 (List.mem_map_of_mem hx) e he⟩

/-- Two messages, the second delivered twice before the first. -/
theorem shared_block_repeated :
    ∃ l : Ends, l.results.map (fun x => x.2.toOption) = [some [2], none, none] ∧
      ∃ (inputs : List Nat) (s k : Nat), s + k ≤ l.sent.length ∧
        accepted inputs (l.results.map Prod.snd) =
          (List.range' s k).map fun i => (i, l.sent.getD i []) := by
  let as : List Action := [.protect 1 [1], .protect 2 [2], .fetch 1, .fetch 2, .build 2, .build 1,
    .unwrap 3 (message {} 8 [2]), .unwrap 4 (message {} 8 [2]), .inspect 4, .inspect 3, .settle 3,
    .settle 4, .unwrap 3 (message {} 7 [1]), .inspect 3, .settle 3]
  have hseen : (run step (start {} 7) as).map (fun l => (l.results.map (fun x => x.2.toOption),
      l.sent.length)) = some ([some [2], none, none], 2) := by decide +kernel
  have hfrom : Guarded step FromNetwork (start {} 7) as := by decide +kernel
  obtain ⟨l, hl, heq⟩ := Option.map_eq_some_iff.mp hseen
  obtain ⟨hresults, hlength⟩ := Prod.mk.inj heq
  obtain ⟨inputs, s, k, -, hsk, hacc, -⟩ := shared_block hl hfrom (by rw [hlength]; decide)
  exact ⟨l, hresults, inputs, s, k, hsk, hacc⟩

end Ends

end CppLin.Safety
