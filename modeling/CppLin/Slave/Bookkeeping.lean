import CppLin.Slave.Node
import CppLin.Virtual.Effects

/-!
The node's list of identifiers beside the bus's response table, over sequences of calls
one after another: the node is the only publisher, and the bus serves everybody else.
-/
namespace CppLin.Slave
open Bytes Run Virt

/-- A call on the node, or on its bus one by which nothing is published. -/
inductive Call where
  | setResponse (id : UInt8) (data : Payload)
  | onBus (op : { op : Op // op.asPublish = none })

namespace Node

/-- A call with its result; `none` while the call waits. -/
def exec (n : Node Bus) : Call → Option (Node Bus × Outcome)
  | .setResponse id data => let (n, e) := n.setResponse id data; some (n, .code e)
  | .onBus op => (n.bus.exec op).map fun (bus, out) => ({ n with bus }, out)

def step (n : Node Bus) (c : Call) : Option (Node Bus) := (n.exec c).map Prod.fst

/-- The list is without duplicates, and names what the response table holds. -/
structure InStep (n : Node Bus) : Prop where
  nodup : n.registeredIds.Nodup
  mem : ∀ id, id ∈ n.registeredIds ↔ id ∈ n.bus.responses

/-- Neither the list nor the response table differs. -/
def SameRegistrations (n n' : Node Bus) : Prop :=
  n'.registeredIds = n.registeredIds ∧ n'.bus.responses = n.bus.responses

theorem InStep.of_same {n n' : Node Bus} (hn : n.InStep) (h : SameRegistrations n n') :
    n'.InStep := by
  obtain ⟨hids, hresponses⟩ := h
  refine ⟨hids ▸ hn.nodup, ?_⟩
  intro id
  rw [hids, hresponses]
  exact hn.mem id

theorem responses_of_effect {b b' : Bus} {op : Op} {out : Outcome} (h : Bus.Effect b op b' out)
    (hop : op.asPublish = none) : b'.responses = b.responses := by
  cases h with
  | failed hout hsame => rw [hsame]
  | published hpub hp =>
      rw [hop] at hpub
      cases hpub
  | emitted hm hbr =>
      have htables := Bus.emitted_sameTables hm hbr
      exact htables.responses
  | closed => exact b.close_responses
  | _ => rfl

/-- What a call of `set_response` does: it is refused, or it publishes and then brings the
list up to date. -/
theorem setResponse_cases {n n' : Node Bus} {id : UInt8} {data : Payload} {e : Option ErrorCode}
    (h : n.setResponse id data = (n', e)) :
    (e ≠ none ∧ SameRegistrations n n') ∨
      ∃ b, e = none ∧ n' = { n with bus := b }.recordId id data ∧
        ∀ i, i ∈ b.responses ↔ if i = id then data ≠ [] else i ∈ n.bus.responses := by
  unfold setResponse at h
  by_cases hid : id > kLINMaxID
  · rw [if_pos hid] at h
    obtain ⟨rfl, rfl⟩ := Prod.mk.inj h
    exact .inl ⟨Option.some_ne_none _, rfl, rfl⟩
  rw [if_neg hid] at h
  cases hc : n.bus.closed with
  | false =>
      obtain ⟨b, hb, -, hmem⟩ := publishResponse_of_open hc (UInt8.not_lt.mp hid) data
      rw [hb] at h
      obtain ⟨rfl, rfl⟩ := Prod.mk.inj h
      exact .inr ⟨b, rfl, rfl, hmem⟩
  | true =>
      -- a closed bus refuses the publish, and the list is never reached
      have hp : n.publishResponse id data =
          ({ n with bus := n.bus.countError }, some ErrClosed) := by
        change (({ n with bus := (n.bus.doPublish id data .enhanced).1 } : Node Bus),
          (n.bus.doPublish id data .enhanced).2) = _
        rw [Bus.doPublish, if_neg hid, if_pos hc]
      rw [hp] at h
      obtain ⟨rfl, rfl⟩ := Prod.mk.inj h
      exact .inl ⟨Option.some_ne_none _, rfl, rfl⟩

theorem InStep.setResponse {n n' : Node Bus} (hn : n.InStep) {id : UInt8} {data : Payload}
    {e : Option ErrorCode} (h : n.setResponse id data = (n', e)) : n'.InStep := by
  obtain ⟨-, hsame⟩ | ⟨b, -, rfl, hmem⟩ := setResponse_cases h
  · exact hn.of_same hsame
  · refine ⟨recordId_nodup hn.nodup id data, ?_⟩
    intro i
    have hlist := mem_recordId (n := { n with bus := b }) hn.nodup id data i
    refine hlist.trans (Iff.trans ?_ (hmem i).symm)
    by_cases hi : i = id
    · rw [if_pos hi, if_pos hi]
    · rw [if_neg hi, if_neg hi]
      exact hn.mem i

theorem exec_cases {n n' : Node Bus} {c : Call} {out : Outcome} (h : n.exec c = some (n', out)) :
    (∃ id data e, c = .setResponse id data ∧ out = .code e ∧
      n.setResponse id data = (n', e)) ∨ SameRegistrations n n' := by
  cases c with
  | setResponse id data =>
      obtain ⟨rfl, rfl⟩ := Prod.mk.inj (Option.some.inj h)
      exact .inl ⟨id, data, _, rfl, rfl, rfl⟩
  | onBus op =>
      obtain ⟨⟨b, out'⟩, hb, heq⟩ := Option.map_eq_some_iff.mp h
      obtain ⟨rfl, rfl⟩ := Prod.mk.inj heq
      exact .inr ⟨rfl, responses_of_effect (Bus.effect_of_exec hb) op.2⟩

theorem InStep.exec {n n' : Node Bus} (hn : n.InStep) {c : Call} {out : Outcome}
    (h : n.exec c = some (n', out)) : n'.InStep := by
  obtain ⟨id, data, e, -, -, hset⟩ | hsame := exec_cases h
  · exact hn.setResponse hset
  · exact hn.of_same hsame

theorem exec_failure {n n' : Node Bus} {c : Call} {out : Outcome} (h : n.exec c = some (n', out))
    (hout : out.failure ≠ none) : SameRegistrations n n' := by
  obtain ⟨id, data, e, -, rfl, hset⟩ | hsame := exec_cases h
  · obtain ⟨-, hsame⟩ | ⟨b, rfl, -⟩ := setResponse_cases hset
    · exact hsame
    · exact absurd rfl hout
  · exact hsame

theorem InStep.run {n n' : Node Bus} (hn : n.InStep) {calls : List Call}
    (h : run step n calls = some n') : n'.InStep := by
  refine invariant_run (I := InStep) ?_ hn h
  intro m c m' hm hstep
  obtain ⟨⟨m'', out⟩, hexec, rfl⟩ := Option.map_eq_some_iff.mp hstep
  exact hm.exec hexec

end Node

/-- A node that is the only publisher on its bus lists, after any calls on the two, each
identifier with a registered response once and no other; a call that fails then changes
neither the list nor the table. -/
theorem registered_ids_eq_responses {bus : Bus} (hempty : bus.responses = ∅) {calls : List Call}
    {n : Node Bus} (h : run Node.step { bus } calls = some n) :
    n.registeredIds.Nodup ∧ (∀ id, id ∈ n.registeredIds ↔ id ∈ n.bus.responses) ∧
      ∀ c n' out, n.exec c = some (n', out) → out.failure ≠ none →
        n'.registeredIds = n.registeredIds ∧ n'.bus.responses = n.bus.responses := by
  have hstart : Node.InStep { bus } := by
    refine ⟨List.nodup_nil, ?_⟩
    intro id
    simp [Node.registeredIds, hempty]
  have hn := hstart.run h
  exact ⟨hn.nodup, hn.mem, fun c n' out hexec hout => Node.exec_failure hexec hout⟩

/-- A response replaced, one removed, an identifier out of range, the bus closed. -/
theorem registered_ids_eq_responses_closed : ∃ n, run Node.step { bus := .create }
    [.setResponse 5 [0xAA], .setResponse 7 [1], .setResponse 5 [0xBB], .setResponse 7 [],
      .setResponse 0x40 [1], .onBus ⟨.close, rfl⟩, .setResponse 5 []] = some n ∧
      n.registeredIds = [5] ∧ n.registeredIds.Nodup ∧
      ∀ id, id ∈ n.registeredIds ↔ id ∈ n.bus.responses := by
  have hruns : (run Node.step { bus := .create }
      [.setResponse 5 [0xAA], .setResponse 7 [1], .setResponse 5 [0xBB], .setResponse 7 [],
        .setResponse 0x40 [1], .onBus ⟨.close, rfl⟩, .setResponse 5 []]).any fun n =>
        decide (n.registeredIds = [5]) := by decide +kernel
  obtain ⟨n, hn, hids⟩ := (Option.any_eq_true _ _).mp hruns
  rw [decide_eq_true_eq] at hids
  obtain ⟨hnodup, hmem, -⟩ := registered_ids_eq_responses rfl hn
  exact ⟨n, hn, hids, hnodup, hmem⟩

end CppLin.Slave
