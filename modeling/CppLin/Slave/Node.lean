import CppLin.Virtual.Bus

namespace CppLin.Slave
open Bytes Virt

/-- `ids` are the registered identifiers. -/
structure Node (β : Type) where
  bus : β
  ids : List UInt8 := []

namespace Node

section
variable {β : Type} [IBus β]

/-- The first step of `set_response`: the bus publishes, under its own lock. -/
def publishResponse (n : Node β) (id : UInt8) (data : Payload) : Node β × Option ErrorCode :=
  let (bus, e) := IBus.publish n.bus id data
  ({ n with bus }, e)

/-- The second step: the list is brought up to date, under the node's lock. -/
def recordId (n : Node β) (id : UInt8) (data : Payload) : Node β :=
  { n with
    ids :=
      if data = [] then n.ids.erase id
      else if id ∈ n.ids then n.ids
      else n.ids ++ [id] }

def setResponse (n : Node β) (id : UInt8) (data : Payload) : Node β × Option ErrorCode :=
  if id > kLINMaxID then (n, some (.lin .invalidFrame))
  else
    match n.publishResponse id data with
    | (n, some e) => (n, some e)
    | (n, none) => (n.recordId id data, none)

end

variable {β : Type}

def registeredIds (n : Node β) : List UInt8 := n.ids

theorem recordId_nodup {n : Node β} (h : n.ids.Nodup) (id : UInt8) (data : Payload) :
    (n.recordId id data).ids.Nodup := by
  unfold recordId
  split_ifs with hd hid
  · exact h.erase id
  · exact h
  · exact List.nodup_append.mpr ⟨h, List.nodup_singleton id, by grind⟩

theorem mem_recordId {n : Node β} (h : n.ids.Nodup) (id : UInt8) (data : Payload) (i : UInt8) :
    i ∈ (n.recordId id data).ids ↔ if i = id then data ≠ [] else i ∈ n.ids := by
  unfold recordId
  by_cases hd : data = []
  · simp only [if_pos hd, h.mem_erase_iff]
    by_cases hi : i = id <;> simp [hi, hd]
  · simp only [if_neg hd]
    by_cases hi : i = id
    · subst hi
      by_cases hid : i ∈ n.ids <;> simp [hid, hd]
    · by_cases hid : id ∈ n.ids <;> simp [hid, hi]

theorem publishResponse_of_open {n : Node Bus} (hopen : n.bus.closed = false) {id : UInt8}
    (hid : id ≤ kLINMaxID) (data : Payload) :
    ∃ b, n.publishResponse id data = ({ n with bus := b }, none) ∧ b.closed = false ∧
      ∀ i, i ∈ b.responses ↔ if i = id then data ≠ [] else i ∈ n.bus.responses := by
  obtain ⟨b, hb, hopen', hmem⟩ := Bus.doPublish_of_open hopen hid data .enhanced
  refine ⟨b, ?_, hopen', hmem⟩
  change (({ n with bus := (n.bus.doPublish id data .enhanced).1 } : Node Bus),
    (n.bus.doPublish id data .enhanced).2) = _
  rw [hb]

end Node

end CppLin.Slave
