import CppLin.Ldf.Invariant
import CppLin.Master.Node

namespace CppLin.Ldf
open Bytes CNumber

/-- Every entry of every table has the identifier of a stored frame, and a valid one. -/
def Runnable (db : DB) : Prop :=
  ∀ name entries, db.schedules_.lookup name = some entries →
    ∀ e ∈ entries, e.id ∈ db.frames_ ∧ e.id ≤ kLINMaxID

theorem mem_frames_of_idOf {db : DB} {name : CString} {id : UInt8} (h : db.idOf name = some id) :
    id ∈ db.frames_ := by
  have hany := List.find?_some h
  cases hlook : db.frames_.lookup id with
  | none => simp [hlook] at hany
  | some fr => exact AList.lookup_isSome.mp (by rw [hlook]; rfl)

variable {wild : Binary64 → UInt64}

/-- The sentinel 0xFF of an unknown name is no valid identifier, so an entry's
identifier was found in the table. -/
theorem readEntry_id {db : DB} {inner : CString} {e : ScheduleEntry}
    (h : readEntry wild db inner = some e) : e.id ∈ db.frames_ ∧ e.id ≤ kLINMaxID := by
  obtain ⟨name, hid, hle⟩ : ∃ name, e.id = (db.idOf name).getD 0xFF ∧ e.id ≤ kLINMaxID := by
    unfold readEntry at h
    simp only at h
    split at h
    · cases h
    · split at h
      · split at h
        · cases h
        · split at h
          · obtain rfl := Option.some.inj h
            exact ⟨_, rfl, by assumption⟩
          · cases h
      · cases h
  refine ⟨?_, hle⟩
  cases hfound : db.idOf name with
  | none =>
    rw [hid, hfound] at hle
    exact absurd hle (by decide)
  | some id =>
    rw [hid, hfound]
    exact mem_frames_of_idOf hfound

theorem runnable_preserved : Preserved wild Runnable where
  protocolVersion _ _ h := h
  languageVersion _ _ h := h
  speed _ _ h := h
  node line db h := by
    obtain ⟨master, slaves, hnode⟩ := readNode_nodes line db
    rw [hnode]
    exact h
  signal _ _ _ _ h := h
  frame line hdr refs db _ h := by
    intro name entries hlook e he
    obtain ⟨hmem, hle⟩ := h name entries hlook e he
    exact ⟨(AList.mem_insert _).mpr (.inr hmem), hle⟩
  schedule name entries db hnew h := by
    intro name' entries' hlook e he
    change (db.schedules_.insert name entries).lookup name' = some entries' at hlook
    by_cases hname : name' = name
    · subst hname
      rw [AList.lookup_insert] at hlook
      obtain rfl := Option.some.inj hlook
      obtain ⟨inner, hread⟩ := hnew e he
      exact readEntry_id hread
    · rw [AList.lookup_insert_ne hname] at hlook
      exact h name' entries' hlook e he

theorem parse_runnable (wild : Binary64 → UInt64) (text : CString) : Runnable (parse wild text) :=
  parse_invariant runnable_preserved (by intro name entries hlook; simp at hlook) text

/-- Whatever the text, a master takes every table of it, declared or not. -/
theorem schedules_run (wild : Binary64 → UInt64) (text : CString) :
    (∀ name entries, (parse wild text).schedules_.lookup name = some entries →
      ∀ e ∈ entries, e.id ∈ (parse wild text).frames_ ∧ e.id ≤ 0x3F) ∧
    ∀ {β : Type} (n : Master.Node β) (name : CString),
      n.setSchedule ((parse wild text).schedule name) =
        ({ n with schedule := (parse wild text).schedule name }, none) := by
  have hrun := parse_runnable wild text
  refine ⟨hrun, ?_⟩
  intro β n name
  refine (Master.Node.setSchedule_ok_iff n _ _).mpr ⟨?_, rfl⟩
  intro e he
  cases hlook : (parse wild text).schedules_.lookup name with
  | none => simp [DB.schedule, hlook] at he
  | some entries =>
    rw [DB.schedule, hlook] at he
    exact (hrun name entries hlook e he).2

end CppLin.Ldf
