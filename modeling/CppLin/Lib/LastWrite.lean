import Mathlib

namespace CppLin.LastWrite

variable {κ ω : Type*} {β : κ → Type*} [DecidableEq κ] (key : ω → κ)

def latest (k : κ) (ws : List ω) : Option ω := ws.reverse.find? fun w => key w = k

@[simp] theorem latest_nil (k : κ) : latest key k [] = none := rfl

theorem latest_concat_same {k : κ} {w : ω} (h : key w = k) (ws : List ω) :
    latest key k (ws ++ [w]) = some w := by
  simp [latest, h]

theorem latest_concat_other {k : κ} {w : ω} (h : key w ≠ k) (ws : List ω) :
    latest key k (ws ++ [w]) = latest key k ws := by
  simp [latest, h]

theorem latest_append_other {k : κ} {ws more : List ω} (h : ∀ w ∈ more, key w ≠ k) :
    latest key k (ws ++ more) = latest key k ws := by
  induction more using List.reverseRecOn with
  | nil => rw [List.append_nil]
  | append_singleton more w ih =>
      rw [← List.append_assoc, latest_concat_other key (h w (by simp))]
      exact ih fun x hx => h x (List.mem_append_left [w] hx)

theorem latest_spec {k : κ} {ws : List ω} {w : ω} (h : latest key k ws = some w) :
    w ∈ ws ∧ key w = k := by
  refine ⟨List.mem_reverse.mp (List.mem_of_find?_eq_some h), ?_⟩
  simpa using List.find?_some h

/-- The last write to a key splits the writes: none to that key follows it. -/
theorem latest_split {k : κ} {ws : List ω} {w : ω} (h : latest key k ws = some w) :
    ∃ pre post, ws = pre ++ w :: post ∧ key w = k ∧ ∀ x ∈ post, key x ≠ k := by
  induction ws using List.reverseRecOn with
  | nil => cases h
  | append_singleton ws x ih =>
      by_cases hx : key x = k
      · rw [latest_concat_same key hx] at h
        obtain rfl := Option.some.inj h
        exact ⟨ws, [], rfl, hx, by simp⟩
      · rw [latest_concat_other key hx] at h
        obtain ⟨pre, post, rfl, hw, hpost⟩ := ih h
        refine ⟨pre, post ++ [x], by simp, hw, fun y hy => ?_⟩
        rcases List.mem_append.mp hy with hold | hnew
        · exact hpost y hold
        · rw [List.mem_singleton.mp hnew]
          exact hx

theorem latest_of_split {k : κ} {pre post : List ω} {w : ω} (hw : key w = k)
    (hpost : ∀ x ∈ post, key x ≠ k) : latest key k (pre ++ w :: post) = some w := by
  rw [List.append_cons, latest_append_other key hpost, latest_concat_same key hw]

theorem latest_eq_none_iff {k : κ} {ws : List ω} :
    latest key k ws = none ↔ ∀ w ∈ ws, key w ≠ k := by
  simp [latest]

theorem foldl_update_apply (val : (k : κ) → ω → β k) (m : (k : κ) → β k) (ws : List ω) (k : κ) :
    ws.foldl (fun m w => Function.update m (key w) (val (key w) w)) m k =
      (latest key k ws).elim (m k) (val k) := by
  induction ws using List.reverseRecOn with
  | nil => rfl
  | append_singleton ws w ih =>
      rw [List.foldl_append, List.foldl_cons, List.foldl_nil]
      by_cases h : key w = k
      · subst h
        rw [latest_concat_same key rfl, Function.update_self, Option.elim_some]
      · rw [latest_concat_other key h, Function.update_of_ne (Ne.symm h), ih]

/-- When no key is written twice, the last write is the only one. -/
theorem latest_eq_find? {ws : List ω} (h : (ws.map key).Nodup) (k : κ) :
    latest key k ws = ws.find? fun w => key w = k := by
  induction ws using List.reverseRecOn with
  | nil => rfl
  | append_singleton ws w ih =>
      rw [List.map_append, List.nodup_append] at h
      obtain ⟨hnodup, -, hdisj⟩ := h
      rw [List.find?_append]
      by_cases hw : key w = k
      · have hnone : (ws.find? fun w => key w = k) = none := by
          rw [List.find?_eq_none]
          intro x hx
          have hne := hdisj (key x) (List.mem_map_of_mem hx) (key w) (by simp)
          simpa [hw] using hne
        rw [latest_concat_same key hw, hnone, Option.none_or,
          List.find?_singleton, if_pos (by simpa using hw)]
      · rw [latest_concat_other key hw, ih hnodup, List.find?_singleton, if_neg (by simpa using hw),
          Option.or_none]

theorem lookup_foldl_insert {β : Type*} (val : ω → β) (m : AList fun _ : κ => β) (ws : List ω)
    (k : κ) : (ws.foldl (fun m w => m.insert (key w) (val w)) m).lookup k =
      ((latest key k ws).map val).or (m.lookup k) := by
  induction ws using List.reverseRecOn with
  | nil => rfl
  | append_singleton ws w ih =>
      rw [List.foldl_append, List.foldl_cons, List.foldl_nil]
      by_cases h : key w = k
      · subst h
        rw [latest_concat_same key rfl, AList.lookup_insert]
        rfl
      · rw [latest_concat_other key h, AList.lookup_insert_ne (Ne.symm h), ih]

theorem find?_unique {l : List ω} {p : ω → Bool} {a : ω} (ha : a ∈ l) (hp : p a = true)
    (huniq : ∀ b ∈ l, p b = true → b = a) : l.find? p = some a := by
  cases h : l.find? p with
  | none => exact absurd hp (List.find?_eq_none.mp h a ha)
  | some b => rw [huniq b (List.mem_of_find?_eq_some h) (List.find?_some h)]

theorem find?_key {ws : List ω} (h : (ws.map key).Nodup) {w : ω} (hw : w ∈ ws) :
    (ws.find? fun x => key x = key w) = some w :=
  find?_unique hw (by simp) fun x hx he =>
    List.inj_on_of_nodup_map h hx hw (by simpa using he)

end CppLin.LastWrite
