import CppLin.Lib.JsonText

/-!
Which texts are JSON: values of every kind, written without white space between the tokens and
without escapes in the strings.
-/
namespace CppLin.JsonText
open Bytes CNumber

def arrayText (elements : List CString) : CString :=
  '[' :: List.intercalate [','] elements ++ [']']

inductive IsJson : CString → Prop where
  | nat (n : Nat) : IsJson (toCString n)
  | str {s : CString} (hs : s.all isPlain = true) : IsJson ('"' :: s ++ ['"'])
  | bool (b : Bool) : IsJson (toString b).toList
  | array {elements : List CString} (h : ∀ x ∈ elements, IsJson x) : IsJson (arrayText elements)
  | object {members : List (CString × CString)}
      (hkeys : (members.all fun m => m.1.all isPlain) = true)
      (hvalues : ∀ m ∈ members, IsJson m.2) : IsJson (objectText members)

theorem isJson_strings {names : List CString} (h : (names.all fun s => s.all isPlain) = true) :
    IsJson (arrayText (names.map fun s => '"' :: s ++ ['"'])) := by
  refine .array fun x hx => ?_
  obtain ⟨s, hs, rfl⟩ := List.mem_map.mp hx
  exact .str (List.all_eq_true.mp h s hs)

theorem mem_intercalate {c : Char} {sep : CString} {texts : List CString}
    (h : c ∈ List.intercalate sep texts) : c ∈ sep ∨ ∃ s ∈ texts, c ∈ s := by
  obtain ⟨part, hpart, hc⟩ := List.mem_flatten.mp h
  induction texts using List.twoStepInduction with
  | nil => cases hpart
  | singleton s => exact .inr ⟨part, hpart, hc⟩
  | cons_cons s s' texts _ ih =>
      rw [List.intersperse_cons_cons, List.mem_cons, List.mem_cons] at hpart
      rcases hpart with rfl | rfl | hpart
      · exact .inr ⟨part, List.mem_cons_self, hc⟩
      · exact .inl hc
      · exact (ih s' (List.mem_flatten.mpr ⟨part, hpart, hc⟩) hpart).imp_right
          fun ⟨t, ht, hmem⟩ => ⟨t, List.mem_cons_of_mem _ ht, hmem⟩

theorem not_newline_plain {s : CString} (h : s.all isPlain = true) : '\n' ∉ s := fun hmem =>
  absurd (List.all_eq_true.mp h _ hmem) (by decide)

theorem not_newline_commas {texts : List CString} (h : ∀ s ∈ texts, '\n' ∉ s) :
    '\n' ∉ List.intercalate [','] texts := by
  intro hmem
  rcases mem_intercalate hmem with hsep | ⟨s, hs, hc⟩
  · exact absurd hsep (by decide)
  · exact h s hs hc

theorem IsJson.one_line {text : CString} (h : IsJson text) : '\n' ∉ text := by
  induction h with
  | nat n => exact fun hmem => absurd ((toCString_isDecimal n).2 _ hmem) (by decide)
  | str hs =>
      have hplain := not_newline_plain hs
      simp [hplain]
  | bool b => cases b <;> decide
  | array _ ih =>
      have hin := not_newline_commas ih
      simp [arrayText, hin]
  | @object members hkeys _ ih =>
      have hin : '\n' ∉ List.intercalate [','] (members.map fun m => memberText m.1 m.2) := by
        refine not_newline_commas fun s hs => ?_
        obtain ⟨m, hm, rfl⟩ := List.mem_map.mp hs
        have hkey := not_newline_plain (List.all_eq_true.mp hkeys m hm)
        have hvalue := ih m hm
        simp [memberText, hkey, hvalue]
      simp [objectText, hin]

theorem intercalate_around (sep x : CString) (before after : List CString) :
    List.intercalate sep (before ++ x :: after) =
      (before.map (· ++ sep)).flatten ++ x ++ (after.map (sep ++ ·)).flatten := by
  have hafter : List.intercalate sep (x :: after) = x ++ (after.map (sep ++ ·)).flatten := by
    induction after generalizing x with
    | nil => simp [List.intercalate]
    | cons y after ih =>
        have hrest := ih y
        simp only [List.intercalate, List.intersperse_cons_cons, List.flatten_cons, List.map_cons] at hrest ⊢
        rw [hrest, List.append_assoc]
  induction before with
  | nil => simpa using hafter
  | cons y before ih =>
      have hne : before ++ x :: after ≠ [] := by simp
      obtain ⟨z, rest, hz⟩ := List.exists_cons_of_ne_nil hne
      rw [hz] at ih
      rw [List.cons_append, hz]
      simp only [List.intercalate, List.intersperse_cons_cons, List.flatten_cons, List.map_cons,
        List.append_assoc] at ih ⊢
      rw [ih]

/-- An object text cut at the value of one of its members, a string. -/
theorem objectText_around {before after : List (CString × CString)} {key text₁ text₂ : CString}
    (h₁ : text₁ = '\x7b' :: (before.map fun m => memberText m.1 m.2 ++ [',']).flatten ++ '"' :: key ++
      ['"', ':', '"'])
    (h₂ : text₂ = '"' :: (after.map fun m => ',' :: memberText m.1 m.2).flatten ++ ['\x7d'])
    (s : CString) :
    text₁ ++ s ++ text₂ = objectText (before ++ (key, '"' :: s ++ ['"']) :: after) := by
  rw [objectText, List.map_append, List.map_cons, intercalate_around, List.map_map, List.map_map,
    h₁, h₂]
  simp [memberText, Function.comp_def]

end CppLin.JsonText
