import CppLin.Lib.Bytes

namespace CppLin.CText
open Bytes

/-- `s.find(k)`. -/
def find (k : CString) : CString → Option Nat
  | [] => if k = [] then some 0 else none
  | c :: s => if k.isPrefixOf (c :: s) then some 0 else (find k s).map (· + 1)

theorem find_split {k s : CString} {p : Nat} (h : find k s = some p) :
    ∃ pre t, s = pre ++ k ++ t ∧ pre.length = p := by
  induction s generalizing p with
  | nil =>
      rw [find] at h
      split_ifs at h with hk
      exact ⟨[], [], by rw [hk]; rfl, Option.some.inj h⟩
  | cons c s ih =>
      rw [find] at h
      split_ifs at h with hpre
      · obtain ⟨t, ht⟩ := List.isPrefixOf_iff_prefix.mp hpre
        exact ⟨[], t, ht.symm, Option.some.inj h⟩
      · obtain ⟨q, hq, rfl⟩ := Option.map_eq_some_iff.mp h
        obtain ⟨pre, t, rfl, rfl⟩ := ih hq
        exact ⟨c :: pre, t, rfl, rfl⟩

theorem not_occurs_of_find {k s : CString} (h : find k s = none) (pre t : CString) :
    s ≠ pre ++ k ++ t := by
  rintro rfl
  induction pre with
  | nil =>
      cases hk : k ++ t with
      | nil =>
          obtain ⟨rfl, rfl⟩ := List.append_eq_nil_iff.mp hk
          cases h
      | cons c s =>
          rw [List.nil_append, hk, find, if_pos] at h
          · cases h
          · rw [← hk]
            exact List.isPrefixOf_iff_prefix.mpr (List.prefix_append k t)
  | cons c pre ih =>
      rw [List.cons_append, List.cons_append, find] at h
      split_ifs at h
      exact ih (Option.map_eq_none_iff.mp h)

/-- `s.find(c)`. -/
def findChar (c : Char) (s : CString) : Option Nat := s.findIdx? (· == c)

/-- `s.rfind(c)`. -/
def rfindChar (c : Char) (s : CString) : Option Nat :=
  (findChar c s.reverse).map fun i => s.length - 1 - i

/-- `s.substr(pos, n)`. -/
def substr (s : CString) (pos n : Nat) : CString := (s.drop pos).take n

/-- The pieces `std::getline` extracts with a delimiter; at the end of the text an empty
piece is none. -/
def getlines (delim : Char) (s : CString) : List CString := go [] s
where
  go (piece : CString) : CString → List CString
    | [] => if piece = [] then [] else [piece]
    | c :: s => if c = delim then piece :: go [] s else go (piece ++ [c]) s

theorem getlines_go_flatten (delim : Char) (piece s : CString) :
    (getlines.go delim piece s).flatten = piece ++ s.filter (· ≠ delim) := by
  induction s generalizing piece with
  | nil =>
      rw [getlines.go]
      split_ifs with h
      · rw [h]; rfl
      · simp
  | cons c s ih =>
      rw [getlines.go]
      split_ifs with h
      · rw [List.flatten_cons, ih, List.filter_cons_of_neg (by simpa using h), List.nil_append]
      · rw [ih, List.filter_cons_of_pos (by simpa using h), List.append_assoc]
        rfl

theorem getlines_flatten (delim : Char) (s : CString) :
    (getlines delim s).flatten = s.filter (· ≠ delim) :=
  getlines_go_flatten delim [] s

/-- The words the extraction operator gives, for `space` what separates them. -/
def words (space : Char → Bool) (s : CString) : List CString := go [] s
where
  go (word : CString) : CString → List CString
    | [] => if word = [] then [] else [word]
    | c :: s =>
        if space c then (if word = [] then go [] s else word :: go [] s) else go (word ++ [c]) s

theorem findChar_of_not_mem {c : Char} {s : CString} (h : c ∉ s) : findChar c s = none := by
  rw [findChar, List.findIdx?_eq_none_iff]
  intro x hx
  exact beq_eq_false_iff_ne.mpr fun he => h (he ▸ hx)

/-- The first occurrence of a character is the one that has none before it. -/
theorem findChar_append {c : Char} {a : CString} (h : c ∉ a) (b : CString) :
    findChar c (a ++ c :: b) = some a.length := by
  induction a with
  | nil => simp [findChar, List.findIdx?_cons]
  | cons x a ih =>
      rw [List.mem_cons, not_or] at h
      have hrest := ih h.2
      rw [findChar] at hrest
      rw [findChar, List.cons_append, List.findIdx?_cons, hrest,
        if_neg (by simpa using Ne.symm h.1)]
      rfl

theorem rfindChar_append {c : Char} {b : CString} (h : c ∉ b) (a : CString) :
    rfindChar c (a ++ c :: b) = some a.length := by
  have hrev : (a ++ c :: b).reverse = b.reverse ++ c :: a.reverse := by simp
  rw [rfindChar, hrev, findChar_append (by simpa using h), Option.map_some]
  simp only [List.length_append, List.length_cons, List.length_reverse]
  congr 1
  omega

theorem find_of_not_mem {k : Char} {ks s : CString} (h : k ∉ s) : find (k :: ks) s = none := by
  induction s with
  | nil => rfl
  | cons x s ih =>
      rw [List.mem_cons, not_or] at h
      rw [find, ih h.2, if_neg]
      · rfl
      · simp [h.1]

theorem find_append {k : Char} {ks a : CString} (h : k ∉ a) (b : CString) :
    find (k :: ks) (a ++ (k :: ks ++ b)) = some a.length := by
  induction a with
  | nil =>
      rw [List.nil_append, List.cons_append, find, if_pos]
      · rfl
      · exact List.isPrefixOf_iff_prefix.mpr (List.prefix_append (k :: ks) b)
  | cons x a ih =>
      rw [List.mem_cons, not_or] at h
      rw [List.cons_append, find, ih h.2, if_neg]
      · rfl
      · simp [h.1]

theorem getlines_go_append {delim : Char} {a : CString} (h : delim ∉ a) (piece s : CString) :
    getlines.go delim piece (a ++ s) = getlines.go delim (piece ++ a) s := by
  induction a generalizing piece with
  | nil => rw [List.nil_append, List.append_nil]
  | cons x a ih =>
      rw [List.mem_cons, not_or] at h
      rw [List.cons_append, getlines.go, if_neg (Ne.symm h.1), ih h.2, List.append_assoc,
        List.singleton_append]

@[simp] theorem getlines_nil (delim : Char) : getlines delim [] = [] := rfl

theorem getlines_cons {delim : Char} {a : CString} (h : delim ∉ a) (s : CString) :
    getlines delim (a ++ delim :: s) = a :: getlines delim s := by
  rw [getlines, getlines_go_append h, List.nil_append, getlines.go, if_pos rfl, getlines]

theorem getlines_last {delim : Char} {a : CString} (h : delim ∉ a) (hne : a ≠ []) :
    getlines delim a = [a] := by
  have hgo := getlines_go_append h [] []
  rw [List.append_nil, List.nil_append] at hgo
  rw [getlines, hgo, getlines.go, if_neg hne]

theorem words_go_append {space : Char → Bool} {a : CString} (h : ∀ c ∈ a, space c = false)
    (word s : CString) : words.go space word (a ++ s) = words.go space (word ++ a) s := by
  induction a generalizing word with
  | nil => rw [List.nil_append, List.append_nil]
  | cons x a ih =>
      rw [List.cons_append, words.go, if_neg (by simp [h x List.mem_cons_self]),
        ih fun c hc => h c (List.mem_cons_of_mem x hc), List.append_assoc, List.singleton_append]

theorem words_cons {space : Char → Bool} {a : CString} (h : ∀ c ∈ a, space c = false)
    (hne : a ≠ []) {c : Char} (hc : space c = true) (s : CString) :
    words space (a ++ c :: s) = a :: words space s := by
  rw [words, words_go_append h, List.nil_append, words.go, if_pos hc, if_neg hne, words]

theorem words_last {space : Char → Bool} {a : CString} (h : ∀ c ∈ a, space c = false)
    (hne : a ≠ []) : words space a = [a] := by
  have hgo := words_go_append h [] []
  rw [List.append_nil, List.nil_append] at hgo
  rw [words, hgo, words.go, if_neg hne]

/-- The lines of a text, each with its line break. -/
def unlines (delim : Char) (lines : List CString) : CString :=
  (lines.map (· ++ [delim])).flatten

theorem getlines_unlines {delim : Char} {lines : List CString} (h : ∀ line ∈ lines, delim ∉ line)
    (s : CString) : getlines delim (unlines delim lines ++ s) = lines ++ getlines delim s := by
  induction lines with
  | nil => rfl
  | cons line lines ih =>
      have hline := getlines_cons (h line List.mem_cons_self) (unlines delim lines ++ s)
      rw [unlines, List.map_cons, List.flatten_cons, List.append_assoc, List.append_assoc,
        List.singleton_append, List.cons_append]
      exact hline.trans (congrArg _ (ih fun l hl => h l (List.mem_cons_of_mem line hl)))

theorem getlines_go_split (delim : Char) (piece a b : CString) :
    ∃ blank : List CString, (∀ line ∈ blank, line = []) ∧
      getlines.go delim piece (a ++ delim :: b) =
        getlines.go delim piece a ++ blank ++ getlines delim b := by
  induction a generalizing piece with
  | nil =>
      have hcut : getlines.go delim piece (delim :: b) = piece :: getlines delim b := by
        rw [getlines.go, if_pos rfl, getlines]
      rw [List.nil_append, hcut, getlines.go]
      split_ifs with hpiece
      · exact ⟨[[]], by simp, by rw [hpiece]; rfl⟩
      · exact ⟨[], by simp, rfl⟩
  | cons c a ih =>
      rw [List.cons_append, getlines.go, getlines.go]
      split_ifs
      · obtain ⟨blank, hblank, hgo⟩ := ih []
        exact ⟨blank, hblank, by rw [hgo, List.cons_append, List.cons_append]⟩
      · exact ih _

/-- A text cut at a delimiter is two texts, but for an empty piece at the cut. -/
theorem getlines_split (delim : Char) (a b : CString) :
    ∃ blank : List CString, (∀ line ∈ blank, line = []) ∧
      getlines delim (a ++ delim :: b) = getlines delim a ++ blank ++ getlines delim b :=
  getlines_go_split delim [] a b

end CppLin.CText
