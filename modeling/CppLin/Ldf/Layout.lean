import CppLin.Ldf.Lines

/-!
The layout of a description does not matter: margins, carriage returns, comments and blank lines
may be put in or taken out, whatever the lines hold.
-/
namespace CppLin.Ldf
open Bytes CNumber CText

/-- Nothing, or a comment to the end of the line. -/
def IsComment (s : CString) : Prop := s = [] ∨ "//".toList <+: s

/-- The line `l` with margins around it and a comment behind. -/
inductive Dressed (l : CString) : CString → Prop
  | mk {a b r : CString} (ha : ∀ c ∈ a, isMargin c = true) (hb : ∀ c ∈ b, isMargin c = true)
      (hr : IsComment r) (apart : b = [] → r = [] ∨ l.getLast? ≠ some '/') :
      Dressed l (a ++ l ++ b ++ r)

/-- The lines of one text, dressed, with blank lines and lines of comment between them. -/
inductive Relaid : List CString → List CString → Prop
  | nil : Relaid [] []
  | line {l l' : CString} {ls ls' : List CString} (h : Dressed l l') (hs : Relaid ls ls') :
      Relaid (l :: ls) (l' :: ls')
  | blank {l' : CString} {ls ls' : List CString} (h : Dressed [] l') (hs : Relaid ls ls') :
      Relaid ls (l' :: ls')

/-- Whether two slashes begin at a character depends on the next one. -/
theorem slashes_prefix {c : Char} {s : CString} :
    "//".toList <+: c :: s ↔ c = '/' ∧ s.head? = some '/' := by
  change ['/', '/'] <+: c :: s ↔ _
  rw [List.cons_prefix_cons]
  cases s <;> simp [eq_comm]

/-- Two slashes are not found across the end of a text that holds none and ends in none. -/
theorem find_slashes_append {l t : CString} (hl : find "//".toList l = none)
    (hj : l.getLast? ≠ some '/' ∨ t.head? ≠ some '/') :
    find "//".toList (l ++ t) = (find "//".toList t).map (l.length + ·) := by
  induction l with
  | nil => simp
  | cons c l ih =>
      rw [find] at hl
      split_ifs at hl with hpre
      rw [Option.map_eq_none_iff] at hl
      rw [List.isPrefixOf_iff_prefix, slashes_prefix, not_and] at hpre
      have hhead : ¬ "//".toList.isPrefixOf (c :: (l ++ t)) := by
        rw [List.isPrefixOf_iff_prefix, slashes_prefix]
        rintro ⟨rfl, hnext⟩
        cases l with
        | nil => simp_all
        | cons d l => exact hpre rfl hnext
      have hj' : l.getLast? ≠ some '/' ∨ t.head? ≠ some '/' := by
        cases l with
        | nil => exact .inl (by simp)
        | cons d l => rwa [List.getLast?_cons_cons] at hj
      rw [List.cons_append, find, if_neg hhead, ih hl hj', Option.map_map]
      congr 1
      funext k
      simp only [Function.comp_apply, List.length_cons]
      omega

theorem find_append_of_some {k l : CString} {p : Nat} (h : find k l = some p) (t : CString) :
    find k (l ++ t) = some p := by
  induction l generalizing p with
  | nil =>
      rw [find] at h
      split_ifs at h with hk
      obtain rfl := Option.some.inj h
      subst hk
      cases t <;> simp [find]
  | cons c l ih =>
      rw [find] at h
      rw [List.cons_append, find]
      split_ifs at h with hpre
      · obtain rfl := Option.some.inj h
        rw [List.isPrefixOf_iff_prefix] at hpre
        exact if_pos (List.isPrefixOf_iff_prefix.mpr (hpre.trans (List.prefix_append (c :: l) t)))
      · obtain ⟨q, hq, rfl⟩ := Option.map_eq_some_iff.mp h
        obtain ⟨pre, rest, hsplit, -⟩ := find_split hq
        have hlength : k.length ≤ (c :: l).length := by
          rw [hsplit, List.length_cons, List.length_append, List.length_append]
          omega
        rw [if_neg, ih hq, Option.map_some]
        rw [List.isPrefixOf_iff_prefix] at hpre ⊢
        exact fun hlong => hpre
          (List.prefix_of_prefix_length_le hlong (List.prefix_append (c :: l) t) hlength)

theorem find_margins {a : CString} (ha : ∀ c ∈ a, isMargin c = true) :
    find "//".toList a = none ∧ a.getLast? ≠ some '/' := by
  have hslash : '/' ∉ a := fun hmem => absurd (ha _ hmem) (by decide)
  exact ⟨find_of_not_mem hslash, fun hlast => hslash (List.mem_of_mem_getLast? hlast)⟩

theorem Dressed.stripComment {l l' : CString} (h : Dressed l l') :
    stripComment l' = stripComment l := by
  obtain @⟨a, b, r, ha, hb, hr, apart⟩ := h
  obtain ⟨hnone, hlast⟩ := find_margins ha
  have hfind : find "//".toList (a ++ l ++ b ++ r) =
      (find "//".toList (l ++ (b ++ r))).map (a.length + ·) := by
    rw [List.append_assoc, List.append_assoc, find_slashes_append hnone (.inl hlast)]
  rw [Ldf.stripComment, Ldf.stripComment, hfind]
  cases hl : find "//".toList l with
  | some p =>
      obtain ⟨pre, t, rfl, rfl⟩ := find_split hl
      rw [find_append_of_some hl, Option.map_some]
      simp only [List.append_assoc, List.take_length_add_append, List.take_left']
      have hpad := trim_pad ha (b := []) (by simp) pre
      rwa [List.append_nil] at hpad
  | none =>
      obtain ⟨hnone', hlast'⟩ := find_margins hb
      have hjoin : l.getLast? ≠ some '/' ∨ (b ++ r).head? ≠ some '/' := by
        cases b with
        | nil =>
            rcases apart rfl with rfl | hend
            · exact .inr (by simp)
            · exact .inl hend
        | cons x b =>
            have hx := hb x List.mem_cons_self
            exact .inr fun he => by
              obtain rfl := Option.some.inj he
              exact absurd hx (by decide)
      rw [find_slashes_append hl hjoin, find_slashes_append hnone' (.inl hlast')]
      rcases hr with rfl | ⟨rest, rfl⟩
      · have hnil : find "//".toList [] = none := rfl
        rw [hnil]
        simp only [Option.map_none, List.append_nil]
        exact trim_pad ha hb l
      · have hstart : find "//".toList ("//".toList ++ rest) = some 0 :=
          find_append_of_some (k := "//".toList) (by decide) rest
        have hindex : a.length + (l.length + (b.length + 0)) = (a ++ l ++ b).length := by
          rw [List.length_append, List.length_append]
          omega
        rw [hstart]
        simp only [Option.map_some, hindex]
        rw [List.take_left' rfl]
        exact trim_pad ha hb l

theorem Relaid.contents {ls ls' : List CString} (h : Relaid ls ls') :
    (ls'.map stripComment).filter (· ≠ []) = (ls.map stripComment).filter (· ≠ []) := by
  induction h with
  | nil => rfl
  | line h hs ih => rw [List.map_cons, List.map_cons, h.stripComment, List.filter_cons,
      List.filter_cons, ih]
  | blank h hs ih =>
      have hnil : stripComment [] = [] := by decide
      rw [List.map_cons, h.stripComment, hnil, List.filter_cons_of_neg (by simp), ih]

/-- The parser gives the same database for a text and for the same lines with margins and
comments added and blank lines between them, whatever the lines hold. -/
theorem parse_relaid (wild : Binary64 → UInt64) {ls ls' : List CString} (h : Relaid ls ls')
    (hls : ∀ l ∈ ls, '\n' ∉ l) (hls' : ∀ l ∈ ls', '\n' ∉ l) :
    parse wild (unlines '\n' ls') = parse wild (unlines '\n' ls) := by
  have hlines : ∀ {ls : List CString}, (∀ l ∈ ls, '\n' ∉ l) → getlines '\n' (unlines '\n' ls) = ls := by
    intro ls hls
    have hall := getlines_unlines hls []
    rw [List.append_nil] at hall
    rw [hall]
    exact List.append_nil ls
  rw [parse, parse, contentLines, contentLines, hlines hls, hlines hls', h.contents]

/-- The lines as they are sent from another system, with remarks. -/
theorem parse_relaid_remarks :
    parse (fun _ => 0) (unlines '\n' ["  Nodes \x7b\r".toList, "// the nodes\r".toList, "\r".toList,
      "\tMaster: M ; // one\r".toList, "\x7d\r".toList]) =
    parse (fun _ => 0) (unlines '\n' ["Nodes \x7b".toList, "Master: M ;".toList, "\x7d".toList]) := by
  have hfeed : ∀ c ∈ ['\r'], isMargin c = true := by simp [isMargin]
  have hnone : ∀ c ∈ ([] : CString), isMargin c = true := by simp
  have hnodes : Dressed "Nodes \x7b".toList "  Nodes \x7b\r".toList :=
    .mk (a := [' ', ' ']) (r := []) (by simp [isMargin]) hfeed (.inl rfl) (fun h => absurd h (by simp))
  have hremark : Dressed [] "// the nodes\r".toList :=
    .mk (r := "// the nodes\r".toList) hnone hnone (.inr ⟨_, rfl⟩) (fun _ => .inr (by simp))
  have hblank : Dressed [] "\r".toList :=
    .mk (r := []) hnone hfeed (.inl rfl) (fun _ => .inl rfl)
  have hmaster : Dressed "Master: M ;".toList "\tMaster: M ; // one\r".toList :=
    .mk (a := ['\t']) (b := [' ']) (r := "// one\r".toList) (by simp [isMargin]) (by simp [isMargin])
      (.inr ⟨_, rfl⟩) (fun h => absurd h (by simp))
  have hend : Dressed "\x7d".toList "\x7d\r".toList :=
    .mk (r := []) hnone hfeed (.inl rfl) (fun h => absurd h (by simp))
  exact parse_relaid (fun _ => 0)
    (.line hnodes (.blank hremark (.blank hblank (.line hmaster (.line hend .nil)))))
    (by decide) (by decide)

end CppLin.Ldf
