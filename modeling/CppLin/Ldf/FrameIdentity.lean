import CppLin.Ldf.Headers

namespace CppLin.Ldf
open Bytes CNumber LastWrite

namespace Header

/-- The integer the identifier token reads as; there is none when the token is missing or
does not convert. -/
def declaredId (h : Header) : Option Int := h.fields.head?.bind fun tok => (parseInt tok).toOption

def InRange (h : Header) : Prop := ∃ n, h.declaredId = some n ∧ 0 ≤ n ∧ n ≤ 0x3F

/-- Less than the three fields of a frame: the identifier, the publisher and the length. -/
def Short (h : Header) : Prop := h.fields.length < 3

theorem frame_id_of_short {h : Header} (hs : h.Short) : h.frame.id = 0 := by
  unfold Short at hs
  unfold frame
  split
  · rename_i hf
    rw [hf] at hs
    simp only [List.length_cons] at hs
    omega
  · rfl

theorem toNat_frame_id {h : Header} {n : Int} (hs : ¬ h.Short) (hn : h.declaredId = some n)
    (h0 : 0 ≤ n) (h63 : n ≤ 0x3F) : (h.frame.id.toNat : Int) = n := by
  unfold Short at hs
  unfold declaredId at hn
  unfold frame
  split
  · rename_i tok publisher length rest hf
    rw [hf, List.head?_cons, Option.bind_some] at hn
    cases hp : parseInt tok with
    | error e => rw [hp] at hn; cases hn
    | ok m =>
        rw [hp] at hn
        obtain rfl := Option.some.inj hn
        simp only [UInt8.ofInt, UInt8.toNat_ofNat']
        omega
  · rename_i hf
    rcases hfields : h.fields with _ | ⟨a, _ | ⟨b, _ | ⟨c, rest⟩⟩⟩
    · simp [hfields] at hs
    · simp [hfields] at hs
    · simp [hfields] at hs
    · exact absurd hfields (hf a b c rest)

end Header

/-- The parser stores nothing at this line, whatever it has stored before and whatever the
lines up to the closing brace hold. -/
def StoresNothing (line : CString) : Prop :=
  ∀ (db : DB) (block : List CString), (∀ inner ∈ block, inner ≠ endLine) →
    (frameLines (line :: (block ++ [endLine])) db).2.frames_ = db.frames_

/-- Every frame is stored under its own identifier, one that a header of its name declares
and that is in range; a header that declares none in range stores nothing. -/
structure FrameIdentity (text : CString) (db : DB) : Prop where
  entries : ∀ k fr, db.frame k = some fr → k = fr.id ∧ k ≤ 0x3F ∧
    ∃ h ∈ frameHeaders text, h.name = fr.name ∧ h.declaredId = some (k.toNat : Int)
  ignored : ∀ line ∈ headerLines .top (contentLines text), ∀ h, readHeader line = some h →
    ¬ h.InRange → StoresNothing line

/-- A short header after which no header is short or declares zero shares its name with a
header that declares zero. -/
def ZeroDeclared (hs : List Header) : Prop :=
  ∀ pre h post, hs = pre ++ h :: post → h.Short →
    (∀ g ∈ post, ¬ g.Short ∧ g.declaredId ≠ some 0) →
    ∃ g ∈ hs, g.name = h.name ∧ g.declaredId = some 0

theorem readsHeader_line {m : Mode} {line : CString} (h : m.readsHeader line) :
    line ≠ endLine ∧ '\x7b' ∈ line := by
  unfold Mode.readsHeader at h
  split at h
  · exact h.2
  · exact h
  · exact h.elim

theorem headerLines_line {m : Mode} {lines : List CString} {line : CString}
    (h : line ∈ headerLines m lines) : line ≠ endLine ∧ '\x7b' ∈ line := by
  induction lines generalizing m with
  | nil => cases m <;> cases h
  | cons l lines ih =>
      rw [headerLines] at h
      split_ifs at h with hreads
      · rcases List.mem_cons.mp h with rfl | hmem
        · exact readsHeader_line hreads
        · exact ih hmem
      · exact ih h

theorem not_storesNothing {line : CString} {h : Header} (hend : line ≠ endLine)
    (hbrace : '\x7b' ∈ line) (hread : readHeader line = some h) : ¬ StoresNothing line := by
  intro hnothing
  have hstore := hnothing {} [] (by simp)
  rw [List.nil_append, frameLines, if_neg hend, if_pos hbrace, hread] at hstore
  simp only at hstore
  rw [parseRefs, if_pos rfl, frameLines] at hstore
  have hlookup := congrArg (fun files => AList.lookup h.frame.id files) hstore
  simp only [storeFrame] at hlookup
  rw [AList.lookup_insert, AList.lookup_empty] at hlookup
  cases hlookup

theorem mem_frameHeaders {text : CString} {h : Header} :
    h ∈ frameHeaders text ↔
      ∃ line ∈ headerLines .top (contentLines text), readHeader line = some h := by
  rw [frameHeaders, headers, List.mem_filterMap]

theorem inRange_of_ignored {text : CString}
    (hignored : ∀ line ∈ headerLines .top (contentLines text), ∀ h, readHeader line = some h →
      ¬ h.InRange → StoresNothing line) {h : Header} (hh : h ∈ frameHeaders text) : h.InRange := by
  obtain ⟨line, hline, hread⟩ := mem_frameHeaders.mp hh
  obtain ⟨hend, hbrace⟩ := headerLines_line hline
  by_contra hrange
  exact not_storesNothing hend hbrace hread (hignored line hline h hread hrange)

/-- When every header is in range, the key zero is that of the headers that are short or
declare zero. -/
theorem frame_id_ne_zero {h : Header} (hr : h.InRange) :
    h.frame.id ≠ 0 ↔ ¬ h.Short ∧ h.declaredId ≠ some 0 := by
  obtain ⟨n, hn, h0, h63⟩ := hr
  by_cases hs : h.Short
  · simp [Header.frame_id_of_short hs, hs]
  · have hid := Header.toNat_frame_id hs hn h0 h63
    rw [Ne, ← UInt8.toNat_inj, UInt8.toNat_zero, hn, Ne, Option.some.injEq,
      and_iff_right hs]
    omega

/-- The identities hold exactly when every header declares an identifier in range, and none
is taken for zero that no header of its name declares. -/
theorem frame_identity_iff (wild : Binary64 → UInt64) (text : CString) :
    FrameIdentity text (parse wild text) ↔
      (∀ h ∈ frameHeaders text, h.InRange) ∧ ZeroDeclared (frameHeaders text) := by
  constructor
  · rintro ⟨hentries, hignored⟩
    have hrange : ∀ h ∈ frameHeaders text, h.InRange := fun h => inRange_of_ignored hignored
    refine ⟨hrange, fun pre h post hsplit hs hpost => ?_⟩
    have hlatest : latest (fun h => h.frame.id) 0 (frameHeaders text) = some h := by
      rw [hsplit]
      refine latest_of_split _ (Header.frame_id_of_short hs) fun g hg => ?_
      exact (frame_id_ne_zero (hrange g (by rw [hsplit]; simp [hg]))).mpr (hpost g hg)
    have hstored := identities_parse wild text 0
    rw [hlatest, Option.map_some] at hstored
    obtain ⟨fr, hfr, hname⟩ := Option.map_eq_some_iff.mp hstored
    obtain ⟨-, -, g, hg, hgname, hgid⟩ := hentries 0 fr hfr
    exact ⟨g, hg, hgname.trans (Prod.mk.inj hname).1, hgid⟩
  · rintro ⟨hrange, hzero⟩
    refine ⟨fun k fr hfr => ?_, ?_⟩
    · have hstored := identities_parse wild text k
      rw [identities, hfr, Option.map_some] at hstored
      obtain ⟨h, hlatest, hid⟩ := Option.map_eq_some_iff.mp hstored.symm
      obtain ⟨hname, hk⟩ := Prod.mk.inj hid
      obtain ⟨pre, post, hsplit, hkey, hpost⟩ := latest_split _ hlatest
      have hmem : h ∈ frameHeaders text := by rw [hsplit]; simp
      obtain ⟨n, hn, h0, h63⟩ := hrange h hmem
      by_cases hs : h.Short
      · have hk0 : k = 0 := by rw [← hkey, Header.frame_id_of_short hs]
        subst hk0
        obtain ⟨g, hg, hgname, hgid⟩ := hzero pre h post hsplit hs fun g hg =>
          (frame_id_ne_zero (hrange g (by rw [hsplit]; simp [hg]))).mp (hpost g hg)
        exact ⟨hk, by decide, g, hg, hgname.trans hname, hgid⟩
      · have hkn := Header.toNat_frame_id hs hn h0 h63
        rw [hkey] at hkn
        refine ⟨hk, ?_, h, hmem, hname, by rw [hn, hkn]⟩
        rw [UInt8.le_iff_toNat_le]
        change k.toNat ≤ 63
        omega
    · intro line hline h hread hnot
      exact absurd (hrange h (mem_frameHeaders.mpr ⟨line, hline, hread⟩)) hnot

/-- Two frames, the second with an identifier whose low byte is that of the first. -/
def wideIdentifierText : CString :=
  "Frames \x7b\nA : 5, P, 1 \x7b\n\x7d\nB : 0x105, P, 1 \x7b\n\x7d\n\x7d".toList

/-- The frame A is replaced by B, whose identifier is 261. -/
theorem not_frame_identity : ¬ ∀ (wild : Binary64 → UInt64) (text : CString),
    FrameIdentity text (parse wild text) := by
  intro h
  have hidentity := h (fun _ => 0) wideIdentifierText
  have hstored : ((parse (fun _ => 0) wideIdentifierText).frame 5).map (·.name) =
      some ['B'] := by decide +kernel
  obtain ⟨fr, hfr, hname⟩ := Option.map_eq_some_iff.mp hstored
  obtain ⟨-, -, g, hg, hgname, hgid⟩ := hidentity.entries 5 fr hfr
  have hnone : ∀ g ∈ frameHeaders wideIdentifierText,
      ¬ (g.name = ['B'] ∧ g.declaredId = some 5) := by decide +kernel
  exact hnone g hg ⟨hgname.trans hname, hgid⟩

end CppLin.Ldf
