import CppLin.Ldf.Extraction
import CppLin.Lib.BitFields

namespace CppLin.Ldf
open Bytes CNumber LastWrite

/-- The bits a reference to a signal stands for. -/
def SignalRef.bits (ref : SignalRef) (sig : Signal) : BitField :=
  { offset := ref.bitOffset.toInt.toNat, width := sig.bitWidth.toInt.toNat }

/-- The signals behind two references share no bit. -/
def ApartIn (signalOf : CString → Option Signal) (ref ref' : SignalRef) : Prop :=
  ∀ sig ∈ signalOf ref.name, ∀ sig' ∈ signalOf ref'.name, (ref.bits sig).Apart (ref'.bits sig')

instance (signalOf : CString → Option Signal) : Std.Symm (ApartIn signalOf) where
  symm _ _ h sig hsig sig' hsig' := (h sig' hsig' sig hsig).symm

instance (signalOf : CString → Option Signal) (ref ref' : SignalRef) :
    Decidable (ApartIn signalOf ref ref') :=
  inferInstanceAs (Decidable (∀ sig ∈ signalOf ref.name, ∀ sig' ∈ signalOf ref'.name, _))

/-- The signals of a frame have their places in `len` bytes, and no two of them overlap. -/
structure Layout (signalOf : CString → Option Signal) (refs : List SignalRef) (len : Nat) :
    Prop where
  names : (refs.map SignalRef.name).Nodup
  signals : ∀ ref ∈ refs, ∃ sig, signalOf ref.name = some sig ∧ Extracts ref sig ∧
    (ref.bits sig).offset + (ref.bits sig).width ≤ 8 * len
  apart : refs.Pairwise (ApartIn signalOf)

instance (signalOf : CString → Option Signal) (refs : List SignalRef) (len : Nat) :
    Decidable (Layout signalOf refs len) :=
  decidable_of_iff ((refs.map SignalRef.name).Nodup ∧
    (∀ ref ∈ refs, ∃ sig ∈ signalOf ref.name, Extracts ref sig ∧
      (ref.bits sig).offset + (ref.bits sig).width ≤ 8 * len) ∧ refs.Pairwise (ApartIn signalOf))
    ⟨fun ⟨h₁, h₂, h₃⟩ => ⟨h₁, h₂, h₃⟩, fun ⟨h₁, h₂, h₃⟩ => ⟨h₁, h₂, h₃⟩⟩

def placed (signalOf : CString → Option Signal) (refs : List SignalRef) (value : CString → Nat) :
    List (BitField × Nat) :=
  refs.filterMap fun ref => (signalOf ref.name).map fun sig => (ref.bits sig, value ref.name)

def pack (signalOf : CString → Option Signal) (refs : List SignalRef) (value : CString → Nat)
    (len : Nat) : Payload :=
  spell len (BitField.writeAll (placed signalOf refs value) 0)

def update (f : BitField) (value : Nat) (data : Payload) : Payload :=
  spell data.length (f.write value (littleEndian data))

section
variable {db : DB} {id : UInt8} {fr : LDFFrame} {len : Nat}

theorem decode_lookup (hfr : db.frame id = some fr) (hl : Layout db.signal fr.signals len)
    {data : Payload} (hsize : data.length < 2 ^ 31) :
    ∃ result, db.decode id data = .ok result ∧ ∀ name, (result.lookup name).map UInt64.toNat =
      (fr.signals.find? fun ref => ref.name = name).bind fun ref =>
        (db.signal ref.name).map fun sig => (ref.bits sig).read (littleEndian data) := by
  choose! sig hsig hextracts _ using hl.signals
  choose! val hval hstep using
    fun ref hmem => decodeRef_value hsize (hsig ref hmem) (hextracts ref hmem)
  refine ⟨fr.signals.foldl (fun m ref => m.insert ref.name (val ref)) ∅, ?_, ?_⟩
  · rw [DB.frame] at hfr
    simp only [DB.decode, hfr]
    exact foldlM_eq_ok (fun ref hmem result => hstep ref hmem result) ∅
  · intro name
    rw [lookup_foldl_insert, AList.lookup_empty, Option.or_none,
      latest_eq_find? SignalRef.name hl.names]
    cases hfind : fr.signals.find? fun ref => ref.name = name with
    | none => rfl
    | some ref =>
        have hmem := List.mem_of_find?_eq_some hfind
        rw [Option.map_some, Option.map_some, Option.bind_some, hval ref hmem, hsig ref hmem]
        rfl

theorem placed_of_mem {signalOf : CString → Option Signal} {refs : List SignalRef} {ref : SignalRef}
    (href : ref ∈ refs) {sig : Signal} (hsig : signalOf ref.name = some sig)
    (value : CString → Nat) : (ref.bits sig, value ref.name) ∈ placed signalOf refs value :=
  List.mem_filterMap.mpr ⟨ref, href, by rw [hsig, Option.map_some]⟩

theorem Layout.placed_apart {signalOf : CString → Option Signal} {refs : List SignalRef}
    (hl : Layout signalOf refs len) (value : CString → Nat) :
    (placed signalOf refs value).Pairwise fun x y => x.1.Apart y.1 := by
  refine List.Pairwise.filterMap _ ?_ hl.apart
  intro ref ref' h x hx y hy
  obtain ⟨sig, hsig, rfl⟩ := Option.map_eq_some_iff.mp hx
  obtain ⟨sig', hsig', rfl⟩ := Option.map_eq_some_iff.mp hy
  exact h sig hsig sig' hsig'

theorem Layout.placed_within {signalOf : CString → Option Signal} {refs : List SignalRef}
    (hl : Layout signalOf refs len) (value : CString → Nat) :
    ∀ x ∈ placed signalOf refs value, x.1.offset + x.1.width ≤ 8 * len := by
  intro x hx
  obtain ⟨ref, href, hx⟩ := List.mem_filterMap.mp hx
  obtain ⟨sig, hsig, rfl⟩ := Option.map_eq_some_iff.mp hx
  obtain ⟨sig', hsig', -, hwithin⟩ := hl.signals ref href
  obtain rfl := Option.some.inj (hsig.symm.trans hsig')
  exact hwithin

theorem Layout.read_pack {signalOf : CString → Option Signal} {refs : List SignalRef}
    (hl : Layout signalOf refs len) (value : CString → Nat) {ref : SignalRef} (href : ref ∈ refs)
    {sig : Signal} (hsig : signalOf ref.name = some sig) :
    (ref.bits sig).read (littleEndian (pack signalOf refs value len)) =
      value ref.name % 2 ^ (ref.bits sig).width := by
  rw [pack, littleEndian_spell]
  · exact BitField.read_writeAll (hl.placed_apart value) (placed_of_mem href hsig value) 0
  · exact BitField.writeAll_lt (hl.placed_within value) (Nat.two_pow_pos _)

end

/-- Signals that have their places and values that fit are read back: `decode` gives each signal
of the frame its value, and nothing else. -/
theorem decode_pack {db : DB} {id : UInt8} {fr : LDFFrame} {len : Nat}
    (hfr : db.frame id = some fr) (hl : Layout db.signal fr.signals len) (hlen : len < 2 ^ 31)
    {value : CString → Nat}
    (hvalue : ∀ ref ∈ fr.signals, ∀ sig, db.signal ref.name = some sig →
      value ref.name < 2 ^ (ref.bits sig).width) :
    ∃ result, db.decode id (pack db.signal fr.signals value len) = .ok result ∧
      ∀ name, (result.lookup name).map UInt64.toNat =
        if name ∈ fr.signals.map SignalRef.name then some (value name) else none := by
  have hsize : (pack db.signal fr.signals value len).length < 2 ^ 31 := by
    rw [pack, spell_length]
    exact hlen
  obtain ⟨result, hdecode, hlookup⟩ := decode_lookup hfr hl hsize
  refine ⟨result, hdecode, ?_⟩
  intro name
  rw [hlookup]
  cases hfind : fr.signals.find? fun ref => ref.name = name with
  | none =>
      have hout : name ∉ fr.signals.map SignalRef.name := by
        intro hmem
        obtain ⟨ref, href, rfl⟩ := List.mem_map.mp hmem
        simpa using List.find?_eq_none.mp hfind ref href
      rw [if_neg hout]
      rfl
  | some ref =>
      have href := List.mem_of_find?_eq_some hfind
      obtain rfl : ref.name = name := by simpa using List.find?_some hfind
      obtain ⟨sig, hsig, -⟩ := hl.signals ref href
      rw [if_pos (List.mem_map_of_mem href), Option.bind_some, hsig, Option.map_some,
        hl.read_pack value href hsig, Nat.mod_eq_of_lt (hvalue ref href sig hsig)]

/-- Writing one signal of a payload leaves what `decode` reads of all the others. -/
theorem decode_update {db : DB} {id : UInt8} {fr : LDFFrame} {data : Payload}
    (hfr : db.frame id = some fr) (hl : Layout db.signal fr.signals data.length)
    (hsize : data.length < 2 ^ 31) {ref : SignalRef} (href : ref ∈ fr.signals) {sig : Signal}
    (hsig : db.signal ref.name = some sig) (value : Nat) :
    ∃ before after, db.decode id data = .ok before ∧
      db.decode id (update (ref.bits sig) value data) = .ok after ∧
      (after.lookup ref.name).map UInt64.toNat = some (value % 2 ^ (ref.bits sig).width) ∧
      ∀ name, name ≠ ref.name → after.lookup name = before.lookup name := by
  obtain ⟨before, hbefore, hlookup⟩ := decode_lookup hfr hl hsize
  have hsize' : (update (ref.bits sig) value data).length < 2 ^ 31 := by
    rw [update, spell_length]
    exact hsize
  obtain ⟨after, hafter, hlookup'⟩ := decode_lookup hfr hl hsize'
  obtain ⟨sig', hsig', -, hwithin⟩ := hl.signals ref href
  obtain rfl := Option.some.inj (hsig.symm.trans hsig')
  have hnumber : littleEndian (update (ref.bits sig) value data) =
      (ref.bits sig).write value (littleEndian data) := by
    rw [update, littleEndian_spell]
    exact BitField.write_lt hwithin (littleEndian_lt_two_pow data) value
  refine ⟨before, after, hbefore, hafter, ?_, ?_⟩
  · rw [hlookup', find?_key SignalRef.name hl.names href, Option.bind_some, hsig,
      Option.map_some, hnumber, BitField.read_write]
  · intro name hname
    apply Option.map_injective fun _ _ => UInt64.toNat.inj
    rw [hlookup', hlookup]
    cases hfind : fr.signals.find? fun ref => ref.name = name with
    | none => rfl
    | some other =>
        have hother := List.mem_of_find?_eq_some hfind
        obtain rfl : other.name = name := by simpa using List.find?_some hfind
        obtain ⟨osig, hosig, -⟩ := hl.signals other hother
        have hne : other ≠ ref := fun he => hname (by rw [he])
        have hapart := hl.apart.forall hother href hne osig hosig sig hsig
        rw [Option.bind_some, Option.bind_some, hosig, Option.map_some, Option.map_some, hnumber,
          BitField.read_write_apart hapart]

/-- Three signals in two bytes, one of them across the boundary. -/
def packedDB : DB :=
  { frames_ := AList.insert 1
      { signals := [⟨"A".toList, 4⟩, ⟨"B".toList, 12⟩, ⟨"C".toList, 0⟩] } ∅
    signals_ := AList.insert "A".toList { bitWidth := 8 } (AList.insert "B".toList { bitWidth := 4 }
      (AList.insert "C".toList { bitWidth := 4 } ∅)) }

theorem packedDB_layout : Layout packedDB.signal
    [⟨"A".toList, 4⟩, ⟨"B".toList, 12⟩, ⟨"C".toList, 0⟩] 2 := by decide +kernel

/-- The signal across the boundary changes, its neighbours do not. -/
theorem decode_update_middle : ∃ before after, packedDB.decode 1 [0xBD, 0xCA] = .ok before ∧
    packedDB.decode 1 [0x2D, 0xC1] = .ok after ∧
    (after.lookup "A".toList).map UInt64.toNat = some 0x12 ∧
    ∀ name, name ≠ "A".toList → after.lookup name = before.lookup name := by
  have hfr : packedDB.frame 1 =
      some { signals := [⟨"A".toList, 4⟩, ⟨"B".toList, 12⟩, ⟨"C".toList, 0⟩] } := rfl
  have hsig : packedDB.signal (SignalRef.mk "A".toList 4).name = some { bitWidth := 8 } := rfl
  have hmem : SignalRef.mk "A".toList 4 ∈ ([⟨"A".toList, 4⟩, ⟨"B".toList, 12⟩, ⟨"C".toList, 0⟩] :
      List SignalRef) := List.mem_cons_self
  have hlayout : Layout packedDB.signal [⟨"A".toList, 4⟩, ⟨"B".toList, 12⟩, ⟨"C".toList, 0⟩]
      ([0xBD, 0xCA] : Payload).length := packedDB_layout
  have hdata : update (SignalRef.bits ⟨"A".toList, 4⟩ { bitWidth := 8 }) 0x112 [0xBD, 0xCA] =
      [0x2D, 0xC1] := by decide +kernel
  obtain ⟨before, after, hbefore, hafter, hsame, hothers⟩ := decode_update hfr hlayout
    (by decide) hmem hsig 0x112
  rw [hdata] at hafter
  exact ⟨before, after, hbefore, hafter, hsame, hothers⟩

end CppLin.Ldf
