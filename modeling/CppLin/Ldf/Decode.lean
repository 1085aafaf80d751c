import CppLin.Ldf.Invariant

/-!
Reading the signals of a frame out of a payload, with the operations the language does
not define as failures, and when none of them is reached.
-/
namespace CppLin.Ldf
open Bytes CNumber

/-- The operations of the extraction loop that have no defined result. -/
inductive Undefined where
  | overflow
  | index
  | shift
  deriving DecidableEq, Repr

/-- The computation does not fail. -/
def Defined {α : Type} (e : Except Undefined α) : Prop := ∃ a, e = .ok a

@[simp] theorem defined_ok {α : Type} (a : α) : Defined (.ok a) := ⟨a, rfl⟩

@[simp] theorem not_defined_error {α : Type} (u : Undefined) : ¬ Defined (.error u : Except _ α) :=
  fun h => nomatch h

def kIntMax : Int := 2147483647

/-- `static_cast<int>` of a size. -/
def intOfSize (n : Nat) : Int := (n : Int).bmod (2 ^ 32)

def bitAt (byte : UInt8) (bitIdx : Nat) : Bool := byte &&& (1 <<< UInt8.ofNat bitIdx) ≠ 0

/-- The extraction loop from its index `i` on, with the turns left to `bit_width`. Division
and remainder cut towards zero, so both are negative before the first byte. -/
def extractBits (bitOffset : Int) (data : Payload) : Nat → Nat → UInt64 → Except Undefined UInt64
  | 0, _, val => .ok val
  | turns + 1, i, val =>
      let pos := bitOffset + i
      let byteIdx := pos.tdiv 8
      let bitIdx := pos.tmod 8
      if kIntMax < pos then .error .overflow
      else if intOfSize data.length ≤ byteIdx then .ok val
      else if byteIdx < 0 ∨ data.length ≤ byteIdx then .error .index
      else if bitIdx < 0 then .error .shift
      else if bitAt (data.getD byteIdx.toNat 0) bitIdx.toNat then
        if 64 ≤ i then .error .shift
        else extractBits bitOffset data turns (i + 1) (val ||| (1 <<< UInt64.ofNat i))
      else extractBits bitOffset data turns (i + 1) val

namespace DB

/-- One turn of the loop over the references; a signal that is not defined is passed over. -/
def decodeRef (db : DB) (data : Payload) (result : AList (fun _ : CString => UInt64))
    (ref : SignalRef) : Except Undefined (AList (fun _ : CString => UInt64)) :=
  match db.signals_.lookup ref.name with
  | none => .ok result
  | some sig => do
      let val ← extractBits ref.bitOffset.toInt data sig.bitWidth.toInt.toNat 0 0
      return result.insert ref.name val

def decode (db : DB) (id : UInt8) (data : Payload) :
    Except Undefined (AList (fun _ : CString => UInt64)) :=
  match db.frames_.lookup id with
  | none => .ok ∅
  | some fr => fr.signals.foldlM (db.decodeRef data) ∅

end DB

/-- The widths the parser stores. -/
def WidthsClamped (db : DB) : Prop :=
  ∀ name sig, db.signal name = some sig → 0 ≤ sig.bitWidth.toInt ∧ sig.bitWidth.toInt ≤ 64

theorem clampWidth_bounds (w : Int32) :
    0 ≤ (clampWidth w).toInt ∧ (clampWidth w).toInt ≤ 64 := by
  unfold clampWidth
  split_ifs with h0 h64
  · decide
  · decide
  · have hlow := Int32.not_lt.mp h0
    have hhigh := Int32.not_lt.mp h64
    exact ⟨Int32.le_iff_toInt_le.mp hlow, Int32.le_iff_toInt_le.mp hhigh⟩

theorem readSignal_width {wild : Binary64 → UInt64} {line : CString} {sig : Signal}
    (h : readSignal wild line = some sig) :
    0 ≤ sig.bitWidth.toInt ∧ sig.bitWidth.toInt ≤ 64 := by
  simp only [readSignal] at h
  split at h
  · cases h
  · split at h
    · obtain rfl := Option.some.inj h
      dsimp only
      exact clampWidth_bounds _
    · cases h

theorem widthsClamped_preserved (wild : Binary64 → UInt64) :
    Preserved wild WidthsClamped where
  protocolVersion _ _ h := h
  languageVersion _ _ h := h
  speed _ _ h := h
  node line db h := by
    obtain ⟨master, slaves, hnode⟩ := readNode_nodes line db
    rw [hnode]
    exact h
  signal line sig db hsig h := by
    intro name sig' hlookup
    by_cases hname : name = sig.name
    · subst hname
      rw [DB.signal, storeSignal, AList.lookup_insert] at hlookup
      obtain rfl := Option.some.inj hlookup
      exact readSignal_width hsig
    · rw [DB.signal, storeSignal, AList.lookup_insert_ne hname] at hlookup
      exact h name sig' hlookup
  frame _ _ _ _ _ h := h
  schedule _ _ _ _ h := h

theorem widthsClamped_empty : WidthsClamped {} := by
  intro name sig h
  rw [DB.signal, AList.lookup_empty] at h
  cases h

theorem parse_widthsClamped (wild : Binary64 → UInt64) (text : CString) :
    WidthsClamped (parse wild text) :=
  parse_invariant (widthsClamped_preserved wild) widthsClamped_empty text

theorem intOfSize_le (n : Nat) : intOfSize n ≤ n := by
  have h := Int.bmod_def (n : Int) (2 ^ 32)
  unfold intOfSize
  split_ifs at h <;> omega

/-- From the position `pos` on, with `turns` turns left, the loop meets the end of the payload
or of the signal before an operation that is not defined. -/
def Extractable (pos : Int) (turns size : Nat) : Prop :=
  turns = 0 ∨ (pos ≤ kIntMax ∧ intOfSize size ≤ pos.tdiv 8) ∨
    (0 ≤ pos ∧ pos ≤ kIntMax ∧ (pos + turns - 1 ≤ kIntMax ∨ intOfSize size ≤ kIntMax / 8))

theorem extractable_succ {pos : Int} {size turns : Nat} (h0 : 0 ≤ pos) (hmax : pos ≤ kIntMax)
    (hin : pos.tdiv 8 < intOfSize size) :
    Extractable pos (turns + 1) size ↔ Extractable (pos + 1) turns size := by
  rw [Int.tdiv_eq_ediv_of_nonneg h0] at hin
  unfold Extractable
  rw [Int.tdiv_eq_ediv_of_nonneg h0, Int.tdiv_eq_ediv_of_nonneg (by omega)]
  unfold kIntMax at *
  omega

theorem not_extractable_of_neg {pos : Int} {size turns : Nat} (h0 : pos < 0)
    (hin : pos.tdiv 8 < intOfSize size) : ¬ Extractable pos (turns + 1) size := by
  unfold Extractable
  omega

theorem extractBits_defined_iff {bitOffset : Int} {data : Payload} {turns i : Nat} (val : UInt64)
    (hi : i + turns ≤ 64) : Defined (extractBits bitOffset data turns i val) ↔
      Extractable (bitOffset + i) turns data.length := by
  induction turns generalizing i val with
  | zero => simp [extractBits, Extractable]
  | succ turns ih =>
      have hsize := intOfSize_le data.length
      have hdiv := Int.mul_tdiv_add_tmod (bitOffset + i) 8
      rw [extractBits]
      by_cases hmax : kIntMax < bitOffset + i
      · simp only [if_pos hmax, not_defined_error, Extractable, false_iff]
        omega
      by_cases hend : intOfSize data.length ≤ (bitOffset + i).tdiv 8
      · simp only [if_neg hmax, if_pos hend, defined_ok, Extractable, true_iff]
        omega
      have hin := Int.not_le.mp hend
      rcases Int.lt_or_le (bitOffset + i) 0 with hneg | hpos
      · have hfail : ¬ Extractable (bitOffset + i) (turns + 1) data.length :=
          not_extractable_of_neg hneg hin
        simp only [if_neg hmax, if_neg hend, iff_false_right hfail]
        split_ifs with hindex hshift
        · exact not_defined_error _
        · exact not_defined_error _
        · omega
        · omega
        · omega
      · have hquot : 0 ≤ (bitOffset + i).tdiv 8 := Int.tdiv_nonneg hpos (by decide)
        have hrem : 0 ≤ (bitOffset + i).tmod 8 := Int.tmod_nonneg 8 hpos
        have hnext : bitOffset + i + 1 = bitOffset + (i + 1 : Nat) := by omega
        rw [extractable_succ hpos (Int.not_lt.mp hmax) hin, hnext]
        simp only [if_neg hmax, if_neg hend]
        rw [if_neg (by omega), if_neg (by omega)]
        split_ifs with hbit h64
        · omega
        · exact ih _ (by omega)
        · exact ih _ (by omega)

theorem decodeRef_defined_iff {db : DB} (hdb : WidthsClamped db) (data : Payload)
    (result : AList (fun _ : CString => UInt64)) (ref : SignalRef) :
    Defined (db.decodeRef data result ref) ↔ ∀ sig, db.signal ref.name = some sig →
      Extractable ref.bitOffset.toInt sig.bitWidth.toInt.toNat data.length := by
  unfold DB.decodeRef DB.signal
  cases hsig : db.signals_.lookup ref.name with
  | none => simp
  | some sig =>
      have hwidth := hdb ref.name sig hsig
      have hloop : Defined (extractBits ref.bitOffset.toInt data sig.bitWidth.toInt.toNat 0 0) ↔
          Extractable (ref.bitOffset.toInt + (0 : Nat)) sig.bitWidth.toInt.toNat data.length :=
        extractBits_defined_iff 0 (by omega)
      rw [Nat.cast_zero, add_zero] at hloop
      simp only [Option.some.injEq, forall_eq', ← hloop]
      cases extractBits ref.bitOffset.toInt data sig.bitWidth.toInt.toNat 0 0 with
      | error u => exact iff_of_false (not_defined_error u) (not_defined_error u)
      | ok val => exact iff_of_true (defined_ok _) (defined_ok _)

theorem foldlM_defined_iff {α β : Type} {f : β → α → Except Undefined β} {p : α → Prop}
    (hf : ∀ b a, Defined (f b a) ↔ p a) (l : List α) (b : β) :
    Defined (l.foldlM f b) ↔ ∀ a ∈ l, p a := by
  induction l generalizing b with
  | nil => exact iff_of_true (defined_ok b) (by simp)
  | cons a l ih =>
      rw [List.foldlM_cons, List.forall_mem_cons, ← hf b a]
      cases f b a with
      | error u => exact iff_of_false (not_defined_error u) fun h => not_defined_error u h.1
      | ok b' => exact (ih b').trans (and_iff_right (defined_ok b')).symm

/-- Decoding is defined exactly when, for every reference of the frame to a defined signal,
nothing is extracted, the reference begins behind the payload, or it begins at a bit that is
not negative and is stopped before its position leaves the range of `int`. -/
theorem decode_defined_iff (wild : Binary64 → UInt64) (text : CString) (id : UInt8)
    (data : Payload) : Defined ((parse wild text).decode id data) ↔
      ∀ fr, (parse wild text).frame id = some fr → ∀ ref ∈ fr.signals, ∀ sig,
        (parse wild text).signal ref.name = some sig →
          sig.bitWidth.toInt = 0 ∨
          intOfSize data.length ≤ ref.bitOffset.toInt.tdiv 8 ∨
          0 ≤ ref.bitOffset.toInt ∧
            (ref.bitOffset.toInt + sig.bitWidth.toInt - 1 ≤ kIntMax ∨
              intOfSize data.length ≤ kIntMax / 8) := by
  have hwidths := parse_widthsClamped wild text
  unfold DB.decode DB.frame
  cases (parse wild text).frames_.lookup id with
  | none => simp
  | some fr =>
      simp only [foldlM_defined_iff (decodeRef_defined_iff hwidths data), Option.some.injEq,
        forall_eq']
      apply forall₂_congr
      intro ref _
      apply forall₂_congr
      intro sig hsig
      have hwidth := hwidths ref.name sig hsig
      have hoffset := Int32.toInt_lt ref.bitOffset
      simp only [Extractable, kIntMax]
      omega

/-- A signal of one bit, and a frame that refers to it at the bit before its first one. -/
def negativeOffsetText : CString :=
  "Signals \x7b\nS : 1, 0, P\n\x7d\nFrames \x7b\nF : 1, P, 1 \x7b\nS, -1 ;\n\x7d\n\x7d".toList

/-- A bit offset below zero is stored as it is, and the shift amount is negative. -/
theorem not_decode_defined : ¬ ∀ (wild : Binary64 → UInt64) (text : CString) (id : UInt8)
    (data : Payload), Defined ((parse wild text).decode id data) := by
  intro h
  obtain ⟨result, hresult⟩ := h (fun _ => 0) negativeOffsetText 1 [0xFF]
  have hfails : (match (parse (fun _ => 0) negativeOffsetText).decode 1 [0xFF] with
      | .error u => decide (u = .shift)
      | .ok _ => false) = true := by decide +kernel
  rw [hresult] at hfails
  cases hfails

end CppLin.Ldf
