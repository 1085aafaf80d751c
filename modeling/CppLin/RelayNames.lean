import CppLin.Lin

namespace CppLin.Relay
open Bytes

def Protocol.toString : Protocol → CString
  | .can => "CAN".toList
  | .dds => "DDS".toList
  | .lin => "LIN".toList
  | .mqtt => "MQTT".toList
  | .rcp => "RCP".toList
  | .someip => "SOMEIP".toList

def isBlank (c : Char) : Bool := c = ' ' || c = '\t'

/-- Without the blanks at either end. -/
def strip (s : CString) : CString := (s.dropWhile isBlank).rdropWhile isBlank

def tryParseProtocol (s : CString) : Option Protocol :=
  let upper := s.map Char.toUpper
  if upper.all isBlank then none
  else
    let upper := strip upper
    if upper = "CAN".toList then some .can
    else if upper = "DDS".toList then some .dds
    else if upper = "LIN".toList then some .lin
    else if upper = "MQTT".toList then some .mqtt
    else if upper = "RCP".toList then some .rcp
    else if upper = "SOMEIP".toList then some .someip
    else if upper = "SOME/IP".toList then some .someip
    else none

/-- The error is the text of the exception. -/
def parseProtocol (s : CString) : Except CString Protocol :=
  match tryParseProtocol s with
  | some p => .ok p
  | none => .error ("relay: unknown protocol: ".toList ++ s)

/-- The spellings of a protocol, in capitals. -/
def Protocol.names (p : Protocol) : List CString :=
  p.toString :: if p = .someip then ["SOME/IP".toList] else []

/-- A spelling of the protocol in letters of any case, with blanks around it. -/
def Names (p : Protocol) (s : CString) : Prop :=
  ∃ a name b, s = a ++ name ++ b ∧ (∀ c ∈ a, isBlank c = true) ∧ (∀ c ∈ b, isBlank c = true) ∧
    name.map Char.toUpper ∈ p.names

theorem strip_split (s : CString) : ∃ a b, s = a ++ strip s ++ b ∧
    (∀ c ∈ a, isBlank c = true) ∧ ∀ c ∈ b, isBlank c = true := by
  refine ⟨s.takeWhile isBlank, (s.dropWhile isBlank).rtakeWhile isBlank, ?_, ?_, ?_⟩
  · rw [strip, List.append_assoc, List.rdropWhile_append_rtakeWhile, List.takeWhile_append_dropWhile]
  · exact fun c hc => List.mem_takeWhile_imp hc
  · exact fun c hc => List.mem_rtakeWhile_imp hc

theorem strip_between {a s b : CString} (ha : ∀ c ∈ a, isBlank c = true)
    (hb : ∀ c ∈ b, isBlank c = true) (hs : ∀ c ∈ s, isBlank c = false) (hne : s ≠ []) :
    strip (a ++ s ++ b) = s := by
  have hrev : ∀ c ∈ b.reverse, isBlank c = true := fun c hc => hb c (List.mem_reverse.mp hc)
  have hfront : ∀ {t r : CString}, (∀ c ∈ t, isBlank c = false) → t ≠ [] →
      (t ++ r).dropWhile isBlank = t ++ r := by
    intro t r ht htne
    cases t with
    | nil => exact absurd rfl htne
    | cons c t => exact List.dropWhile_cons_of_neg (by simp [ht c List.mem_cons_self])
  have hsrev : ∀ c ∈ s.reverse, isBlank c = false := fun c hc => hs c (List.mem_reverse.mp hc)
  have hback := hfront (r := []) hsrev (by simpa using hne)
  rw [strip, List.append_assoc, List.dropWhile_append_of_pos ha, hfront hs hne, List.rdropWhile,
    List.reverse_append, List.dropWhile_append_of_pos hrev]
  rw [List.append_nil] at hback
  rw [hback, List.reverse_reverse]

theorem not_blank {c : Char} (h : 32 < c.toNat) : isBlank c = false := by
  have hspace : c ≠ ' ' := by
    rintro rfl
    exact absurd h (by decide)
  have htab : c ≠ '\t' := by
    rintro rfl
    exact absurd h (by decide)
  simp [isBlank, hspace, htab]

theorem isBlank_toUpper (c : Char) : isBlank c.toUpper = isBlank c := by
  unfold Char.toUpper
  split_ifs with h
  · obtain ⟨hlow, hhigh⟩ := h
    have hlow' : 97 ≤ c.val.toNat := UInt32.le_iff_toNat_le.mp hlow
    have hhigh' : c.val.toNat ≤ 122 := UInt32.le_iff_toNat_le.mp hhigh
    have hcapital : (c.val + ('A'.val - 'a'.val)).toNat = c.val.toNat - 32 := by
      have hshift : ('A'.val - 'a'.val).toNat = 4294967264 := rfl
      rw [UInt32.toNat_add, hshift]
      omega
    rw [not_blank (c := c) (lt_of_lt_of_le (by decide) hlow')]
    apply not_blank
    change 32 < (c.val + ('A'.val - 'a'.val)).toNat
    omega
  · rfl

theorem names_plain (p : Protocol) {n : CString} (h : n ∈ p.names) :
    n ≠ [] ∧ ∀ c ∈ n, isBlank c = false := by
  have hall : ∀ p : Protocol, p.names.all (fun n => n ≠ [] && n.all fun c => !isBlank c) = true := by
    intro p
    cases p <;> rfl
  simpa using List.all_eq_true.mp (hall p) n h

theorem tryParseProtocol_iff {s : CString} {p : Protocol} :
    tryParseProtocol s = some p ↔ strip (s.map Char.toUpper) ∈ p.names := by
  unfold tryParseProtocol
  by_cases hall : (s.map Char.toUpper).all isBlank = true
  · have hnil : strip (s.map Char.toUpper) = [] := by
      have hdrop : (s.map Char.toUpper).dropWhile isBlank = [] :=
        List.dropWhile_eq_nil_iff.mpr (List.all_eq_true.mp hall)
      rw [strip, hdrop, List.rdropWhile_nil]
    rw [hnil]
    simp only [if_pos hall]
    exact ⟨(absurd · (by simp)), fun h => absurd rfl (names_plain p h).1⟩
  · simp only [if_neg hall]
    generalize strip (s.map Char.toUpper) = upper
    split_ifs with hcan hdds hlin hmqtt hrcp hsomeip hslash
    case neg =>
      have hnot : upper ∉ p.names := by
        cases p <;> simp only [Protocol.names, Protocol.toString, reduceCtorEq, reduceIte,
          List.mem_cons, List.not_mem_nil, hcan, hdds, hlin, hmqtt, hrcp, hsomeip, hslash, or_self,
          not_false_eq_true]
      simp [hnot]
    all_goals
      subst upper
      cases p <;> decide

theorem strip_upper_iff {s : CString} {p : Protocol} :
    strip (s.map Char.toUpper) ∈ p.names ↔ Names p s := by
  have hblank : ∀ {t : CString}, (∀ c ∈ t.map Char.toUpper, isBlank c = true) ↔
      ∀ c ∈ t, isBlank c = true := by
    intro t
    simp only [List.forall_mem_map, isBlank_toUpper]
  constructor
  · intro h
    obtain ⟨a, b, hsplit, ha, hb⟩ := strip_split (s.map Char.toUpper)
    obtain ⟨t, b', rfl, ht, rfl⟩ := List.map_eq_append_iff.mp hsplit
    obtain ⟨a', name, rfl, rfl, hname⟩ := List.map_eq_append_iff.mp ht
    exact ⟨a', name, b', rfl, hblank.mp ha, hblank.mp hb, hname ▸ h⟩
  · rintro ⟨a, name, b, rfl, ha, hb, hname⟩
    obtain ⟨hne, hplain⟩ := names_plain p hname
    rw [List.map_append, List.map_append, strip_between (hblank.mpr ha) (hblank.mpr hb) hplain hne]
    exact hname

/-- A text is read as a protocol exactly when it is one of its spellings in letters of any case
between blanks, and every other text is refused with an error that quotes it. -/
theorem parse_protocol_exact (s : CString) :
    (∀ p, parseProtocol s = .ok p ↔ Names p s) ∧
    ∀ e, parseProtocol s = .error e ↔
      e = "relay: unknown protocol: ".toList ++ s ∧ ∀ p, ¬ Names p s := by
  have hnames : ∀ p, tryParseProtocol s = some p ↔ Names p s := fun p =>
    tryParseProtocol_iff.trans strip_upper_iff
  cases htry : tryParseProtocol s with
  | some q =>
      have hparse : parseProtocol s = .ok q := by rw [parseProtocol, htry]
      rw [hparse]
      refine ⟨fun p => ?_, fun e => ?_⟩
      · rw [← hnames, htry]
        simp
      · exact ⟨(absurd · (by simp)), fun h => absurd ((hnames q).mp htry) (h.2 q)⟩
  | none =>
      have hnone : ∀ p, ¬ Names p s := by
        intro p hp
        rw [← hnames, htry] at hp
        cases hp
      have hparse : parseProtocol s = .error ("relay: unknown protocol: ".toList ++ s) := by
        rw [parseProtocol, htry]
      rw [hparse]
      refine ⟨fun p => ?_, fun e => ?_⟩
      · exact ⟨(absurd · (by simp)), (absurd · (hnone p))⟩
      · simp [hnone, eq_comm]

example : parseProtocol " Some/IP\t".toList = .ok .someip := by decide +kernel

def Errc.value : Errc → Int
  | .closed => 1
  | .notConnected => 2
  | .timeout => 3
  | .payloadTooLarge => 4

end CppLin.Relay

namespace CppLin
open Bytes

/-- The two error categories, by their names. -/
inductive Category where
  | relay
  | lin
  deriving DecidableEq, Repr

structure ErrorCondition where
  category : Category
  value : Int
  deriving DecidableEq, Repr

def Errc.value : Errc → Int
  | .invalidFrame => 1
  | .noResponse => 2

def Category.name : Category → CString
  | .relay => "relay".toList
  | .lin => "lin".toList

def RelayErrorCategory.message (ev : Int) : CString :=
  if ev = Relay.Errc.closed.value then "relay: closed".toList
  else if ev = Relay.Errc.notConnected.value then "relay: not connected".toList
  else if ev = Relay.Errc.timeout.value then "relay: timeout".toList
  else if ev = Relay.Errc.payloadTooLarge.value then "relay: payload too large".toList
  else "relay: unknown error".toList

def LinErrorCategory.message (ev : Int) : CString :=
  if ev = Errc.invalidFrame.value then "lin: invalid frame".toList
  else if ev = Errc.noResponse.value then "lin: no slave response".toList
  else "lin: unknown error".toList

def Category.message : Category → Int → CString
  | .relay => RelayErrorCategory.message
  | .lin => LinErrorCategory.message

def ErrorCode.category : ErrorCode → Category
  | .relay _ => .relay
  | .lin _ => .lin

def ErrorCode.value : ErrorCode → Int
  | .relay e => e.value
  | .lin e => e.value

def ErrorCode.message (e : ErrorCode) : CString := e.category.message e.value

theorem ErrorCode.name_prefix_message (e : ErrorCode) :
    e.category.name ++ ": ".toList <+: e.message := by
  rcases e with e | e <;> cases e <;> decide

theorem ErrorCode.message_injective {e e' : ErrorCode} (h : e.message = e'.message) : e = e' := by
  rcases e with e | e <;> rcases e' with e' | e' <;> cases e <;> cases e' <;>
    first | rfl | exact absurd h (by decide)

def ErrorCode.defaultErrorCondition (e : ErrorCode) : ErrorCondition := ⟨e.category, e.value⟩

/-- A missing response stands for a deadline that has passed, and in this test for nothing else. -/
def Category.equivalent (c : Category) (code : Int) (cond : ErrorCondition) : Bool :=
  match c with
  | .relay => cond = ⟨.relay, code⟩
  | .lin =>
      if code = Errc.noResponse.value then
        cond = (ErrorCode.relay .timeout).defaultErrorCondition
      else cond = ⟨.lin, code⟩

/-- `==` between a code and a condition asks the category of either side. -/
def ErrorCode.isEqual (e : ErrorCode) (cond : ErrorCondition) : Bool :=
  e.category.equivalent e.value cond || (cond.category = e.category && e.value = cond.value)

/-- A code equals its own condition only, but that no response is a timeout as well. -/
theorem ErrorCode.isEqual_iff (e : ErrorCode) (cond : ErrorCondition) :
    e.isEqual cond = true ↔ cond = e.defaultErrorCondition ∨
      e = .lin .noResponse ∧ cond = (ErrorCode.relay .timeout).defaultErrorCondition := by
  obtain ⟨c, v⟩ := cond
  cases e with
  | relay e => simp [isEqual, Category.equivalent, defaultErrorCondition, category, value]; grind
  | lin e =>
      cases e with
      | invalidFrame =>
          simp [isEqual, Category.equivalent, defaultErrorCondition, category, value, Errc.value]
          grind
      | noResponse =>
          simp [isEqual, Category.equivalent, defaultErrorCondition, category, value, Errc.value]
          grind

end CppLin
