import CppLin.Ldf.Packing
import CppLin.Ldf.RoundTrip
import CppLin.Master.OnBus
import CppLin.Safety.Receiver
import CppLin.Virtual.Provenance

/-!
A cluster as its description text lays it out: nodes that publish the signals of their frames,
a master that asks for them, and consumers that read the signals out of what they receive.
-/
namespace CppLin
open Bytes CNumber Run Ldf Virt LastWrite Safety

namespace Ldf

def Description.signalOf (d : Description) (name : CString) : Option Signal :=
  d.signals.find? fun s => s.name = name

def Description.Fits (d : Description) (fr : LDFFrame) (value : CString → Nat) : Prop :=
  ∀ ref ∈ fr.signals, ∀ sig, d.signalOf ref.name = some sig →
    value ref.name < 2 ^ (ref.bits sig).width

def Description.payload (d : Description) (fr : LDFFrame) (value : CString → Nat) : Payload :=
  pack d.signalOf fr.signals value fr.length.toInt.toNat

/-- The signals of the frame have their places in it. -/
def Description.LaysOut (d : Description) (fr : LDFFrame) : Prop :=
  Layout d.signalOf fr.signals fr.length.toInt.toNat

instance (d : Description) (fr : LDFFrame) : Decidable (d.LaysOut fr) :=
  inferInstanceAs (Decidable (Layout _ _ _))

theorem Describes.signalOf {d : Description} {db : DB} (h : Describes d db) :
    db.signal = d.signalOf := funext h.signals

theorem Describes.frame {d : Description} {db : DB} (h : Describes d db) {fr : LDFFrame}
    (hfr : fr ∈ d.frames) : db.frame fr.id = some fr :=
  (h.frames fr.id).trans (find?_key LDFFrame.id d.frameIds hfr)

theorem Renders.describes {d : Description} {text : CString} (h : Renders d text)
    (wild : Binary64 → UInt64) : Describes d (parse wild text) := by
  obtain ⟨timing, free₀, free₁, free₂, free₃, free₄, ht, hfree, hcontents⟩ := contentLines_renders h
  rw [parse, hcontents]
  exact parseTop_sections ht hfree wild

theorem decode_payload {d : Description} {text : CString} (h : Renders d text)
    (wild : Binary64 → UInt64) {fr : LDFFrame} (hfr : fr ∈ d.frames) (hl : d.LaysOut fr)
    {value : CString → Nat} (hvalue : d.Fits fr value) :
    ∃ result, (parse wild text).decode fr.id (d.payload fr value) = .ok result ∧
      ∀ name, (result.lookup name).map UInt64.toNat =
        if name ∈ fr.signals.map SignalRef.name then some (value name) else none := by
  have hdescribes := h.describes wild
  have hlen : fr.length.toInt.toNat < 2 ^ 31 := by
    have hlt := fr.length.toInt_lt
    omega
  have hsignal := hdescribes.signalOf
  have hl' : Layout (parse wild text).signal fr.signals fr.length.toInt.toNat := by
    rw [hsignal]
    exact hl
  rw [Description.payload, ← hsignal]
  refine decode_pack (hdescribes.frame hfr) hl' hlen ?_
  rw [hsignal]
  exact hvalue

end Ldf

/-- All publish calls for the frame carry values of its signals. -/
def Virt.PublishesPacked (d : Description) (fr : LDFFrame)
    (history : List (Nat × Request × Outcome)) : Prop :=
  ∀ w ∈ published history, w.id.val = fr.id → w.data ≠ [] →
    ∃ value, d.Fits fr value ∧ w.data = d.payload fr value

/-- The frame answered a header, and decodes to the values that were last published before and
to no other names. -/
def Virt.Reads (d : Description) (db : DB) (fr : LDFFrame)
    (history : List (Nat × Request × Outcome)) (f : Frame) : Prop :=
  ∃ pre t post w value result,
    history = pre ++ (t, .sendHeader fr.id, .frame (.ok f)) :: post ∧
    (∃ hrange : fr.id ≤ kLINMaxID, latest Write.id ⟨fr.id, hrange⟩ (published pre) = some w) ∧
    w.data = d.payload fr value ∧ db.decode f.id f.data = .ok result ∧
    ∀ name, (result.lookup name).map UInt64.toNat =
      if name ∈ fr.signals.map SignalRef.name then some (value name) else none

theorem Virt.Answered.reads {d : Description} {text : CString} (h : Renders d text)
    (wild : Binary64 → UInt64) {fr : LDFFrame} (hfr : fr ∈ d.frames) (hl : d.LaysOut fr)
    {history : List (Nat × Request × Outcome)} (hpacked : PublishesPacked d fr history) {f : Frame}
    (hf : Answered history f) (hid : f.id = fr.id) : Reads d (parse wild text) fr history f := by
  obtain ⟨pre, t, post, w, hhistory, hlatest, hmem, hcarries⟩ := hf.write
  obtain ⟨value, hfits, hvalue⟩ := hpacked w hmem (hcarries.id.trans hid) hcarries.nonempty
  obtain ⟨result, hdecode, hlookup⟩ := decode_payload h wild hfr hl hfits
  simp only [hid] at hhistory hlatest
  refine ⟨pre, t, post, w, value, result, hhistory, hlatest, hvalue, ?_, hlookup⟩
  rw [hid, hcarries.data, hvalue]
  exact hdecode

/-- From the text of the description to the values a consumer reads: when a text renders a
description and the nodes publish the signals of a frame where it places them, then whatever
the interleaving, each such frame that a consumer sees decodes, with the parsed text, to the
values last published before the header it answers, and to nothing else. -/
theorem signals_arrive {d : Description} {text : CString} (h : Renders d text)
    (wild : Binary64 → UInt64) {fr : LDFFrame} (hfr : fr ∈ d.frames) (hl : d.LaysOut fr)
    {as : List Virt.Action} {s : Sys} (hrun : run Sys.step {} as = some s)
    (hpacked : PublishesPacked d fr (along Sys.step Sys.commit {} as)) {ch : Nat} {f : Frame}
    (hf : f ∈ s.received ch ++ (s.bus.chans ch).buf) (hid : f.id = fr.id) :
    Reads d (parse wild text) fr (along Sys.step Sys.commit {} as) f :=
  ((framesFrom_run hrun).observed hf).reads h wild hfr hl hpacked hid

/-- The seat publishes its position, and a subscriber receives it. -/
def seatReports : List Virt.Action :=
  [.call 1 (.exclusive (.subscribe [] [])), .lock 1, .step 1,
    .call 2 (.exclusive (.publish 0x20 [0x34, 0x12, 0, 0])), .lock 2, .step 2,
    .call 1 (.sendHeader 0x20), .lock 1, .step 1, .step 1, .step 1, .recv 0]

theorem signals_arrive_seat : ∃ (value : CString → Nat) (result : AList fun _ : CString => UInt64),
    (parse (fun _ => 0) (CText.unlines '\n' sampleLines)).decode 0x20 [0x34, 0x12, 0, 0] =
        .ok result ∧
      ∀ name, (result.lookup name).map UInt64.toNat =
        if name ∈ ["SeatPosition".toList] then some (value name) else none := by
  have hreceived : (run Sys.step {} seatReports).map (fun s => s.received 0) =
      some [Bus.frameOf 0x20 ⟨[0x34, 0x12, 0, 0], .enhanced⟩] := by decide +kernel
  have hpublished : (published (along Sys.step Sys.commit {} seatReports)).map Write.data =
      [[0x34, 0x12, 0, 0]] := by decide +kernel
  obtain ⟨s, hs, hseen⟩ := Option.map_eq_some_iff.mp hreceived
  have hf : Bus.frameOf 0x20 ⟨[0x34, 0x12, 0, 0], .enhanced⟩ ∈ s.received 0 ++ (s.bus.chans 0).buf := by
    rw [hseen]
    exact List.mem_cons_self
  let fr : LDFFrame :=
    { name := "SeatFrame".toList, id := 0x20, publisher := "SeatPos".toList, length := 4,
      signals := [{ name := "SeatPosition".toList, bitOffset := 0 }] }
  have hfr : fr ∈ sampleDescription.frames := by decide +kernel
  have hpayload : sampleDescription.payload fr (fun _ => 0x1234) = [0x34, 0x12, 0, 0] := by
    decide +kernel
  have hfits : sampleDescription.Fits fr (fun _ => 0x1234) := by
    unfold Description.Fits
    decide +kernel
  have hpacked : PublishesPacked sampleDescription fr
      (along Sys.step Sys.commit {} seatReports) := by
    intro w hw _ _
    have hdata := List.mem_map_of_mem (f := Write.data) hw
    rw [hpublished, List.mem_singleton] at hdata
    exact ⟨fun _ => 0x1234, hfits, hdata.trans hpayload.symm⟩
  obtain ⟨-, -, -, -, value, result, -, -, -, hdecode, hlookup⟩ :=
    signals_arrive renders_sample (fun _ => 0) hfr (by decide +kernel) hs hpacked hf rfl
  exact ⟨value, result, hdecode, hlookup⟩

/-! The master runs a table of the description. -/

theorem Ldf.Description.frame_of_entry {d : Description} {tbl : Table} (htbl : tbl ∈ d.tables)
    {e : CString × UInt32} (he : e ∈ tbl.entries) : ∃ fr ∈ d.frames, fr.id = d.idOf e.1 := by
  obtain ⟨fr, hfr, hname⟩ := (d.tablesWellFormed tbl htbl).entries e he
  refine ⟨fr, hfr, ?_⟩
  rw [Description.idOf, ← hname, find?_key LDFFrame.name d.frameNames hfr]
  rfl

theorem Ldf.setSchedule_table {d : Description} {text : CString} (h : Renders d text)
    (wild : Binary64 → UInt64) {tbl : Table} (htbl : tbl ∈ d.tables) (n : Master.Node Unit) :
    n.setSchedule ((parse wild text).schedule tbl.name) =
      ({ n with schedule := d.schedule tbl }, none) := by
  have hschedule : (parse wild text).schedule tbl.name = d.schedule tbl := by
    rw [DB.schedule, (h.describes wild).schedules, find?_key Table.name d.tableNames htbl]
    rfl
  rw [hschedule, Master.Node.setSchedule_ok_iff]
  refine ⟨fun e he => ?_, rfl⟩
  obtain ⟨x, hx, rfl⟩ := List.mem_map.mp he
  obtain ⟨fr, hfr, hid⟩ := d.frame_of_entry htbl hx
  exact hid ▸ (d.framesWellFormed fr hfr).id

/-- What a callback is told the bus has answered to the loop. -/
theorem Master.Plant.Served.answered {me : Nat} {n : Master.Node Unit} {r : Master.Runner Unit}
    {history : List (Nat × Request × Outcome)} (h : Served me n history r) {f : Frame}
    (hf : .ok f ∈ r.told) : ∃ id, (id, .ok f) ∈ r.answers ∧
      (me, .sendHeader id, .frame (.ok f)) ∈ history := by
  obtain ⟨took, owed, htook, htold, -⟩ := h.inTurn
  have hmem : .ok f ∈ (r.answers.map Prod.snd).filter n.tells := by
    rw [htold]
    exact List.mem_append_left _ hf
  obtain ⟨⟨id, a⟩, hanswer, rfl⟩ := List.mem_map.mp (List.mem_of_mem_filter hmem)
  have hcommit : (.sendHeader id, .frame (.ok f)) ∈ commits me history := by
    rw [htook]
    exact List.mem_append_left _ (List.mem_map.mpr ⟨_, hanswer, rfl⟩)
  obtain ⟨⟨t, x⟩, hx, hthread⟩ := List.mem_filterMap.mp hcommit
  split_ifs at hthread with ht
  obtain rfl := Option.some.inj hthread
  obtain rfl := ht
  exact ⟨id, hanswer, hx⟩

/-- A master that takes a table from the text of the description and runs it, beside any other
threads: the table is accepted, its headers are those of the frames it names, over and over; and
every frame its callback is told is a frame of the description, and decodes to the values last
published before its header, when the nodes publish the frame as it is laid out. -/
theorem table_polled {d : Description} {text : CString} (h : Renders d text)
    (wild : Binary64 → UInt64) {tbl : Table} (htbl : tbl ∈ d.tables) (hne : tbl.entries ≠ [])
    (n : Master.Node Unit) :
    let n' : Master.Node Unit := { n with schedule := d.schedule tbl }
    n.setSchedule ((parse wild text).schedule tbl.name) = (n', none) ∧
    ∀ me stop acts p,
      run (Master.Plant.step me) (Master.Plant.start n' stop) acts = some p →
      (∃ k, p.runner.answers.map Prod.fst = (List.range k).map fun i =>
        d.idOf (tbl.entries.getD (i % tbl.entries.length) ([], 0)).1) ∧
      ∀ f, .ok f ∈ p.runner.told → ∃ fr ∈ d.frames, f.id = fr.id ∧ (d.LaysOut fr →
        PublishesPacked d fr (Master.Plant.history me n' stop acts) →
        Reads d (parse wild text) fr (Master.Plant.history me n' stop acts) f) := by
  intro n'
  refine ⟨setSchedule_table h wild htbl n, ?_⟩
  intro me stop acts p hrun
  have hne' : n'.schedule ≠ [] := fun hnil => hne (List.map_eq_nil_iff.mp hnil)
  have hserved := Master.Plant.served_run hne' hrun
  have hids : ∃ k, p.runner.answers.map Prod.fst = (List.range k).map fun i =>
      d.idOf (tbl.entries.getD (i % tbl.entries.length) ([], 0)).1 := by
    obtain ⟨k, hround⟩ := hserved.answers_round
    refine ⟨k, hround.trans (List.map_congr_left fun i _ => ?_)⟩
    have hlt : i % tbl.entries.length < tbl.entries.length :=
      Nat.mod_lt _ (List.length_pos_iff.mpr hne)
    simp [Master.Runner.cyclic, n', Description.schedule, List.getD_eq_getElem?_getD, hlt]
  refine ⟨hids, ?_⟩
  intro f hf
  obtain ⟨id, hanswer, hmem⟩ := hserved.answered hf
  obtain ⟨hfid, hanswered⟩ := answered_run (Master.Plant.kept_run hne' hrun).reached hmem
  have hid : ∃ fr ∈ d.frames, f.id = fr.id := by
    obtain ⟨k, hk⟩ := hids
    have hin := List.mem_map_of_mem (f := Prod.fst) hanswer
    rw [hk] at hin
    obtain ⟨i, -, hi⟩ := List.mem_map.mp hin
    have hlt : i % tbl.entries.length < tbl.entries.length :=
      Nat.mod_lt _ (List.length_pos_iff.mpr hne)
    obtain ⟨fr, hfr, hname⟩ := d.frame_of_entry htbl (List.getElem_mem hlt)
    refine ⟨fr, hfr, hfid.trans (hi.symm.trans ?_)⟩
    rw [hname, List.getD_eq_getElem _ _ hlt]
  obtain ⟨fr, hfr, hfrid⟩ := hid
  exact ⟨fr, hfr, hfrid, fun hl hpacked => hanswered.reads h wild hfr hl hpacked hfrid⟩

/-- The motor has nothing to say, and the seat publishes while the loop is at the motor. -/
def pollSeat : List Master.Plant.Action :=
  [.loop .load, .loop .load, .call, .bus (.call 1 (.exclusive (.publish 0x20 [0x34, 0x12, 0, 0]))),
    .bus (.lock 0), .bus (.step 0), .bus (.lock 1), .answered, .loop .callback, .bus (.step 1),
    .loop .load, .loop (.now false), .loop .load, .call, .bus (.lock 0), .bus (.step 0),
    .bus (.step 0), .answered, .loop .callback]

theorem table_polled_seat : ∃ n' : Master.Node Unit,
    ({ bus := (), onFrame := true } : Master.Node Unit).setSchedule
      ((parse (fun _ => 0) (CText.unlines '\n' sampleLines)).schedule "NormalSchedule".toList) =
        (n', none) ∧
    ∃ p, run (Master.Plant.step 0) (Master.Plant.start n' false) pollSeat = some p ∧
      p.runner.told = [.ok (Bus.frameOf 0x20 ⟨[0x34, 0x12, 0, 0], .enhanced⟩)] ∧
      ∃ fr ∈ sampleDescription.frames, (0x20 : UInt8) = fr.id := by
  let tbl : Table :=
    { name := "NormalSchedule".toList,
      entries := [("MotorFrame".toList, 10), ("SeatFrame".toList, 20)] }
  have htbl : tbl ∈ sampleDescription.tables := List.mem_singleton.mpr rfl
  obtain ⟨hset, hpolled⟩ := table_polled renders_sample (fun _ => 0) htbl (List.cons_ne_nil _ _)
    { bus := (), onFrame := true }
  have htold : (run (Master.Plant.step 0) (Master.Plant.start
      { bus := (), onFrame := true, schedule := sampleDescription.schedule tbl } false)
      pollSeat).map (fun p => p.runner.told) =
        some [.ok (Bus.frameOf 0x20 ⟨[0x34, 0x12, 0, 0], .enhanced⟩)] := by decide +kernel
  obtain ⟨p, hp, htold⟩ := Option.map_eq_some_iff.mp htold
  obtain ⟨fr, hfr, hid, -⟩ := (hpolled 0 false pollSeat p hp).2
    (Bus.frameOf 0x20 ⟨[0x34, 0x12, 0, 0], .enhanced⟩) (by rw [htold]; exact List.mem_cons_self)
  exact ⟨_, hset, p, hp, htold, fr, hfr, hid⟩

/-! Protected frames. -/

/-- What the nodes publish under the identifier are messages of these payloads. -/
def Virt.PublishesProtected (cfg : Config) (seq : UInt32) (payloads : List Payload) (id : UInt8)
    (history : List (Nat × Request × Outcome)) : Prop :=
  ∀ w ∈ published history, w.id.val = id → w.data ≠ [] →
    ∃ i < payloads.length, w.data = message cfg (seq + UInt32.ofNat i) (payloads.getD i [])

/-- The data of the frames of one identifier that have been received from a channel. -/
def Virt.Sys.dataOf (s : Sys) (ch : Nat) (id : UInt8) : List Payload :=
  ((s.received ch).filter fun f => f.id = id).map Frame.data

/-- A consumer that unwraps what it receives under an identifier, of which fewer than 2^32
payloads are published, protected: whatever the interleaving, however often and how late the
headers come and whatever the channel drops, it accepts a block of the payloads, each of them
once and in order, and answers everything else with a sequence gap. -/
theorem protected_arrive {cfg : Config} {seq : UInt32} {payloads : List Payload}
    (hn : payloads.length < 2 ^ 32) {id : UInt8} {as : List Virt.Action} {s : Sys}
    (hrun : run Sys.step {} as = some s)
    (hprotected : PublishesProtected cfg seq payloads id (along Sys.step Sys.commit {} as))
    (ch : Nat) :
    ∃ (seen : List Nat) (first k : Nat),
      s.dataOf ch id =
        seen.map (fun i => message cfg (seq + UInt32.ofNat i) (payloads.getD i [])) ∧
      first + k ≤ payloads.length ∧
      accepted seen (Receiver.unwrapAll { cfg } (s.dataOf ch id)).1 =
        (List.range' first k).map (fun i => (i, payloads.getD i [])) ∧
      ∀ x ∈ (Receiver.unwrapAll { cfg } (s.dataOf ch id)).1, ∀ e, x = .error e →
        e.kind = .sequenceGap := by
  refine accepted_block cfg seq (fun i => payloads.getD i []) hn ?_
  intro d hd
  obtain ⟨f, hf, rfl⟩ := List.mem_map.mp hd
  obtain ⟨hreceived, hid⟩ := List.mem_filter.mp hf
  obtain ⟨-, -, -, w, -, -, hw, hcarries⟩ :=
    ((framesFrom_run hrun).observed (List.mem_append_left _ hreceived)).write
  rw [hcarries.data]
  exact hprotected w hw (hcarries.id.trans (of_decide_eq_true hid)) hcarries.nonempty

/-- The second payload is asked for twice, and the first one never. -/
def askedTwice : List Virt.Action :=
  [.call 1 (.exclusive (.subscribe [] [])), .lock 1, .step 1,
    .call 2 (.exclusive (.publish 9 (message {} 7 [1]))), .lock 2, .step 2,
    .call 2 (.exclusive (.publish 9 (message {} 8 [2]))), .lock 2, .step 2,
    .call 1 (.sendHeader 9), .lock 1, .step 1, .step 1, .step 1,
    .call 1 (.sendHeader 9), .lock 1, .step 1, .step 1, .step 1, .recv 0, .recv 0]

theorem protected_arrive_twice : ∃ s, run Sys.step {} askedTwice = some s ∧
    s.dataOf 0 9 = [message {} 8 [2], message {} 8 [2]] ∧
    ∃ (seen : List Nat) (first k : Nat), first + k ≤ 2 ∧
      accepted seen (Receiver.unwrapAll { cfg := {} } (s.dataOf 0 9)).1 =
        (List.range' first k).map fun i => (i, ([[1], [2]] : List Payload).getD i []) := by
  have hseen : (run Sys.step {} askedTwice).map (fun s => s.dataOf 0 9) =
      some [message {} 8 [2], message {} 8 [2]] := by decide +kernel
  have hpublished : (published (along Sys.step Sys.commit {} askedTwice)).map Write.data =
      [message {} 7 [1], message {} 8 [2]] := by decide +kernel
  have hprotected : PublishesProtected {} 7 [[1], [2]] 9
      (along Sys.step Sys.commit {} askedTwice) := by
    intro w hw _ _
    have hdata := List.mem_map_of_mem (f := Write.data) hw
    rw [hpublished] at hdata
    rcases List.mem_cons.mp hdata with hfirst | hlast
    · exact ⟨0, by decide, hfirst⟩
    · exact ⟨1, by decide, List.mem_singleton.mp hlast⟩
  obtain ⟨s, hs, hdata⟩ := Option.map_eq_some_iff.mp hseen
  obtain ⟨seen, first, k, -, hle, hacc, -⟩ := protected_arrive (by decide) hs hprotected 0
  exact ⟨s, hs, hdata, seen, first, k, hle, hacc⟩

end CppLin
