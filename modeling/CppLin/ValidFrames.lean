import CppLin.Bridge

/-!
Which frames a bus can send, and where they are valid LIN frames: the identifier and the
checksum type always are, the length only as far as the callers see to it.
-/
namespace CppLin
open Bytes Relay Run Virt

/-- Where a frame can be met: returned by `send_header`, received, or still buffered. -/
def Observed (s : Session) (f : Frame) : Prop :=
  f ∈ emissions s.log ∨ ∃ ch, f ∈ receivedOn ch s.log ∨ f ∈ (s.bus.chans ch).buf

/-- Whatever is in a channel or came out of one has been sent. -/
def OnlySent (s : Session) : Prop :=
  ∀ ch f, f ∈ receivedOn ch s.log ∨ f ∈ (s.bus.chans ch).buf → f ∈ emissions s.log

theorem OnlySent.step {s s' : Session} {op : Op} (h : OnlySent s) (hstep : s.step op = some s') :
    OnlySent s' := by
  obtain ⟨out, heffect, hlog⟩ := Session.effect_step hstep
  intro ch f hf
  rw [hlog, receivedOn_concat, List.mem_append] at hf
  rw [hlog, emissions_concat, List.mem_append]
  cases hsent : sentBy (op, out) with
  | none =>
      -- what is there was there: received now, or still buffered
      left
      obtain hbuf | ⟨-, -, hnone, hempty⟩ := heffect.chan_buf hsent ch
      · rcases hf with (hold | hnew) | hin
        · exact h ch f (.inl hold)
        · exact h ch f (.inr (hbuf ▸ List.mem_append_left _ hnew))
        · exact h ch f (.inr (hbuf ▸ List.mem_append_right _ hin))
      · rw [hnone, hempty] at hf
        rcases hf with (hold | hnew) | hin
        · exact h ch f (.inl hold)
        · cases hnew
        · cases hin
  | some g =>
      obtain ⟨id, m, hm, hbr, hnone⟩ := heffect.of_sent hsent
      rw [hnone ch] at hf
      rcases hf with (hold | hnew) | hin
      · exact .inl (h ch f (.inl hold))
      · cases hnew
      · rcases Bus.foldlM_deliver_mem hbr hin with hmid | rfl
        · rw [(Bus.respond_frame hm).2] at hmid
          exact .inl (h ch f (.inr hmid))
        · exact .inr List.mem_cons_self

/-- The bus answers a header with at most eight bytes, if it answers it. -/
def NodeCall.Fits (s : Session) : NodeCall → Prop
  | .bus (.sendHeader id) => s.bus.closed = false → id ≤ kLINMaxID →
      ∀ e ∈ s.bus.responses.lookup id, e.data.length ≤ kLINMaxDataLen
  | _ => True

def NodeCall.data : NodeCall → Payload
  | .bus (.publish _ data) | .bus (.publishClassic _ data) => data
  | .send m => m.payload
  | _ => []

theorem sent_valid_iff {b m : Bus} {ws : List Write} (hrefines : Refines b (.after ws))
    {id : UInt8} {f : Frame} (h : b.respond id = (m, .ok f)) :
    validateFrame f = .ok () ↔ f.data.length ≤ kLINMaxDataLen := by
  obtain ⟨hid, -, e, he, rfl, -⟩ := Bus.respond_ok h
  have hr := hrefines ⟨id, hid⟩
  rw [he] at hr
  obtain ⟨r, -, rfl⟩ := Option.map_eq_some_iff.mp hr.symm
  rw [validateFrame_ok_iff]
  constructor
  · rintro ⟨-, -, hlen, -⟩
    exact hlen
  · intro hlen
    exact ⟨hid, r.nonempty, hlen, r.diagnostic⟩

theorem fits_sendHeader_iff (s : Session) (id : UInt8) : NodeCall.Fits s (.bus (.sendHeader id)) ↔
    ∀ f, (s.bus.respond id).2 = .ok f → f.data.length ≤ kLINMaxDataLen := by
  constructor
  · intro h f hf
    obtain ⟨hid, hopen, e, he, rfl, -⟩ := Bus.respond_ok (Prod.ext rfl hf)
    exact h hopen hid e he
  · intro h hopen hid e he
    apply h (Bus.frameOf id e)
    rw [Bus.respond, if_neg (UInt8.not_lt.mpr hid), hopen, if_neg Bool.false_ne_true,
      Option.mem_def.mp he]

theorem sentBy_of_not_sendHeader {op : Op} (h : ∀ id, op ≠ .sendHeader id) (out : Outcome) :
    sentBy (op, out) = none := by
  cases op with
  | sendHeader id => exact absurd rfl (h id)
  | _ => rfl

theorem fits_iff {s s' : Session} {ws : List Write} (hrefines : Refines s.bus (.after ws))
    {op : Op} {out : Outcome} (hx : s.bus.exec op = some (s'.bus, out)) :
    (∀ f ∈ sentBy (op, out), validateFrame f = .ok ()) ↔ NodeCall.Fits s (.bus op) := by
  by_cases hop : ∃ id, op = .sendHeader id
  · obtain ⟨id, rfl⟩ := hop
    obtain ⟨⟨m, r⟩, hm, heq⟩ := Option.map_eq_some_iff.mp hx
    obtain ⟨-, rfl⟩ := Prod.mk.inj heq
    rw [fits_sendHeader_iff, (Bus.sendHeader_some hm).2]
    cases hr : s.bus.respond id with
    | mk m r =>
        cases r with
        | error e => exact iff_of_true (by intro f hf; cases hf) (by intro f hf; cases hf)
        | ok f =>
            have hvalid := sent_valid_iff hrefines hr
            constructor
            · intro h g hg
              obtain rfl := Except.ok.inj hg
              exact hvalid.mp (h f rfl)
            · intro h g hg
              obtain rfl := Option.some.inj hg
              exact hvalid.mpr (h f rfl)
  · rw [sentBy_of_not_sendHeader (fun id he => hop ⟨id, he⟩) out]
    refine iff_of_true (by intro f hf; cases hf) ?_
    cases op with
    | sendHeader id => exact absurd ⟨id, rfl⟩ hop
    | _ => trivial

/-- The responses on the bus, its log, and no frame in a channel but those sent. -/
structure Consistent (s : Session) : Prop where
  refines : Refines s.bus (.after (writes s.log))
  onlySent : OnlySent s

theorem Consistent.step {s s' : Session} {c : NodeCall} (h : Consistent s)
    (hstep : c.step s = some s') : Consistent s' := by
  cases c with
  | bus op => exact ⟨refines_step h.refines hstep, h.onlySent.step hstep⟩
  | send m =>
      rw [NodeCall.send_step] at hstep
      cases hp : publishedBy m with
      | none =>
          rw [hp] at hstep
          obtain rfl := Option.some.inj hstep
          exact h
      | some op =>
          rw [hp] at hstep
          exact ⟨refines_step h.refines hstep, h.onlySent.step hstep⟩

theorem Consistent.create : Consistent {} := by
  refine ⟨Refines.create, ?_⟩
  rintro ch f (hf | hf) <;> cases hf

theorem Consistent.observed_iff {s : Session} (h : Consistent s) {P : Frame → Prop} :
    (∀ f, Observed s f → P f) ↔ ∀ f ∈ emissions s.log, P f := by
  constructor
  · intro hall f hf
    exact hall f (.inl hf)
  · rintro hall f (hf | ⟨ch, hf⟩)
    · exact hall f hf
    · exact hall f (h.onlySent ch f hf)

theorem publishedBy_not_sendHeader {m : Message} {op : Op} (h : publishedBy m = some op)
    (id : UInt8) : op ≠ .sendHeader id := by
  rintro rfl
  unfold publishedBy at h
  split at h
  · cases h
  · split_ifs at h <;> cases h

/-- A call adds to the frames sent what its call on the bus sends, if it makes one. -/
theorem emissions_step {s s' : Session} {c : NodeCall} (h : Consistent s)
    (hstep : c.step s = some s') : ∃ sent : Option Frame,
      emissions s'.log = emissions s.log ++ sent.toList ∧
      ((∀ f ∈ sent, validateFrame f = .ok ()) ↔ c.Fits s) := by
  cases c with
  | bus op =>
      obtain ⟨out, hx, hlog⟩ := Session.step_some hstep
      exact ⟨_, by rw [hlog, emissions_concat], fits_iff h.refines hx⟩
  | send m =>
      refine ⟨none, ?_, iff_of_true (by intro f hf; cases hf) trivial⟩
      rw [NodeCall.send_step] at hstep
      cases hp : publishedBy m with
      | none =>
          rw [hp] at hstep
          obtain rfl := Option.some.inj hstep
          exact (List.append_nil _).symm
      | some op =>
          rw [hp] at hstep
          obtain ⟨out, hx, hlog⟩ := Session.step_some hstep
          rw [hlog, emissions_concat, sentBy_of_not_sendHeader (publishedBy_not_sendHeader hp)]

/-- The responses stored are not longer than a frame may be. -/
def ShortResponses (b : Bus) : Prop :=
  ∀ id, ∀ e ∈ b.responses.lookup id, e.data.length ≤ kLINMaxDataLen

theorem ShortResponses.doPublish {b : Bus} (h : ShortResponses b) (id : UInt8) {data : Payload}
    (hdata : data.length ≤ kLINMaxDataLen) (ct : ChecksumType) :
    ShortResponses (b.doPublish id data ct).1 := by
  cases hp : b.doPublish id data ct with
  | mk b' e =>
      cases e with
      | some e =>
          rw [Bus.doPublish_error hp]
          exact h
      | none =>
          obtain ⟨-, -, rfl⟩ := Bus.doPublish_ok hp
          intro i x hx
          by_cases hd : data = []
          · simp only [if_pos hd] at hx
            by_cases hi : i = id
            · rw [hi, AList.lookup_erase] at hx
              cases hx
            · rw [AList.lookup_erase_ne hi] at hx
              exact h i x hx
          · simp only [if_neg hd] at hx
            by_cases hi : i = id
            · rw [hi, AList.lookup_insert] at hx
              obtain rfl := Option.some.inj hx
              exact hdata
            · rw [AList.lookup_insert_ne hi] at hx
              exact h i x hx

theorem ShortResponses.exec {b b' : Bus} (h : ShortResponses b) {op : Op} {out : Outcome}
    (hdata : (NodeCall.bus op).data.length ≤ kLINMaxDataLen) (hx : b.exec op = some (b', out)) :
    ShortResponses b' := by
  cases op with
  | publish id data =>
      obtain ⟨rfl, -⟩ := Prod.mk.inj (Option.some.inj hx)
      exact h.doPublish id hdata .enhanced
  | publishClassic id data =>
      obtain ⟨rfl, -⟩ := Prod.mk.inj (Option.some.inj hx)
      exact h.doPublish id hdata .classic
  | _ =>
      intro id e he
      rw [Bus.exec_responses hx fun _ _ => ⟨Op.noConfusion, Op.noConfusion⟩] at he
      exact h id e he

theorem publishedBy_data {m : Message} {op : Op} (h : publishedBy m = some op) :
    (NodeCall.bus op).data = m.payload := by
  have hpayload : ∀ f, fromMessage m = .ok f → f.data = m.payload := by
    intro f hf
    unfold fromMessage at hf
    split at hf
    · cases hf
    · split_ifs at hf
      split at hf
      · cases hf
      · obtain rfl := Except.ok.inj hf
        rfl
  unfold publishedBy at h
  split at h
  · cases h
  · rename_i f hf
    split_ifs at h <;> obtain rfl := Option.some.inj h <;> exact hpayload f hf

theorem ShortResponses.step {s s' : Session} {c : NodeCall} (h : ShortResponses s.bus)
    (hdata : c.data.length ≤ kLINMaxDataLen) (hstep : c.step s = some s') :
    ShortResponses s'.bus := by
  cases c with
  | bus op =>
      obtain ⟨out, hx, -⟩ := Session.step_some hstep
      exact h.exec hdata hx
  | send m =>
      rw [NodeCall.send_step] at hstep
      cases hp : publishedBy m with
      | none =>
          rw [hp] at hstep
          obtain rfl := Option.some.inj hstep
          exact h
      | some op =>
          rw [hp] at hstep
          obtain ⟨out, hx, -⟩ := Session.step_some hstep
          exact h.exec (publishedBy_data hp ▸ hdata) hx

/-- All frames a bus sends are valid LIN frames exactly when each header it answers asks
for a response of at most eight bytes; no publish call checks that, so it is so whenever
nothing longer is published. -/
theorem frames_valid_iff {calls : List NodeCall} {s : Session}
    (h : run NodeCall.step {} calls = some s) :
    ((∀ f, Observed s f → validateFrame f = .ok ()) ↔
      Guarded NodeCall.step NodeCall.Fits {} calls) ∧
    ((∀ c ∈ calls, c.data.length ≤ kLINMaxDataLen) →
      ∀ f, Observed s f → validateFrame f = .ok ()) := by
  have hiff : (∀ f, Observed s f → validateFrame f = .ok ()) ↔
      Guarded NodeCall.step NodeCall.Fits {} calls := by
    refine guarded_iff (I := Consistent)
      (P := fun s => ∀ f, Observed s f → validateFrame f = .ok ())
      (fun _ _ _ hs hstep => hs.step hstep) ?_ ?_ Consistent.create ?_ h
    · intro s c s' hs hvalid hstep
      rw [hs.observed_iff] at hvalid
      obtain ⟨sent, hemit, hfits⟩ := emissions_step hs hstep
      rw [(hs.step hstep).observed_iff, hemit, ← hfits]
      constructor
      · intro hall f hf
        exact hall f (List.mem_append_right _ (Option.mem_toList.mpr hf))
      · intro hnew f hf
        rcases List.mem_append.mp hf with hold | hf
        · exact hvalid f hold
        · exact hnew f (Option.mem_toList.mp hf)
    · intro s c s' hs hbad hstep
      rw [hs.observed_iff] at hbad
      obtain ⟨sent, hemit, -⟩ := emissions_step hs hstep
      rw [(hs.step hstep).observed_iff, hemit]
      intro hall
      exact hbad fun f hf => hall f (List.mem_append_left _ hf)
    · rw [Consistent.create.observed_iff]
      intro f hf
      cases hf
  refine ⟨hiff, ?_⟩
  intro hshort
  rw [hiff]
  refine guarded_of_invariant (I := fun s => ShortResponses s.bus)
    (fun _ _ _ hs hdata hstep => ShortResponses.step hs hdata hstep) ?_ hshort ?_
  · intro s c hs
    cases c with
    | bus op =>
        cases op with
        | sendHeader id => exact fun _ _ e he => hs id e he
        | _ => trivial
    | send m => trivial
  · intro id e he
    cases he

/-- A diagnostic message through the adapter, and eight bytes on the bus. -/
theorem frames_valid_iff_short :
    let calls : List NodeCall := [.send (toMessage { id := 0x3C, data := [1] }),
      .bus (.publish 5 [1, 2, 3, 4, 5, 6, 7, 8]), .bus (.sendHeader 0x3C), .bus (.sendHeader 5)]
    ∃ s, run NodeCall.step {} calls = some s ∧
      ((∀ f, Observed s f → validateFrame f = .ok ()) ↔
        Guarded NodeCall.step NodeCall.Fits {} calls) := by
  intro calls
  have hruns : (run NodeCall.step {} calls).isSome = true := by decide +kernel
  obtain ⟨s, h⟩ := Option.isSome_iff_exists.mp hruns
  exact ⟨s, h, (frames_valid_iff h).1⟩

/-- Nine bytes are published, sent and refused by `validate_frame`. -/
theorem not_frames_valid : ¬ ∀ (calls : List NodeCall) (s : Session),
    run NodeCall.step {} calls = some s → ∀ f, Observed s f → validateFrame f = .ok () := by
  intro h
  let calls : List NodeCall := [.bus (.publish 5 [1, 2, 3, 4, 5, 6, 7, 8, 9]), .bus (.sendHeader 5)]
  have hsent : ((run NodeCall.step {} calls).map fun s =>
      (emissions s.log).map fun f => f.data.length) = some [9] := by decide +kernel
  obtain ⟨s, hs, hlen⟩ := Option.map_eq_some_iff.mp hsent
  obtain ⟨f, hf, hnine⟩ := List.map_eq_singleton_iff.mp hlen
  have hvalid := h calls s hs f (.inl (hf ▸ List.mem_cons_self))
  have hshort := (validateFrame_ok_iff.mp hvalid).2.2.1
  rw [hnine] at hshort
  exact absurd hshort (by decide)

end CppLin
