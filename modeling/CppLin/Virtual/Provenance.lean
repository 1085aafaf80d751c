import CppLin.Virtual.Effects
import CppLin.Virtual.Linearization

/-!
Where the frames come from that the consumers of the channels see: each is the answer to one
header, and carries what was last published for its identifier when the header took effect.
-/
namespace CppLin.Virt
open Bytes Relay Run LastWrite

/-- The write a request amounts to if it succeeds. -/
def Request.write : Request → Option Write
  | .publish id data => if h : id ≤ kLINMaxID then some ⟨⟨id, h⟩, data, .enhanced⟩ else none
  | .publishClassic id data => if h : id ≤ kLINMaxID then some ⟨⟨id, h⟩, data, .classic⟩ else none
  | _ => none

/-- The successful publish calls, in the order in which they took effect. -/
def published (history : List (Nat × Request × Outcome)) : List Write :=
  history.filterMap fun x => match x.2.2 with
    | .code none => x.2.1.write
    | _ => none

namespace Registry

theorem write_ok {r : Registry} {id : UInt8} {data : Payload} {ct : ChecksumType}
    (h : (r.write id data ct).2 = none) : ∃ hid : id ≤ kLINMaxID,
      (r.write id data ct).1 = { r with responses := r.responses.write ⟨⟨id, hid⟩, data, ct⟩ } := by
  unfold write at h ⊢
  by_cases hid : id ≤ kLINMaxID
  · rw [dif_pos hid] at h ⊢
    refine ⟨hid, ?_⟩
    split_ifs at h ⊢ with hc
    rfl
  · rw [dif_neg hid] at h
    cases h

theorem write_error {r : Registry} {id : UInt8} {data : Payload} {ct : ChecksumType} {e : ErrorCode}
    (h : (r.write id data ct).2 = some e) : (r.write id data ct).1 = r := by
  unfold write at h ⊢
  split_ifs at h ⊢ <;> rfl

theorem shut_responses (r : Registry) : r.shut.responses = r.responses := by
  unfold shut
  split_ifs <;> rfl

theorem responses_step {r r' : Registry} {t : Nat} {req : Request} {out : Outcome}
    (h : r.step (req, out) = some r') :
    r'.responses = (published [(t, req, out)]).foldl ResponseMap.write r.responses := by
  have publishes : ∀ id data ct (out : Outcome) (p : Option Write),
      (if h : id ≤ kLINMaxID then some ⟨⟨id, h⟩, data, ct⟩ else none) = p →
      (out = .code (r.write id data ct).2) →
      (r.write id data ct).1.responses =
        ((match out with | .code none => p | _ => none).toList).foldl ResponseMap.write
          r.responses := by
    rintro id data ct out p rfl rfl
    cases hw : (r.write id data ct).2 with
    | some e => simp only [write_error hw, Option.toList_none, List.foldl_nil]
    | none =>
        obtain ⟨hid, hwrite⟩ := write_ok hw
        simp only [hwrite, dif_pos hid, Option.toList_some, List.foldl_cons, List.foldl_nil]
  have single : published [(t, req, out)] =
      (match out with | .code none => req.write | _ => none).toList := by
    unfold published
    rw [List.filterMap_cons, List.filterMap_nil]
    simp only
    split <;> simp_all
  have quiet : req.write = none → (r.serve req).1.responses = r.responses →
      (r.serve req).1 = r' → r'.responses = (published [(t, req, out)]).foldl ResponseMap.write
        r.responses := by
    rintro hwrite hsame rfl
    have hnone : (match out with | .code none => req.write | _ => none) = none := by
      split
      · exact hwrite
      · rfl
    rw [single, hnone, Option.toList_none, List.foldl_nil, hsame]
  unfold step at h
  cases req with
  | publish id data =>
      simp only at h
      split_ifs at h with hout
      obtain rfl := Option.some.inj h
      rw [single]
      exact publishes id data .enhanced out _ rfl hout
  | publishClassic id data =>
      simp only at h
      split_ifs at h with hout
      obtain rfl := Option.some.inj h
      rw [single]
      exact publishes id data .classic out _ rfl hout
  | setSchedule entries =>
      simp only at h
      split_ifs at h with hout
      refine quiet rfl ?_ (Option.some.inj h)
      rw [serve]
      split_ifs <;> rfl
  | subscribe filters opts =>
      simp only at h
      split_ifs at h with hout
      refine quiet rfl ?_ (Option.some.inj h)
      rw [serve, subscribe]
      split_ifs <;> rfl
  | close =>
      simp only at h
      split_ifs at h with hout
      exact quiet rfl r.shut_responses (Option.some.inj h)
  | closeWithDrain =>
      simp only at h
      split_ifs at h with hout
      exact quiet rfl r.shut_responses (Option.some.inj h)
  | sendHeader id =>
      simp only at h
      split_ifs at h with hout
      exact quiet rfl rfl (Option.some.inj h)

theorem published_append (history later : List (Nat × Request × Outcome)) :
    published (history ++ later) = published history ++ published later := List.filterMap_append ..

/-- What the registry holds is what the publish calls wrote. -/
theorem responses_run {r : Registry} {history : List (Nat × Request × Outcome)}
    (h : run (fun (r : Registry) x => r.step x.2) {} history = some r) :
    r.responses = ResponseMap.after (published history) := by
  refine history_run (P := fun history r => r.responses = ResponseMap.after (published history))
    rfl ?_ h
  rintro history r ⟨t, req, out⟩ r' _ hr hstep
  rw [responses_step (t := t) hstep, published_append, ResponseMap.after, List.foldl_append, hr]
  rfl

end Registry

/-- A frame that answered a header: it is what was last published for its identifier before. -/
def Answered (history : List (Nat × Request × Outcome)) (f : Frame) : Prop :=
  ∃ pre t post, history = pre ++ (t, .sendHeader f.id, .frame (.ok f)) :: post ∧
    ∃ hid : f.id ≤ kLINMaxID, Answers ⟨f.id, hid⟩ (latest Write.id ⟨f.id, hid⟩ (published pre)) (.ok f)

theorem Answered.later {history : List (Nat × Request × Outcome)} {f : Frame}
    (h : Answered history f) (more : List (Nat × Request × Outcome)) :
    Answered (history ++ more) f := by
  obtain ⟨pre, t, post, rfl, hf⟩ := h
  exact ⟨pre, t, post ++ more, by simp, hf⟩

/-- The frame carries what a publish call registered. -/
structure Carries (w : Write) (f : Frame) : Prop where
  id : w.id.val = f.id
  nonempty : w.data ≠ []
  data : f.data = w.data
  checksumType : f.checksumType =
    if w.checksumType = .classic ∨ isDiagnostic f.id = true then .classic else .enhanced

theorem Answers.carries {id : FrameId} {last : Option Write} {f : Frame}
    (h : Answers id last (.ok f)) : ∃ w, last = some w ∧ (w.id = id → Carries w f) := by
  cases last with
  | none => cases h
  | some w =>
      rw [Answers] at h
      by_cases hempty : w.data = []
      · rw [if_pos hempty] at h
        cases h
      · rw [if_neg hempty] at h
        obtain ⟨g, hg, hid, hdata, hct, -⟩ := h
        obtain rfl := Except.ok.inj hg
        refine ⟨w, rfl, fun hw => ⟨?_, hempty, hdata, ?_⟩⟩
        · rw [hw, hid]
        · rw [hid, hct]

/-- A frame that answered a header carries the data of a publish call, of the last one before,
and that did not take the response away. -/
theorem Answered.write {history : List (Nat × Request × Outcome)} {f : Frame}
    (h : Answered history f) : ∃ pre t post w,
      history = pre ++ (t, .sendHeader f.id, .frame (.ok f)) :: post ∧
      (∃ hid : f.id ≤ kLINMaxID, latest Write.id ⟨f.id, hid⟩ (published pre) = some w) ∧
      w ∈ published history ∧ Carries w f := by
  obtain ⟨pre, t, post, hhistory, hid, hanswers⟩ := h
  obtain ⟨w, hw, hcarries⟩ := hanswers.carries
  obtain ⟨hmem, hwid⟩ := latest_spec Write.id hw
  refine ⟨pre, t, post, w, hhistory, ⟨hid, hw⟩, ?_, hcarries hwid⟩
  rw [hhistory, Registry.published_append]
  exact List.mem_append_left _ hmem

/-- Every frame in a channel, received or on its way is such a frame. -/
structure Sys.FramesFrom (P : Frame → Prop) (s : Sys) : Prop where
  buffered : ∀ ch, ∀ f ∈ (s.bus.chans ch).buf, P f
  received : ∀ ch, ∀ f ∈ s.received ch, P f
  broadcast : ∀ t n f todo, s.pc t = .broadcasting n f todo → P f

theorem Exclusive.body_buf_subset {b b' : Bus} {c : Exclusive} {out : Outcome}
    (h : c.body b = (b', out)) (ch : Nat) : (b'.chans ch).buf ⊆ (b.chans ch).buf := by
  obtain rfl := congrArg Prod.fst h
  have published : ∀ id data ct,
      ((b.doPublish id data ct).1.chans ch).buf ⊆ (b.chans ch).buf := by
    intro id data ct
    rw [b.doPublish_chans]
    exact List.Subset.refl _
  have closed : (b.close.1.chans ch).buf ⊆ (b.chans ch).buf := by
    rw [b.close_buf]
    exact List.Subset.refl _
  cases c with
  | publish id data => exact published id data .enhanced
  | publishClassic id data => exact published id data .classic
  | setSchedule entries =>
      simp only [Exclusive.body, Bus.setSchedule]
      split_ifs <;> exact List.Subset.refl _
  | subscribe filters opts =>
      simp only [Exclusive.body, Bus.subscribe]
      split_ifs
      · exact List.Subset.refl _
      · by_cases hch : ch = b.handles
        · subst hch
          simp only [Function.update_self]
          exact List.nil_subset _
        · simp only [Function.update_of_ne hch]
          exact List.Subset.refl _
  | close => exact closed
  | closeDrained timedOut => exact closed

namespace Sys

section
variable {P : Frame → Prop} {s s' : Sys}

theorem FramesFrom.moved (h : s.FramesFrom P) {t : Nat} {p : Pc}
    (hbuf : ∀ ch, (s'.bus.chans ch).buf ⊆ (s.bus.chans ch).buf) (hreceived : s'.received = s.received)
    (hpc : s'.pc = Function.update s.pc t p)
    (hp : ∀ n f todo, p = .broadcasting n f todo → P f) : s'.FramesFrom P := by
  refine ⟨fun ch f hf => h.buffered ch f (hbuf ch hf), by rw [hreceived]; exact h.received, ?_⟩
  intro u n f todo hu
  rw [hpc] at hu
  by_cases he : u = t
  · subst he
    rw [Function.update_self] at hu
    exact hp n f todo hu
  · rw [Function.update_of_ne he] at hu
    exact h.broadcast u n f todo hu

theorem FramesFrom.mono {Q : Frame → Prop} (h : s.FramesFrom P) (hPQ : ∀ f, P f → Q f) :
    s.FramesFrom Q where
  buffered ch f hf := hPQ f (h.buffered ch f hf)
  received ch f hf := hPQ f (h.received ch f hf)
  broadcast t n f todo ht := hPQ f (h.broadcast t n f todo ht)

theorem FramesFrom.take (h : s.FramesFrom P) {ch : Nat} {c : Chan Frame} {x : Option Frame}
    (hc : (s.bus.chans ch).buf = x.toList ++ c.buf) : (s.take ch c x).FramesFrom P := by
  have hall : ∀ f ∈ x.toList ++ c.buf, P f := fun f hf => h.buffered ch f (hc ▸ hf)
  constructor
  · intro k f hf
    by_cases hk : k = ch
    · subst hk
      simp only [Sys.take, Bus.setChan, Function.update_self] at hf
      exact hall f (List.mem_append_right _ hf)
    · simp only [Sys.take, Bus.setChan, Function.update_of_ne hk] at hf
      exact h.buffered k f hf
  · intro k f hf
    by_cases hk : k = ch
    · subst hk
      simp only [Sys.take, Function.update_self] at hf
      rcases List.mem_append.mp hf with hf | hf
      · exact h.received k f hf
      · exact hall f (List.mem_append_left _ hf)
    · simp only [Sys.take, Function.update_of_ne hk] at hf
      exact h.received k f hf
  · exact h.broadcast

theorem FramesFrom.step {a : Action} (h : s.FramesFrom P) (hmoves : Moves s a s')
    (hemit : ∀ t id b f, a = .step t → s.pc t = .entered (.sendHeader id) →
      s.bus.respond id = (b, .ok f) → P f) : s'.FramesFrom P := by
  have same : ∀ ch, (s.bus.chans ch).buf ⊆ (s.bus.chans ch).buf := fun _ => List.Subset.refl _
  have responded : ∀ {b : Bus} {id r}, s.bus.respond id = (b, r) →
      ∀ ch, (b.chans ch).buf ⊆ (s.bus.chans ch).buf := by
    intro b id r hb ch
    rw [(Bus.respond_frame hb).2]
    exact List.Subset.refl _
  cases hmoves with
  | exclusive hpc hb =>
      exact h.moved (Exclusive.body_buf_subset hb) rfl rfl fun _ _ _ hp => by cases hp
  | respondError hpc hb => exact h.moved (responded hb) rfl rfl fun _ _ _ hp => by cases hp
  | @emit t id b f hpc hb =>
      refine h.moved (responded hb) rfl rfl ?_
      intro n g todo hp
      obtain ⟨-, rfl, -⟩ := Pc.broadcasting.inj hp
      exact hemit t id b f rfl hpc hb
  | @deliver t n f sub todo b hpc hb =>
      have hf := h.broadcast t n f _ hpc
      have hpc' : ∀ m g rest, Pc.broadcasting n f todo = .broadcasting m g rest → P g := by
        intro m g rest hp
        obtain ⟨-, rfl, -⟩ := Pc.broadcasting.inj hp
        exact hf
      have hmoved : (s.goto t (.broadcasting n f todo)).FramesFrom P :=
        h.moved same rfl rfl hpc'
      refine ⟨?_, h.received, hmoved.broadcast⟩
      intro ch g hg
      by_cases hch : ch = sub.ch
      · subst hch
        obtain ⟨-, rfl⟩ | ⟨c, m, -, hoffer, rfl⟩ := Bus.deliver_cases hb
        · exact h.buffered sub.ch g hg
        · simp only [record_bus, goto_bus, setBus_bus, Bus.setChan, Function.update_self] at hg
          rcases Chan.offer_mem hoffer hg with hg | rfl
          · exact h.buffered sub.ch g hg
          · exact hf
      · simp only [record_bus, goto_bus, setBus_bus, Bus.deliver_chans_of_ne hb hch] at hg
        exact h.buffered ch g hg
  | recv hr => exact h.take (Chan.recv_buf hr)
  | tryRecv hr => exact h.take (Chan.tryRecv_buf hr)
  | @closeChan ch =>
      refine ⟨?_, h.received, h.broadcast⟩
      intro k f hf
      by_cases hk : k = ch
      · subst hk
        simp only [setBus_bus, Bus.closeChan, Bus.setChan, Function.update_self] at hf
        exact h.buffered k f hf
      · simp only [setBus_bus, Bus.closeChan, Bus.setChan, Function.update_of_ne hk] at hf
        exact h.buffered k f hf
  | ended hpc => exact h.moved same rfl rfl fun _ _ _ hp => by cases hp
  | _ => exact h.moved same rfl rfl fun _ _ _ hp => by cases hp

end

end Sys

theorem answered_of_emit {as : List Action} {s : Sys} (h : run Sys.step {} as = some s) {t : Nat}
    {id : UInt8} {b : Bus} {f : Frame} (hpc : s.pc t = .entered (.sendHeader id))
    (hb : s.bus.respond id = (b, .ok f)) :
    Answered (along Sys.step Sys.commit {} as ++ s.commit (.step t)) f := by
  obtain ⟨r, hr, hmirrors⟩ := Registry.mirrors_run h
  have hrefines : Refines s.bus (.after (published (along Sys.step Sys.commit {} as))) :=
    Registry.responses_run hr ▸ hmirrors.responses
  have hcommit : s.commit (.step t) = [(t, .sendHeader id, .frame (.ok f))] := by
    simp only [Sys.commit, hpc, hb]
  obtain ⟨hid, hopen, e, -, rfl, -⟩ := Bus.respond_ok hb
  have hanswers := respond_answers hrefines hopen ⟨id, hid⟩
  rw [hb] at hanswers
  exact ⟨_, t, [], by rw [hcommit]; rfl, hid, hanswers⟩

theorem Section.rejects_ne_frame {c : Section} {out : Outcome} (h : c.rejects = some out)
    (f : Frame) : out ≠ .frame (.ok f) := by
  unfold Section.rejects at h
  split at h
  case h_4 => cases h
  all_goals
    split_ifs at h
    obtain rfl := Option.some.inj h
    exact fun hout => by cases hout

/-- Only a header that finds a response is answered with a frame. -/
theorem emit_of_commit {s : Sys} {a : Action} {t : Nat} {id : UInt8} {f : Frame}
    (h : (t, .sendHeader id, .frame (.ok f)) ∈ s.commit a) :
    a = .step t ∧ s.pc t = .entered (.sendHeader id) ∧ (s.bus.respond id).2 = .ok f := by
  unfold Sys.commit at h
  split at h
  case h_1 u c =>
    split at h
    case h_1 hpc hr =>
      obtain ⟨-, hrest⟩ := Prod.mk.inj (List.mem_singleton.mp h)
      exact absurd (Prod.mk.inj hrest).2.symm (Section.rejects_ne_frame hr f)
    case h_2 => cases h
  case h_2 u =>
    split at h
    case h_1 c hpc =>
      obtain ⟨-, hrest⟩ := Prod.mk.inj (List.mem_singleton.mp h)
      cases c <;> cases congrArg Prod.fst hrest
    case h_2 i hpc =>
      obtain ⟨rfl, hrest⟩ := Prod.mk.inj (List.mem_singleton.mp h)
      obtain ⟨hreq, hout⟩ := Prod.mk.inj hrest
      obtain rfl := Request.sendHeader.inj hreq
      exact ⟨rfl, hpc, (Outcome.frame.inj hout).symm⟩
    case h_3 => cases h
  case h_3 => cases h

theorem answered_run {as : List Action} {s : Sys} (h : run Sys.step {} as = some s) {t : Nat}
    {id : UInt8} {f : Frame}
    (hf : (t, .sendHeader id, .frame (.ok f)) ∈ along Sys.step Sys.commit {} as) :
    f.id = id ∧ Answered (along Sys.step Sys.commit {} as) f := by
  refine history_run (P := fun as _ => (t, .sendHeader id, .frame (.ok f)) ∈
    along Sys.step Sys.commit {} as → f.id = id ∧ Answered (along Sys.step Sys.commit {} as) f)
    (fun hf => by cases hf) ?_ h hf
  intro as m a m' hrun hm hstep hmem
  rw [along_concat _ hrun] at hmem ⊢
  rcases List.mem_append.mp hmem with hold | hnew
  · exact ⟨(hm hold).1, (hm hold).2.later _⟩
  · obtain ⟨rfl, hpc, hout⟩ := emit_of_commit hnew
    have hb : m.bus.respond id = ((m.bus.respond id).1, .ok f) := Prod.ext rfl hout
    refine ⟨?_, answered_of_emit hrun hpc hb⟩
    obtain ⟨-, -, e, -, rfl, -⟩ := Bus.respond_ok hb
    rfl

theorem framesFrom_run {as : List Action} {s : Sys} (h : run Sys.step {} as = some s) :
    s.FramesFrom (Answered (along Sys.step Sys.commit {} as)) := by
  refine history_run (P := fun as s => s.FramesFrom (Answered (along Sys.step Sys.commit {} as)))
    ?_ ?_ h
  · constructor
    · exact fun ch f hf => absurd hf List.not_mem_nil
    · exact fun ch f hf => absurd hf List.not_mem_nil
    · exact fun t n f todo ht => by cases ht
  · intro as m a m' hrun hm hstep
    rw [along_concat _ hrun]
    refine (hm.mono fun f hf => hf.later _).step (Sys.moves_of_step hstep) ?_
    rintro t id b f rfl hpc hb
    exact answered_of_emit hrun hpc hb

theorem Sys.FramesFrom.observed {P : Frame → Prop} {s : Sys} (h : s.FramesFrom P) {ch : Nat}
    {f : Frame} (hf : f ∈ s.received ch ++ (s.bus.chans ch).buf) : P f := by
  rcases List.mem_append.mp hf with hf | hf
  · exact h.received ch f hf
  · exact h.buffered ch f hf

/-- Whatever a consumer has received or finds in a channel, under any interleaving, is the answer
to one header: the data last published for its identifier when the header took effect, under
the checksum type that was asked for (classic for a diagnostic identifier), with the checksum
that fits. -/
theorem observed_answered {as : List Action} {s : Sys} (h : run Sys.step {} as = some s) {ch : Nat}
    {f : Frame} (hf : f ∈ s.received ch ++ (s.bus.chans ch).buf) :
    Answered (along Sys.step Sys.commit {} as) f :=
  (framesFrom_run h).observed hf

/-- The response changes after the header: the frame is the old one. -/
def replacedResponse : List Action :=
  [.call 1 (.exclusive (.subscribe [] [])), .lock 1, .step 1,
    .call 1 (.exclusive (.publish 5 [1])), .lock 1, .step 1, .call 2 (.sendHeader 5), .lock 2,
    .step 2, .step 2, .call 1 (.exclusive (.publish 5 [2])), .step 2, .lock 1, .step 1, .recv 0]

theorem observed_answered_replaced :
    Answered (along Sys.step Sys.commit {} replacedResponse) (Bus.frameOf 5 ⟨[1], .enhanced⟩) := by
  have hseen : (run Sys.step {} replacedResponse).map (fun s => s.received 0) =
      some [Bus.frameOf 5 ⟨[1], .enhanced⟩] := by decide +kernel
  obtain ⟨s, hs, hreceived⟩ := Option.map_eq_some_iff.mp hseen
  have hf : Bus.frameOf 5 ⟨[1], .enhanced⟩ ∈ s.received 0 ++ (s.bus.chans 0).buf := by
    rw [hreceived]
    exact List.mem_cons_self
  exact observed_answered hs hf

end CppLin.Virt
