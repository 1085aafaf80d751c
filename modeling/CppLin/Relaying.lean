import CppLin.Bridge
import CppLin.Forwarding
import CppLin.Safety.Receiver
import CppLin.Virtual.Provenance

/-!
Messages from one adapter to another: what a consumer receives through `subscribe` stands to
what was sent through `send`, whatever the threads of the bus and the forwarding thread do, and
from one bus to the next.
-/
namespace CppLin
open Bytes Relay Run Virt LastWrite Safety

/-- The call by which the adapter sends a frame. -/
def Frame.publishes (f : Frame) : Op :=
  if f.checksumType = .classic ∨ isDiagnostic f.id = true then .publishClassic f.id f.data
  else .publish f.id f.data

/-- What a message registers when its call on the bus succeeds. -/
def sentAs (m : Message) : Option Write := (publishedBy m).bind fun op => writeOf (op, .code none)

/-- Every publish call that has taken effect was that of a message of this kind. -/
def SentThrough (P : Message → Prop) (history : List (Nat × Request × Outcome)) : Prop :=
  ∀ w ∈ published history, ∃ m, P m ∧ sentAs m = some w

theorem publishedBy_of_ok {m : Message} {f : Frame} (h : fromMessage m = .ok f) :
    publishedBy m = some f.publishes := by
  rw [publishedBy, h]
  change (if _ then _ else _) = _
  rw [Frame.publishes]
  split_ifs <;> rfl

theorem writeOf_publishes {f : Frame} {w : Write} (h : writeOf (f.publishes, .code none) = some w) :
    w.id.val = f.id ∧ w.data = f.data ∧ (w.checksumType = .classic ↔
      f.checksumType = .classic ∨ isDiagnostic f.id = true) := by
  unfold Frame.publishes at h
  split_ifs at h with hc <;>
    simp only [writeOf, Option.dite_none_right_eq_some, Option.some.injEq] at h
  · obtain ⟨hid, rfl⟩ := h
    exact ⟨rfl, rfl, by simp [hc]⟩
  · obtain ⟨hid, rfl⟩ := h
    exact ⟨rfl, rfl, by simp [hc]⟩

/-- A frame that carries the response of a message is sent on by the message's own call. -/
theorem Virt.Carries.publishes {m : Message} {w : Write} {f : Frame} (h : Carries w f)
    (hw : sentAs m = some w) : publishedBy m = some f.publishes := by
  obtain ⟨op, hop, hwrite⟩ := Option.bind_eq_some_iff.mp hw
  cases hm : fromMessage m with
  | error e =>
      rw [publishedBy, hm] at hop
      cases hop
  | ok g =>
      rw [publishedBy_of_ok hm] at hop ⊢
      obtain rfl := Option.some.inj hop
      obtain ⟨hid, hdata, hct⟩ := writeOf_publishes hwrite
      have hsame : f.checksumType = .classic ∨ isDiagnostic f.id = true ↔
          g.checksumType = .classic ∨ isDiagnostic g.id = true := by
        rw [h.checksumType, ← h.id, hid]
        split_ifs with hc
        · simpa [hct] using hc
        · exact ⟨fun h => h.elim (fun h => by cases h) .inr, fun h => absurd (.inl (hct.mpr h)) hc⟩
      rw [Frame.publishes, Frame.publishes, ← hid, ← hdata, h.id, h.data]
      rw [← hid, h.id] at hsame
      simp only [hsame]

theorem fromMessage_untagged (m : Message) : fromMessage (untagged m) = fromMessage m := rfl

namespace Feed

def onBus (s : Feed) : FeedAction → List Action
  | .bus a => [a]
  | .fetch _ => [.recv s.fwd.frameCh]
  | .push | .finish | .recv | .tryRecv | .close => []

/-- The messages on the way from the forwarding thread to the consumer, and those received. -/
def messages (s : Feed) : List Message := s.received ++ s.fwd.out.buf ++ s.fwd.held.toList

theorem onBus_step {s s' : Feed} {a : FeedAction} (h : s.step a = some s') :
    run Sys.step s.sys (s.onBus a) = some s'.sys := by
  cases a with
  | bus a =>
      simp only [step] at h
      split_ifs at h
      obtain ⟨m, hm, rfl⟩ := Option.map_eq_some_iff.mp h
      exact run_cons.mpr ⟨m, hm, rfl⟩
  | fetch now =>
      obtain ⟨-, c, f, hr, hsys, -⟩ := fetch_some h
      refine run_cons.mpr ⟨s'.sys, ?_, rfl⟩
      rw [Sys.step, hr, hsys]
      rfl
  | push =>
      obtain ⟨m, out, -, -, rfl⟩ := push_cases h
      rfl
  | finish =>
      obtain ⟨-, rfl⟩ := finish_cases h
      rfl
  | recv =>
      obtain ⟨x, -, rfl⟩ := Option.map_eq_some_iff.mp h
      rfl
  | tryRecv =>
      obtain rfl := Option.some.inj h
      rfl
  | close =>
      obtain rfl := Option.some.inj h
      rfl

/-- A message is new only when the thread makes it of a frame it finds in its channel. -/
theorem messages_step {s s' : Feed} {a : FeedAction} (h : s.step a = some s') {m : Message}
    (hm : m ∈ s'.messages) : m ∈ s.messages ∨
      ∃ f ∈ (s.sys.bus.chans s.fwd.frameCh).buf, untagged m = toMessage f := by
  cases a with
  | bus a =>
      simp only [step] at h
      split_ifs at h
      obtain ⟨s₁, -, rfl⟩ := Option.map_eq_some_iff.mp h
      exact .inl hm
  | fetch now =>
      obtain ⟨-, c, f, hr, -, hreceived, -, -, hout, hheld⟩ := fetch_some h
      rw [messages, hreceived, hout] at hm
      rcases List.mem_append.mp hm with hold | hnew
      · exact .inl (List.mem_append_left _ hold)
      · have hmap := List.mem_map_of_mem (f := untagged) hnew
        rw [hheld] at hmap
        obtain ⟨g, hg, hgm⟩ := List.mem_map.mp hmap
        refine .inr ⟨g, ?_, hgm.symm⟩
        rw [Chan.recv_buf hr]
        exact List.mem_append_left _ hg
  | push =>
      obtain ⟨x, out, hstage, ho, rfl⟩ := push_cases h
      have hheld : s.fwd.held = some x := by rw [Forwarder.held, hstage]
      simp only [messages, Forwarder.held, Option.toList_none, List.append_nil] at hm
      left
      rcases List.mem_append.mp hm with hreceived | hbuf
      · exact List.mem_append_left _ (List.mem_append_left _ hreceived)
      · rcases Chan.offer_mem ho hbuf with hold | rfl
        · exact List.mem_append_left _ (List.mem_append_right _ hold)
        · rw [messages, hheld]
          exact List.mem_append_right _ List.mem_cons_self
  | finish =>
      obtain ⟨-, rfl⟩ := finish_cases h
      simp only [messages, Forwarder.held, Option.toList_none, List.append_nil] at hm
      exact .inl (List.mem_append_left _ hm)
  | recv =>
      obtain ⟨⟨out, x⟩, hr, rfl⟩ := Option.map_eq_some_iff.mp h
      left
      rw [messages, Chan.recv_buf hr, ← List.append_assoc]
      exact hm
  | tryRecv =>
      obtain rfl := Option.some.inj h
      left
      rw [messages, Chan.tryRecv_buf (c := s.fwd.out) rfl, ← List.append_assoc]
      exact hm
  | close =>
      obtain rfl := Option.some.inj h
      exact .inl hm

/-- What has taken effect on the bus, since its beginning. -/
def history (before : List Action) (start : Feed) (as : List FeedAction) :
    List (Nat × Request × Outcome) :=
  along Sys.step Sys.commit {} (before ++ along step onBus start as)

theorem onBus_run {before : List Action} {start s : Feed} {as : List FeedAction}
    (h₀ : run Sys.step {} before = some start.sys) (h : run step start as = some s) :
    run Sys.step {} (before ++ along step onBus start as) = some s.sys := by
  obtain ⟨sys, hsys, rfl⟩ := simulation_run (R := fun (m : Sys) (s : Feed) => m = s.sys)
    (fun m s a s' hm hstep => ⟨s'.sys, hm ▸ onBus_step hstep, rfl⟩) rfl h
  exact run_append.mpr ⟨_, h₀, hsys⟩

theorem messages_run {before : List Action} {start s : Feed} {as : List FeedAction}
    (h₀ : run Sys.step {} before = some start.sys) (hnone : start.messages = [])
    (h : run step start as = some s) {m : Message} (hm : m ∈ s.messages) :
    ∃ f, Answered (history before start as) f ∧ untagged m = toMessage f := by
  refine history_run (P := fun as s => ∀ m ∈ s.messages,
    ∃ f, Answered (history before start as) f ∧ untagged m = toMessage f) ?_ ?_ h m hm
  · rw [hnone]
    exact fun m hm => absurd hm List.not_mem_nil
  · intro as s a s' hrun ih hstep m hm
    have hlater : history before start (as ++ [a]) =
        history before start as ++ along Sys.step Sys.commit s.sys (s.onBus a) := by
      rw [history, along_concat _ hrun, ← List.append_assoc, along_append _ (onBus_run h₀ hrun)]
      rfl
    rw [hlater]
    rcases messages_step hstep hm with hold | ⟨f, hf, hmf⟩
    · obtain ⟨f, hf, hmf⟩ := ih m hold
      exact ⟨f, hf.later _, hmf⟩
    · have hanswered := (framesFrom_run (onBus_run h₀ hrun)).buffered _ f hf
      exact ⟨f, hanswered.later _, hmf⟩

end Feed

/-- What is to hold of a message a consumer has received or can receive: the bus answered a
header with its frame, for the message that was last sent for that identifier. -/
structure Arrived (P : Message → Prop) (history : List (Nat × Request × Outcome))
    (r : Message) : Prop where
  protocol : r.protocol = .lin
  answers : ∃ pre t post w m f, history = pre ++ (t, .sendHeader f.id, .frame (.ok f)) :: post ∧
    (∃ hid : f.id ≤ kLINMaxID, latest Write.id ⟨f.id, hid⟩ (published pre) = some w) ∧
    P m ∧ sentAs m = some w ∧ fromMessage r = .ok f ∧ publishedBy r = publishedBy m

theorem Virt.Answered.arrived {P : Message → Prop} {history : List (Nat × Request × Outcome)}
    (hsent : SentThrough P history) {f : Frame} (hf : Answered history f) {r : Message}
    (hr : untagged r = toMessage f) : Arrived P history r := by
  obtain ⟨pre, t, post, w, hhistory, hlatest, hmem, hcarries⟩ := hf.write
  obtain ⟨m, hm, hw⟩ := hsent w hmem
  have hback : fromMessage r = .ok f := by
    rw [← fromMessage_untagged, hr]
    exact fromMessage_toMessage hlatest.1
  refine ⟨congrArg Message.protocol hr, pre, t, post, w, m, f, hhistory, hlatest, hm, hw, hback, ?_⟩
  rw [publishedBy_of_ok hback, hcarries.publishes hw]

theorem LinAdapter.messages_subscribe {opts : List SubscriberOption} {frames : Except ErrorCode Nat}
    {w : Forwarder} (hw : LinAdapter.subscribe opts frames = .ok w) (sys : Sys) :
    ({ sys, fwd := w } : Feed).messages = [] := by
  cases frames with
  | error e => cases hw
  | ok ch =>
      obtain rfl := Except.ok.inj hw
      rfl

theorem Feed.arrived_run {before : List Action} {sys : Sys} (h₀ : run Sys.step {} before = some sys)
    {opts : List SubscriberOption} {frames : Except ErrorCode Nat} {w : Forwarder}
    (hw : LinAdapter.subscribe opts frames = .ok w) {as : List FeedAction} {s : Feed}
    (h : run Feed.step { sys, fwd := w } as = some s) {P : Message → Prop}
    (hsent : SentThrough P (Feed.history before { sys, fwd := w } as)) {r : Message}
    (hr : r ∈ s.messages) : Arrived P (Feed.history before { sys, fwd := w } as) r := by
  obtain ⟨f, hf, hrf⟩ := Feed.messages_run h₀ (LinAdapter.messages_subscribe hw sys) h hr
  exact hf.arrived hsent hrf

/-- Between two adapters of one bus: every message the consumer has received, or will, is that
of a frame the bus answered a header with, and comes to the same call on a bus as the message
last sent for its identifier before that header. -/
theorem messages_arrive {before : List Action} {sys : Sys} (h₀ : run Sys.step {} before = some sys)
    {opts : List SubscriberOption} {frames : Except ErrorCode Nat} {w : Forwarder}
    (hw : LinAdapter.subscribe opts frames = .ok w) {as : List FeedAction} {s : Feed}
    (h : run Feed.step { sys, fwd := w } as = some s) {P : Message → Prop}
    (hsent : SentThrough P (Feed.history before { sys, fwd := w } as)) {r : Message}
    (hr : r ∈ s.received ++ s.fwd.out.buf) :
    Arrived P (Feed.history before { sys, fwd := w } as) r :=
  Feed.arrived_run h₀ hw h hsent (List.mem_append_left _ hr)

def registers : List Action :=
  [.call 0 (.exclusive (.publish 1 (message {} 7 [0xA1]))), .lock 0, .step 0,
    .call 0 (.exclusive (.subscribe [] [])), .lock 0, .step 0]

def reports (now : Int) : List FeedAction := header ++ [.fetch now, .push, .recv]

def reported : Message := toMessage ⟨1, message {} 7 [0xA1], 0, .enhanced⟩

theorem reports_run (now : Int) : ∃ sys w s r, run Sys.step {} registers = some sys ∧
    LinAdapter.subscribe [withBackPressure .block] (.ok 0) = .ok w ∧
    run Feed.step { sys, fwd := w } (reports now) = some s ∧ s.received = [r] ∧
    r.timestamp = now ∧ ∀ x ∈ published (Feed.history registers { sys, fwd := w } (reports now)),
      sentAs reported = some x := by
  refine ⟨_, _, _, _, rfl, rfl, rfl, rfl, rfl, ?_⟩
  intro x hx
  change x ∈ ([⟨⟨1, by decide⟩, message {} 7 [0xA1], .enhanced⟩] : List Write) at hx
  rw [List.mem_singleton.mp hx]
  rfl

theorem messages_arrive_reported : ∃ before as s r sys w,
    run Sys.step {} before = some sys ∧ run Feed.step { sys, fwd := w } as = some s ∧
    s.received = [r] ∧ Arrived (· = reported) (Feed.history before { sys, fwd := w } as) r := by
  obtain ⟨sys, w, s, r, h₀, hw, h, hr, -, hsent⟩ := reports_run 7
  refine ⟨_, _, s, r, sys, w, h₀, h, hr, ?_⟩
  refine messages_arrive h₀ hw h (P := fun m => m = reported)
    (fun x hx => ⟨reported, rfl, hsent x hx⟩) ?_
  rw [hr]
  exact List.mem_cons_self

/-- The messages that can be about when those of `S` come from outside, and every adapter sends
what an adapter of another bus, or of the same, has received. -/
inductive Relayed (S : Message → Prop) : Message → Prop
  | sent {m : Message} (h : S m) : Relayed S m
  | received {before : List Action} {sys : Sys} (h₀ : run Sys.step {} before = some sys)
      {opts : List SubscriberOption} {frames : Except ErrorCode Nat} {w : Forwarder}
      (hw : LinAdapter.subscribe opts frames = .ok w) {as : List FeedAction} {s : Feed}
      (h : run Feed.step { sys, fwd := w } as = some s) (origin : Write → Message)
      (hsent : ∀ x ∈ published (Feed.history before { sys, fwd := w } as),
        sentAs (origin x) = some x)
      (hrelayed : ∀ x ∈ published (Feed.history before { sys, fwd := w } as),
        Relayed S (origin x))
      {r : Message} (hr : r ∈ s.received) : Relayed S r

theorem Relayed.call {S : Message → Prop} {r : Message} (h : Relayed S r) :
    ∃ m, S m ∧ publishedBy r = publishedBy m := by
  induction h with
  | sent h => exact ⟨_, h, rfl⟩
  | received h₀ hw h origin hsent _ hr ih =>
      have hthrough : SentThrough (fun m => ∃ m', S m' ∧ publishedBy m = publishedBy m')
          (Feed.history _ _ _) := fun x hx => ⟨origin x, ih x hx, hsent x hx⟩
      have harrived := Feed.arrived_run h₀ hw h hthrough
        (List.mem_append_left _ (List.mem_append_left _ hr))
      obtain ⟨-, -, -, -, m, -, -, -, ⟨m', hm', hmm'⟩, -, -, hrm⟩ := harrived.answers
      exact ⟨m', hm', hrm.trans hmm'⟩

/-- Over any number of buses a message stays what it was: wherever it is received, sending it on
is the call that one of the messages from outside made. -/
theorem relayed_unchanged {S : Message → Prop} {r : Message} (h : Relayed S r) :
    ∃ m, S m ∧ publishedBy r = publishedBy m := h.call

/-- A message received from one bus, and one received from another to which it was sent on. -/
theorem reported_twice : ∃ r₁ r₂, r₁.timestamp = 7 ∧ r₂.timestamp = 9 ∧
    Relayed (· = reported) r₁ ∧ Relayed (· = reported) r₂ := by
  have hop : ∀ m, Relayed (· = reported) m → ∀ now, ∃ r, r.timestamp = now ∧
      Relayed (· = reported) r := by
    intro m hm now
    obtain ⟨sys, w, s, r, h₀, hw, h, hr, hnow, hsent⟩ := reports_run now
    have hreceived : r ∈ s.received := by
      rw [hr]
      exact List.mem_cons_self
    obtain ⟨-, rfl, hsame⟩ := hm.call
    have hsentAs : sentAs m = sentAs reported := by rw [sentAs, hsame, sentAs]
    exact ⟨r, hnow, .received h₀ hw h (fun _ => m) (fun x hx => hsentAs.trans (hsent x hx))
      (fun _ _ => hm) hreceived⟩
  obtain ⟨r₁, h₁, hr₁⟩ := hop reported (.sent rfl) 7
  obtain ⟨r₂, h₂, hr₂⟩ := hop r₁ hr₁ 9
  exact ⟨r₁, r₂, h₁, h₂, hr₁, hr₂⟩

theorem relayed_unchanged_twice : ∃ r, r.timestamp = 9 ∧ Relayed (· = reported) r ∧
    ∃ m, m = reported ∧ publishedBy r = publishedBy m := by
  obtain ⟨-, r, -, hnow, -, hr⟩ := reported_twice
  exact ⟨r, hnow, hr, relayed_unchanged hr⟩

/-! Protected payloads, relayed. -/

/-- The message is one of this frame identifier. -/
def Identifies (id : UInt8) (m : Message) : Prop := ∃ f, fromMessage m = .ok f ∧ f.id = id

theorem fromMessage_payload {m : Message} {f : Frame} (h : fromMessage m = .ok f) :
    f.data = m.payload := by
  unfold fromMessage at h
  split at h
  case h_1 => cases h
  case h_2 n hn =>
    split_ifs at h
    split at h
    case h_1 => cases h
    case h_2 ct hct =>
      obtain rfl := Except.ok.inj h
      rfl

theorem publishes_frame {f g : Frame} (h : f.publishes = g.publishes) :
    f.id = g.id ∧ f.data = g.data := by
  unfold Frame.publishes at h
  split_ifs at h <;> simp_all

theorem Identifies.of_call {id : UInt8} {r m : Message} (hr : Identifies id r)
    (h : publishedBy r = publishedBy m) : Identifies id m ∧ r.payload = m.payload := by
  obtain ⟨f, hf, rfl⟩ := hr
  rw [publishedBy_of_ok hf] at h
  cases hm : fromMessage m with
  | error e =>
      rw [publishedBy, hm] at h
      cases h
  | ok g =>
      rw [publishedBy_of_ok hm] at h
      obtain ⟨hid, hdata⟩ := publishes_frame (Option.some.inj h)
      refine ⟨⟨g, hm, hid.symm⟩, ?_⟩
      rw [← fromMessage_payload hf, hdata, fromMessage_payload hm]

/-- Fewer than 2^32 protected payloads are sent under an identifier, and reach a receiver over any
buses and adapters, which may lose, repeat and reorder them: it accepts a block of the payloads,
each of them once and in order, and answers everything else with a sequence gap. -/
theorem relayed_protected {cfg : Config} {seq : UInt32} {payloads : List Payload}
    (hn : payloads.length < 2 ^ 32) {S : Message → Prop} {id : UInt8}
    (hprotected : ∀ m, S m → Identifies id m → ∃ i < payloads.length,
      m.payload = message cfg (seq + UInt32.ofNat i) (payloads.getD i []))
    {rs : List Message} (hrs : ∀ r ∈ rs, Relayed S r ∧ Identifies id r) :
    ∃ (seen : List Nat) (first k : Nat), rs.map Message.payload =
        seen.map (fun i => message cfg (seq + UInt32.ofNat i) (payloads.getD i [])) ∧
      first + k ≤ payloads.length ∧
      accepted seen (Receiver.unwrapAll { cfg } (rs.map Message.payload)).1 =
        (List.range' first k).map (fun i => (i, payloads.getD i [])) ∧
      ∀ x ∈ (Receiver.unwrapAll { cfg } (rs.map Message.payload)).1, ∀ e, x = .error e →
        e.kind = .sequenceGap := by
  refine accepted_block cfg seq (fun i => payloads.getD i []) hn ?_
  intro d hd
  obtain ⟨r, hr, rfl⟩ := List.mem_map.mp hd
  obtain ⟨hrelayed, hid⟩ := hrs r hr
  obtain ⟨m, hm, hcall⟩ := hrelayed.call
  obtain ⟨hmid, hpayload⟩ := hid.of_call hcall
  rw [hpayload]
  exact hprotected m hm hmid

theorem relayed_protected_twice : ∃ (rs : List Message) (seen : List Nat) (first k : Nat),
    rs.map Message.timestamp = [7, 9, 7] ∧ first + k ≤ 1 ∧
    accepted seen (Receiver.unwrapAll { cfg := {} } (rs.map Message.payload)).1 =
      (List.range' first k).map fun i => (i, ([[0xA1]] : List Payload).getD i []) := by
  obtain ⟨r₁, r₂, h₁, h₂, hr₁, hr₂⟩ := reported_twice
  have hid : ∀ r, Relayed (· = reported) r → Identifies 1 r := by
    intro r hr
    obtain ⟨-, rfl, hcall⟩ := hr.call
    have hreported : Identifies 1 reported :=
      ⟨_, fromMessage_toMessage (by decide), rfl⟩
    exact (hreported.of_call hcall.symm).1
  have hprotected : ∀ m, m = reported → Identifies 1 m → ∃ i < ([[0xA1]] : List Payload).length,
      m.payload = message {} (7 + UInt32.ofNat i) (([[0xA1]] : List Payload).getD i []) := by
    rintro m rfl -
    exact ⟨0, by decide, rfl⟩
  have hrs : ∀ r ∈ [r₁, r₂, r₁], Relayed (· = reported) r ∧ Identifies 1 r := by
    intro r hr
    have hrelayed : Relayed (· = reported) r := by
      simp only [List.mem_cons, List.not_mem_nil, or_false] at hr
      rcases hr with rfl | rfl | rfl
      · exact hr₁
      · exact hr₂
      · exact hr₁
    exact ⟨hrelayed, hid r hrelayed⟩
  obtain ⟨seen, first, k, -, hle, hacc, -⟩ := relayed_protected (by decide) hprotected hrs
  exact ⟨_, seen, first, k, by simp [h₁, h₂], hle, hacc⟩

end CppLin
