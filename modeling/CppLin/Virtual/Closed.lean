import CppLin.Virtual.Effects

/-!
The two promises of the error paths: a call that fails leaves the bus as it was, and a
closed bus stays closed, with every channel it ever handed out.
-/
namespace CppLin.Virt
open Bytes Relay Run

namespace Bus

/-- An open bus still holds every channel it has made; a closed one holds none and has
closed them all. -/
structure Lifecycle (b : Bus) : Prop where
  whileOpen : b.closed = false → ∀ ch < b.handles, ∃ s ∈ b.subs, s.ch = ch
  onceClosed : b.closed = true → b.subs = [] ∧ ∀ ch < b.handles, (b.chans ch).closed = true

theorem Lifecycle.create : Lifecycle .create := by
  refine ⟨?_, ?_⟩
  · intro _ ch hch
    exact absurd hch (Nat.not_lt_zero ch)
  · intro h
    cases h

section
variable {b b' : Bus} (hb : b.Lifecycle)
include hb

theorem Lifecycle.same (hclosed : b'.closed = b.closed) (hsubs : b'.subs = b.subs)
    (hhandles : b'.handles = b.handles)
    (hchans : ∀ ch, (b.chans ch).closed = true → (b'.chans ch).closed = true) : b'.Lifecycle := by
  obtain ⟨hopen, honce⟩ := hb
  refine ⟨?_, ?_⟩
  · intro h
    rw [hsubs, hhandles]
    exact hopen (hclosed.symm.trans h)
  · intro h
    obtain ⟨hnil, hall⟩ := honce (hclosed.symm.trans h)
    rw [hsubs, hhandles]
    exact ⟨hnil, fun ch hch => hchans ch (hall ch hch)⟩

theorem Lifecycle.close : b.close.1.Lifecycle := by
  cases hc : b.closed with
  | true =>
      rw [close_of_closed hc]
      exact hb
  | false =>
      have heq := close_of_open hc
      refine ⟨?_, ?_⟩
      · intro h
        rw [heq] at h
        cases h
      · intro _
        refine ⟨by rw [heq], ?_⟩
        intro ch hch
        rw [heq] at hch
        obtain ⟨s, hs, hsch⟩ := hb.whileOpen hc ch hch
        rw [close_chans_closed hc, List.any_eq_true.mpr ⟨s, hs, by simpa using hsch⟩, Bool.or_true]

theorem Lifecycle.effect {op : Op} {out : Outcome} (h : Effect b op b' out) : b'.Lifecycle := by
  cases h with
  | failed hout hsame =>
      rw [hsame]
      exact hb.same rfl rfl rfl fun _ h => h
  | published hop hp =>
      obtain ⟨-, -, rfl⟩ := doPublish_ok hp
      exact hb.same rfl rfl rfl fun _ h => h
  | scheduled hopen => exact hb.same rfl rfl rfl fun _ h => h
  | @subscribed filters opts hopen =>
      refine ⟨?_, ?_⟩
      · intro _ ch hch
        rcases Nat.lt_succ_iff_lt_or_eq.mp hch with hold | hnew
        · obtain ⟨s, hs, hsch⟩ := hb.whileOpen hopen ch hold
          exact ⟨s, List.mem_append_left _ hs, hsch⟩
        · exact ⟨_, List.mem_append_right _ List.mem_cons_self, hnew.symm⟩
      · intro h
        rw [hopen] at h
        cases h
  | emitted hm hbr =>
      have htables := emitted_sameTables hm hbr
      refine hb.same htables.closed htables.subs htables.handles ?_
      intro ch hch
      rw [(foldlM_deliver_shape hbr ch).1, (respond_frame hm).2]
      exact hch
  | closed => exact hb.close
  | @received op ch c f hop hbuf hshape =>
      refine hb.same rfl rfl rfl ?_
      intro ch' hch'
      rw [(setChan_shape b c hshape ch').1]
      exact hch'
  | @closedChan ch =>
      refine hb.same rfl rfl rfl ?_
      intro ch' hch'
      by_cases h : ch' = ch
      · subst h
        rw [closeChan, setChan_same]
        rfl
      · rw [closeChan, setChan_other b _ h]
        exact hch'

end

/-- On a closed bus no call opens it again, and the channels only drain. -/
theorem Effect.of_closed {b b' : Bus} {op : Op} {out : Outcome} (hc : b.closed = true)
    (h : Effect b op b' out) :
    b'.closed = true ∧ ∀ ch, (b'.chans ch).buf <:+ (b.chans ch).buf := by
  cases h with
  | failed hout hsame =>
      rw [hsame]
      exact ⟨hc, fun ch => List.suffix_refl _⟩
  | published hop hp => exact absurd (hc.symm.trans (doPublish_ok hp).2.1) (by decide)
  | scheduled hopen => exact absurd (hc.symm.trans hopen) (by decide)
  | subscribed hopen => exact absurd (hc.symm.trans hopen) (by decide)
  | emitted hm hbr => exact absurd (hc.symm.trans (respond_ok hm).2.1) (by decide)
  | closed =>
      rw [close_of_closed hc]
      exact ⟨hc, fun ch => List.suffix_refl _⟩
  | @received op ch c f hop hbuf hshape =>
      refine ⟨hc, ?_⟩
      intro ch'
      by_cases h : ch' = ch
      · subst h
        rw [setChan_same, hbuf]
        exact List.suffix_append _ _
      · rw [setChan_other b c h]
  | @closedChan ch =>
      refine ⟨hc, ?_⟩
      intro ch'
      by_cases h : ch' = ch
      · subst h
        rw [closeChan, setChan_same, Chan.close_buf]
      · rw [closeChan, setChan_other b _ h]

theorem Effect.onlyErrors {b b' : Bus} {op : Op} {out : Outcome} {e : ErrorCode}
    (h : Effect b op b' out) (hout : out.failure = some e) : OnlyErrors b b' := by
  cases h with
  | failed _ hsame => exact hsame
  | _ => cases hout

end Bus

/-- A call for the bus whose identifier, if it has one, is in range. -/
def Op.wellAddressed : Op → Bool
  | .publish id _ | .publishClassic id _ | .sendHeader id => id ≤ kLINMaxID
  | .setSchedule _ | .subscribe _ _ => true
  | _ => false

/-- A closed bus refuses every call with the same error. -/
theorem Bus.exec_of_closed {b : Bus} (hc : b.closed = true) {op : Op}
    (hop : op.wellAddressed = true) :
    ∃ b' out, b.exec op = some (b', out) ∧ out.failure = some ErrClosed := by
  have hpublish : ∀ id data ct, id ≤ kLINMaxID → (b.doPublish id data ct).2 = some ErrClosed := by
    intro id data ct hid
    rw [doPublish, if_neg (UInt8.not_lt.mpr hid), if_pos hc]
  cases op with
  | publish id data => exact ⟨_, _, rfl, hpublish id data .enhanced (by simpa [Op.wellAddressed] using hop)⟩
  | publishClassic id data => exact ⟨_, _, rfl, hpublish id data .classic (by simpa [Op.wellAddressed] using hop)⟩
  | sendHeader id =>
      have hid : ¬ id > kLINMaxID := UInt8.not_lt.mpr (by simpa [Op.wellAddressed] using hop)
      have hr : b.respond id = (b.countError, .error ErrClosed) := by
        rw [respond, if_neg hid, if_pos hc]
      have hs : b.sendHeader id = some (b.countError, .error ErrClosed) := by
        rw [sendHeader, hr]
      exact ⟨b.countError, .frame (.error ErrClosed), by rw [exec, hs]; rfl, rfl⟩
  | setSchedule entries =>
      exact ⟨b, .code (some ErrClosed), by simp [exec, Bus.setSchedule, hc], rfl⟩
  | subscribe filters opts =>
      exact ⟨b.countError, .channel (.error ErrClosed), by simp [exec, Bus.subscribe, hc], rfl⟩
  | _ => cases hop

namespace Session

theorem lifecycle_run {ops : List Op} {s : Session} (h : run Session.step {} ops = some s) :
    s.bus.Lifecycle := by
  refine invariant_run (I := fun s => s.bus.Lifecycle) ?_ Bus.Lifecycle.create h
  intro s op s' hs hstep
  obtain ⟨out, heffect, -⟩ := effect_step hstep
  exact hs.effect heffect

theorem handles_run {ops : List Op} {s : Session} (h : run Session.step {} ops = some s) :
    (subscriptions s.log).map Prod.snd = List.range s.bus.handles := by
  refine invariant_run
    (I := fun s => (subscriptions s.log).map Prod.snd = List.range s.bus.handles) ?_ rfl h
  intro s op s' hs hstep
  obtain ⟨out, heffect, hlog⟩ := effect_step hstep
  have quiet : madeBy (op, out) = none → s'.bus.handles = s.bus.handles →
      (subscriptions s'.log).map Prod.snd = List.range s'.bus.handles := by
    intro hnone hhandles
    rw [hlog, subscriptions_concat, hnone, Option.toList_none, List.append_nil, hs, hhandles]
  generalize hb : s'.bus = b' at heffect
  rw [hb] at quiet
  cases heffect with
  | failed hout hsame =>
      exact quiet (silent_of_failure op 0 hout).2.1 (by rw [hsame])
  | published hop hp =>
      obtain ⟨-, -, rfl⟩ := Bus.doPublish_ok hp
      exact quiet (madeBy_code op none) rfl
  | subscribed hopen =>
      rw [hlog, subscriptions_concat, List.map_append, hs]
      exact List.range_succ.symm
  | emitted hm hbr =>
      exact quiet rfl (Bus.emitted_sameTables hm hbr).handles
  | closed => exact quiet rfl s.bus.close_handles
  | received hop hbuf hshape => exact quiet (madeBy_received op _) rfl
  | _ => exact quiet rfl rfl

/-- Closed once, closed for good; what is in the channels only gets less. -/
theorem closed_run {more : List Op} {s s' : Session} (hc : s.bus.closed = true)
    (h : run Session.step s more = some s') :
    s'.bus.closed = true ∧ ∀ ch, (s'.bus.chans ch).buf <:+ (s.bus.chans ch).buf := by
  refine invariant_run (I := fun t => t.bus.closed = true ∧
    ∀ ch, (t.bus.chans ch).buf <:+ (s.bus.chans ch).buf) ?_ ⟨hc, fun ch => List.suffix_refl _⟩ h
  rintro m op m' ⟨hclosed, hbuf⟩ hstep
  obtain ⟨out, heffect, -⟩ := effect_step hstep
  obtain ⟨hclosed', hbuf'⟩ := heffect.of_closed hclosed
  exact ⟨hclosed', fun ch => (hbuf' ch).trans (hbuf ch)⟩

theorem closed_of_close_mem {ops : List Op} {s s' : Session} (hmem : Op.close ∈ ops)
    (h : run Session.step s ops = some s') : s'.bus.closed = true := by
  obtain ⟨before, later, rfl⟩ := List.append_of_mem hmem
  obtain ⟨m, -, hm⟩ := run_append.mp h
  obtain ⟨m', hstep, hrest⟩ := run_cons.mp hm
  have hclosed : m'.bus.closed = true := by
    obtain ⟨out, hx, -⟩ := step_some hstep
    have hb : m.bus.close.1 = m'.bus := congrArg Prod.fst (Option.some.inj hx)
    rw [← hb]
    exact m.bus.close_closed
  exact (closed_run hclosed hrest).1

end Session

/-- In every reachable state a call that fails changes only the count of errors. Once
`close` has run the bus has no subscribers, every channel it ever handed out is closed and
gets no further frame, every call is refused, and closing again changes nothing. -/
theorem closed_absorbing {ops : List Op} {s : Session} (hrun : run Session.step {} ops = some s) :
    (∀ op b' out e, s.bus.exec op = some (b', out) → out.failure = some e →
      OnlyErrors s.bus b') ∧
    (Op.close ∈ ops →
      s.bus.subs = [] ∧ s.bus.close = (s.bus, none) ∧
      (∀ x ∈ subscriptions s.log, (s.bus.chans x.2).closed = true) ∧
      (∀ op, op.wellAddressed = true →
        ∃ b' out, s.bus.exec op = some (b', out) ∧ out.failure = some ErrClosed) ∧
      ∀ more s', run Session.step s more = some s' →
        ∀ x ∈ subscriptions s.log, (s'.bus.chans x.2).buf <:+ (s.bus.chans x.2).buf) := by
  refine ⟨?_, ?_⟩
  · intro op b' out e hx hout
    exact (Bus.effect_of_exec hx).onlyErrors hout
  · intro hmem
    have hc := Session.closed_of_close_mem hmem hrun
    obtain ⟨hnil, hall⟩ := (Session.lifecycle_run hrun).onceClosed hc
    refine ⟨hnil, Bus.close_of_closed hc, ?_, fun op hop => Bus.exec_of_closed hc hop, ?_⟩
    · intro x hx
      have hmade : x.2 ∈ (subscriptions s.log).map Prod.snd := List.mem_map_of_mem hx
      rw [Session.handles_run hrun] at hmade
      exact hall x.2 (List.mem_range.mp hmade)
    · intro more s' hmore x _
      exact (Session.closed_run hc hmore).2 x.2

/-- A subscriber with a frame buffered, a close, and calls after it. -/
theorem closed_absorbing_buffered :
    let ops : List Op := [.subscribe [] [], .publish 5 [1], .sendHeader 5, .close, .publish 5 [2],
      .recv 0]
    ∃ s, run Session.step {} ops = some s ∧ s.bus.subs = [] ∧ s.bus.close = (s.bus, none) := by
  intro ops
  have hrun : run Session.step {} ops = some _ := rfl
  have h := (closed_absorbing hrun).2 (by simp [ops])
  exact ⟨_, hrun, h.1, h.2.1⟩

end CppLin.Virt
