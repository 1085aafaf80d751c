import CppLin.Virtual.Effects

namespace CppLin.Virt
open Bytes Relay Run

/-- What a channel's consumer has had or will find, against the values offered to the
channel, each with whether the channel was full then. -/
structure View {α : Type*} (policy : BackPressurePolicy) (observed : List α)
    (offered : List (α × Bool)) : Prop where
  sublist : List.Sublist observed (offered.map Prod.fst)
  complete : (∀ x ∈ offered, x.2 = false) → observed = offered.map Prod.fst
  newest : policy = .dropNewest → observed = (offered.filter fun x => !x.2).map Prod.fst
  oldest : policy = .dropOldest → observed.getLast? = (offered.map Prod.fst).getLast?
  block : policy = .block → ∀ x ∈ offered, x.2 = false

namespace View

variable {α : Type*} {policy : BackPressurePolicy} {observed : List α} {offered : List (α × Bool)}

theorem nil : View policy ([] : List α) [] :=
  ⟨List.Sublist.refl [], fun _ => rfl, fun _ => rfl, fun _ => rfl, by simp⟩

theorem room (h : View policy observed offered) (v : α) :
    View policy (observed ++ [v]) (offered ++ [(v, false)]) := by
  obtain ⟨hsub, hall, hnewest, -, hblock⟩ := h
  refine ⟨?_, ?_, ?_, ?_, ?_⟩
  · rw [List.map_append]
    exact hsub.append_right [v]
  · intro hroom
    rw [List.map_append, hall fun x hx => hroom x (List.mem_append_left _ hx)]
    rfl
  · intro hp
    rw [List.filter_append, List.map_append, hnewest hp]
    rfl
  · intro _
    simp
  · intro hp x hx
    rcases List.mem_append.mp hx with hx | hx
    · exact hblock hp x hx
    · rw [List.mem_singleton.mp hx]

theorem dropNewest (h : View .dropNewest observed offered) (v : α) :
    View .dropNewest observed (offered ++ [(v, true)]) := by
  obtain ⟨hsub, -, hnewest, -, -⟩ := h
  refine ⟨?_, ?_, ?_, by simp, by simp⟩
  · rw [List.map_append]
    exact hsub.trans (List.sublist_append_left _ _)
  · intro hroom
    cases hroom (v, true) (by simp)
  · intro hp
    rw [List.filter_append, List.map_append, hnewest hp]
    simp

theorem dropOldest {had : List α} {x : α} {rest : List α}
    (h : View .dropOldest (had ++ x :: rest) offered) (v : α) :
    View .dropOldest (had ++ rest ++ [v]) (offered ++ [(v, true)]) := by
  have hless : List.Sublist (had ++ rest) (had ++ x :: rest) :=
    (List.sublist_cons_self x rest).append_left had
  refine ⟨?_, ?_, by simp, by simp, by simp⟩
  · rw [List.map_append]
    exact (hless.trans h.sublist).append_right [v]
  · intro hroom
    cases hroom (v, true) (by simp)

theorem offer {c c' : Chan α} {had : List α} {v : α} (h : View policy (had ++ c.buf) offered)
    (hopen : c.closed = false) (hcap : 0 < c.capacity) (hoffer : c.offer policy v = some c') :
    View policy (had ++ c'.buf) (offered ++ [(v, c.isFull)]) := by
  obtain ⟨hroom, rfl⟩ | ⟨hfull, rfl, rfl⟩ | ⟨hfull, rfl, rfl⟩ := Chan.offer_cases hopen hoffer
  · rw [hroom, Chan.push_buf, ← List.append_assoc]
    exact h.room v
  · rw [hfull]
    exact h.dropNewest v
  · rw [hfull]
    cases hbuf : c.buf with
    | nil =>
        rw [Chan.isFull_iff, hbuf] at hfull
        exact absurd hcap (Nat.not_lt.mpr hfull)
    | cons x rest =>
        rw [hbuf] at h
        rw [Chan.push_buf, Chan.popFront, hbuf, List.tail_cons, ← List.append_assoc]
        exact h.dropOldest v

end View

/-- The frame a call offers to a channel behind these filters, with whether it was full. -/
def offeredBy (filters : List Filter) (ch : Nat) (b : Bus) (x : Op × Outcome) :
    List (Frame × Bool) :=
  ((sentBy x).toList.filter (matchesAny filters)).map (·, (b.chans ch).isFull)

def offers (filters : List Filter) (ch : Nat) : Bus → List Op → List (Frame × Bool)
  | _, [] => []
  | b, op :: ops =>
      match b.exec op with
      | none => []
      | some (b', out) => offeredBy filters ch b (op, out) ++ offers filters ch b' ops

theorem offers_concat {filters : List Filter} {ch : Nat} {ops : List Op} {s s' : Session}
    (h : run Session.step s ops = some s') {op : Op} {b : Bus} {out : Outcome}
    (hx : s'.bus.exec op = some (b, out)) :
    offers filters ch s.bus (ops ++ [op]) =
      offers filters ch s.bus ops ++ offeredBy filters ch s'.bus (op, out) := by
  induction ops generalizing s with
  | nil =>
      rw [run_nil, Option.some.injEq] at h
      subst h
      simp [offers, hx]
  | cons a ops ih =>
      obtain ⟨m, hstep, hrest⟩ := run_cons.mp h
      obtain ⟨out', hm, -⟩ := Session.step_some hstep
      simp only [List.cons_append, offers, hm, ih hrest, List.append_assoc]

theorem offeredBy_silent {filters : List Filter} {ch : Nat} {b : Bus} {x : Op × Outcome}
    (h : sentBy x = none) : offeredBy filters ch b x = [] := by
  rw [offeredBy, h]
  rfl

/-- A subscription in place, what its consumer has been given, and its view. -/
structure Watched (filters : List Filter) (ch : Nat) (policy : BackPressurePolicy)
    (later : List (Op × Outcome)) (offered : List (Frame × Bool)) (b : Bus) : Prop where
  attached : b.closed = false → ⟨filters, ch, policy⟩ ∈ b.subs ∧ (b.chans ch).closed = false
  capacity : 0 < (b.chans ch).capacity
  allocated : ch < b.handles
  sent : offered.map Prod.fst = (emissions later).filter (matchesAny filters)
  view : View policy (receivedOn ch later ++ (b.chans ch).buf) offered

namespace Watched

variable {filters : List Filter} {ch : Nat} {policy : BackPressurePolicy}
  {later : List (Op × Outcome)} {offered : List (Frame × Bool)} {b b' : Bus}

theorem silent (h : Watched filters ch policy later offered b) {op : Op} {out : Outcome}
    (heffect : Bus.Effect b op b' out) (hsent : sentBy (op, out) = none)
    (hattached : b'.closed = false → b.closed = false ∧ (∀ s ∈ b.subs, s ∈ b'.subs) ∧
      (b'.chans ch).closed = (b.chans ch).closed)
    (hcap : (b'.chans ch).capacity = (b.chans ch).capacity) (hhandles : b.handles ≤ b'.handles) :
    Watched filters ch policy (later ++ [(op, out)])
      (offered ++ offeredBy filters ch b (op, out)) b' := by
  obtain ⟨hatt, hpos, hlt, hmap, hview⟩ := h
  have hbuf : (b.chans ch).buf = (receivedBy ch (op, out)).toList ++ (b'.chans ch).buf :=
    (heffect.chan_buf hsent ch).resolve_right fun hnew => hlt.ne hnew.1
  rw [offeredBy_silent hsent, List.append_nil]
  refine ⟨?_, hcap ▸ hpos, hlt.trans_le hhandles, ?_, ?_⟩
  · intro hopen
    obtain ⟨hold, hsubs, hclosed⟩ := hattached hopen
    obtain ⟨hmem, hch⟩ := hatt hold
    exact ⟨hsubs _ hmem, hclosed.trans hch⟩
  · rw [emissions_concat, hsent, Option.toList_none, List.append_nil, hmap]
  · rw [receivedOn_concat, List.append_assoc, ← hbuf]
    exact hview

theorem emitted (h : Watched filters ch policy later offered b) (hb : b.WellFormed) {m : Bus}
    {id : UInt8} {f : Frame} (hm : b.respond id = (m, .ok f)) (hbr : m.broadcast f = some b') :
    Watched filters ch policy (later ++ [(.sendHeader id, .frame (.ok f))])
      (offered ++ offeredBy filters ch b (.sendHeader id, .frame (.ok f))) b' := by
  obtain ⟨hatt, hpos, hlt, hmap, hview⟩ := h
  obtain ⟨-, hopen, -⟩ := Bus.respond_ok hm
  obtain ⟨htables, hchans⟩ := Bus.respond_frame hm
  obtain ⟨hmem, hch⟩ := hatt hopen
  have hafter := htables.trans (Bus.foldlM_deliver_sameTables hbr)
  obtain ⟨hclosed, hcap⟩ := Bus.foldlM_deliver_shape hbr ch
  have hown := Bus.foldlM_deliver_own (htables.subs ▸ hb.ownChannels) hbr (htables.subs ▸ hmem)
  simp only [hchans] at hclosed hcap hown
  have hsent : sentBy (.sendHeader id, .frame (.ok f)) = some f := rfl
  have hrec : receivedOn ch (later ++ [(.sendHeader id, .frame (.ok f))]) = receivedOn ch later := by
    rw [receivedOn_concat]
    exact List.append_nil _
  refine ⟨?_, hcap ▸ hpos, hafter.handles ▸ hlt, ?_, ?_⟩
  · intro _
    exact ⟨hafter.subs ▸ hmem, hclosed.trans hch⟩
  · rw [emissions_concat, hsent, List.filter_append, List.map_append, hmap, offeredBy, hsent,
      List.map_map]
    congr 1
    exact List.map_id _
  · rw [hrec, offeredBy, hsent, Option.toList_some]
    by_cases hmatch : matchesAny filters f = true
    · rw [if_pos hmatch] at hown
      rw [List.filter_cons_of_pos hmatch]
      exact hview.offer hch hpos hown
    · rw [if_neg hmatch] at hown
      rw [List.filter_cons_of_neg hmatch, hown]
      exact (List.append_nil offered).symm ▸ hview

/-- Every call keeps the subscription and its view, unless it closes the channel. -/
theorem effect (h : Watched filters ch policy later offered b) (hb : b.WellFormed) {op : Op}
    {out : Outcome} (heffect : Bus.Effect b op b' out) (hop : op ≠ .closeChan ch) :
    Watched filters ch policy (later ++ [(op, out)])
      (offered ++ offeredBy filters ch b (op, out)) b' := by
  have quiet := h.silent heffect
  cases heffect with
  | failed hout hsame =>
      obtain ⟨hclosed, hsubs, hchans, hhandles⟩ := hsame.same
      refine quiet (silent_of_failure op ch hout).1 ?_ (hchans ▸ rfl) hhandles.ge
      exact fun hc => ⟨hclosed ▸ hc, fun _ hs => hsubs ▸ hs, hchans ▸ rfl⟩
  | published hpub hp =>
      obtain ⟨-, -, rfl⟩ := Bus.doPublish_ok hp
      exact quiet (sentBy_code op none) (fun hc => ⟨hc, fun _ hs => hs, rfl⟩) rfl (Nat.le_refl _)
  | scheduled hopen =>
      exact quiet rfl (fun hc => ⟨hc, fun _ hs => hs, rfl⟩) rfl (Nat.le_refl _)
  | @subscribed filters' opts hopen =>
      have hother : Function.update b.chans b.handles
          { capacity := ((applyOptions opts).effectiveDepth kDefaultChanDepth).toNat } ch =
          b.chans ch := Function.update_of_ne h.allocated.ne _ _
      refine quiet rfl ?_ (congrArg Chan.capacity hother) (Nat.le_succ _)
      exact fun hc => ⟨hc, fun _ hs => List.mem_append_left _ hs, congrArg Chan.closed hother⟩
  | emitted hm hbr => exact h.emitted hb hm hbr
  | closed =>
      refine quiet rfl ?_ (b.close_capacity ch) b.close_handles.ge
      intro hc
      rw [b.close_closed] at hc
      cases hc
  | @received op c ch' f hrec hbuf hshape =>
      obtain ⟨hclosed, hcap⟩ := b.setChan_shape ch' hshape ch
      refine quiet (sentBy_received op f) ?_ hcap (Nat.le_refl _)
      exact fun hc => ⟨hc, fun _ hs => hs, hclosed⟩
  | @closedChan c =>
      have hne : ch ≠ c := fun he => hop (he ▸ rfl)
      have hother : (b.closeChan c).chans ch = b.chans ch := b.setChan_other _ hne
      refine quiet rfl ?_ (congrArg Chan.capacity hother) (Nat.le_refl _)
      exact fun hc => ⟨hc, fun _ hs => hs, congrArg Chan.closed hother⟩

theorem made {opts : List SubscriberOption} {out : Outcome}
    (heffect : Bus.Effect b (.subscribe filters opts) b' out)
    (hout : out = .channel (.ok ch)) :
    Watched filters ch (applyOptions opts).backPressure [] [] b' := by
  subst hout
  generalize hop : Op.subscribe filters opts = op at heffect
  generalize hch : Outcome.channel (.ok ch) = out at heffect
  cases heffect with
  | failed hout hsame =>
      subst hch
      cases hout
  | subscribed hopen =>
      obtain ⟨rfl, rfl⟩ := Op.subscribe.inj hop
      obtain rfl : ch = b.handles := Except.ok.inj (Outcome.channel.inj hch)
      have hown : ∀ c : Chan Frame, Function.update b.chans b.handles c b.handles = c :=
        fun c => Function.update_self _ _ _
      refine ⟨?_, ?_, Nat.lt_succ_self _, rfl, ?_⟩
      · intro _
        exact ⟨List.mem_append_right _ List.mem_cons_self, congrArg Chan.closed (hown _)⟩
      · simp only [hown]
        have hdepth := effectiveDepth_pos (applyOptions opts) (d := kDefaultChanDepth) (by decide)
        omega
      · simp only [hown]
        exact .nil
  | _ => cases hch

theorem run {s₁ s : Session} {ops : List Op} (hb : s₁.bus.WellFormed)
    (h₁ : Watched filters ch policy [] [] s₁.bus) (hops : Op.closeChan ch ∉ ops)
    (h : Run.run Session.step s₁ ops = some s) :
    s.bus.WellFormed ∧ ∃ later, s.log = s₁.log ++ later ∧
      Watched filters ch policy later (offers filters ch s₁.bus ops) s.bus := by
  induction ops using List.reverseRecOn generalizing s with
  | nil =>
      rw [run_nil, Option.some.injEq] at h
      subst h
      exact ⟨hb, [], (List.append_nil _).symm, h₁⟩
  | append_singleton ops op ih =>
      obtain ⟨m, hm, hstep⟩ := run_concat.mp h
      rw [List.mem_append, List.mem_singleton, not_or] at hops
      obtain ⟨hwf, later, hlog, hw⟩ := ih hops.1 hm
      obtain ⟨out, hx, hlog'⟩ := Session.step_some hstep
      refine ⟨hwf.exec hx, later ++ [(op, out)], ?_, ?_⟩
      · rw [hlog', hlog, List.append_assoc]
      · rw [offers_concat hm hx]
        exact hw.effect hwf (Bus.effect_of_exec hx) (Ne.symm hops.2)

end Watched

/-- For every subscription, in every run: what its consumer has received and will find in
the channel are frames sent since that pass its filters, in order and each at most once.
None is missing while the channel has room, the last one is there under `DropOldest`, and
under `DropNewest` exactly those are missing that met a full channel. -/
theorem subscriber_view {pre ops : List Op} {s₀ s₁ s : Session} {filters : List Filter}
    {opts : List SubscriberOption} {ch : Nat} (h₀ : run Session.step {} pre = some s₀)
    (h₁ : s₀.step (.subscribe filters opts) = some s₁)
    (hmade : s₁.log = s₀.log ++ [(.subscribe filters opts, .channel (.ok ch))])
    (hops : Op.closeChan ch ∉ ops) (h : run Session.step s₁ ops = some s) :
    let later := s.log.drop s₁.log.length
    let sent := (emissions later).filter (matchesAny filters)
    let observed := receivedOn ch later ++ (s.bus.chans ch).buf
    let offered := offers filters ch s₁.bus ops
    let policy := (applyOptions opts).backPressure
    List.Sublist observed sent ∧ (∀ f ∈ observed, matchesAny filters f = true) ∧
      offered.map Prod.fst = sent ∧
      ((∀ x ∈ offered, x.2 = false) → observed = sent) ∧
      (policy = .dropOldest → observed.getLast? = sent.getLast?) ∧
      (policy = .dropNewest → observed = (offered.filter fun x => !x.2).map Prod.fst) ∧
      (policy = .block → observed = sent) := by
  intro later sent observed offered policy
  obtain ⟨out, heffect, hlog⟩ := Session.effect_step h₁
  have hout : out = .channel (.ok ch) := by
    rw [hlog] at hmade
    exact (Prod.mk.inj (List.singleton_inj.mp (List.append_cancel_left hmade))).2
  have hwf : s₁.bus.WellFormed := Session.wellFormed_run (run_concat.mpr ⟨s₀, h₀, h₁⟩)
  obtain ⟨-, later', hlater, hw⟩ := Watched.run hwf (Watched.made heffect hout) hops h
  have heq : later = later' := by
    simp only [later, hlater, List.drop_left]
  rw [← heq] at hw
  obtain ⟨hsub, hall, hnewest, holdest, hblock⟩ := hw.view
  have hsent : offered.map Prod.fst = sent := hw.sent
  rw [hsent] at hsub hall holdest
  refine ⟨hsub, ?_, hsent, hall, holdest, hnewest, fun hp => hall (hblock hp)⟩
  intro f hf
  exact (List.mem_filter.mp (hsub.subset hf)).2

/-- Room for two frames of identifier 5, three of them sent, one received at the end. -/
theorem subscriber_view_dropOldest :
    let filters : List Filter := [{ id := 5 }]
    let opts := [withChannelDepth 2, withBackPressure .dropOldest]
    let ops : List Op := [.publish 5 [1], .publish 6 [2], .sendHeader 5, .sendHeader 6,
      .sendHeader 5, .publish 5 [3], .sendHeader 5, .recv 0]
    let s₁ : Session := {
      bus := (Bus.create.subscribe filters opts).1
      log := [(.subscribe filters opts, .channel (.ok 0))] }
    ∃ s, run Session.step s₁ ops = some s ∧
      List.Sublist (receivedOn 0 (s.log.drop s₁.log.length) ++ (s.bus.chans 0).buf)
        ((emissions (s.log.drop s₁.log.length)).filter (matchesAny filters)) := by
  intro filters opts ops s₁
  have h₀ : run Session.step {} [] = some {} := rfl
  have h₁ : Session.step {} (.subscribe filters opts) = some s₁ := rfl
  have h : run Session.step s₁ ops = some _ := rfl
  exact ⟨_, h, (subscriber_view h₀ h₁ rfl (by simp [ops]) h).1⟩

end CppLin.Virt
