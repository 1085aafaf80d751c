import CppLin.Virtual.Closed
import CppLin.Virtual.Order

/-!
What the bus emits to one subscription, whether or not its channel takes it: the turns
of the broadcasts at the subscription, and what each leaves in the channel.
-/
namespace CppLin.Virt
open Bytes Relay Run Causality

/-- The channel a consumer acts on. -/
def Action.channel : Action → Option Nat
  | .recv ch | .tryRecv ch | .closeChan ch => some ch
  | _ => none

/-- The frame whose turn at the channel this step of a broadcast is. -/
def Sys.turnAt (ch : Nat) (s : Sys) : Action → Option (Nat × Frame)
  | .step t =>
      match s.pc t with
      | .broadcasting n f (sub :: _) => if sub.ch = ch then some (n, f) else none
      | _ => none
  | _ => none

/-- The frames the bus has emitted to the subscription since `s₀`, in order: those whose
broadcast is not still ahead of it, each once, one whose broadcast had ended before one
emitted later. -/
structure EmittedTo (sub : Subscription) (s₀ s : Sys) (fs : List (Nat × Frame)) : Prop where
  once : (fs.map Prod.fst).Nodup
  emitted : ∀ n f, (n, f) ∈ fs ↔ .emitted n f ∈ since s₀ s ∧
    ∀ t g todo, s.pc t = .broadcasting n g todo → sub ∉ todo
  order : ∀ i j, Precedes (since s₀ s) i j → ∀ l g r, fs = l ++ (j, g) :: r → ∃ f, (i, f) ∈ l

/-- The number of an emitted frame. -/
def Event.number : Event → Option Nat
  | .emitted n _ => some n
  | _ => none

/-- With no broadcast in progress nothing emitted is missing from the frames of the
subscription. -/
theorem EmittedTo.all {sub : Subscription} {s₀ s : Sys} {fs : List (Nat × Frame)}
    (h : EmittedTo sub s₀ s fs) (hquiet : ∀ t, (s.pc t).broadcasts = false) {n : Nat}
    (hn : n ∈ (since s₀ s).filterMap Event.number) : n ∈ fs.map Prod.fst := by
  obtain ⟨e, he, hnumber⟩ := List.mem_filterMap.mp hn
  cases e with
  | emitted m f =>
      obtain rfl := Option.some.inj hnumber
      refine List.mem_map.mpr ⟨(m, f), (h.emitted m f).mpr ⟨he, ?_⟩, rfl⟩
      intro t g todo ht
      exact absurd ht (Pc.ne_broadcasting (hquiet t) m g todo)
  | _ => cases hnumber

/-- The subscription holds its channel, and the channel is open, as long as the bus is. -/
structure Attached (sub : Subscription) (b : Bus) : Prop where
  allocated : sub.ch < b.handles
  own : ∀ x ∈ b.subs, x.ch = sub.ch → x = sub
  present : b.closed = false → sub ∈ b.subs ∧ (b.chans sub.ch).closed = false
  gone : b.closed = true → b.subs = []

/-- The call on the bus a body amounts to. -/
def Exclusive.op : Exclusive → Op
  | .publish id data => .publish id data
  | .publishClassic id data => .publishClassic id data
  | .setSchedule entries => .setSchedule entries
  | .subscribe filters opts => .subscribe filters opts
  | .close => .close
  | .closeDrained _ => .close

theorem Exclusive.effect (b : Bus) (c : Exclusive) : ∃ out, Bus.Effect b c.op (c.body b).1 out := by
  cases c with
  | publish id data => exact ⟨_, .ofPublish rfl⟩
  | publishClassic id data => exact ⟨_, .ofPublish rfl⟩
  | setSchedule entries => exact ⟨_, .ofSetSchedule b entries⟩
  | subscribe filters opts => exact ⟨_, .ofSubscribe b filters opts⟩
  | close => exact ⟨_, .ofClose b⟩
  | closeDrained timedOut => exact ⟨_, .ofClose b⟩

namespace Attached

variable {sub : Subscription} {b b' : Bus}

theorem same (h : Attached sub b) (hsubs : b'.subs = b.subs) (hclosed : b'.closed = b.closed)
    (hhandles : b'.handles = b.handles)
    (hchan : (b'.chans sub.ch).closed = (b.chans sub.ch).closed) : Attached sub b' := by
  refine ⟨hhandles ▸ h.allocated, hsubs ▸ h.own, ?_, ?_⟩
  · intro hopen
    rw [hsubs, hchan]
    exact h.present (hclosed.symm.trans hopen)
  · intro hc
    rw [hsubs]
    exact h.gone (hclosed.symm.trans hc)

theorem tables (h : Attached sub b) (htables : Bus.SameTables b b')
    (hchan : (b'.chans sub.ch).closed = (b.chans sub.ch).closed) : Attached sub b' :=
  h.same htables.subs htables.closed htables.handles hchan

theorem body {c : Exclusive} (h : Attached sub b) : Attached sub (c.body b).1 := by
  obtain ⟨out, he⟩ := Exclusive.effect b c
  generalize (c.body b).1 = b' at he
  generalize hop : c.op = op at he
  cases he with
  | failed hout hsame =>
      rw [hsame]
      exact h.same rfl rfl rfl rfl
  | published hop' hp =>
      obtain ⟨-, -, rfl⟩ := Bus.doPublish_ok hp
      exact h.same rfl rfl rfl rfl
  | scheduled hopen => exact h.same rfl rfl rfl rfl
  | @subscribed filters opts hopen =>
      have hne : sub.ch ≠ b.handles := h.allocated.ne
      obtain ⟨hin, hch⟩ := h.present hopen
      refine ⟨Nat.lt_succ_of_lt h.allocated, ?_, ?_, ?_⟩
      · intro x hx he
        rcases List.mem_append.mp hx with hold | hnew
        · exact h.own x hold he
        · obtain rfl := List.mem_singleton.mp hnew
          exact absurd he.symm hne
      · intro _
        refine ⟨List.mem_append_left _ hin, ?_⟩
        simp only [Function.update_of_ne hne]
        exact hch
      · intro hc
        rw [hopen] at hc
        cases hc
  | emitted hm hb => cases c <;> cases hop
  | closed =>
      cases hc : b.closed with
      | true =>
          rw [Bus.close_of_closed hc]
          exact h
      | false =>
          have heq := Bus.close_of_open hc
          refine ⟨?_, ?_, ?_, ?_⟩
          · rw [Bus.close_handles]
            exact h.allocated
          · rw [heq]
            exact fun x hx => absurd hx List.not_mem_nil
          · intro hopen
            rw [Bus.close_closed] at hopen
            cases hopen
          · intro _
            rw [heq]
  | received hop' hbuf hshape => cases c <;> cases hop <;> cases hop'
  | closedChan => cases c <;> cases hop

theorem step {s s' : Sys} {a : Action} (h : Attached sub s.bus)
    (ha : a.channel ≠ some sub.ch) (hm : Sys.Moves s a s') : Attached sub s'.bus := by
  cases hm with
  | @exclusive t c b out hpc hb =>
      obtain rfl := congrArg Prod.fst hb
      exact h.body
  | respondError hpc hb =>
      obtain ⟨htables, hchans⟩ := Bus.respond_frame hb
      exact h.tables htables (congrArg (fun c => (c sub.ch).closed) hchans)
  | emit hpc hb =>
      obtain ⟨htables, hchans⟩ := Bus.respond_frame hb
      exact h.tables htables (congrArg (fun c => (c sub.ch).closed) hchans)
  | deliver hpc hb => exact h.tables (Bus.deliver_sameTables hb) (Bus.deliver_shape hb sub.ch).1
  | @recv ch c f hr =>
      have hne : sub.ch ≠ ch := fun he => ha (congrArg some he.symm)
      exact h.same rfl rfl rfl (by rw [Sys.take, Bus.setChan_other _ _ hne])
  | @tryRecv ch c f hr =>
      have hne : sub.ch ≠ ch := fun he => ha (congrArg some he.symm)
      exact h.same rfl rfl rfl (by rw [Sys.take, Bus.setChan_other _ _ hne])
  | @closeChan ch =>
      have hne : sub.ch ≠ ch := fun he => ha (congrArg some he.symm)
      refine h.same rfl rfl rfl ?_
      rw [Sys.setBus_bus, Bus.closeChan, Bus.setChan_other _ _ hne]
  | _ => exact h.same rfl rfl rfl rfl

end Attached

theorem precedes_iff_sublist {es : List Event} {i j : Nat} :
    Precedes es i j ↔ ∃ f, List.Sublist [.ended i, .emitted j f] es := by
  constructor
  · rintro ⟨l, f, r, rfl, hi⟩
    refine ⟨f, List.Sublist.append (List.singleton_sublist.mpr hi) ?_⟩
    exact List.singleton_sublist.mpr List.mem_cons_self
  · rintro ⟨f, h⟩
    obtain ⟨l, r, rfl, hi, hj⟩ := List.cons_sublist_iff.mp h
    obtain ⟨m, k, rfl⟩ := List.append_of_mem (List.singleton_sublist.mp hj)
    exact ⟨l ++ m, f, k, (List.append_assoc l m _).symm, List.mem_append_left m hi⟩

/-- Where a broadcast begins and ends. -/
def Event.bounds : Event → Bool
  | .emitted _ _ => true
  | .ended _ => true
  | _ => false

section
variable {es es' : List Event} (h : es.filter Event.bounds = es'.filter Event.bounds)
include h

theorem emitted_of_bounds {n : Nat} {f : Frame} (hf : Event.emitted n f ∈ es) :
    Event.emitted n f ∈ es' := by
  have hmem : Event.emitted n f ∈ es.filter Event.bounds := List.mem_filter.mpr ⟨hf, rfl⟩
  rw [h] at hmem
  exact List.mem_of_mem_filter hmem

theorem precedes_of_bounds {i j : Nat} (hij : Precedes es i j) : Precedes es' i j := by
  obtain ⟨f, hf⟩ := precedes_iff_sublist.mp hij
  have hsub : List.Sublist [Event.ended i, .emitted j f] (es.filter Event.bounds) :=
    hf.filter Event.bounds
  rw [h] at hsub
  exact precedes_iff_sublist.mpr ⟨f, hsub.trans List.filter_sublist⟩

end

/-- The same system with unlimited room for one subscriber, who has received all that
the events `es` put into its channel. -/
def Sys.heard (s s₀ : Sys) (ch : Nat) (es : List Event) : Sys :=
  { s with
    bus := s.bus.setChan ch {}
    received := Function.update s.received ch (s₀.observed ch ++ (queued ch es).map Prod.snd)
    log := s₀.log ++ es }

theorem Sys.heard_observed (s s₀ : Sys) (ch : Nat) (es : List Event) :
    (s.heard s₀ ch es).observed ch = s₀.observed ch ++ (queued ch es).map Prod.snd := by
  simp [Sys.observed, Sys.heard]

/-- The run as a subscriber with unlimited room would have it: every turn at the
subscription enqueues the frame. -/
structure Hears (sub : Subscription) (s₀ s : Sys) (es : List Event) : Prop where
  follows : Follows sub s₀ es (s.heard s₀ sub.ch es)
  logged : ∃ past, s.log = s₀.log ++ past ∧ es.filter Event.bounds = past.filter Event.bounds

namespace Hears

variable {sub : Subscription} {s₀ s s' : Sys} {es : List Event}

theorem start (h : ∀ t, (s₀.pc t).broadcasts = false) : Hears sub s₀ s₀ [] where
  follows := {
    log := rfl
    observed := s₀.heard_observed s₀ sub.ch []
    causal := .nil
    fresh := by simp
    current := fun t n f todo hpc => absurd hpc (Pc.ne_broadcasting (h t) n f todo)
    single := fun t u n f g todo rest hpc => absurd hpc (Pc.ne_broadcasting (h t) n f todo)
    covered := by simp }
  logged := ⟨[], (List.append_nil _).symm, rfl⟩

theorem logged_append (h : Hears sub s₀ s es) {new new' : List Event}
    (hlog : s'.log = s.log ++ new) (hsame : new'.filter Event.bounds = new.filter Event.bounds) :
    ∃ past, s'.log = s₀.log ++ past ∧
      (es ++ new').filter Event.bounds = past.filter Event.bounds := by
  obtain ⟨past, hpast, hes⟩ := h.logged
  refine ⟨past ++ new, ?_, ?_⟩
  · rw [hlog, hpast, List.append_assoc]
  · rw [List.filter_append, List.filter_append, hes, hsame]

theorem heard_log (s s' s₀ : Sys) (ch : Nat) (es new : List Event) :
    (s'.heard s₀ ch (es ++ new)).log = (s.heard s₀ ch es).log ++ new :=
  (List.append_assoc s₀.log es new).symm

theorem heard_silent {new : List Event} (s s' : Sys) (hnew : ∀ e ∈ new, e.Silent sub.ch) :
    (s'.heard s₀ sub.ch (es ++ new)).observed sub.ch = (s.heard s₀ sub.ch es).observed sub.ch := by
  rw [Sys.heard_observed, Sys.heard_observed, queued_append, queued_silent hnew, List.append_nil]

theorem thread (h : Hears sub s₀ s es) {t : Nat} {p q : Pc} {new : List Event}
    (hlog : s'.log = s.log ++ new) (hnew : ∀ e ∈ new, e.Silent sub.ch)
    (hem : s'.emissions = s.emissions) (hpc' : s'.pc = Function.update s.pc t p)
    (hpc : s.pc t = q) (hq : q.broadcasts = false) (hp : p.broadcasts = false) :
    Hears sub s₀ s' (es ++ new) :=
  ⟨h.follows.quiet_thread (heard_log s s' s₀ sub.ch es new) hnew (heard_silent s s' hnew) hem hpc'
    (hpc ▸ hq : (s.pc t).broadcasts = false) hp, h.logged_append hlog rfl⟩

theorem moved (h : Hears sub s₀ s es) {t : Nat} {p q : Pc} {readers : Finset Nat}
    {writer : Option Nat} (hpc : s.pc t = p) (hp : p.broadcasts = false)
    (hq : q.broadcasts = false) : Hears sub s₀ ({ s with readers, writer }.goto t q) (es ++ []) :=
  h.thread (List.append_nil s.log).symm (by simp) rfl rfl hpc hp hq

theorem still (h : Hears sub s₀ s es) {new : List Event} (hlog : s'.log = s.log ++ new)
    (hnew : ∀ e ∈ new, e.Silent sub.ch) (hem : s'.emissions = s.emissions) (hpc : s'.pc = s.pc) :
    Hears sub s₀ s' (es ++ new) :=
  ⟨h.follows.still (heard_log s s' s₀ sub.ch es new) hnew (heard_silent s s' hnew) hem hpc,
    h.logged_append hlog rfl⟩

theorem pass (h : Hears sub s₀ s es) {t n : Nat} {f : Frame} {x : Subscription}
    {todo : List Subscription} {new : List Event} (hlog : s'.log = s.log ++ new)
    (hnew : ∀ e ∈ new, e.Silent sub.ch) (hem : s'.emissions = s.emissions)
    (ht : s.pc t = .broadcasting n f (x :: todo))
    (hpc : s'.pc = Function.update s.pc t (.broadcasting n f todo)) (hx : x ≠ sub) :
    Hears sub s₀ s' (es ++ new) :=
  ⟨h.follows.pass (heard_log s s' s₀ sub.ch es new) hnew (heard_silent s s' hnew) hem ht hpc hx,
    h.logged_append hlog rfl⟩

theorem turn (h : Hears sub s₀ s es) {t n : Nat} {f : Frame} {todo : List Subscription}
    {new : List Event} (hlog : s'.log = s.log ++ new) (hnew : new.filter Event.bounds = [])
    (hem : s'.emissions = s.emissions) (ht : s.pc t = .broadcasting n f (sub :: todo))
    (hpc : s'.pc = Function.update s.pc t (.broadcasting n f todo)) (hnot : sub ∉ todo) :
    Hears sub s₀ s' (es ++ [.enqueued n sub.ch f]) := by
  refine ⟨h.follows.deliver (heard_log s s' s₀ sub.ch es _) ?_ hem ht hpc hnot,
    h.logged_append hlog hnew.symm⟩
  rw [Sys.heard_observed, Sys.heard_observed, queued_append, queued_singleton]
  simp [Event.queuedOn]

theorem ended (h : Hears sub s₀ s es) {t n : Nat} {f : Frame} (hlog : s'.log = s.log ++ [.ended n])
    (hem : s'.emissions = s.emissions) (ht : s.pc t = .broadcasting n f [])
    (hpc : s'.pc = Function.update s.pc t .idle) : Hears sub s₀ s' (es ++ [.ended n]) := by
  refine ⟨h.follows.ended (heard_log s s' s₀ sub.ch es _) ?_ hem ht hpc, h.logged_append hlog rfl⟩
  rw [Sys.heard_observed, Sys.heard_observed, queued_append, queued_singleton]
  simp [Event.queuedOn]

theorem emit (h : Hears sub s₀ s es) {t : Nat} {b : Bus} {f : Frame} (hsub : sub ∈ b.subs)
    (hchans : b.chans = s.bus.chans) (ht : (s.pc t).broadcasts = false) :
    Hears sub s₀ (s.emit t b f) (es ++ [.emitted s.emissions f]) := by
  have hemit := h.follows.emit (b := b.setChan sub.ch {}) (f := f) hsub
    (by simp only [Bus.setChan, Sys.heard, hchans]) ht
  have hqueued : queued sub.ch [.emitted s.emissions f] = [] := rfl
  have htwin : (s.emit t b f).heard s₀ sub.ch (es ++ [.emitted s.emissions f]) =
      (s.heard s₀ sub.ch es).emit t (b.setChan sub.ch {}) f := by
    unfold Sys.heard Sys.emit Sys.goto Sys.record
    simp only [queued_append, hqueued, List.append_nil, List.append_assoc, Bus.setChan]
  exact ⟨htwin ▸ hemit, h.logged_append rfl rfl⟩

end Hears

/-- What the events say of the frames emitted to the subscription. -/
theorem Hears.emittedTo {sub : Subscription} {s₀ s : Sys} {es : List Event}
    (h : Hears sub s₀ s es) : EmittedTo sub s₀ s (queued sub.ch es) := by
  obtain ⟨past, hpast, hbounds⟩ := h.logged
  have hsince : since s₀ s = past := by
    rw [since, hpast, List.drop_left]
  rw [← hsince] at hbounds
  refine ⟨queued_nodup h.follows.causal, ?_, ?_⟩
  · intro n f
    constructor
    · intro hq
      rw [mem_queued] at hq
      refine ⟨emitted_of_bounds hbounds (h.follows.emitted_of_enqueued hq), ?_⟩
      intro t g todo ht hin
      obtain ⟨-, hnone, -⟩ := h.follows.current t n g todo ht
      exact hnone hin f hq
    · rintro ⟨hf, hpassed⟩
      obtain ⟨t, todo, ht⟩ | hq := h.follows.covered n f (emitted_of_bounds hbounds.symm hf)
      · obtain ⟨-, -, hq⟩ := h.follows.current t n f todo ht
        exact mem_queued.mpr (hq (hpassed t f todo ht))
      · exact mem_queued.mpr hq
  · intro i j hij l g r hq
    exact Causal.queued_before h.follows.causal (precedes_of_bounds hbounds.symm hij) hq

theorem buf_of_offer {c c' : Chan Frame} {f : Frame} (hopen : c.closed = false)
    (h : c.offer .dropNewest f = some c') : c'.buf = c.buf ++ if c.isFull then [] else [f] := by
  obtain ⟨hroom, rfl⟩ | ⟨hfull, -, rfl⟩ | ⟨-, hp, -⟩ := Chan.offer_cases hopen h
  · rw [if_neg (by simp [hroom]), Chan.push_buf]
  · rw [if_pos hfull, List.append_nil]
  · cases hp

/-- What a move of the system makes of the events of a run and of the subscription's channel:
the frame whose turn it is joins the first, and the second if there is room. -/
structure Turned (sub : Subscription) (s₀ s : Sys) (a : Action) (s' : Sys)
    (es es' : List Event) : Prop where
  hears : Hears sub s₀ s' es'
  frames : queued sub.ch es' = queued sub.ch es ++ (s.turnAt sub.ch a).toList
  buf : (s'.bus.chans sub.ch).buf = (s.bus.chans sub.ch).buf ++
    if (s.bus.chans sub.ch).isFull then [] else (s.turnAt sub.ch a).toList.map Prod.snd

theorem turned_silent {sub : Subscription} {s₀ s s' : Sys} {a : Action} {es new : List Event}
    (h : Hears sub s₀ s' (es ++ new)) (hnew : queued sub.ch new = [])
    (hturn : s.turnAt sub.ch a = none)
    (hbuf : (s'.bus.chans sub.ch).buf = (s.bus.chans sub.ch).buf) :
    ∃ es', Turned sub s₀ s a s' es es' := by
  refine ⟨_, h, ?_, ?_⟩
  · rw [queued_append, hnew, hturn, Option.toList_none]
  · rw [hturn, hbuf, Option.toList_none, List.map_nil, ite_self, List.append_nil]

theorem Hears.delivered_own {sub : Subscription} {s₀ s : Sys} {es : List Event}
    (h : Hears sub s₀ s es) (hfilters : sub.filters = []) (hpolicy : sub.backPressure = .dropNewest)
    {t n : Nat} {f : Frame} {todo : List Subscription} {b : Bus}
    (hpc : s.pc t = .broadcasting n f (sub :: todo)) (hb : Bus.deliver f s.bus sub = some b)
    (hopen : (s.bus.chans sub.ch).closed = false) (hnot : sub ∉ todo) :
    ∃ es', Turned sub s₀ s (.step t) (((s.setBus b).goto t (.broadcasting n f todo)).record
      (if s.bus.takes f sub then [.enqueued n sub.ch f] else [])) es es' := by
  have hturn : s.turnAt sub.ch (.step t) = some (n, f) := by
    simp only [Sys.turnAt, hpc, if_pos]
  refine ⟨_, h.turn rfl ?_ rfl hpc rfl hnot, ?_, ?_⟩
  · split_ifs <;> rfl
  · rw [queued_append, queued_singleton, hturn]
    simp [Event.queuedOn]
  · have hown := Bus.deliver_own hb
    rw [if_pos (by simp [matchesAny, hfilters]), hpolicy] at hown
    rw [hturn]
    exact buf_of_offer hopen hown

theorem Hears.delivered_other {sub x : Subscription} {s₀ s : Sys} {es : List Event}
    (h : Hears sub s₀ s es) {t n : Nat} {f : Frame} {todo : List Subscription} {b : Bus}
    (hpc : s.pc t = .broadcasting n f (x :: todo)) (hb : Bus.deliver f s.bus x = some b)
    (hch : x.ch ≠ sub.ch) :
    ∃ es', Turned sub s₀ s (.step t) (((s.setBus b).goto t (.broadcasting n f todo)).record
      (if s.bus.takes f x then [.enqueued n x.ch f] else [])) es es' := by
  have hne : x ≠ sub := fun he => hch (congrArg Subscription.ch he)
  refine turned_silent (h.pass rfl (Event.silent_of_ne hch) rfl hpc rfl hne)
    (queued_silent (Event.silent_of_ne hch)) ?_ ?_
  · simp only [Sys.turnAt, hpc, if_neg hch]
  · exact congrArg Chan.buf (Bus.deliver_chans_of_ne hb (Ne.symm hch))

/-- Every move of the system takes the events along. -/
theorem Hears.step {sub : Subscription} {s₀ s s' : Sys} {es : List Event} {a : Action}
    (h : Hears sub s₀ s es) (hfilters : sub.filters = []) (hpolicy : sub.backPressure = .dropNewest)
    (hatt : Attached sub s.bus) (hwf : s.bus.WellFormed)
    (hahead : ∀ t, (s.pc t).Ahead s.bus.subs) (ha : a.channel ≠ some sub.ch)
    (hm : Sys.Moves s a s') : ∃ es', Turned sub s₀ s a s' es es' := by
  have quiet : ∀ {t q}, s.pc t = q → q.broadcasts = false → s.turnAt sub.ch (.step t) = none := by
    intro t q hpc hq
    simp only [Sys.turnAt, hpc]
    cases q with
    | broadcasting n f todo => cases hq
    | _ => rfl
  -- what a consumer does to another channel
  have apart : ∀ {ch : Nat} (c : Chan Frame), a.channel = some ch →
      ((s.bus.setChan ch c).chans sub.ch).buf = (s.bus.chans sub.ch).buf := by
    intro ch c hch
    rw [Bus.setChan_other _ _ fun he => ha (hch.trans (congrArg some he.symm))]
  cases hm with
  | reject hpc hr =>
      exact turned_silent (h.thread rfl (by simp [Event.Silent]) rfl rfl hpc rfl rfl) rfl rfl rfl
  | call hpc hr hc =>
      exact turned_silent (h.moved hpc rfl rfl) rfl rfl rfl
  | callDrain hpc =>
      exact turned_silent (h.moved hpc rfl rfl) rfl rfl rfl
  | lock hpc hw hr =>
      exact turned_silent (h.moved hpc rfl rfl) rfl rfl rfl
  | lockShared hpc hc hw =>
      exact turned_silent (h.moved hpc rfl rfl) rfl rfl rfl
  | exclusive hpc hb =>
      exact turned_silent (h.thread rfl (by simp [Event.Silent]) rfl rfl hpc rfl rfl) rfl (quiet hpc rfl)
        (Exclusive.body_buf hb hatt.allocated)
  | respondError hpc hb =>
      exact turned_silent (h.thread rfl (by simp [Event.Silent]) rfl rfl hpc rfl rfl) rfl (quiet hpc rfl)
        (congrArg (fun c => (c sub.ch).buf) (Bus.respond_frame hb).2)
  | emit hpc hb =>
      obtain ⟨htables, hchans⟩ := Bus.respond_frame hb
      have hsub := (hatt.present (Bus.respond_ok hb).2.1).1
      exact turned_silent (h.emit (htables.subs ▸ hsub) hchans (by rw [hpc]; rfl)) rfl (quiet hpc rfl)
        (congrArg (fun c => (c sub.ch).buf) hchans)
  | @deliver t n f x todo b hpc hb =>
      have hx := hahead t
      rw [hpc] at hx
      have hxmem : x ∈ s.bus.subs := hx.subset List.mem_cons_self
      by_cases hch : x.ch = sub.ch
      · obtain rfl := hatt.own x hxmem hch
        have hopen : s.bus.closed = false := by
          rw [Bool.eq_false_iff]
          intro hc
          rw [hatt.gone hc] at hxmem
          exact List.not_mem_nil hxmem
        exact h.delivered_own hfilters hpolicy hpc hb (hatt.present hopen).2 (hwf.not_mem_rest hx)
      · exact h.delivered_other hpc hb hch
  | @ended t n f hpc =>
      have hmid : Hears sub s₀ (((s.unlockShared t).record [.ended n]).goto t .idle)
          (es ++ [.ended n]) := h.ended rfl rfl hpc rfl
      have hend : Hears sub s₀ (((s.unlockShared t).record [.ended n]).ret t (.frame (.ok f)))
          (es ++ [.ended n] ++ [.returned t (.frame (.ok f))]) :=
        hmid.still rfl (by simp [Event.Silent]) rfl rfl
      rw [List.append_assoc] at hend
      refine turned_silent hend rfl ?_ rfl
      simp only [Sys.turnAt, hpc]
  | scan hpc =>
      exact turned_silent (h.moved hpc rfl rfl) rfl (quiet hpc rfl) rfl
  | scanEmpty hpc =>
      exact turned_silent (h.moved hpc rfl rfl) rfl (quiet hpc rfl) rfl
  | scanFound hpc =>
      exact turned_silent (h.moved hpc rfl rfl) rfl (quiet hpc rfl) rfl
  | scanDone hpc =>
      exact turned_silent (h.moved hpc rfl rfl) rfl (quiet hpc rfl) rfl
  | poll hpc =>
      exact turned_silent (h.moved hpc rfl rfl) rfl rfl rfl
  | timeUp hpc =>
      exact turned_silent (h.moved hpc rfl rfl) rfl rfl rfl
  | recv hr =>
      exact turned_silent (h.still (List.append_nil _).symm (by simp) rfl rfl) rfl rfl (apart _ rfl)
  | tryRecv hr =>
      exact turned_silent (h.still (List.append_nil _).symm (by simp) rfl rfl) rfl rfl (apart _ rfl)
  | closeChan =>
      exact turned_silent (h.still (List.append_nil _).symm (by simp) rfl rfl) rfl rfl (apart _ rfl)

end CppLin.Virt
