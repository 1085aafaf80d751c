import CppLin.Virtual.Turns

/-!
`close_with_drain`: its scan looks at one channel after the other under the shared lock,
gives the lock back and then waits for the exclusive one. What a broadcast places in a
channel behind the scan is not seen.
-/
namespace CppLin.Virt
open Bytes Relay Run

/-- The thread takes the channel for empty: its scan is past it, and the bus not yet closed. -/
def Pc.passed (ch : Nat) : Pc → Bool
  | .scanning todo => todo.all (·.ch != ch)
  | .waiting (.exclusive (.closeDrained timedOut))
  | .entered (.exclusive (.closeDrained timedOut)) =>
      !timedOut
  | _ => false

/-- What the thread takes for empty is empty. -/
def Sys.SeesEmpty (t : Nat) (s : Sys) : Prop :=
  ∀ sub ∈ s.bus.subs, (s.pc t).passed sub.ch = true → (s.bus.chans sub.ch).buf = []

/-- A broadcast places a frame in a channel the thread takes for empty. -/
def Sys.placesBehind (t : Nat) (s : Sys) : Action → Bool
  | .step u =>
      match s.pc u with
      | .broadcasting _ f (sub :: _) => s.bus.takes f sub && (s.pc t).passed sub.ch
      | _ => false
  | _ => false

def Sys.NotBehind (t : Nat) (s : Sys) (a : Action) : Prop := s.placesBehind t a = false

instance (t : Nat) (s : Sys) (a : Action) : Decidable (s.NotBehind t a) :=
  inferInstanceAs (Decidable (_ = false))

/-- This step of the thread closes the bus from within `close_with_drain` and returns
success. -/
structure Sys.DrainSucceeds (t : Nat) (s s' : Sys) : Prop where
  step : s.step (.step t) = some s'
  drains : ∃ timedOut, s.pc t = .entered (.exclusive (.closeDrained timedOut))
  isOpen : s.bus.closed = false
  closes : s'.bus.closed = true
  success : s'.log = s.log ++ [.returned t (.code none)]

namespace Sys

variable {t : Nat} {s s' : Sys} {a : Action}

/-- Where a delivery takes place, the channel has the frame at its end; where it does not,
it is as before. -/
theorem deliver_takes {f : Frame} {b b' : Bus} {sub : Subscription}
    (h : Bus.deliver f b sub = some b') :
    if b.takes f sub then f ∈ (b'.chans sub.ch).buf
    else (b'.chans sub.ch).buf = (b.chans sub.ch).buf := by
  have hown := Bus.deliver_own h
  cases hmatch : matchesAny sub.filters f with
  | false =>
    rw [hmatch, if_neg Bool.false_ne_true] at hown
    simp [Bus.takes, hmatch, hown]
  | true =>
    rw [hmatch, if_pos rfl] at hown
    cases hclosed : (b.chans sub.ch).closed with
    | true =>
      have hsame := Option.some.inj ((Chan.offer_of_closed hclosed _ f).symm.trans hown)
      simp [Bus.takes, hmatch, hclosed, ← hsame]
    | false =>
      obtain ⟨hroom, heq⟩ | ⟨hfull, hpolicy, heq⟩ | ⟨hfull, hpolicy, heq⟩ :=
        Chan.offer_cases hclosed hown
      · simp [Bus.takes, hmatch, hclosed, hroom, heq]
      · simp [Bus.takes, hmatch, hclosed, hfull, hpolicy, heq]
      · simp [Bus.takes, hmatch, hclosed, hpolicy, heq]

/-- A step takes what the thread sees along when no channel fills and a new one is empty. -/
theorem SeesEmpty.keep (h : s.SeesEmpty t)
    (hsubs : ∀ x ∈ s'.bus.subs, x ∈ s.bus.subs ∨ (s'.bus.chans x.ch).buf = [])
    (hbuf : ∀ x ∈ s.bus.subs, (s.bus.chans x.ch).buf = [] → (s'.bus.chans x.ch).buf = [])
    (hpc : ∀ x ∈ s.bus.subs, (s'.pc t).passed x.ch = true →
      (s.pc t).passed x.ch = true ∨ (s.bus.chans x.ch).buf = []) : s'.SeesEmpty t := by
  intro x hx hpassed
  rcases hsubs x hx with hold | hempty
  · rcases hpc x hold hpassed with hbefore | hempty
    · exact hbuf x hold (h x hold hbefore)
    · exact hbuf x hold hempty
  · exact hempty

theorem SeesEmpty.thread (h : s.SeesEmpty t) {u : Nat} {p q : Pc} (hp : s.pc u = p)
    (hpc : s'.pc = Function.update s.pc u q)
    (hpassed : ∀ x ∈ s.bus.subs, q.passed x.ch = true →
      p.passed x.ch = true ∨ (s.bus.chans x.ch).buf = [])
    (hsubs : ∀ x ∈ s'.bus.subs, x ∈ s.bus.subs ∨ (s'.bus.chans x.ch).buf = [])
    (hbuf : ∀ x ∈ s.bus.subs, (s.bus.chans x.ch).buf = [] → (s'.bus.chans x.ch).buf = []) :
    s'.SeesEmpty t := by
  refine h.keep hsubs hbuf ?_
  intro x hx hnow
  by_cases hu : t = u
  · subst hu
    rw [hpc, Function.update_self] at hnow
    exact hp ▸ hpassed x hx hnow
  · rw [hpc, Function.update_of_ne hu] at hnow
    exact .inl hnow

theorem SeesEmpty.moved (h : s.SeesEmpty t) {u : Nat} {p q : Pc} (hp : s.pc u = p)
    (hpc : s'.pc = Function.update s.pc u q) (hsubs : s'.bus.subs = s.bus.subs)
    (hchans : s'.bus.chans = s.bus.chans)
    (hpassed : ∀ x ∈ s.bus.subs, q.passed x.ch = true →
      p.passed x.ch = true ∨ (s.bus.chans x.ch).buf = []) :
    s'.SeesEmpty t :=
  h.thread hp hpc hpassed (fun _ hx => .inl (hsubs ▸ hx)) (fun _ _ hx => hchans ▸ hx)

theorem SeesEmpty.leaves (h : s.SeesEmpty t) {u : Nat} {p q : Pc} (hp : s.pc u = p)
    (hpc : s'.pc = Function.update s.pc u q) (hsubs : s'.bus.subs = s.bus.subs)
    (hchans : s'.bus.chans = s.bus.chans) (hq : ∀ ch, q.passed ch = false) : s'.SeesEmpty t :=
  h.moved hp hpc hsubs hchans fun x _ hnow => absurd hnow (by simp [hq])

theorem SeesEmpty.take (h : s.SeesEmpty t) {ch : Nat} {c : Chan Frame} {f : Option Frame}
    (hbuf : (s.bus.chans ch).buf = f.toList ++ c.buf) : (s.take ch c f).SeesEmpty t := by
  refine h.keep (fun x hx => .inl hx) (fun x _ hx => ?_) (fun x _ hq => .inl hq)
  by_cases hch : x.ch = ch
  · rw [Sys.take, hch, Bus.setChan_same]
    rw [hch, hbuf] at hx
    exact (List.append_eq_nil_iff.mp hx).2
  · rw [Sys.take, Bus.setChan_other _ _ hch, hx]

theorem SeesEmpty.closeChan (h : s.SeesEmpty t) (ch : Nat) :
    (s.setBus (s.bus.closeChan ch)).SeesEmpty t := by
  refine h.keep (fun x hx => .inl hx) (fun x _ hx => ?_) (fun x _ hq => .inl hq)
  by_cases hch : x.ch = ch
  · rw [setBus_bus, Bus.closeChan, hch, Bus.setChan_same, Chan.close_buf, ← hch, hx]
  · rw [setBus_bus, Bus.closeChan, Bus.setChan_other _ _ hch, hx]

theorem body_subs_buf {b : Bus} (hb : b.WellFormed) (c : Exclusive) :
    (∀ x ∈ (c.body b).1.subs, x ∈ b.subs ∨ ((c.body b).1.chans x.ch).buf = []) ∧
      ∀ x ∈ b.subs, (b.chans x.ch).buf = [] → ((c.body b).1.chans x.ch).buf = [] := by
  constructor
  · intro x hx
    rcases Exclusive.body_subs (c := c) rfl hx with hold | ⟨filters, opts, rfl, rfl⟩
    · exact .inl hold
    · have hopen : b.closed = false := by
        by_contra hc
        rw [Bool.not_eq_false] at hc
        simp only [Exclusive.body, Bus.subscribe, hc, if_true] at hx
        exact absurd (hb.allocated _ hx) (Nat.lt_irrefl _)
      exact .inr (by simp [Exclusive.body, Bus.subscribe, hopen])
  · intro x hx hempty
    exact (Exclusive.body_buf (c := c) rfl (hb.allocated x hx)).trans hempty

theorem passed_entered (c : Section) (ch : Nat) :
    (Pc.entered c).passed ch = (Pc.waiting c).passed ch := by
  cases c with
  | exclusive c => cases c <;> rfl
  | sendHeader id => rfl
  | allDrained => rfl

theorem passed_of_callable {c : Section} (hc : c.callable = true) (ch : Nat) :
    (Pc.waiting c).passed ch = false := by
  cases c with
  | exclusive c => cases c <;> simp_all [Pc.passed, Section.callable]
  | sendHeader => rfl
  | allDrained => rfl

theorem buf_of_scanEmpty {u : Nat} {sub : Subscription} {todo : List Subscription}
    (hpc : s.pc u = .scanning (sub :: todo))
    (hstep : s.step (.step u) = some (s.goto u (.scanning todo))) :
    (s.bus.chans sub.ch).buf = [] := by
  by_contra hne
  have hsize : (s.bus.chans sub.ch).size > 0 := List.length_pos_iff.mpr hne
  rw [Sys.step, advance, hpc] at hstep
  simp only [if_pos hsize, Option.some.injEq] at hstep
  have hpc' := congrArg (·.pc u) hstep
  simp at hpc'

theorem SeesEmpty.scanEmpty (h : s.SeesEmpty t) {u : Nat} {sub : Subscription}
    {todo : List Subscription} (hpc : s.pc u = .scanning (sub :: todo))
    (hempty : (s.bus.chans sub.ch).buf = []) : (s.goto u (.scanning todo)).SeesEmpty t := by
  refine h.moved hpc rfl rfl rfl fun x _ hq => ?_
  by_cases hch : x.ch = sub.ch
  · exact .inr (hch ▸ hempty)
  · refine .inl (List.all_eq_true.mpr fun y hy => ?_)
    rcases List.mem_cons.mp hy with rfl | hy
    · simpa using Ne.symm hch
    · exact List.all_eq_true.mp hq y hy

/-- A delivery keeps what the thread sees exactly where it places nothing behind the thread. -/
theorem SeesEmpty.deliver_iff (h : s.SeesEmpty t) {u n : Nat} {f : Frame} {sub : Subscription}
    {todo : List Subscription} {b : Bus} (hpc : s.pc u = .broadcasting n f (sub :: todo))
    (hmem : sub ∈ s.bus.subs) (hb : Bus.deliver f s.bus sub = some b) :
    (((s.setBus b).goto u (.broadcasting n f todo)).record
      (if s.bus.takes f sub then [.enqueued n sub.ch f] else [])).SeesEmpty t ↔
      s.NotBehind t (.step u) := by
  have hsubs : b.subs = s.bus.subs := (Bus.deliver_sameTables hb).subs
  have hbuf := deliver_takes hb
  rw [NotBehind, placesBehind]
  simp only [hpc]
  by_cases hu : t = u
  · -- the thread is broadcasting itself
    subst hu
    refine iff_of_true (fun x _ hq => ?_) (by simp [hpc, Pc.passed])
    rw [record, goto_pc_same] at hq
    cases hq
  · have hpc' : (((s.setBus b).goto u (.broadcasting n f todo)).record
        (if s.bus.takes f sub then [.enqueued n sub.ch f] else [])).pc t = s.pc t :=
      Function.update_of_ne hu _ _
    constructor
    · intro hsees
      by_contra hbehind
      obtain ⟨htakes, hpassed⟩ := Bool.and_eq_true_iff.mp (Bool.not_eq_false _ ▸ hbehind)
      have hempty : (b.chans sub.ch).buf = [] := hsees sub (hsubs ▸ hmem) (hpc' ▸ hpassed)
      rw [htakes, if_pos rfl, hempty] at hbuf
      exact List.not_mem_nil hbuf
    · intro hguard x hx hpassed
      rw [hpc'] at hpassed
      have hempty := h x (hsubs ▸ hx) hpassed
      by_cases hch : x.ch = sub.ch
      · rw [hch] at hpassed hempty ⊢
        rw [hpassed, Bool.and_true] at hguard
        rw [hguard, if_neg Bool.false_ne_true] at hbuf
        exact hbuf.trans hempty
      · exact (congrArg Chan.buf (Bus.deliver_chans_of_ne hb hch)).trans hempty

theorem notBehind_of_pc {u : Nat} {p : Pc} (hpc : s.pc u = p)
    (hp : ∀ n f sub todo, p ≠ .broadcasting n f (sub :: todo)) : s.NotBehind t (.step u) := by
  rw [NotBehind, placesBehind]
  simp only [hpc]

/-- What the thread sees stays true exactly where no frame is placed behind it. -/
theorem SeesEmpty.step (hwf : s.bus.WellFormed) (hahead : ∀ u, (s.pc u).Ahead s.bus.subs)
    (h : s.SeesEmpty t) (hstep : s.step a = some s') : s'.SeesEmpty t ↔ s.NotBehind t a := by
  cases moves_of_step hstep with
  | @deliver u n f sub todo b hpc hb =>
    have hsuffix := hahead u
    rw [hpc] at hsuffix
    exact h.deliver_iff hpc (hsuffix.subset List.mem_cons_self) hb
  | reject hpc hr => exact iff_of_true (h.leaves hpc rfl rfl rfl fun _ => rfl) rfl
  | call hpc hr hc => exact iff_of_true (h.leaves hpc rfl rfl rfl (passed_of_callable hc)) rfl
  | callDrain hpc => exact iff_of_true (h.leaves hpc rfl rfl rfl fun _ => rfl) rfl
  | lock hpc hw hr | lockShared hpc hc hw =>
    exact iff_of_true (h.moved hpc rfl rfl rfl fun x _ hq => .inl (passed_entered _ x.ch ▸ hq))
      rfl
  | @exclusive u c b out hpc hb =>
    obtain rfl := congrArg Prod.fst hb
    obtain ⟨hsubs, hbuf⟩ := body_subs_buf hwf c
    exact iff_of_true
      (h.thread hpc rfl (fun _ _ hq => absurd hq Bool.false_ne_true) hsubs hbuf)
      (notBehind_of_pc hpc (by simp))
  | respondError hpc hb =>
    have hsame := Bus.respond_frame hb
    exact iff_of_true (h.leaves hpc rfl hsame.1.subs hsame.2 fun _ => rfl)
      (notBehind_of_pc hpc (by simp))
  | emit hpc hb =>
    have hsame := Bus.respond_frame hb
    exact iff_of_true (h.leaves hpc rfl hsame.1.subs hsame.2 fun _ => rfl)
      (notBehind_of_pc hpc (by simp))
  | ended hpc | scanFound hpc =>
    exact iff_of_true (h.leaves hpc rfl rfl rfl fun _ => rfl) (notBehind_of_pc hpc (by simp))
  | scan hpc =>
    refine iff_of_true (h.moved hpc rfl rfl rfl fun x hx hq => ?_) (notBehind_of_pc hpc (by simp))
    exact absurd (List.all_eq_true.mp hq x hx) (by simp)
  | scanEmpty hpc =>
    exact iff_of_true (h.scanEmpty hpc (buf_of_scanEmpty hpc hstep))
      (notBehind_of_pc hpc (by simp))
  | scanDone hpc =>
    exact iff_of_true (h.moved hpc rfl rfl rfl fun x _ _ => .inl rfl)
      (notBehind_of_pc hpc (by simp))
  | poll hpc => exact iff_of_true (h.leaves hpc rfl rfl rfl fun _ => rfl) rfl
  | timeUp hpc => exact iff_of_true (h.leaves hpc rfl rfl rfl fun _ => rfl) rfl
  | recv hr => exact iff_of_true (h.take (Chan.recv_buf hr)) rfl
  | tryRecv hr => exact iff_of_true (h.take (Chan.tryRecv_buf hr)) rfl
  | closeChan => exact iff_of_true (h.closeChan _) rfl

/-- A thread that closes the bus with success has seen every channel empty. -/
theorem DrainSucceeds.empty (h : s.SeesEmpty t) (hd : DrainSucceeds t s s') :
    ∀ sub ∈ s.bus.subs, (s.bus.chans sub.ch).buf = [] := by
  obtain ⟨timedOut, hpc⟩ := hd.drains
  cases timedOut with
  | false =>
    intro sub hsub
    exact h sub hsub (by rw [hpc]; rfl)
  | true =>
    -- past its deadline the call reports the timeout
    have hstep := hd.step
    rw [Sys.step, advance, hpc] at hstep
    have hlog := congrArg Sys.log (Option.some.inj hstep)
    rw [hd.success] at hlog
    simp [ret, record, ErrTimeout] at hlog

/-- From a moment on at which the thread sees what is so, that stays so exactly when no frame is
placed behind it. -/
theorem seesEmpty_always_iff {before after : List Action} {m s : Sys}
    (hm : run Sys.step {} before = some m) (hsees : m.SeesEmpty t)
    (h : run Sys.step m after = some s) :
    (∀ past, past <+: after → ∀ k, run Sys.step m past = some k → k.SeesEmpty t) ↔
      Guarded Sys.step (NotBehind t) m after := by
  refine guarded_iff_always (I := fun s => ∃ past, run Sys.step {} past = some s)
    (A := fun _ => True) ?_ ?_ (fun _ _ => trivial) ⟨before, hm⟩ hsees h
  · rintro k a k' - ⟨past, hpast⟩ - hstep
    exact ⟨past ++ [a], run_concat.mpr ⟨k, hpast, hstep⟩⟩
  · rintro k a k' - ⟨past, hpast⟩ hsees hstep
    exact hsees.step (wellFormed_run hpast) (ahead_run hpast) hstep

end Sys

/-- Every channel is empty when the thread closes the bus with success, in a run in which from
some moment on, when the thread takes no channel for empty (as before the first scan and at
the start of each), no broadcast places a frame behind it. -/
theorem drain_succeeds_empty {t : Nat} {before after : List Action} {m s s' : Sys}
    (hm : run Sys.step {} before = some m) (hpc : ∀ ch, (m.pc t).passed ch = false)
    (h : run Sys.step m after = some s) (hbehind : Guarded Sys.step (Sys.NotBehind t) m after)
    (hd : Sys.DrainSucceeds t s s') : ∀ sub ∈ s.bus.subs, (s.bus.chans sub.ch).buf = [] := by
  have hsees : m.SeesEmpty t := fun sub _ hpassed => absurd hpassed (by simp [hpc])
  exact hd.empty ((Sys.seesEmpty_always_iff hm hsees h).mpr hbehind after List.prefix_rfl s h)

def drainBefore : List Action :=
  [.call 1 (.exclusive (.publish 1 [0xA1])), .lock 1, .step 1,
    .call 1 (.exclusive (.subscribe [] [])), .lock 1, .step 1]

def drainHeader : List Action := [.call 1 (.sendHeader 1), .lock 1, .step 1, .step 1, .step 1]

/-- A scan that finds its one channel empty. -/
def drainScan : List Action := [.callDrain 0, .poll 0, .lock 0, .step 0, .step 0, .step 0]

/-- With a second subscriber: a scan is past the first channel when a header fills both, gives up
at the second, and the next begins when the consumers have taken everything. -/
def drainAgain : List Action :=
  drainBefore ++ [.call 1 (.exclusive (.subscribe [] [])), .lock 1, .step 1] ++
    [.callDrain 0, .poll 0, .lock 0, .step 0, .step 0] ++ drainHeader ++
    [.step 1, .step 0, .recv 0, .recv 1, .poll 0, .lock 0]

/-- The frames are received before the scan that ends. -/
theorem drain_succeeds_empty_received : ∃ m s s', run Sys.step {} drainAgain = some m ∧
    run Sys.step m [.step 0, .step 0, .step 0, .step 0, .lock 0] = some s ∧
    Sys.DrainSucceeds 0 s s' ∧ ∀ sub ∈ s.bus.subs, (s.bus.chans sub.ch).buf = [] := by
  have hd : ∃ m s s', run Sys.step {} drainAgain = some m ∧ m.pc 0 = .entered .allDrained ∧
      run Sys.step m [.step 0, .step 0, .step 0, .step 0, .lock 0] = some s ∧
      Guarded Sys.step (Sys.NotBehind 0) m [.step 0, .step 0, .step 0, .step 0, .lock 0] ∧
      Sys.DrainSucceeds 0 s s' :=
    ⟨_, _, _, rfl, rfl, rfl, by decide +kernel, rfl, ⟨false, rfl⟩, rfl, rfl, rfl⟩
  obtain ⟨m, s, s', hm, hpc, hs, hbehind, hd⟩ := hd
  exact ⟨m, s, s', hm, hs, hd, drain_succeeds_empty hm (fun ch => by rw [hpc]; rfl) hs hbehind hd⟩

/-- The calls that close something. -/
def Action.closes : Action → Bool
  | .call _ (.exclusive .close) | .callDrain _ | .closeChan _ => true
  | _ => false

/-- A header between the scan and the lock of `close`, with no other call that closes. -/
theorem not_drain_succeeds_empty : ¬ ∀ (t : Nat) (as : List Action) (s s' : Sys),
    run Sys.step {} as = some s → as.countP Action.closes = 1 → Sys.DrainSucceeds t s s' →
    ∀ sub ∈ s.bus.subs, (s.bus.chans sub.ch).buf = [] := by
  intro h
  obtain ⟨s, s', hs, hd, hsubs, hfull⟩ : ∃ s s', run Sys.step {} (drainBefore ++ drainScan ++
      drainHeader ++ [.lock 0]) = some s ∧ Sys.DrainSucceeds 0 s s' ∧
      s.bus.subs = [⟨[], 0, .dropNewest⟩] ∧ (s.bus.chans 0).size = 1 :=
    ⟨_, _, rfl, ⟨rfl, ⟨false, rfl⟩, rfl, rfl, rfl⟩, rfl, rfl⟩
  have hempty := h 0 _ s s' hs rfl hd ⟨[], 0, .dropNewest⟩ (by simp [hsubs])
  simp [Chan.size, hempty] at hfull

end CppLin.Virt
