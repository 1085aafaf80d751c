import CppLin.Virtual.Threads

/-!
Whether `close` gets through. It waits for the exclusive lock; a `send_header` that
waits at a full channel keeps the shared one, and only a consumer can make room.
-/
namespace CppLin.Virt
open Bytes Relay Run

/-- In a call of `close`, waiting for the lock or holding it. -/
def Pc.closing : Pc → Bool
  | .waiting (.exclusive .close) => true
  | .waiting (.exclusive (.closeDrained _)) => true
  | .entered (.exclusive .close) => true
  | .entered (.exclusive (.closeDrained _)) => true
  | _ => false

/-- Holds the lock, shared or exclusive, or is in a call of `close`. -/
def Pc.inProgress (p : Pc) : Bool := p.shares || p.excludes || p.closing

/-- The thread's send waits: its frame is to go to a matching `Block` subscriber
whose channel is open and full. -/
def Sys.blockedAt (s : Sys) (t : Nat) : Bool :=
  match s.pc t with
  | .broadcasting _ f (sub :: _) => s.bus.WaitsAt f sub
  | _ => false

/-- A `close` has been called and not returned, and no thread in progress can take a step. -/
structure Sys.Stuck (s : Sys) : Prop where
  pending : ∃ t, (s.pc t).closing = true
  still : ∀ t, (s.pc t).inProgress = true → s.step (.lock t) = none ∧ s.step (.step t) = none

namespace Sys

theorem advance_of_excludes {s : Sys} {t : Nat} (h : (s.pc t).excludes = true) :
    (s.advance t).isSome = true := by
  unfold Pc.excludes at h
  unfold advance
  split at h
  case h_1 c hpc => simp [hpc]
  case h_2 => cases h

/-- A thread inside the shared lock cannot go on exactly when its send waits. -/
theorem advance_of_shares {s : Sys} {t : Nat} (h : (s.pc t).shares = true) :
    s.advance t = none ↔ s.blockedAt t = true := by
  unfold Pc.shares at h
  unfold advance blockedAt
  split at h
  case h_1 id hpc =>
    rw [hpc]
    simp only
    split <;> simp
  case h_2 hpc => simp [hpc]
  case h_3 n f todo hpc =>
    rw [hpc]
    cases todo with
    | nil => simp
    | cons sub todo => simp [Bus.deliver_eq_none_iff]
  case h_4 todo hpc =>
    rw [hpc]
    cases todo with
    | nil => simp
    | cons sub todo =>
        simp only
        split_ifs <;> simp
  case h_5 => cases h

theorem advance_of_waiting {s : Sys} {t : Nat} {c : Section} (h : s.pc t = .waiting c) :
    s.advance t = none := by
  unfold advance
  rw [h]

theorem closing_cases {p : Pc} (h : p.closing = true) :
    p.excludes = true ∨ ∃ c, p = .waiting (.exclusive c) := by
  unfold Pc.closing at h
  split at h
  · exact .inr ⟨_, rfl⟩
  · exact .inr ⟨_, rfl⟩
  · exact .inl rfl
  · exact .inl rfl
  · cases h

theorem lock_of_shares {s : Sys} {t : Nat} (h : (s.pc t).shares = true) : s.lock t = none := by
  unfold lock
  split
  case h_1 hpc => simp [hpc, Pc.shares] at h
  case h_2 hpc => simp [hpc, Pc.shares] at h
  case h_3 => rfl

theorem lock_exclusive {s : Sys} {t : Nat} {c : Exclusive} (h : s.pc t = .waiting (.exclusive c)) :
    s.lock t = none ↔ ¬ (s.writer = none ∧ s.readers = ∅) := by
  unfold lock
  simp only [h]
  split_ifs with hl <;> simp [hl]

/-- The closer and everyone inside the lock are held up exactly when someone is
inside, and all who are wait at full channels. -/
theorem Locked.stuck_iff {s : Sys} (hs : s.Locked) :
    s.Stuck ↔ (∃ t, (s.pc t).closing = true) ∧ s.readers.Nonempty ∧
      ∀ t ∈ s.readers, s.blockedAt t = true := by
  constructor
  · rintro ⟨⟨t, ht⟩, hstill⟩
    have idle : ∀ u, (s.pc u).excludes = false := by
      intro u
      rw [Bool.eq_false_iff]
      intro hu
      have hnone := (hstill u (by simp [Pc.inProgress, hu])).2
      have hsome := advance_of_excludes hu
      rw [show s.advance u = none from hnone] at hsome
      cases hsome
    refine ⟨⟨t, ht⟩, ?_, ?_⟩
    · obtain he | ⟨c, hpc⟩ := closing_cases ht
      · rw [idle t] at he
        cases he
      · have hlock := (lock_exclusive hpc).mp (hstill t (by simp [Pc.inProgress, ht])).1
        rw [Finset.nonempty_iff_ne_empty]
        intro hempty
        apply hlock
        refine ⟨?_, hempty⟩
        rw [Option.eq_none_iff_forall_ne_some]
        intro u hu
        have hex := (hs.writer u).mp hu
        rw [idle u] at hex
        cases hex
    · intro u hu
      have hshares := (hs.readers u).mp hu
      exact (advance_of_shares hshares).mp (hstill u (by simp [Pc.inProgress, hshares])).2
  · rintro ⟨hpending, ⟨u, hu⟩, hblocked⟩
    have hout : ∀ t, (s.pc t).excludes = false := fun t =>
      hs.not_excludes ((hs.readers u).mp hu)
    refine ⟨hpending, ?_⟩
    intro t ht
    cases hshares : (s.pc t).shares with
    | true =>
        have hmem := (hs.readers t).mpr hshares
        exact ⟨lock_of_shares hshares, (advance_of_shares hshares).mpr (hblocked t hmem)⟩
    | false =>
        have hclosing : (s.pc t).closing = true := by
          simpa [Pc.inProgress, hshares, hout t] using ht
        obtain he | ⟨c, hpc⟩ := closing_cases hclosing
        · rw [hout t] at he
          cases he
        · refine ⟨(lock_exclusive hpc).mpr fun hl => ?_, advance_of_waiting hpc⟩
          rw [hl.2] at hu
          exact absurd hu (Finset.notMem_empty u)

theorem blockedAt_iff {s : Sys} {t : Nat} :
    s.blockedAt t = true ↔ ∃ n f sub todo, s.pc t = .broadcasting n f (sub :: todo) ∧
      s.bus.WaitsAt f sub := by
  unfold blockedAt
  constructor
  · intro h
    split at h
    case h_1 n f sub todo hpc => exact ⟨n, f, sub, todo, hpc, of_decide_eq_true h⟩
    case h_2 => cases h
  · rintro ⟨n, f, sub, todo, hpc, hw⟩
    rw [hpc]
    exact decide_eq_true hw

theorem waitsAt_step {s s' : Sys} {a : Action} {u : Nat} {f : Frame} {sub : Subscription}
    (hs : s.Locked) (hu : (s.pc u).shares = true) (hw : s.bus.WaitsAt f sub)
    (ha : a.byConsumer = false) (h : Moves s a s') : s'.bus.WaitsAt f sub := by
  obtain ⟨hmatch, hpolicy, hopen, hfull⟩ := hw
  obtain heq | hconsumer | ⟨t, ht⟩ | ⟨policy, g, hoffer⟩ := chan_step h sub.ch
  · exact ⟨hmatch, hpolicy, by rw [heq]; exact hopen, by rw [heq]; exact hfull⟩
  · rw [ha] at hconsumer
    cases hconsumer
  · rw [hs.not_excludes hu] at ht
    cases ht
  · exact ⟨hmatch, hpolicy, Chan.offer_of_full hopen hfull hoffer⟩

theorem blockedAt_step {s s' : Sys} {a : Action} {u : Nat} (hs : s.Locked)
    (hu : s.blockedAt u = true) (ha : a.byConsumer = false) (h : Moves s a s') :
    s'.blockedAt u = true := by
  obtain ⟨n, f, sub, todo, hpc, hw⟩ := blockedAt_iff.mp hu
  have hw' := waitsAt_step hs (by rw [hpc]; rfl) hw ha h
  refine blockedAt_iff.mpr ⟨n, f, sub, todo, ?_, hw'⟩
  by_cases hmine : a.thread = some u
  · obtain ⟨b, hk⟩ := moves_of_broadcasting h hmine hpc
    rw [Bus.deliver_eq_none_iff.mpr hw] at hk
    cases hk
  · rw [pc_of_other h hmine, hpc]

theorem waiting_step {s s' : Sys} {a : Action} {t : Nat} {c : Exclusive}
    (hr : s.readers.Nonempty) (hpc : s.pc t = .waiting (.exclusive c)) (h : Moves s a s') :
    s'.pc t = s.pc t := by
  by_cases hmine : a.thread = some t
  · exact absurd (readers_of_lock h hmine hpc) hr.ne_empty
  · exact pc_of_other h hmine

/-- A closer kept out by a sender that waits is kept out for good: nothing the
threads of the bus do lets it in. -/
theorem closing_run {s s' : Sys} {t u : Nat} {c : Exclusive} {more : List Action}
    (hs : s.Locked) (hpc : s.pc t = .waiting (.exclusive c)) (hu : s.blockedAt u = true)
    (hmore : ∀ a ∈ more, a.byConsumer = false) (h : run Sys.step s more = some s') :
    s'.pc t = s.pc t := by
  have hinv : s'.Locked ∧ s'.blockedAt u = true ∧ s'.pc t = s.pc t := by
    refine guarded_run (I := fun m => m.Locked ∧ m.blockedAt u = true ∧ m.pc t = s.pc t)
      (G := fun _ a => a.byConsumer = false) ?_ ⟨hs, hu, rfl⟩
      (guarded_of_forall (fun a ha _ => hmore a ha) _) h
    rintro m a m' ⟨hm, hbl, hsame⟩ ha hstep
    have hmv := moves_of_step hstep
    obtain ⟨n, f, sub, todo, hbpc, -⟩ := blockedAt_iff.mp hbl
    have hreaders : m.readers.Nonempty := ⟨u, (hm.readers u).mpr (by rw [hbpc]; rfl)⟩
    exact ⟨hm.step hmv, blockedAt_step hm hbl ha hmv,
      (waiting_step hreaders (hsame.trans hpc) hmv).trans hsame⟩
  exact hinv.2.2

end Sys

/-! Runs in which no subscriber asks for `Block`. -/

/-- The call asks for a subscription under `Block`. -/
def Exclusive.asksBlock : Exclusive → Bool
  | .subscribe _ opts => (applyOptions opts).backPressure == .block
  | _ => false

def Action.asksBlock : Action → Bool
  | .call _ (.exclusive c) => c.asksBlock
  | _ => false

/-- No `Block` subscription lies ahead of the thread. -/
def Pc.Lossy : Pc → Prop
  | .waiting (.exclusive c) => c.asksBlock = false
  | .entered (.exclusive c) => c.asksBlock = false
  | .broadcasting _ _ todo => ∀ sub ∈ todo, sub.backPressure ≠ .block
  | _ => True

structure Sys.Lossy (s : Sys) : Prop where
  subs : ∀ sub ∈ s.bus.subs, sub.backPressure ≠ .block
  threads : ∀ t, (s.pc t).Lossy

namespace Sys

theorem Lossy.same {s s' : Sys} {t : Nat} {p : Pc} (hs : s.Lossy) (hsubs : s'.bus.subs = s.bus.subs)
    (hpc : s'.pc = Function.update s.pc t p) (hp : p.Lossy) : s'.Lossy := by
  refine ⟨hsubs ▸ hs.subs, ?_⟩
  rw [hpc]
  exact forall_pc_update hs.threads hp

theorem Lossy.step {s s' : Sys} {a : Action} (hs : s.Lossy) (ha : a.asksBlock = false)
    (h : Moves s a s') : s'.Lossy := by
  cases h with
  | @call t c hpc hr hc =>
      refine hs.same rfl rfl ?_
      cases c with
      | exclusive c => exact ha
      | sendHeader id => trivial
      | allDrained => trivial
  | @lock t c hpc hw hr =>
      have ht := hs.threads t
      rw [hpc] at ht
      exact hs.same rfl rfl ht
  | @lockShared t c hpc hc hw =>
      refine hs.same rfl rfl ?_
      cases c with
      | exclusive c => exact absurd rfl (hc c)
      | sendHeader id => trivial
      | allDrained => trivial
  | @exclusive t c b out hpc hb =>
      have ht := hs.threads t
      rw [hpc] at ht
      refine ⟨?_, forall_pc_update hs.threads trivial⟩
      intro sub hsub
      obtain hold | ⟨filters, opts, rfl, rfl⟩ := Exclusive.body_subs hb hsub
      · exact hs.subs sub hold
      · simpa [Pc.Lossy, Exclusive.asksBlock] using ht
  | respondError hpc hb => exact hs.same (Bus.respond_frame hb).1.subs rfl trivial
  | emit hpc hb =>
      have hsubs := (Bus.respond_frame hb).1.subs
      refine hs.same hsubs rfl ?_
      intro sub hsub
      exact hs.subs sub (hsubs ▸ hsub)
  | @deliver t n f sub todo b hpc hb =>
      have ht := hs.threads t
      rw [hpc] at ht
      exact hs.same (Bus.deliver_sameTables hb).subs rfl
        fun x hx => ht x (List.mem_cons_of_mem sub hx)
  | timeUp hpc => exact hs.same rfl rfl rfl
  | scanDone hpc => exact hs.same rfl rfl rfl
  | recv hr => exact ⟨hs.subs, hs.threads⟩
  | tryRecv hr => exact ⟨hs.subs, hs.threads⟩
  | closeChan => exact ⟨hs.subs, hs.threads⟩
  | _ => exact hs.same rfl rfl trivial

theorem Lossy.not_blockedAt {s : Sys} (hs : s.Lossy) (t : Nat) : s.blockedAt t = false := by
  rw [Bool.eq_false_iff]
  intro h
  obtain ⟨n, f, sub, todo, hpc, hw⟩ := blockedAt_iff.mp h
  have ht := hs.threads t
  rw [hpc] at ht
  exact ht sub List.mem_cons_self hw.2.1

end Sys

/-! From a waiting sender on, the threads of the bus alone get stuck once `close` is called. -/

/-- An upper bound on the steps of a thread inside the shared lock, with `k` subscribers. -/
def Pc.rank (k : Nat) : Pc → Nat
  | .entered (.sendHeader _) => k + 2
  | .entered .allDrained => k + 2
  | .broadcasting _ _ todo => todo.length + 1
  | .scanning todo => todo.length + 1
  | _ => 0

namespace Sys

theorem rank_step {s s' : Sys} {t : Nat} (ht : (s.pc t).shares = true)
    (h : Moves s (.step t) s') :
    s'.bus.subs = s.bus.subs ∧ s'.readers ⊆ s.readers ∧
      (s'.pc t).rank s.bus.subs.length < (s.pc t).rank s.bus.subs.length := by
  cases h with
  | exclusive hpc hb =>
      rw [hpc] at ht
      cases ht
  | respondError hpc hb =>
      exact ⟨(Bus.respond_frame hb).1.subs, Finset.erase_subset t s.readers,
        by simp [ret, record, goto, hpc, Pc.rank]⟩
  | emit hpc hb =>
      have hsubs := (Bus.respond_frame hb).1.subs
      exact ⟨hsubs, Finset.Subset.refl s.readers, by simp [emit, record, goto, hpc, Pc.rank, hsubs]⟩
  | deliver hpc hb =>
      exact ⟨(Bus.deliver_sameTables hb).subs, Finset.Subset.refl s.readers,
        by simp [record, goto, hpc, Pc.rank]⟩
  | ended hpc =>
      exact ⟨rfl, Finset.erase_subset t s.readers, by simp [ret, record, goto, hpc, Pc.rank]⟩
  | scan hpc => exact ⟨rfl, Finset.Subset.refl s.readers, by simp [hpc, Pc.rank]⟩
  | scanEmpty hpc => exact ⟨rfl, Finset.Subset.refl s.readers, by simp [hpc, Pc.rank]⟩
  | scanFound hpc => exact ⟨rfl, Finset.erase_subset t s.readers, by simp [hpc, Pc.rank]⟩
  | scanDone hpc => exact ⟨rfl, Finset.erase_subset t s.readers, by simp [hpc, Pc.rank]⟩

theorem idle_step {s s' : Sys} {a : Action} (hs : ∃ N, ∀ t, N ≤ t → s.pc t = .idle)
    (h : Moves s a s') : ∃ N, ∀ t, N ≤ t → s'.pc t = .idle := by
  obtain ⟨N, hN⟩ := hs
  cases ha : a.thread with
  | none => exact ⟨N, fun t ht => (pc_of_other h (by simp [ha])).trans (hN t ht)⟩
  | some u =>
      refine ⟨max N (u + 1), fun t ht => ?_⟩
      have hne : a.thread ≠ some t := by
        rw [ha, Ne, Option.some.injEq]
        omega
      exact (pc_of_other h hne).trans (hN t (le_of_max_le_left ht))

/-- With a closer and a sender that waits, the others inside the lock run until they
leave it or wait too. -/
theorem Locked.runs_stuck {s : Sys} {t u : Nat} {c : Exclusive} (R : Finset Nat) (hs : s.Locked)
    (hR : s.readers ⊆ R) (hpc : s.pc t = .waiting (.exclusive c))
    (ht : (s.pc t).closing = true) (hu : s.blockedAt u = true) :
    ∃ more s', (∀ a ∈ more, a.byConsumer = false) ∧ run Sys.step s more = some s' ∧ s'.Stuck := by
  have hmem : ∀ m : Sys, m.Locked → m.blockedAt u = true → u ∈ m.readers := by
    intro m hm hbl
    obtain ⟨n, f, sub, todo, hb, -⟩ := blockedAt_iff.mp hbl
    exact (hm.readers u).mpr (by rw [hb]; rfl)
  induction hn : ∑ v ∈ R, (s.pc v).rank s.bus.subs.length using Nat.strong_induction_on
    generalizing s with
  | h n ih =>
      by_cases hall : ∀ v ∈ s.readers, s.blockedAt v = true
      · exact ⟨[], s, by simp, rfl, hs.stuck_iff.mpr ⟨⟨t, ht⟩, ⟨u, hmem s hs hu⟩, hall⟩⟩
      · push Not at hall
        obtain ⟨v, hv, hfree⟩ := hall
        have hshares := (hs.readers v).mp hv
        obtain ⟨m, hm⟩ := Option.ne_none_iff_exists'.mp
          (fun he => hfree ((advance_of_shares hshares).mp he))
        have hmv : Moves s (.step v) m := moves_of_advance hm
        obtain ⟨hsubs, hreaders, hrank⟩ := rank_step hshares hmv
        have hstay : m.pc t = s.pc t := waiting_step ⟨u, hmem s hs hu⟩ hpc hmv
        have hless : ∑ w ∈ R, (m.pc w).rank m.bus.subs.length < n := by
          rw [← hn, hsubs]
          refine Finset.sum_lt_sum ?_ ⟨v, hR hv, hrank⟩
          intro w _
          by_cases hw : w = v
          · exact hw ▸ hrank.le
          · rw [pc_of_other hmv fun he => hw (Option.some.inj he).symm]
        obtain ⟨more, s', hmore, hrun, hstuck⟩ := ih _ hless (hs.step hmv)
          (hreaders.trans hR) (hstay.trans hpc) (by rw [hstay]; exact ht)
          (blockedAt_step hs hu rfl hmv) rfl
        refine ⟨.step v :: more, s', ?_, run_cons.mpr ⟨m, hm, hrun⟩, hstuck⟩
        intro a ha
        rcases List.mem_cons.mp ha with rfl | ha
        · rfl
        · exact hmore a ha

theorem blocked_runs_stuck {as : List Action} {s : Sys} (h : run Sys.step {} as = some s) {u : Nat}
    (hu : s.blockedAt u = true) :
    ∃ more s', (∀ a ∈ more, a.byConsumer = false) ∧ run Sys.step s more = some s' ∧ s'.Stuck := by
  have hs := locked_run h
  obtain ⟨t, hidle⟩ : ∃ t, s.pc t = .idle := by
    obtain ⟨N, hN⟩ := invariant_run (I := fun s => ∃ N, ∀ t, N ≤ t → s.pc t = .idle)
      (fun _ _ _ hm hstep => idle_step hm (moves_of_step hstep)) ⟨0, fun _ _ => rfl⟩ h
    exact ⟨N, hN N le_rfl⟩
  have hcall : s.step (.call t (.exclusive .close)) =
      some (s.goto t (.waiting (.exclusive .close))) := by
    simp [Sys.step, Sys.call, hidle, Section.callable, Section.rejects]
  have hmv := moves_of_step hcall
  have hgone : (s.goto t (.waiting (.exclusive .close))).pc t = .waiting (.exclusive .close) :=
    goto_pc_same
  obtain ⟨more, s', hmore, hrun, hstuck⟩ := (hs.step hmv).runs_stuck _ (Finset.Subset.refl _) hgone
    (by rw [hgone]; rfl) (blockedAt_step hs hu rfl hmv)
  refine ⟨_ :: more, s', ?_, run_cons.mpr ⟨_, hcall, hrun⟩, hstuck⟩
  intro a ha
  rcases List.mem_cons.mp ha with rfl | ha
  · rfl
  · exact hmore a ha

end Sys

/-- `close` is held up exactly when everyone inside the lock, and someone is, waits to
send to a full `Block` channel; then it is held up for good, while the consumer does
not receive. One such sender is enough to bring this about, and without `Block`
subscriptions there is none. -/
theorem close_stuck_iff {as : List Action} {s : Sys} (h : run Sys.step {} as = some s) :
    (s.Stuck ↔ (∃ t, (s.pc t).closing = true) ∧ s.readers.Nonempty ∧
      ∀ t ∈ s.readers, s.blockedAt t = true) ∧
    (s.Stuck → ∀ t, (s.pc t).closing = true → ∀ more s', (∀ a ∈ more, a.byConsumer = false) →
      run Sys.step s more = some s' → s'.pc t = s.pc t) ∧
    ((∃ t, s.blockedAt t = true) → ∃ more s', (∀ a ∈ more, a.byConsumer = false) ∧
      run Sys.step s more = some s' ∧ s'.Stuck) ∧
    ((∀ a ∈ as, a.asksBlock = false) → (∀ t, s.blockedAt t = false) ∧ ¬ s.Stuck) := by
  have hs := Sys.locked_run h
  refine ⟨hs.stuck_iff, ?_, ?_, ?_⟩
  · intro hstuck t ht more s' hmore hrun
    obtain ⟨-, ⟨u, hu⟩, hblocked⟩ := hs.stuck_iff.mp hstuck
    obtain he | ⟨c, hpc⟩ := Sys.closing_cases ht
    · rw [hs.not_excludes ((hs.readers u).mp hu)] at he
      cases he
    · exact Sys.closing_run hs hpc (hblocked u hu) hmore hrun
  · rintro ⟨t, ht⟩
    exact Sys.blocked_runs_stuck h ht
  · intro has
    have hlossy : s.Lossy := by
      refine guarded_run (I := Sys.Lossy) (G := fun _ a => a.asksBlock = false)
        (fun _ _ _ hm ha hstep => hm.step ha (Sys.moves_of_step hstep)) ?_
        (guarded_of_forall (fun a ha _ => has a ha) _) h
      exact ⟨fun _ hsub => absurd hsub List.not_mem_nil, fun _ => trivial⟩
    refine ⟨hlossy.not_blockedAt, fun hstuck => ?_⟩
    obtain ⟨-, ⟨u, hu⟩, hblocked⟩ := hs.stuck_iff.mp hstuck
    have hbl := hblocked u hu
    rw [hlossy.not_blockedAt u] at hbl
    cases hbl

/-- A `Block` subscriber with room for one frame gets a second one; its sender waits,
and so does the closer. -/
def stalledClose : List Action :=
  [.call 0 (.exclusive (.subscribe [] [withChannelDepth 1, withBackPressure .block])),
    .lock 0, .step 0,
    .call 0 (.exclusive (.publish 5 [0xAA])), .lock 0, .step 0,
    .call 0 (.sendHeader 5), .lock 0, .step 0, .step 0, .step 0,
    .call 0 (.sendHeader 5), .lock 0, .step 0,
    .call 1 (.exclusive .close)]

theorem stalledClose_state : ∃ s, run Sys.step {} stalledClose = some s ∧
    (s.pc 1).closing = true ∧ s.readers = {0} ∧ s.blockedAt 0 = true := by
  have hruns : (run Sys.step {} stalledClose).isSome = true := by decide +kernel
  have hstate : (run Sys.step {} stalledClose).all fun s =>
      (s.pc 1).closing && decide (s.readers = {0}) && s.blockedAt 0 := by decide +kernel
  obtain ⟨s, hs⟩ := Option.isSome_iff_exists.mp hruns
  rw [hs, Option.all_some, Bool.and_eq_true, Bool.and_eq_true, decide_eq_true_eq] at hstate
  exact ⟨s, hs, hstate.1.1, hstate.1.2, hstate.2⟩

theorem not_close_never_stuck : ¬ ∀ as s, run Sys.step {} as = some s → ¬ s.Stuck := by
  intro h
  obtain ⟨s, hs, hclosing, hreaders, hblocked⟩ := stalledClose_state
  refine h stalledClose s hs ((Sys.locked_run hs).stuck_iff.mpr ⟨⟨1, hclosing⟩, ?_, ?_⟩)
  · exact hreaders ▸ Finset.singleton_nonempty 0
  · intro t ht
    rw [hreaders, Finset.mem_singleton] at ht
    exact ht ▸ hblocked

/-- In that run the closer never gets in. -/
theorem close_stuck_iff_stalled : ∃ s, run Sys.step {} stalledClose = some s ∧ s.Stuck ∧
    ∀ more s', (∀ a ∈ more, a.byConsumer = false) → run Sys.step s more = some s' →
      s'.pc 1 = s.pc 1 := by
  obtain ⟨s, hs, hclosing, hreaders, hblocked⟩ := stalledClose_state
  have hstuck : s.Stuck := by
    refine (close_stuck_iff hs).1.mpr ⟨⟨1, hclosing⟩, ?_, ?_⟩
    · exact hreaders ▸ Finset.singleton_nonempty 0
    · intro t ht
      rw [hreaders, Finset.mem_singleton] at ht
      exact ht ▸ hblocked
  exact ⟨s, hs, hstuck, (close_stuck_iff hs).2.1 hstuck 1 hclosing⟩

end CppLin.Virt
