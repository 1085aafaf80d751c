import CppLin.Virtual.CloseProgress
import CppLin.Virtual.Turns

/-!
The threads of the bus come to rest. Every move of a call in progress brings it nearer to its
return, so without new calls they all return, but for those that wait at a full channel.
-/
namespace CppLin.Virt
open Bytes Relay Run

/-- A call that is under way goes on; `close_with_drain` when its time is up. -/
def Action.proceeds : Action → Bool
  | .lock _ | .step _ | .timeUp _ => true
  | _ => false

/-- The subscribers a body may add. -/
def Exclusive.adds : Exclusive → Nat
  | .subscribe _ _ => 1
  | _ => 0

def Pc.adds : Pc → Nat
  | .waiting (.exclusive c) | .entered (.exclusive c) => c.adds
  | _ => 0

/-- The steps a call still takes at most, on a bus that has `k` subscribers at most. -/
def Pc.left (k : Nat) : Pc → Nat
  | .idle => 0
  | .entered (.exclusive _) => 1
  | .waiting (.exclusive _) => 2
  | .draining => 3
  | .broadcasting _ _ todo => todo.length + 1
  | .entered (.sendHeader _) => k + 2
  | .waiting (.sendHeader _) => k + 3
  | .scanning todo => todo.length + 4
  | .entered .allDrained => k + 5
  | .waiting .allDrained => k + 6

theorem Pc.left_mono {k k' : Nat} (h : k ≤ k') (p : Pc) : p.left k ≤ p.left k' := by
  unfold Pc.left
  split <;> omega

/-- What an exclusive body makes of the subscribers: nothing, one more on an open bus, or it lets
go of them all. -/
theorem Exclusive.subs_body {b b' : Bus} {c : Exclusive} {out : Outcome}
    (h : c.body b = (b', out)) : (b'.closed = b.closed ∧ b'.subs = b.subs) ∨
      (b'.closed = false ∧ ∃ sub, c.adds = 1 ∧ b'.subs = b.subs ++ [sub]) ∨ b'.subs = [] := by
  obtain ⟨out', he⟩ := Exclusive.effect b c
  rw [h] at he
  generalize hop : c.op = op at he
  cases he with
  | failed hout hb =>
      obtain ⟨hclosed, hsubs, -⟩ := hb.same
      exact .inl ⟨hclosed, hsubs⟩
  | published hop' hp =>
      obtain ⟨-, -, rfl⟩ := Bus.doPublish_ok hp
      exact .inl ⟨rfl, rfl⟩
  | scheduled hopen => exact .inl ⟨rfl, rfl⟩
  | subscribed hopen =>
      have hadds : c.adds = 1 := by cases c <;> first | rfl | cases hop
      exact .inr (.inl ⟨hopen, _, hadds, rfl⟩)
  | emitted hm hb => cases c <;> cases hop
  | closed =>
      cases hc : b.closed with
      | true =>
          have hclose : b.close.1 = b := congrArg Prod.fst (Bus.close_of_closed hc)
          exact .inl ⟨Bus.close_closed b, congrArg Bus.subs hclose⟩
      | false =>
          exact .inr (.inr (congrArg Bus.subs (Bus.close_of_open hc)))
  | received hop' hbuf hshape => cases c <;> cases hop <;> cases hop'
  | closedChan => cases c <;> cases hop

theorem Exclusive.length_body {b b' : Bus} {c : Exclusive} {out : Outcome}
    (h : c.body b = (b', out)) : b'.subs.length ≤ b.subs.length + c.adds := by
  rcases Exclusive.subs_body h with ⟨-, hsubs⟩ | ⟨-, sub, hadds, hsubs⟩ | hsubs
  · rw [hsubs]
    exact Nat.le_add_right _ _
  · rw [hsubs, hadds, List.length_append, List.length_singleton]
  · rw [hsubs]
    exact Nat.zero_le _

/-- A closed bus has let go of its subscribers. -/
def Bus.Emptied (b : Bus) : Prop := b.closed = true → b.subs = []

theorem Bus.Emptied.same {b b' : Bus} (hb : b.Emptied) (h : Bus.SameTables b b') : b'.Emptied := by
  intro hc
  rw [h.subs]
  exact hb (h.closed ▸ hc)

theorem Sys.emptied_step {s s' : Sys} {a : Action} (hs : s.bus.Emptied) (h : Moves s a s') :
    s'.bus.Emptied := by
  cases h with
  | exclusive hpc hb =>
      intro hc
      rcases Exclusive.subs_body hb with ⟨hclosed, hsubs⟩ | ⟨hopen, -⟩ | hsubs
      · exact hsubs.trans (hs (hclosed ▸ hc))
      · cases hopen.symm.trans hc
      · exact hsubs
  | respondError hpc hb => exact hs.same (Bus.respond_frame hb).1
  | emit hpc hb => exact hs.same (Bus.respond_frame hb).1
  | deliver hpc hb => exact hs.same (Bus.deliver_sameTables hb)
  | _ => exact hs

/-- A move of a call that is under way: it is nearer to its return, and what it has not added
to the subscribers it may still add. -/
theorem Sys.proceeds_step {s s' : Sys} {a : Action} (ha : a.proceeds = true) (h : Moves s a s') :
    ∃ t, a.thread = some t ∧
      s'.bus.subs.length + (s'.pc t).adds ≤ s.bus.subs.length + (s.pc t).adds ∧
      ∀ k, s.bus.subs.length ≤ k → (s'.pc t).left k < (s.pc t).left k := by
  cases h with
  | lock hpc hw hr => exact ⟨_, rfl, by simp [goto, hpc, Pc.adds], by simp [goto, hpc, Pc.left]⟩
  | @lockShared t c hpc hc hw =>
      refine ⟨t, rfl, ?_, ?_⟩
      · cases c <;> simp [goto, hpc, Pc.adds]
      · intro k hk
        cases c with
        | exclusive c => exact absurd rfl (hc c)
        | sendHeader id => simp [goto, hpc, Pc.left]
        | allDrained => simp [goto, hpc, Pc.left]
  | exclusive hpc hb =>
      have hlength := Exclusive.length_body hb
      exact ⟨_, rfl, by simpa [ret, record, goto, hpc, Pc.adds] using hlength,
        by simp [ret, record, goto, hpc, Pc.left]⟩
  | respondError hpc hb =>
      have hsubs := (Bus.respond_frame hb).1.subs
      exact ⟨_, rfl, by simp [ret, record, goto, hpc, Pc.adds, hsubs],
        by simp [ret, record, goto, hpc, Pc.left]⟩
  | emit hpc hb =>
      have hsubs := (Bus.respond_frame hb).1.subs
      refine ⟨_, rfl, by simp [emit, record, goto, hpc, Pc.adds, hsubs], ?_⟩
      intro k hk
      simp only [emit, record, goto, hpc, Pc.left, Function.update_self, hsubs]
      omega
  | deliver hpc hb =>
      have hsubs := (Bus.deliver_sameTables hb).subs
      exact ⟨_, rfl, by simp [record, goto, hpc, Pc.adds, hsubs],
        by simp [record, goto, hpc, Pc.left]⟩
  | ended hpc =>
      exact ⟨_, rfl, by simp [ret, record, goto, hpc, Pc.adds],
        by simp [ret, record, goto, hpc, Pc.left]⟩
  | scan hpc =>
      refine ⟨_, rfl, by simp [goto, hpc, Pc.adds], ?_⟩
      intro k hk
      simp only [goto, hpc, Pc.left, Function.update_self]
      omega
  | scanEmpty hpc => exact ⟨_, rfl, by simp [goto, hpc, Pc.adds], by simp [goto, hpc, Pc.left]⟩
  | scanFound hpc => exact ⟨_, rfl, by simp [goto, hpc, Pc.adds], by simp [goto, hpc, Pc.left]⟩
  | scanDone hpc =>
      exact ⟨_, rfl, by simp [goto, hpc, Pc.adds, Exclusive.adds], by simp [goto, hpc, Pc.left]⟩
  | timeUp hpc =>
      exact ⟨_, rfl, by simp [goto, hpc, Pc.adds, Exclusive.adds], by simp [goto, hpc, Pc.left]⟩
  | _ => cases ha

namespace Sys

/-- The calls under way are those of the threads of `T`. -/
def Under (T : Finset Nat) (s : Sys) : Prop := ∀ t, t ∉ T → s.pc t = .idle

/-- The subscribers there may come to be without new calls. -/
def breadth (T : Finset Nat) (s : Sys) : Nat := s.bus.subs.length + ∑ t ∈ T, (s.pc t).adds

/-- The moves that are left without new calls. -/
def weight (T : Finset Nat) (s : Sys) : Nat := ∑ t ∈ T, (s.pc t).left (s.breadth T)

theorem weight_step {T : Finset Nat} {s s' : Sys} {a : Action} (hs : s.Under T)
    (ha : a.proceeds = true) (h : Moves s a s') : s'.Under T ∧ s'.weight T < s.weight T := by
  obtain ⟨t, ht, hsubs, hleft⟩ := proceeds_step ha h
  have hlt := hleft (s.breadth T) (Nat.le_add_right _ _)
  have hmem : t ∈ T := by
    by_contra hout
    rw [hs t hout] at hlt
    exact absurd hlt (Nat.not_lt_zero _)
  have hother : ∀ v, v ≠ t → s'.pc v = s.pc v := fun v hv =>
    pc_of_other h fun he => hv (Option.some.inj (he.symm.trans ht))
  have hbreadth : s'.breadth T ≤ s.breadth T := by
    have hrest : ∑ v ∈ T.erase t, (s'.pc v).adds = ∑ v ∈ T.erase t, (s.pc v).adds :=
      Finset.sum_congr rfl fun v hv => by rw [hother v (Finset.ne_of_mem_erase hv)]
    rw [breadth, breadth, ← Finset.add_sum_erase T _ hmem, ← Finset.add_sum_erase T _ hmem, hrest]
    omega
  refine ⟨fun v hv => ?_, ?_⟩
  · have hne : v ≠ t := fun he => hv (he ▸ hmem)
    rw [hother v hne, hs v hv]
  · calc s'.weight T ≤ ∑ v ∈ T, (s'.pc v).left (s.breadth T) :=
          Finset.sum_le_sum fun v _ => Pc.left_mono hbreadth _
      _ < s.weight T := by
          refine Finset.sum_lt_sum (fun v _ => ?_) ⟨t, hmem, hlt⟩
          by_cases hv : v = t
          · exact hv ▸ hlt.le
          · rw [hother v hv]

/-- No call that is under way can go on. -/
def AtRest (s : Sys) : Prop := ∀ a : Action, a.proceeds = true → s.step a = none

/-- Where a thread may stand at rest: outside, at a full channel that it is to send to, or before
the lock that one who stands there keeps. -/
def Halted (s : Sys) (t : Nat) : Prop :=
  s.pc t = .idle ∨ s.blockedAt t = true ∨
    (∃ c, s.pc t = .waiting (.exclusive c)) ∧ ∃ u, s.blockedAt u = true

theorem Locked.halted {s : Sys} (hs : s.Locked) (hrest : s.AtRest) (t : Nat) : s.Halted t := by
  have hstep : ∀ u, s.advance u = none := fun u => hrest (.step u) rfl
  have hlock : s.lock t = none := hrest (.lock t) rfl
  have hwriter : s.writer = none := by
    rw [Option.eq_none_iff_forall_ne_some]
    intro u hu
    have hsome := advance_of_excludes ((hs.writer u).mp hu)
    rw [hstep u] at hsome
    cases hsome
  cases hshares : (s.pc t).shares with
  | true => exact .inr (.inl ((advance_of_shares hshares).mp (hstep t)))
  | false =>
      cases hpc : s.pc t with
      | idle => exact .inl hpc
      | draining =>
          have htime := hrest (.timeUp t) rfl
          rw [Sys.step, hpc] at htime
          cases htime
      | waiting c =>
          cases c with
          | exclusive c =>
              have hreaders := (lock_exclusive hpc).mp hlock
              rw [and_iff_right hwriter, ← Ne, ← Finset.nonempty_iff_ne_empty] at hreaders
              obtain ⟨u, hu⟩ := hreaders
              have hblocked := (advance_of_shares ((hs.readers u).mp hu)).mp (hstep u)
              exact .inr (.inr ⟨⟨c, hpc⟩, u, hblocked⟩)
          | sendHeader id =>
              rw [lock, hpc] at hlock
              simp [hwriter] at hlock
          | allDrained =>
              rw [lock, hpc] at hlock
              simp [hwriter] at hlock
      | entered c =>
          cases c with
          | exclusive c =>
              have hexcludes := (hs.writer t).mpr (by rw [hpc]; rfl)
              rw [hwriter] at hexcludes
              cases hexcludes
          | sendHeader id => simp [hpc, Pc.shares] at hshares
          | allDrained => simp [hpc, Pc.shares] at hshares
      | broadcasting n f todo => simp [hpc, Pc.shares] at hshares
      | scanning todo => simp [hpc, Pc.shares] at hshares

theorem idle_of_halted {s : Sys} {t : Nat} (h : s.Halted t) (hfree : ∀ u, s.blockedAt u = false) :
    s.pc t = .idle := by
  rcases h with hidle | hblocked | ⟨-, u, hblocked⟩
  · exact hidle
  · rw [hfree t] at hblocked
    cases hblocked
  · rw [hfree u] at hblocked
    cases hblocked

theorem lossy_run {as : List Action} {s : Sys} (has : ∀ a ∈ as, a.asksBlock = false)
    (h : run Sys.step {} as = some s) : s.Lossy := by
  refine guarded_run (I := Sys.Lossy) (G := fun _ a => a.asksBlock = false)
    (fun _ _ _ hm ha hstep => hm.step ha (moves_of_step hstep)) ?_
    (guarded_of_forall (fun a ha _ => has a ha) _) h
  exact ⟨fun _ hsub => absurd hsub List.not_mem_nil, fun _ => trivial⟩

theorem not_blockedAt_of_closed {s : Sys} (hempty : s.bus.Emptied)
    (hahead : ∀ t, (s.pc t).Ahead s.bus.subs) (hc : s.bus.closed = true) (u : Nat) :
    s.blockedAt u = false := by
  rw [Bool.eq_false_iff]
  intro hblocked
  obtain ⟨n, f, sub, todo, hpc, -⟩ := blockedAt_iff.mp hblocked
  have hsuffix := hahead u
  rw [hpc, hempty hc] at hsuffix
  cases List.suffix_nil.mp hsuffix

end Sys

/-- Without new calls, and with no time left to `close_with_drain`, the calls under way come to
an end after so many moves, whichever thread moves: each then has returned, or it waits at a full
channel of a `Block` subscriber, or for the lock that one who waits there keeps. None does in a
run in which nobody asks for `Block`, and none once the bus is closed. -/
theorem calls_finish {as : List Action} {s : Sys} (h : run Sys.step {} as = some s) :
    ∃ T : Finset Nat, (∀ t, t ∈ T ↔ s.pc t ≠ .idle) ∧
      ∀ more s', (∀ a ∈ more, a.proceeds = true) → run Sys.step s more = some s' →
        more.length ≤ s.weight T ∧
        (s'.AtRest → (∀ t, s'.Halted t) ∧
          ((∀ a ∈ as, a.asksBlock = false) ∨ s'.bus.closed = true → ∀ t, s'.pc t = .idle)) := by
  classical
  obtain ⟨N, hN⟩ := invariant_run (I := fun s : Sys => ∃ N, ∀ t, N ≤ t → s.pc t = .idle)
    (fun _ _ _ hm hstep => Sys.idle_step hm (Sys.moves_of_step hstep)) ⟨0, fun _ _ => rfl⟩ h
  have hmem : ∀ t, t ∈ (Finset.range N).filter (fun t => s.pc t ≠ .idle) ↔ s.pc t ≠ .idle := by
    intro t
    rw [Finset.mem_filter, Finset.mem_range, and_iff_right_iff_imp]
    intro hpc
    by_contra hout
    exact hpc (hN t (Nat.le_of_not_lt hout))
  refine ⟨_, hmem, ?_⟩
  generalize (Finset.range N).filter (fun t => s.pc t ≠ .idle) = T at hmem
  intro more s' hmore hrun
  have hunder : s.Under T := fun t ht => not_not.mp fun hpc => ht ((hmem t).mpr hpc)
  have hall : run Sys.step {} (as ++ more) = some s' := run_append.mpr ⟨s, h, hrun⟩
  refine ⟨?_, fun hrest => ⟨(Sys.locked_run hall).halted hrest, ?_⟩⟩
  · have hlength := length_le_of_decreasing (I := Sys.Under T) (A := fun a => a.proceeds = true)
      (fun _ _ _ hs ha hstep => Sys.weight_step hs ha (Sys.moves_of_step hstep)) hunder hmore hrun
    exact (Nat.le_add_right _ _).trans hlength
  · intro hwhen t
    refine Sys.idle_of_halted ((Sys.locked_run hall).halted hrest t) ?_
    rcases hwhen with has | hc
    · refine (Sys.lossy_run (fun a ha => ?_) hall).not_blockedAt
      rcases List.mem_append.mp ha with ha | ha
      · exact has a ha
      · have hproceeds := hmore a ha
        cases a <;> first | rfl | cases hproceeds
    · have hempty : s'.bus.Emptied := invariant_run (I := fun s : Sys => s.bus.Emptied)
        (fun _ _ _ hs hstep => Sys.emptied_step hs (Sys.moves_of_step hstep)) (fun _ => rfl) hall
      exact Sys.not_blockedAt_of_closed hempty (Sys.ahead_run hall) hc

/-- A broadcast under way, and behind it a `close` and another header. -/
def underWay : List Action :=
  [.call 0 (.exclusive (.subscribe [] [])), .lock 0, .step 0,
    .call 0 (.exclusive (.publish 5 [0xAA])), .lock 0, .step 0,
    .call 1 (.sendHeader 5), .lock 1, .step 1, .call 2 (.exclusive .close), .call 3 (.sendHeader 5)]

theorem calls_finish_closing : ∃ s, run Sys.step {} underWay = some s ∧
    ∀ more s', (∀ a ∈ more, a.proceeds = true) → run Sys.step s more = some s' → s'.AtRest →
      ∀ t, s'.pc t = .idle := by
  obtain ⟨s, hs⟩ := Option.isSome_iff_exists.mp
    (by decide +kernel : (run Sys.step {} underWay).isSome = true)
  obtain ⟨T, -, hfinish⟩ := calls_finish hs
  refine ⟨s, hs, ?_⟩
  intro more s' hmore hrun hrest
  exact ((hfinish more s' hmore hrun).2 hrest).2 (.inl (by decide))

end CppLin.Virt
