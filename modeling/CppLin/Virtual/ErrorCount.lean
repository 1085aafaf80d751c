import CppLin.Virtual.Effects

namespace CppLin.Virt
open Bytes Relay Run

def Op.isClose : Op → Bool
  | .close => true
  | _ => false

def Op.isSetSchedule : Op → Bool
  | .setSchedule _ => true
  | _ => false

/-- The calls of `set_schedule` that come after a `close`. -/
def lateSchedules (ops : List Op) : Nat := (ops.dropWhile (!·.isClose)).countP (·.isSetSchedule)

def failures (log : List (Op × Outcome)) : Nat := log.countP fun x => x.2.failure.isSome

namespace Bus

theorem doPublish_errorCount (b : Bus) (id : UInt8) (data : Payload) (ct : ChecksumType) :
    (b.doPublish id data ct).1.metrics.errorCount =
      b.metrics.errorCount + if (b.doPublish id data ct).2.isSome then 1 else 0 := by
  unfold doPublish
  split_ifs <;> simp_all [countError]

theorem subscribe_errorCount (b : Bus) (filters : List Filter) (opts : List SubscriberOption) :
    (b.subscribe filters opts).1.metrics.errorCount = b.metrics.errorCount +
      if (Outcome.channel (b.subscribe filters opts).2).failure.isSome then 1 else 0 := by
  unfold Bus.subscribe
  by_cases hc : b.closed = true
  · simp only [if_pos hc]
    rfl
  · simp only [if_neg hc]
    exact (UInt64.add_zero _).symm

theorem setSchedule_errorCount (b : Bus) (entries : List ScheduleEntry) :
    (b.setSchedule entries).1.metrics.errorCount = b.metrics.errorCount := by
  unfold Bus.setSchedule
  split_ifs <;> rfl

theorem setSchedule_fails (b : Bus) (entries : List ScheduleEntry) :
    (Outcome.code (b.setSchedule entries).2).failure.isSome = b.closed := by
  unfold Bus.setSchedule
  cases hc : b.closed <;> rfl

theorem close_errorCount (b : Bus) : b.close.1.metrics.errorCount = b.metrics.errorCount +
    if (Outcome.code b.close.2).failure.isSome then 1 else 0 := by
  rw [close_metrics, close_code]
  exact (UInt64.add_zero _).symm

theorem respond_errorCount (b : Bus) (id : UInt8) :
    (b.respond id).1.metrics.errorCount = b.metrics.errorCount +
      if (Outcome.frame (b.respond id).2).failure.isSome then 1 else 0 := by
  cases hr : b.respond id with
  | mk m r =>
      cases r with
      | error e =>
          rw [respond_error hr]
          rfl
      | ok f =>
          obtain ⟨-, -, e, -, -, rfl⟩ := respond_ok hr
          exact (UInt64.add_zero _).symm

theorem deliver_errorCount {f : Frame} {b b' : Bus} {s : Subscription}
    (h : deliver f b s = some b') : b'.metrics.errorCount = b.metrics.errorCount := by
  unfold deliver at h
  split at h
  · obtain rfl := Option.some.inj h
    rfl
  · split at h
    · split at h <;> obtain rfl := Option.some.inj h <;> rfl
    · split at h <;> obtain rfl := Option.some.inj h <;> rfl
    · obtain ⟨⟨c, r⟩, -, rfl⟩ := Option.map_eq_some_iff.mp h
      rfl

theorem broadcast_errorCount {f : Frame} {b b' : Bus} (h : b.broadcast f = some b') :
    b'.metrics.errorCount = b.metrics.errorCount :=
  rel_foldlM (R := fun b b' : Bus => b'.metrics.errorCount = b.metrics.errorCount)
    (fun _ => rfl) (fun {_ _ _} hfirst hlater => hlater.trans hfirst)
    (fun _ _ _ _ => deliver_errorCount) h

theorem sendHeader_errorCount {b b' : Bus} {id : UInt8} {r : Except ErrorCode Frame}
    (h : b.sendHeader id = some (b', r)) :
    b'.metrics.errorCount =
      b.metrics.errorCount + if (Outcome.frame r).failure.isSome then 1 else 0 := by
  have hcount := respond_errorCount b id
  unfold sendHeader at h
  cases hr : b.respond id with
  | mk m res =>
      rw [hr] at h hcount
      cases res with
      | error e =>
          obtain ⟨rfl, rfl⟩ := Prod.mk.inj (Option.some.inj h)
          exact hcount
      | ok f =>
          obtain ⟨b₁, hb, heq⟩ := Option.map_eq_some_iff.mp h
          obtain ⟨rfl, rfl⟩ := Prod.mk.inj heq
          exact (broadcast_errorCount hb).trans hcount

theorem exec_errorCount {b b' : Bus} {op : Op} {out : Outcome} (h : b.exec op = some (b', out)) :
    b'.metrics.errorCount = b.metrics.errorCount +
      if out.failure.isSome && !op.isSetSchedule then 1 else 0 := by
  have counts : op.isSetSchedule = false → (out.failure.isSome && !op.isSetSchedule) =
      out.failure.isSome := fun hop => by rw [hop, Bool.not_false, Bool.and_true]
  have quiet : ∀ k : UInt64, k = k + 0 := fun k => (UInt64.add_zero k).symm
  cases op with
  | publish id data =>
      obtain ⟨rfl, rfl⟩ := Prod.mk.inj (Option.some.inj h)
      rw [counts rfl]
      exact doPublish_errorCount b id data .enhanced
  | publishClassic id data =>
      obtain ⟨rfl, rfl⟩ := Prod.mk.inj (Option.some.inj h)
      rw [counts rfl]
      exact doPublish_errorCount b id data .classic
  | setSchedule entries =>
      obtain ⟨rfl, rfl⟩ := Prod.mk.inj (Option.some.inj h)
      rw [Op.isSetSchedule, Bool.not_true, Bool.and_false]
      exact (setSchedule_errorCount b entries).trans (quiet _)
  | subscribe filters opts =>
      obtain ⟨rfl, rfl⟩ := Prod.mk.inj (Option.some.inj h)
      rw [counts rfl]
      exact subscribe_errorCount b filters opts
  | sendHeader id =>
      obtain ⟨⟨m, r⟩, hm, heq⟩ := Option.map_eq_some_iff.mp h
      obtain ⟨rfl, rfl⟩ := Prod.mk.inj heq
      rw [counts rfl]
      exact sendHeader_errorCount hm
  | close =>
      obtain ⟨rfl, rfl⟩ := Prod.mk.inj (Option.some.inj h)
      rw [counts rfl]
      exact close_errorCount b
  | recv ch =>
      obtain ⟨⟨c, f⟩, -, heq⟩ := Option.map_eq_some_iff.mp h
      obtain ⟨rfl, rfl⟩ := Prod.mk.inj heq
      exact quiet _
  | tryRecv ch =>
      obtain ⟨rfl, rfl⟩ := Prod.mk.inj (Option.some.inj h)
      exact quiet _
  | closeChan ch =>
      obtain ⟨rfl, rfl⟩ := Prod.mk.inj (Option.some.inj h)
      exact quiet _

theorem exec_setSchedule_fails {b b' : Bus} {op : Op} {out : Outcome}
    (h : b.exec op = some (b', out)) (hop : op.isSetSchedule = true) :
    out.failure.isSome = b.closed := by
  cases op with
  | setSchedule entries =>
      obtain ⟨-, rfl⟩ := Prod.mk.inj (Option.some.inj h)
      exact setSchedule_fails b entries
  | _ => cases hop

theorem Effect.closed_eq {b b' : Bus} {op : Op} {out : Outcome} (h : Effect b op b' out)
    (hop : op.isClose = false) : b'.closed = b.closed := by
  cases h with
  | failed hout hsame => exact hsame.same.1
  | published hpub hp =>
      obtain ⟨-, -, rfl⟩ := doPublish_ok hp
      rfl
  | emitted hm hbr =>
      exact (emitted_sameTables hm hbr).closed
  | closed => cases hop
  | _ => rfl

theorem exec_closed {b b' : Bus} {op : Op} {out : Outcome} (h : b.exec op = some (b', out)) :
    b'.closed = (b.closed || op.isClose) := by
  cases hop : op.isClose with
  | false =>
      rw [Bool.or_false]
      exact (effect_of_exec h).closed_eq hop
  | true =>
      cases op with
      | close =>
          obtain ⟨rfl, -⟩ := Prod.mk.inj (Option.some.inj h)
          rw [Bool.or_true]
          exact b.close_closed
      | _ => cases hop

end Bus

theorem lateSchedules_concat (ops : List Op) (op : Op) :
    lateSchedules (ops ++ [op]) = lateSchedules ops +
      if op.isSetSchedule && ops.any (·.isClose) then 1 else 0 := by
  unfold lateSchedules
  cases hc : ops.any (·.isClose) with
  | false =>
      have hall : ∀ x ∈ ops, (!x.isClose) = true := by simpa using hc
      rw [List.dropWhile_append_of_pos hall, List.dropWhile_eq_nil_iff.mpr hall]
      cases op <;> rfl
  | true =>
      have hne : (ops.dropWhile (!·.isClose)).isEmpty = false := by
        simpa using hc
      rw [List.dropWhile_append, hne, if_neg Bool.false_ne_true, List.countP_append,
        List.countP_singleton, Bool.and_true]

theorem failures_concat (log : List (Op × Outcome)) (x : Op × Outcome) :
    failures (log ++ [x]) = failures log + if x.2.failure.isSome then 1 else 0 := by
  unfold failures
  rw [List.countP_append, List.countP_singleton]

/-- Every failure is either counted or one of a late `set_schedule`. -/
theorem Session.failures_run {ops : List Op} {s : Session}
    (h : run Session.step {} ops = some s) :
    s.bus.closed = ops.any (·.isClose) ∧
      s.bus.metrics.errorCount + UInt64.ofNat (lateSchedules ops) =
        UInt64.ofNat (failures s.log) := by
  refine history_run (P := fun ops (s : Session) => s.bus.closed = ops.any (·.isClose) ∧
    s.bus.metrics.errorCount + UInt64.ofNat (lateSchedules ops) = UInt64.ofNat (failures s.log))
    ⟨rfl, rfl⟩ ?_ h
  rintro past s op s' - ⟨hclosed, hcount⟩ hstep
  obtain ⟨out, hx, hlog⟩ := Session.step_some hstep
  refine ⟨?_, ?_⟩
  · rw [Bus.exec_closed hx, hclosed, List.any_append, List.any_cons, List.any_nil, Bool.or_false]
  · rw [hlog, failures_concat, lateSchedules_concat, Bus.exec_errorCount hx, UInt64.ofNat_add,
      UInt64.ofNat_add, ← hcount, ← hclosed]
    cases hop : op.isSetSchedule with
    | true =>
        rw [Bus.exec_setSchedule_fails hx hop]
        cases s.bus.closed <;> simp [UInt64.add_assoc]
    | false =>
        cases out.failure.isSome <;> simp [UInt64.add_assoc, UInt64.add_comm 1]

/-- The count of errors is the number of calls that returned one if and only if the calls of
`set_schedule` after the bus was closed are none, or as many as a multiple of 2^64. -/
theorem error_count_iff {ops : List Op} {s : Session} (h : run Session.step {} ops = some s) :
    s.bus.metrics.errorCount = UInt64.ofNat (failures s.log) ↔ 2 ^ 64 ∣ lateSchedules ops := by
  obtain ⟨-, hcount⟩ := Session.failures_run h
  have hzero : UInt64.ofNat (lateSchedules ops) = 0 ↔ 2 ^ 64 ∣ lateSchedules ops := by
    rw [← UInt64.toNat_inj, UInt64.toNat_ofNat', Nat.dvd_iff_mod_eq_zero]
    rfl
  rw [← hcount, eq_comm, UInt64.add_eq_left, hzero]

/-- A subscribe refused after the close, and counted. -/
theorem error_count_iff_subscribe : ∃ s, run Session.step {} [.publish 0x40 [1], .close,
    .subscribe [] []] = some s ∧ s.bus.metrics.errorCount = 2 ∧
      s.bus.metrics.errorCount = UInt64.ofNat (failures s.log) := by
  have hrun : run Session.step {} [.publish 0x40 [1], .close, .subscribe [] []] = some _ := rfl
  exact ⟨_, hrun, by decide +kernel, (error_count_iff hrun).mpr (by decide)⟩

/-- A schedule refused after the close, and not counted. -/
theorem not_error_count : ¬ ∀ (ops : List Op) (s : Session), run Session.step {} ops = some s →
    s.bus.metrics.errorCount = UInt64.ofNat (failures s.log) := by
  intro h
  have hrun : run Session.step {} [.close, .setSchedule []] = some _ := rfl
  have hcount := h _ _ hrun
  revert hcount
  decide +kernel

end CppLin.Virt
