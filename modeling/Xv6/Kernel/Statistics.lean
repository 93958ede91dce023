import Xv6.Kernel.Reaping

namespace Xv6.Kernel

open Process Data Function Int32
open Machine (step)

/-! The times of a process. update_statistics counts in the slot, allocproc
clears the counters and wait2 hands them to the parent. -/

/-- Passes of update_statistics since the slot was allocated for its process, by
the state they found it in, and those between its first RUNNABLE and its exit. -/
structure Passes where
  asleep : Slot → Nat
  ready : Slot → Nat
  ran : Slot → Nat
  alive : Slot → Nat
  living : Slot → Bool

namespace Passes

def boot : Passes where
  asleep := fun _ => 0
  ready := fun _ => 0
  ran := fun _ => 0
  alive := fun _ => 0
  living := fun p => p == 0

variable (h : Passes)

def record (table : Table) : Option LifeOp → Passes
  | some (.allocate _ np _) => {
      asleep := update h.asleep np 0
      ready := update h.ready np 0
      ran := update h.ran np 0
      alive := update h.alive np 0
      living := update h.living np false }
  | some (.publish _ np) => { h with living := update h.living np true }
  | some (.exit p) => { h with living := update h.living p false }
  | some .statistics => { h with
      asleep := fun q => if (table q).state = .sleeping then h.asleep q + 1 else h.asleep q
      ready := fun q => if (table q).state = .runnable then h.ready q + 1 else h.ready q
      ran := fun q => if (table q).state = .running then h.ran q + 1 else h.ran q
      alive := fun q => if h.living q = true then h.alive q + 1 else h.alive q }
  | _ => h

theorem record_allocate (table : Table) (p np : Slot) (kind : Creation) : h.record table (some (.allocate p np kind)) = {
      asleep := update h.asleep np 0
      ready := update h.ready np 0
      ran := update h.ran np 0
      alive := update h.alive np 0
      living := update h.living np false } := rfl

theorem record_statistics (table : Table) : h.record table (some .statistics) = { h with
      asleep := fun q => if (table q).state = .sleeping then h.asleep q + 1 else h.asleep q
      ready := fun q => if (table q).state = .runnable then h.ready q + 1 else h.ready q
      ran := fun q => if (table q).state = .running then h.ran q + 1 else h.ran q
      alive := fun q => if h.living q = true then h.alive q + 1 else h.alive q } := rfl

/-- The times of the process in `q`, as the kernel counts them. -/
def times (q : Slot) : Int32 × Int32 × Int32 := (Int32.ofNat (h.ready q), Int32.ofNat (h.ran q), Int32.ofNat (h.asleep q))

theorem record_congr {left right : Table} (same : ∀ q, (left q).state = (right q).state) (op : Option LifeOp) :
    h.record left op = h.record right op := by
  cases op with
  | none => rfl
  | some op =>
    cases op with
    | statistics => simp only [record_statistics, same]
    | allocate | fill | publish | exit | reap | fail => rfl

end Passes

/-- What wait2 reads of a zombie, in the order of its pointers. -/
def times (proc : Proc) : Int32 × Int32 × Int32 := (proc.retime, proc.rutime, proc.stime)

/-- A process in use has counted its own passes, and they add up to its life. -/
structure Timely (h : Passes) (q : Slot) (proc : Proc) : Prop where
  times : times proc = h.times q
  total : h.ready q + h.ran q + h.asleep q = h.alive q
  living : h.living q = true ↔ Live proc.state

def Timed (table : Table) (h : Passes) : Prop := ∀ q, (table q).state ≠ .unused → Timely h q (table q)

theorem Timely.pass {table : Table} {h : Passes} {q : Slot} (timely : Timely h q (table q)) :
    Timely (h.record table (some .statistics)) q (updateStatistics table q) := by
  have more {count : Int32} {passes : Nat} (same : count = ofNat passes) :
      count + 1 = ofNat (passes + 1) := by
    rw [same]
    exact (ofNat_add passes 1).symm
  obtain ⟨times, total, living⟩ := timely
  simp only [Kernel.times, Passes.times, Prod.mk.injEq] at times
  obtain ⟨retime, rutime, stime⟩ := times
  cases state : (table q).state with
  | sleeping =>
    have up : h.living q = true := living.mpr (by simp [state, Live])
    refine ⟨?_, ?_, ?_⟩
    · simp [updateStatistics, state, Kernel.times, Passes.times, Passes.record_statistics, retime, rutime, more stime]
    · simp [Passes.record_statistics, state, up]
      omega
    · simp [updateStatistics, state, Passes.record_statistics, up, Live]
  | runnable =>
    have up : h.living q = true := living.mpr (by simp [state, Live])
    refine ⟨?_, ?_, ?_⟩
    · simp [updateStatistics, state, Kernel.times, Passes.times, Passes.record_statistics, more retime, rutime, stime]
    · simp [Passes.record_statistics, state, up]
      omega
    · simp [updateStatistics, state, Passes.record_statistics, up, Live]
  | running =>
    have up : h.living q = true := living.mpr (by simp [state, Live])
    refine ⟨?_, ?_, ?_⟩
    · simp [updateStatistics, state, Kernel.times, Passes.times, Passes.record_statistics, retime, more rutime, stime]
    · simp [Passes.record_statistics, state, up]
      omega
    · simp [updateStatistics, state, Passes.record_statistics, up, Live]
  | unused | embryo | zombie =>
    have down : h.living q = false := by simpa [state, Live] using living
    refine ⟨?_, ?_, ?_⟩
    · simp [updateStatistics, state, Kernel.times, Passes.times, Passes.record_statistics, retime, rutime, stime]
    · simp [Passes.record_statistics, state, down, total]
    · simp [updateStatistics, state, Passes.record_statistics, down, Live]

namespace Timed

variable {s next : Procs} {table after : Table} {h : Passes} {new : Proc} {np : Slot}

section

variable (timed : Timed table h)
include timed

theorem retable (kept : ∀ q, (after q).state ≠ .unused → (table q).state ≠ .unused ∧
      times (after q) = times (table q) ∧ (Live (after q).state ↔ Live (table q).state)) : Timed after h := by
  intro q used
  obtain ⟨before, same, live⟩ := kept q used
  obtain ⟨times, total, living⟩ := timed q before
  exact ⟨same.trans times, total, living.trans live.symm⟩

theorem update (kept : new.state ≠ .unused →
      (table np).state ≠ .unused ∧ times new = times (table np) ∧ (Live new.state ↔ Live (table np).state)) :
    Timed (Function.update table np new) h := by
  refine timed.retable ((Function.forall_update_iff table fun q now => now.state ≠ .unused →
    (table q).state ≠ .unused ∧ times now = times (table q) ∧ (Live now.state ↔ Live (table q).state)).mpr
    ⟨kept, ?_⟩)
  intro q _ used
  exact ⟨used, rfl, Iff.rfl⟩

theorem allocate {p np : Slot} {kind : Creation} (state : new.state = .embryo) (zero : times new = (0, 0, 0)) : Timed
    (Function.update table np new) (h.record table (some (.allocate p np kind))) := by
  intro q used
  by_cases same : q = np
  · subst same
    rw [update_self]
    refine ⟨?_, ?_, ?_⟩
    · simp [zero, Passes.times, Passes.record_allocate]
    · simp [Passes.record_allocate]
    · simp [Passes.record_allocate, state, Live]
  · rw [update_of_ne same] at used ⊢
    obtain ⟨times, total, living⟩ := timed q used
    refine ⟨?_, ?_, ?_⟩
    · simpa [Passes.times, Passes.record_allocate, same] using times
    · simpa [Passes.record_allocate, same] using total
    · simpa [Passes.record_allocate, same] using living

theorem turn {living : Bool} (used : (table np).state ≠ .unused)
    (same : times (after np) = times (table np)) (live : living = true ↔ Live (after np).state)
    (others : ∀ q, q ≠ np → (after q).state ≠ .unused → (table q).state ≠ .unused ∧
      times (after q) = times (table q) ∧ (Live (after q).state ↔ Live (table q).state)) :
    Timed after { h with living := Function.update h.living np living } := by
  intro q now
  by_cases mine : q = np
  · subst mine
    have timely := timed q used
    refine ⟨same.trans timely.times, timely.total, ?_⟩
    simpa using live
  · obtain ⟨before, kept, alike⟩ := others q mine now
    have timely := timed q before
    refine ⟨kept.trans timely.times, timely.total, ?_⟩
    simpa [mine, alike] using timely.living

theorem exit (initproc : Slot) {p : Slot} (running : (table p).state = .running) :
    Timed (exitTable table initproc p) (h.record table (some (.exit p))) := by
  have self := exitTable_self table initproc p
  refine timed.turn (by simp [running]) ?_ (by simp [self.1, Live]) fun q other used => ?_
  · rw [self.2]
    rfl
  · have stirred := exitTable_other table initproc other
    have same : times (exitTable table initproc p q) = times (table q) := by
      rw [stirred.fields]
      rfl
    cases stirred.state with
    | inl kept =>
      rw [kept] at used ⊢
      exact ⟨used, same, Iff.rfl⟩
    | inr woken => exact ⟨by simp [woken.1], same, by simp [woken.1, woken.2, Live]⟩

end

theorem calm (timed : Timed s.proc h) (calm : Calm s next) : Timed next.proc h := by
  refine timed.retable fun q used => ⟨mt (calm.unused q).mpr used, ?_, ?_⟩
  · have fields := calm.fields q
    simp only [times, fields.retime, fields.rutime, fields.stime]
  · cases calm.state q with
    | inl same => rw [same]
    | inr both => simp only [both.1, both.2]

theorem step {op : Option LifeOp} (timed : Timed s.proc h) (step : LifeStep s op next) :
    Timed next.proc (h.record s.proc op) := by
  cases step with
  | calm _ calm => exact timed.calm calm
  | allocate => exact timed.allocate rfl rfl
  | abandon _ _ _ _ _ unused => exact timed.update fun used => absurd unused used
  | fork _ _ _ _ _ embryo | clone _ _ _ _ _ embryo => exact timed.update fun _ => ⟨by simp [embryo], rfl, Iff.rfl⟩
  | publish _ np _ _ embryo only =>
    refine timed.turn (by simp [embryo]) ?_ (by simp [Live]) fun q other used => ?_
    · refine field_keep times ?_ np
      rfl
    · dsimp only at used ⊢
      rw [update_of_ne other] at used ⊢
      exact ⟨used, rfl, Iff.rfl⟩
  | exit _ running => exact timed.exit s.initproc running
  | reap kind =>
    exact timed.update fun used => absurd (clear_state kind _) used
  | fail => exact timed
  | statistics => exact fun q used => (timed q (updateStatistics_state s.proc q ▸ used)).pass

end Timed

variable {Cpu : Type} [DecidableEq Cpu]

def passes (m : Machine Cpu) (event : Event Cpu) (_ : Machine Cpu) (h : Passes) : Passes := h.record m.proc (m.lifeOp event)

/-- What wait2 stores through its three pointers. -/
def Machine.wait2Times (m : Machine Cpu) (event : Event Cpu) : Option (Int32 × Int32 × Int32) :=
  match m.lifeOp event with
  | some (.reap .wait2 _ z) => some (times (m.proc z))
  | _ => none

/-- Every process in use has counted its own passes, modulo 2^32. -/
def TimesExact (m : Machine Cpu) (h : Passes) : Prop :=
  ∀ q, (m.proc q).state ≠ .unused → (m.proc q).stime = Int32.ofNat (h.asleep q) ∧
    (m.proc q).retime = Int32.ofNat (h.ready q) ∧ (m.proc q).rutime = Int32.ofNat (h.ran q)

/-- wait2 hands out the times of the child whose pid it returns, and they add up to its life. -/
def Wait2Exact (before : Machine Cpu × Passes) (event : Event Cpu) (after : Machine Cpu × Passes) : Prop :=
  ∀ p z, before.1.lifeOp event = some (.reap .wait2 p z) →
    after.1.result p = some (before.1.proc z).pid ∧ before.1.wait2Times event = some (before.2.times z) ∧
      before.2.ready z + before.2.ran z + before.2.asleep z = before.2.alive z

section

variable {before after : Machine Cpu × Passes} {event : Event Cpu}

theorem Timed.machine (orderly : Orderly before.1) (timed : Timed before.1.proc before.2)
    (stepped : withHistory Machine.step passes before event = some after) : Timed after.1.proc after.2 := by
  obtain ⟨moved, recorded⟩ := withHistory_step stepped
  obtain ⟨middle, calm, fields, step⟩ := step_life orderly moved
  have start : Timed before.1.procs.proc before.2 := timed
  have states (q : Slot) : (before.1.proc q).state = (middle.proc q).state := by rw [fields q]
  rw [recorded]
  unfold passes
  rw [Passes.record_congr before.2 states]
  exact (start.calm calm).step step

theorem Timed.wait2 (orderly : Orderly before.1) (timed : Timed before.1.proc before.2)
    (stepped : withHistory Machine.step passes before event = some after) : Wait2Exact before event after := by
  intro p z life
  have moved := (withHistory_step stepped).1
  obtain ⟨_, calm, _, step⟩ := step_life orderly moved
  rw [life] at step
  have zombie : (before.1.proc z).state = .zombie := (calm.zombie z).mp step.reaped.2.2
  have timely := timed z (by simp [zombie])
  refine ⟨reap_result moved life, ?_, timely.total⟩
  simp only [Machine.wait2Times, life, timely.times]

end

omit [DecidableEq Cpu] in
theorem Timed.boot (policy : Scheduler.Policy) : Timed (boot policy : Machine Cpu).proc .boot := by
  intro q used
  have first : q = 0 := by
    by_contra other
    exact used (by simp [Kernel.boot, other])
  subst first
  refine ⟨rfl, rfl, ?_⟩
  simp [Passes.boot, Kernel.boot, Live]

/-- In every run the counters of every process in use are its own passes, and
wait2 delivers those of the child it returns, which add up to the child's life. -/
theorem statistics_exact {policy : Scheduler.Policy} {events : List (Event Cpu)}
    (known : EveryStep (withHistory Machine.step passes) SelectsKnown (boot policy, .boot) events) :
    EveryStep (withHistory Machine.step passes) Wait2Exact (boot policy, .boot) events ∧
      ∀ m h, run (withHistory Machine.step passes) (boot policy, .boot) events = some (m, h) → TimesExact m h := by
  obtain ⟨every, final⟩ := runs_along (fun s : Machine Cpu × Passes => Orderly s.1 ∧ Timed s.1.proc s.2)
    ⟨.boot policy, .boot policy⟩ known (fun _ _ _ sound known stepped =>
      ⟨⟨sound.1.step known (withHistory_step stepped).1, sound.2.machine sound.1 stepped⟩, sound.2.wait2 sound.1 stepped⟩)
  refine ⟨every, fun m h ran q used => ?_⟩
  have times := ((final (m, h) ran).2 q used).times
  simp only [Kernel.times, Passes.times, Prod.mk.injEq] at times
  exact ⟨times.2.2, times.1, times.2.1⟩

/-- init forks process 2 and waits; process 2 is passed over twice while ready, once
while it runs and once while it sleeps on the ticks, and exits. -/
def timedChild : List (Event Unit) :=
  [.dispatch () none, .resume (), .act () .fork, .act () (.kstack (some 3)), .updateStatistics,
    .act () (.copyuvm (some 4)), .act () .ready, .updateStatistics, .act () (.wait .wait2), .retire (),
    .updateStatistics, .dispatch () none, .resume (), .updateStatistics, .act () (.sleep .ticks), .retire (),
    .updateStatistics, .wakeup .ticks, .dispatch () none, .resume (), .act () .exit, .retire (), .dispatch () none]

theorem statistics_exact_child :
    EveryStep (withHistory step passes) SelectsKnown (boot .default, .boot) (timedChild ++ [.resume ()]) ∧
    EveryStep (withHistory step passes) Wait2Exact (boot .default, .boot) (timedChild ++ [.resume ()]) ∧
    (run (withHistory step passes) (boot .default, .boot) timedChild).map
      (fun state => (state.1.wait2Times (.resume ()), state.2.alive 1)) = some (some (2, 1, 1), 4) ∧
    ∃ m h, run (withHistory step passes) (boot .default, .boot) timedChild = some (m, h) ∧ TimesExact m h := by
  have known : EveryStep (withHistory step passes) SelectsKnown (boot .default, .boot)
      (timedChild ++ [.resume ()]) := by decide +kernel
  have prior : EveryStep (withHistory step passes) SelectsKnown (boot .default, .boot) timedChild := by
    decide +kernel
  have times : (run (withHistory step passes) (boot .default, .boot) timedChild).map
      (fun state => (state.1.wait2Times (.resume ()), state.2.alive 1)) = some (some (2, 1, 1), 4) := by
    decide +kernel
  obtain ⟨⟨m, h⟩, ran, _⟩ := Option.map_eq_some_iff.mp times
  exact ⟨known, (statistics_exact known).1, times, m, h, ran, (statistics_exact prior).2 m h ran⟩

end Xv6.Kernel
