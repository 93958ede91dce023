import Xv6.Kernel.Census

namespace Xv6.Kernel

open Process Data Function
open Machine (step)

/-! Threads and processes. clone sets `isthread` and nothing ever resets it, so
a slot that clone has used keeps the mark for the processes that come after. -/

theorem Task.child_of_maker {task : Task} {kind : Creation} {np : Slot} (maker : task.maker = some (kind, np)) :
    task.child = some np := by
  cases task with
  | allocated | stacked =>
    cases maker
    rfl
  | user | filled | waiting | exec => cases maker

/-- `isthread` against who made the process: from the call that makes it, as far as that has come. -/
structure Marked (s : Procs) (h : Census) : Prop where
  born : ∀ q, Born (s.proc q).state → (s.proc q).isthread = h.cloned q
  making : ∀ p kind np, (s.task p).maker = some (kind, np) →
    h.cloned np = kind.isClone ∧ (kind = .fork → (s.proc np).isthread = false)
  filled : ∀ p np, (s.task p).child = some np → (s.task p).maker = none → (s.proc np).isthread = h.cloned np

namespace Marked

variable {s next : Procs} {h : Census} {p np : Slot} {new : Proc}

section

variable (marked : Marked s h)
include marked

theorem retable {proc : Table} (kept : ∀ q, (proc q).isthread = (s.proc q).isthread)
    (born : ∀ q, Born (proc q).state → Born (s.proc q).state) : Marked { s with proc := proc } h where
  born := fun q up => (kept q).trans (marked.born q (born q up))
  making := by
    intro p kind np maker
    obtain ⟨made, clean⟩ := marked.making p kind np maker
    exact ⟨made, fun fork => (kept np).trans (clean fork)⟩
  filled := fun p np child maker => (kept np).trans (marked.filled p np child maker)

theorem calm (calm : Calm s next) : Marked next h where
  born := fun q up => (calm.fields q).isthread.trans (marked.born q ((calm.born q).mp up))
  making := by
    intro p kind np maker
    rw [(calm.task p).2] at maker
    obtain ⟨made, clean⟩ := marked.making p kind np maker
    exact ⟨made, fun fork => (calm.fields np).isthread.trans (clean fork)⟩
  filled := by
    intro p np child maker
    rw [(calm.task p).1] at child
    rw [(calm.task p).2] at maker
    exact (calm.fields np).isthread.trans (marked.filled p np child maker)

theorem update {task : Task} (silent : task.maker = none)
    (others : ∀ q, q ≠ p → (s.task q).child ≠ some np) (born : Born new.state → new.isthread = h.cloned np)
    (child : ∀ r, task.child = some r → r = np ∧ new.isthread = h.cloned np) :
    Marked { s with proc := Function.update s.proc np new, task := Function.update s.task p task } h where
  born := (forall_update_iff s.proc fun q now => Born now.state → now.isthread = h.cloned q).mpr
    ⟨born, fun q _ => marked.born q⟩
  making := by
    intro q kind r maker
    dsimp only at maker ⊢
    have caller : q ≠ p := by
      rintro rfl
      rw [update_self, silent] at maker
      cases maker
    rw [update_of_ne caller] at maker
    have other : r ≠ np := fun same => others q caller (same ▸ Task.child_of_maker maker)
    rw [update_of_ne other]
    exact marked.making q kind r maker
  filled := by
    intro q r mine maker
    dsimp only at mine maker ⊢
    by_cases caller : q = p
    · subst caller
      rw [update_self] at mine
      obtain ⟨rfl, same⟩ := child r mine
      rwa [update_self]
    · rw [update_of_ne caller] at mine maker
      have other : r ≠ np := fun same => others q caller (same ▸ mine)
      rw [update_of_ne other]
      exact marked.filled q r mine maker

theorem allocate {kind : Creation} {nextpid : Int32} (clean : kind = .fork → new.isthread = false)
    (unused : (s.proc np).state = .unused) (state : new.state = .embryo) (nobody : ∀ q, (s.task q).child ≠ some np) :
    Marked { s with proc := Function.update s.proc np new, task := Function.update s.task p (.allocated kind np),
                    nextpid := nextpid } (h.record s.nextpid (some (.allocate p np kind))) := by
  have apart {q r : Slot} (child : (s.task q).child = some r) : r ≠ np := fun same => nobody q (same ▸ child)
  refine ⟨fun q up => ?_, fun q made r maker => ?_, fun q r child maker => ?_⟩
  · dsimp only [Census.record] at up ⊢
    have other : q ≠ np := by
      rintro rfl
      simp [state, Born] at up
    rw [update_of_ne other] at up ⊢
    rw [update_of_ne other]
    exact marked.born q up
  · dsimp only [Census.record] at maker ⊢
    by_cases caller : q = p
    · subst caller
      rw [update_self] at maker
      cases maker
      rw [update_self, update_self]
      exact ⟨rfl, clean⟩
    · rw [update_of_ne caller] at maker
      have other := apart (Task.child_of_maker maker)
      rw [update_of_ne other, update_of_ne other]
      exact marked.making q made r maker
  · dsimp only [Census.record] at child maker ⊢
    by_cases caller : q = p
    · subst caller
      rw [update_self] at maker
      cases maker
    · rw [update_of_ne caller] at child maker
      have other := apart child
      rw [update_of_ne other, update_of_ne other]
      exact marked.filled q r child maker

theorem exit {p : Slot} (running : (s.proc p).state = .running) :
    Marked { s with proc := exitTable s.proc s.initproc p } h := by
  refine marked.retable (fun q => ?_) fun q up => ?_
  · by_cases same : q = p
    · subst same
      rw [(exitTable_self s.proc s.initproc q).2]
    · rw [(exitTable_other s.proc s.initproc same).fields]
  · by_cases same : q = p
    · simp [same, running, Born]
    · cases (exitTable_other s.proc s.initproc same).state with
      | inl kept => exact kept ▸ up
      | inr woken => simp [woken.1, Born]

theorem step {op : Option LifeOp} (step : LifeStep s op next)
    (clean : ∀ p np, op = some (.allocate p np .fork) → (s.proc np).isthread = false) : Marked next (h.record s.nextpid op) := by
  cases step with
  | calm _ calm => exact marked.calm calm
  | allocate p np _ _ _ _ unused nobody =>
    exact marked.allocate (fun fork => clean p np (by rw [fork])) unused rfl nobody
  | abandon _ _ _ child _ unused only =>
    exact marked.update rfl (fun q other mine => other (only q mine)) (by simp [unused, Born]) (by simp [Task.child])
  | fork p np _ _ task _ only =>
    obtain ⟨made, unmarked⟩ := marked.making p .fork np (congrArg Task.maker task)
    have same : (s.proc np).isthread = h.cloned np := (unmarked rfl).trans made.symm
    refine marked.update rfl (fun q other mine => other (only q mine)) (fun _ => same) fun r child => ?_
    cases child
    exact ⟨rfl, same⟩
  | clone p np stack _ task _ only =>
    obtain ⟨made, _⟩ := marked.making p (.clone stack) np (congrArg Task.maker task)
    refine marked.update rfl (fun q other mine => other (only q mine)) (fun _ => made.symm) fun r child => ?_
    cases child
    exact ⟨rfl, made.symm⟩
  | publish p np _ task _ only =>
    have same := marked.filled p np (congrArg Task.child task) (congrArg Task.maker task)
    exact marked.update rfl (fun q other mine => other (only q mine)) (fun _ => same) (by simp [Task.child])
  | exit _ running =>
    have left := marked.exit running
    exact ⟨left.born, left.making, left.filled⟩
  | reap kind p z _ _ child _ nobody =>
    have freed : Marked { s with
        proc := Function.update s.proc z (kind.clear (s.proc z)), task := Function.update s.task p .user } h :=
      marked.update rfl (fun q _ => nobody q) (by simp [clear_state, Born]) (by simp [Task.child])
    exact ⟨freed.born, freed.making, freed.filled⟩
  | fail _ _ idle => exact marked.calm (.retask idle.child.symm idle.maker.symm (by simp))
  | statistics =>
    refine marked.retable (fun q => ?_) fun q up => updateStatistics_state s.proc q ▸ up
    rw [updateStatistics_fields]

end

end Marked

variable {Cpu : Type} [DecidableEq Cpu]

/-- fork gets no slot that still carries the mark of a thread that used it. -/
def Machine.CleanSlot (m : Machine Cpu) : Option LifeOp → Prop
  | some (.allocate _ np .fork) => (m.proc np).isthread = false
  | _ => True

def ForksClean (before : Machine Cpu × Census) (event : Event Cpu) (after : Machine Cpu × Census) : Prop :=
  SelectsKnown before event after ∧ before.1.CleanSlot (before.1.lifeOp event)

/-- The processes with the mark are those that clone made. -/
def ThreadsMarked (m : Machine Cpu) (h : Census) : Prop :=
  ∀ q, Born (m.proc q).state → ((m.proc q).isthread = true ↔ h.cloned q = true)

/-- join collects processes that clone made. -/
def JoinsClones (before : Machine Cpu × Census) (event : Event Cpu) (_ : Machine Cpu × Census) : Prop :=
  ∀ p z, before.1.lifeOp event = some (.reap .join p z) → before.2.cloned z = true

section

variable {before after : Machine Cpu × Census} {event : Event Cpu}

theorem Enrolled.marked (enrolled : Enrolled before) (marked : Marked before.1.procs before.2)
    (forks : ForksClean before event after) (stepped : withHistory Machine.step census before event = some after) :
    Marked after.1.procs after.2 := by
  obtain ⟨_, calm, _, step, _, _, recorded⟩ := enrolled.life stepped
  rw [recorded]
  refine (marked.calm calm).step step fun p np life => ?_
  have clean := forks.2
  rw [life] at clean
  exact (calm.fields np).isthread.trans clean

theorem Enrolled.joinsClones (enrolled : Enrolled before) (marked : Marked before.1.procs before.2)
    (stepped : withHistory Machine.step census before event = some after) : JoinsClones before event after := by
  intro p z life
  obtain ⟨middle, calm, _, step, _⟩ := enrolled.life stepped
  rw [life] at step
  obtain ⟨_, child, zombie⟩ := step.reaped
  have thread : (middle.proc z).isthread = true := by
    simp only [Reaper.child, Bool.and_eq_true] at child
    simpa using child.2
  exact ((marked.calm calm).born z (by simp [zombie, Born])).symm.trans thread

end

omit [DecidableEq Cpu] in
theorem Marked.boot (policy : Scheduler.Policy) : Marked (boot policy : Machine Cpu).procs .boot := by
  have clean (q : Slot) : ((Kernel.boot policy : Machine Cpu).proc q).isthread = false := by
    by_cases first : q = 0
    · simp [Kernel.boot, first]
    · simp [Kernel.boot, first]
  refine ⟨fun q _ => clean q, fun p kind np maker => ?_, fun p np child => ?_⟩
  · cases maker
  · cases child

/-- In every run in which fork gets no slot that clone has used before, the
processes marked as threads are those that clone made, and join collects no other. -/
theorem threads_marked {policy : Scheduler.Policy} {events : List (Event Cpu)}
    (forks : EveryStep (withHistory Machine.step census) ForksClean (boot policy, .boot) events) :
    EveryStep (withHistory Machine.step census) JoinsClones (boot policy, .boot) events ∧
      ∀ m h, run (withHistory Machine.step census) (boot policy, .boot) events = some (m, h) → ThreadsMarked m h := by
  obtain ⟨every, final⟩ := runs_along (fun s : Machine Cpu × Census => Enrolled s ∧ Marked s.1.procs s.2)
    ⟨.boot policy, .boot policy⟩ forks (fun _ _ _ sound forks stepped =>
      ⟨⟨sound.1.step forks.1 stepped, sound.1.marked sound.2 forks stepped⟩, sound.1.joinsClones sound.2 stepped⟩)
  refine ⟨every, fun m h ran q up => ?_⟩
  have same : (m.proc q).isthread = h.cloned q := (final (m, h) ran).2.born q up
  rw [same]

instance (m : Machine Cpu) (op : Option LifeOp) : Decidable (m.CleanSlot op) :=
  match op with
  | some (.allocate _ np .fork) => inferInstanceAs (Decidable ((m.proc np).isthread = false))
  | some (.allocate _ _ (.clone _)) | some (.fill _ _) | some (.publish _ _) | some (.exit _) | some (.reap _ _ _)
  | some (.fail _ _) | some .statistics | none => .isTrue trivial

instance (before after : Machine Cpu × Census) (event : Event Cpu) : Decidable (ForksClean before event after) :=
  inferInstanceAs (Decidable (_ ∧ _))

/-- init forks process 2, clones thread 3 and joins it; process 2 runs and exits first. -/
def forkAndJoin : List (Event Unit) :=
  [.dispatch () none, .resume (), .act () .fork, .act () (.kstack (some 3)), .act () (.copyuvm (some 4)),
    .act () .ready, .act () (.clone 8192), .act () (.kstack (some 5)), .act () .shareuvm, .act () .ready,
    .act () (.wait .join), .retire (), .dispatch () none, .resume (), .act () .exit, .retire (), .dispatch () none,
    .resume (), .retire (), .dispatch () none, .resume (), .act () .exit, .retire (), .dispatch () none, .resume ()]

theorem threads_marked_join : EveryStep (withHistory step census) ForksClean (boot .default, .boot) forkAndJoin ∧
    EveryStep (withHistory step census) JoinsClones (boot .default, .boot) forkAndJoin ∧
    ∃ m h, run (withHistory step census) (boot .default, .boot) forkAndJoin = some (m, h) ∧
      m.result 0 = some 3 ∧ (m.proc 1).state = .zombie ∧ (m.proc 1).isthread = false ∧ ThreadsMarked m h := by
  have forks : EveryStep (withHistory step census) ForksClean (boot .default, .boot) forkAndJoin := by
    decide +kernel
  have reached : (run (withHistory step census) (boot .default, .boot) forkAndJoin).map
      (fun state => (state.1.result 0, (state.1.proc 1).state, (state.1.proc 1).isthread)) =
        some (some 3, .zombie, false) := by decide +kernel
  obtain ⟨⟨m, h⟩, ran, same⟩ := Option.map_eq_some_iff.mp reached
  simp only [Prod.mk.injEq] at same
  have both := threads_marked forks
  exact ⟨forks, both.1, m, h, ran, same.1, same.2.1, same.2.2, both.2 m h ran⟩

/-- init clones thread 2 in slot 1 and joins it, and then forks process 3, which gets the same slot. -/
def forkAfterJoin : List (Event Unit) :=
  [.dispatch () none, .resume (), .act () (.clone 8192), .act () (.kstack (some 3)), .act () .shareuvm,
    .act () .ready, .act () (.wait .join), .retire (), .dispatch () none, .resume (), .act () .exit, .retire (),
    .dispatch () none, .resume (), .act () .fork, .act () (.kstack (some 3)), .act () (.copyuvm (some 4)),
    .act () .ready]

/-- Process 3 was made by fork and is marked as a thread. Once it has exited, join
collects it and leaves its page directory 4 allocated. -/
theorem forked_process_marked : (run (withHistory step census) (boot .default, .boot) forkAfterJoin).map
      (fun state => ((state.1.proc 1).pid, (state.1.proc 1).state, (state.1.proc 1).isthread, state.2.cloned 1)) =
        some (3, .runnable, true, false) ∧
    (run (withHistory step census) (boot .default, .boot) (forkAfterJoin ++ [.act () (.wait .join),
      .retire (), .dispatch () none, .resume (), .act () .exit, .retire (), .dispatch () none])).map
      (fun state => (state.1.lifeOp (.resume ()), state.2.cloned 1)) = some (some (.reap .join 0 1), false) ∧
    (run (withHistory step census) (boot .default, .boot) (forkAfterJoin ++ [.act () (.wait .join),
      .retire (), .dispatch () none, .resume (), .act () .exit, .retire (), .dispatch () none, .resume ()])).map
      (fun state => (state.1.result 0, (state.1.proc 1).state, state.1.pages 4)) = some (some 3, .unused, .dir) := by
  decide +kernel

end Xv6.Kernel
