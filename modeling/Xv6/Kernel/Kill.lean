import Xv6.Kernel.Moves
import Xv6.Kernel.Placement

namespace Xv6.Kernel

open Process Data Function Machine

/-! kill compares pids only. An `UNUSED` slot keeps pid 0, or the pid of a fork
that failed, and allocproc does not reset `killed`. -/

variable {Cpu : Type} [DecidableEq Cpu]

/-- Slots whose current process has had its pid passed to kill since its allocproc. -/
abbrev Targets := Slot → Bool

def targets (m : Machine Cpu) (event : Event Cpu) (next : Machine Cpu) (hit : Targets) : Targets :=
  match event with
  | .act _ (.kill pid) => fun q => hit q || (m.proc q).pid == pid
  | .act c .fork | .act c (.clone _) =>
    match m.running c with
    | some p =>
      match next.task p with
      | .allocated _ np => update hit np false
      | _ => hit
    | none => hit
  | _ => hit

/-- kill is not called with a pid that an `UNUSED` slot carries, and no fork or
clone fails after its new slot was killed. -/
def KillsProcesses (before : Machine Cpu × Targets) (event : Event Cpu) (_ : Machine Cpu × Targets) : Prop :=
  match event with
  | .act _ (.kill pid) => ∀ q, (before.1.proc q).pid = pid → (before.1.proc q).state ≠ .unused
  | .act c (.kstack none) | .act c (.copyuvm none) =>
    ∀ p np, before.1.running c = some p → (before.1.task p).child = some np → (before.1.proc np).killed = false
  | _ => True

/-- What kill, fork and clone promise about `killed`. -/
structure KillSafe (before : Machine Cpu × Targets) (event : Event Cpu) (after : Machine Cpu × Targets) : Prop where
  found : ∀ c pid, event = .act c (.kill pid) → (killTable before.1.proc pid).2 = 0 →
    ∃ q, (before.1.proc q).state ≠ .unused ∧ (before.1.proc q).pid = pid
  unused : ∀ c pid, event = .act c (.kill pid) → ∀ q, (before.1.proc q).state = .unused → after.1.proc q = before.1.proc q
  fresh : ∀ c p np, event = .act c .ready → before.1.running c = some p → before.1.task p = .filled np →
    (after.1.proc np).killed = true → after.2 np = true

structure Unkilled (table : Table) (hit : Targets) : Prop where
  unused : ∀ q, (table q).state = .unused → (table q).killed = false
  targeted : ∀ q, (table q).killed = true → hit q = true

section

variable (table : Table) (pid : Int32)

theorem killTable_found (returned : (killTable table pid).2 = 0) : ∃ q, (table q).pid = pid := by
  unfold killTable at returned
  split at returned
  · simp at returned
  · rename_i q found
    exact ⟨q, by simpa using Table.first_some found⟩

theorem killTable_other {q : Slot} (other : (table q).pid ≠ pid) : (killTable table pid).1 q = table q := by
  unfold killTable
  split
  · rfl
  · rename_i p found
    have same : q ≠ p := by
      rintro rfl
      exact other (by simpa using Table.first_some found)
    simp only [update_of_ne same]

theorem killTable_unused {q : Slot} (unused : ((killTable table pid).1 q).state = .unused) : (table q).state = .unused := by
  cases killTable_state table pid q with
  | inl same => exact same.symm.trans unused
  | inr woken => exact absurd (unused.symm.trans woken.2) (by simp)

end

namespace Unkilled

variable {table after : Table} {hit now : Targets} {p : Slot} {new : Proc}

section

variable (unkilled : Unkilled table hit)
include unkilled

theorem update (clean : new.state = .unused → new.killed = false)
    (marked : new.killed = true → now p = true) (others : ∀ q, q ≠ p → hit q = true → now q = true) :
    Unkilled (Function.update table p new) now := by
  constructor
  · intro q unused
    by_cases same : q = p
    · subst same
      rw [update_self] at unused ⊢
      exact clean unused
    · rw [update_of_ne same] at unused ⊢
      exact unkilled.unused q unused
  · intro q killed
    by_cases same : q = p
    · subst same
      rw [update_self] at killed
      exact marked killed
    · rw [update_of_ne same] at killed
      exact others q same (unkilled.targeted q killed)

theorem keep (killed : new.killed = (table p).killed) (used : new.state = .unused → (table p).state = .unused) : Unkilled
    (Function.update table p new) hit :=
  unkilled.update (fun unused => killed.trans (unkilled.unused p (used unused)))
    (fun still => unkilled.targeted p (killed.symm.trans still)) fun _ _ marked => marked

theorem same (killed : ∀ q, (after q).killed = (table q).killed)
    (used : ∀ q, (after q).state = .unused → (table q).state = .unused) : Unkilled after hit where
  unused := fun q unused => (killed q).trans (unkilled.unused q (used q unused))
  targeted := fun q still => unkilled.targeted q ((killed q).symm.trans still)

theorem kill (pid : Int32) (used : ∀ q, (table q).pid = pid → (table q).state ≠ .unused) :
    Unkilled (killTable table pid).1 fun q => hit q || (table q).pid == pid := by
  constructor
  · intro q unused
    have before := killTable_unused table pid unused
    rw [killTable_other table pid fun same => used q same before]
    exact unkilled.unused q before
  · intro q killed
    by_cases same : (table q).pid = pid
    · simp [same]
    · rw [killTable_other table pid same] at killed
      simp [unkilled.targeted q killed]

theorem exit (initproc p : Slot) : Unkilled (exitTable table initproc p) hit := by
  refine unkilled.same (fun q => ?_) fun q unused => ?_
  · by_cases same : q = p
    · subst same
      rw [(exitTable_self table initproc q).2]
    · rw [(exitTable_other table initproc same).fields]
  · by_cases same : q = p
    · subst same
      exact absurd (unused.symm.trans (exitTable_self table initproc q).1) (by simp)
    · exact (exitTable_other table initproc same).unused unused

end

end Unkilled

theorem clear_killed (kind : Reaper) (proc : Proc) : (kind.clear proc).killed = false := by
  cases kind <;> rfl

section

variable {m next : Machine Cpu} {c : Cpu} {p : Slot} {hit : Targets} {event : Event Cpu}

theorem ReapMove.unkilled {kind : Reaper} (unkilled : Unkilled m.proc hit) (move : ReapMove m c p kind next) :
    Unkilled next.proc hit := by
  cases move with
  | reaped z =>
    have table : ((((m.freeZombie kind z).setProc z kind.clear).finish p (m.proc z).pid).leave c).proc =
        update m.proc z (kind.clear (m.proc z)) := by
      unfold freeZombie
      split <;> rfl
    rw [table]
    exact unkilled.update (fun _ => clear_killed kind _) (by simp [clear_killed]) fun _ _ marked => marked
  | failed => exact unkilled
  | blocked => exact unkilled.keep rfl (by simp)

theorem ActMove.unkilled {action : Action} (unkilled : Unkilled m.proc hit) (here : m.running c = some p)
    (kills : KillsProcesses (m, hit) (.act c action) (next, hit)) (move : ActMove m c p action next) :
    Unkilled next.proc (targets m (.act c action) next hit) := by
  cases move with
  | yield | sleep | ready => exact unkilled.keep rfl (by simp)
  | kill pid => exact unkilled.kill pid kills
  | full _ _ _ creates =>
    have same : targets m (.act c action) (m.finish p (-1)) hit = hit := by
      obtain rfl | ⟨stack, rfl⟩ := creates
      · simp [targets, here, finish]
      · simp [targets, here, finish]
    rw [same]
    exact unkilled
  | create _ kind np _ _ unused creates =>
    have fresh : targets m (.act c action) (({ m with nextpid := m.nextpid + 1 }.setProc np fun proc =>
        { proc with state := .embryo, priority := 10, pid := m.nextpid, ctime := m.ticks, retime := 0,
                    rutime := 0, stime := 0 }).setTask p (.allocated kind np)) hit =
          update hit np false := by
      obtain ⟨rfl, rfl⟩ | ⟨_, rfl, rfl⟩ := creates
      · simp [targets, here, setTask]
      · simp [targets, here, setTask]
    rw [fresh]
    -- allocproc keeps `killed`, so the slot has to come in clean.
    have clean := unkilled.unused np unused
    refine unkilled.update (by simp) (fun killed => ?_) fun q other marked => ?_
    · exact absurd (clean.symm.trans killed) (by simp)
    · rw [update_of_ne other]
      exact marked
  | noStack _ np task | noCopy np task =>
    have clean := kills p np here (by rw [task]; rfl)
    exact unkilled.update (fun _ => clean) (fun killed => absurd (clean.symm.trans killed) (by simp))
      fun _ _ marked => marked
  | kstack | copyuvm | shareuvm | execCommit => exact unkilled.keep rfl id
  | exit => exact unkilled.exit m.initproc p
  | wait _ _ _ _ reap => exact reap.unkilled unkilled
  | noImage | execAlloc | execBad | badScheduler | setscheduler => exact unkilled

theorem Move.unkilled (unkilled : Unkilled m.proc hit)
    (kills : KillsProcesses (m, hit) event (next, hit)) (move : Move m event next) :
    Unkilled next.proc (targets m event next hit) := by
  cases move with
  | idle | resume | retire | tick | kalloc | kfree => exact unkilled
  | dispatch => exact unkilled.keep rfl (by simp)
  | awake => exact unkilled.keep rfl id
  | rescan _ p _ _ _ _ _ reap =>
    have base : Unkilled (m.setProc p fun proc => { proc with chan := none }).proc hit := unkilled.keep rfl id
    exact reap.unkilled base
  | act _ _ _ _ here act => exact act.unkilled unkilled (by simp [running, here]) kills
  | wakeup chan =>
    refine unkilled.same (fun q => ?_) fun q => (wakeup1_stirred m.proc chan q).unused
    change (wakeup1 m.proc chan q).killed = (m.proc q).killed
    rw [(wakeup1_stirred m.proc chan q).fields]
  | updateStatistics =>
    refine unkilled.same (fun q => ?_) fun q unused => (updateStatistics_state m.proc q).symm.trans unused
    change (Process.updateStatistics m.proc q).killed = (m.proc q).killed
    rw [updateStatistics_fields]

theorem kill_proc {pid : Int32} (stepped : m.step (.act c (.kill pid)) = some next) : next.proc = (killTable m.proc pid).1 := by
  cases step_move stepped with
  | act _ _ _ _ _ act =>
    cases act with
    | kill => rfl
    | full _ _ _ creates | create _ _ _ _ _ _ creates => simp at creates

theorem Unkilled.step {before after : Machine Cpu × Targets} (unkilled : Unkilled before.1.proc before.2)
    (kills : KillsProcesses before event after) (stepped : withHistory step targets before event = some after) :
    Unkilled after.1.proc after.2 := by
  obtain ⟨moved, recorded⟩ := withHistory_step stepped
  rw [recorded]
  exact (step_move moved).unkilled unkilled kills

theorem Unkilled.killSafe {before after : Machine Cpu × Targets} (unkilled : Unkilled before.1.proc before.2)
    (kills : KillsProcesses before event after) (stepped : withHistory Machine.step targets before event = some after) :
    KillSafe before event after where
  found := by
    rintro c pid rfl returned
    obtain ⟨q, same⟩ := killTable_found before.1.proc pid returned
    exact ⟨q, kills q same, same⟩
  unused := by
    rintro c pid rfl q unused
    rw [kill_proc (withHistory_step stepped).1]
    exact killTable_other before.1.proc pid fun same => kills q same unused
  fresh := fun _ _ np _ _ _ killed => (unkilled.step kills stepped).targeted np killed

end

omit [DecidableEq Cpu] in
theorem Unkilled.boot (policy : Scheduler.Policy) : Unkilled (boot policy : Machine Cpu).proc fun _ => false := by
  have clean (q : Slot) : ((Kernel.boot policy : Machine Cpu).proc q).killed = false := by
    by_cases first : q = 0
    · simp [Kernel.boot, first]
    · simp [Kernel.boot, first]
  exact ⟨fun q _ => clean q, fun q killed => absurd ((clean q).symm.trans killed) (by simp)⟩

/-- In every run in which kill gets no pid of an `UNUSED` slot and no fork or
clone fails after its new slot was killed, kill finds and changes processes only
and a new process is not killed before anybody asked for it. -/
theorem fresh_process_not_killed {policy : Scheduler.Policy} {events : List (Event Cpu)}
    (kills : EveryStep (withHistory Machine.step targets) KillsProcesses (boot policy, fun _ => false) events) :
    EveryStep (withHistory Machine.step targets) KillSafe (boot policy, fun _ => false) events := by
  exact (runs_along (fun s : Machine Cpu × Targets => Unkilled s.1.proc s.2) (.boot policy) kills
    (fun _ _ _ unkilled kills stepped => ⟨unkilled.step kills stepped, unkilled.killSafe kills stepped⟩)).1

instance (before after : Machine Cpu × Targets) (event : Event Cpu) : Decidable (KillsProcesses before event after) :=
  match event with
  | .act _ (.kill pid) =>
    inferInstanceAs (Decidable (∀ q, (before.1.proc q).pid = pid → (before.1.proc q).state ≠ .unused))
  | .act c (.kstack none) | .act c (.copyuvm none) =>
    inferInstanceAs (Decidable (∀ p np, before.1.running c = some p → (before.1.task p).child = some np →
      (before.1.proc np).killed = false))
  | .act _ .yield | .act _ (.sleep _) | .act _ .fork | .act _ (.clone _) | .act _ (.kstack (some _))
  | .act _ (.copyuvm (some _)) | .act _ .shareuvm | .act _ .ready | .act _ .exit | .act _ (.wait _)
  | .act _ (.execAlloc _) | .act _ .execBad | .act _ (.execCommit _ _) | .act _ (.setscheduler _)
  | .dispatch _ _ | .resume _ | .retire _ | .wakeup _ | .tick | .updateStatistics | .kalloc _
  | .kfree _ => .isTrue trivial

/-- init forks process 2, kills it before it has run, and forks process 3. -/
def killChild : List (Event Unit) :=
  [.dispatch () none, .resume (), .act () .fork, .act () (.kstack (some 3)), .act () (.copyuvm (some 4)),
    .act () .ready, .act () (.kill 2), .act () .fork, .act () (.kstack (some 5)), .act () (.copyuvm (some 6)),
    .act () .ready]

theorem fresh_process_not_killed_child :
    EveryStep (withHistory step targets) KillsProcesses (boot .default, fun _ => false) killChild ∧
    (run (withHistory step targets) (boot .default, fun _ => false) killChild).map
      (fun state => ((state.1.proc 1).killed, (state.1.proc 2).killed)) = some (true, false) ∧
    EveryStep (withHistory step targets) KillSafe (boot .default, fun _ => false) killChild := by
  have kills : EveryStep (withHistory step targets) KillsProcesses (boot .default, fun _ => false)
      killChild := by decide +kernel
  exact ⟨kills, by decide +kernel, fresh_process_not_killed kills⟩

/-- init calls `kill(0)`: it returns 0 and marks the free slot 1, which the next
fork hands out, killed, as process 2. -/
def killZero : List (Event Unit) := [.dispatch () none, .resume (), .act () (.kill 0)]

/-- Process 2 in slot 1 asks for process 3 to be killed while init's fork of it
is still copying memory, and that fork fails. -/
def killEmbryo : List (Event Bool) :=
  [.dispatch false none, .resume false, .act false .fork, .act false (.kstack (some 3)),
    .act false (.copyuvm (some 4)), .act false .ready, .dispatch true none, .resume true, .act false .fork,
    .act false (.kstack (some 5)), .act true (.kill 3), .act false (.copyuvm none)]

theorem fresh_process_killed : (run step (boot .default) killZero).map
      (fun m => (m.result 0, (m.proc 1).state, (m.proc 1).killed)) = some (some 0, .unused, true) ∧
    (run step (boot .default) (killZero ++ [.act () .fork, .act () (.kstack (some 3)),
      .act () (.copyuvm (some 4)), .act () .ready])).map
      (fun m => (m.result 0, (m.proc 1).pid, (m.proc 1).state, (m.proc 1).killed)) = some (some 2, 2, .runnable, true) ∧
    (run step (boot .default) (killEmbryo ++ [.act false .fork, .act false (.kstack (some 5)),
      .act false (.copyuvm (some 6)), .act false .ready])).map
      (fun m => (m.result 0, (m.proc 2).pid, (m.proc 2).state, (m.proc 2).killed)) = some (some 4, 4, .runnable, true) := by
  decide +kernel

end Xv6.Kernel
