import Xv6.Kernel.Moves
import Xv6.Kernel.Placement
import Xv6.Scheduler.WorkConservation

namespace Xv6.Kernel

open Process Scheduler Data Machine
open Function (update update_self update_of_ne update_eq_self)

/-! CPU and process exclusivity. The policy a dispatch calls is one of
`schedulerFunction`, and so returns a runnable process, unless setscheduler was
called with the number of policies: its bound check lets that through. -/

variable {Cpu : Type}

def Machine.states (m : Machine Cpu) (q : Slot) : ProcState := (m.proc q).state

structure Orderly (m : Machine Cpu) : Prop where
  placed : Placed m.lock m.cpus m.states
  tasked : Tasked m.task m.states
  policy : m.readyProcess ≠ none
  index : m.sched.idx < NPROC

section

variable (m : Machine Cpu) (c : Cpu) (p : Slot)

@[simp] theorem states_setTask (task : Task) : (m.setTask p task).states = m.states := rfl

@[simp] theorem states_setPage (page : Page) (use : PageUse) : (m.setPage page use).states = m.states := rfl

@[simp] theorem states_finish (value : Int32) : (m.finish p value).states = m.states := rfl

@[simp] theorem states_setProc (change : Proc → Proc) :
    (m.setProc p change).states = update m.states p (change (m.proc p)).state := by
  funext q
  by_cases same : q = p
  · subst same
    simp [Machine.states, setProc]
  · simp [Machine.states, setProc, update_of_ne same]

theorem states_setProc_same {change : Proc → Proc} (same : (change (m.proc p)).state = (m.proc p).state) :
    (m.setProc p change).states = m.states := by
  rw [states_setProc, same]
  exact update_eq_self p m.states

theorem states_freeZombie (kind : Reaper) (q : Slot) : (m.freeZombie kind q).states = m.states := by
  unfold freeZombie
  split <;> rfl

theorem clear_state (kind : Reaper) (proc : Proc) : (kind.clear proc).state = .unused := by
  cases kind <;> rfl

theorem states_kill (pid : Int32) (q : Slot) : ((killTable m.proc pid).1 q).state = m.states q ∨
      m.states q = .sleeping ∧ ((killTable m.proc pid).1 q).state = .runnable :=
  killTable_state m.proc pid q

variable [DecidableEq Cpu]

@[simp] theorem states_enterSched : (m.enterSched c).states = m.states := rfl
@[simp] theorem states_leave : (m.leave c).states = m.states := rfl

theorem states_reaped (kind : Reaper) (q : Slot) :
    ((((m.freeZombie kind q).setProc q kind.clear).finish p (m.proc q).pid).leave c).states = update m.states q .unused := by
  have cleared := states_setProc (m.freeZombie kind q) q kind.clear
  rw [clear_state, states_freeZombie] at cleared
  exact cleared

@[simp] theorem states_sleep (chan : Chan) : (m.sleep c p chan).states = update m.states p .sleeping :=
  states_setProc m p fun proc => { proc with chan := some chan, state := .sleeping, context := .sleep }

end

theorem moves_update (states : Slot → ProcState) {p : Slot} {new : ProcState} (move : StateMove (states p) new)
    (q : Slot) : StateMove (states q) (update states p new q) := by
  refine (Function.forall_update_iff states fun q now => StateMove (states q) now).mpr ⟨move, ?_⟩ q
  intro q _
  exact .stay (states q)

theorem StateMove.woken {before after : ProcState} (move : after = before ∨ before = .sleeping ∧ after = .runnable) :
    StateMove before after := by
  cases move with
  | inl same =>
    rw [same]
    exact .stay _
  | inr woken =>
    rw [woken.1, woken.2]
    exact .wake

section

variable {m next : Machine Cpu} {c : Cpu} {p : Slot}

theorem Orderly.choice (orderly : Orderly m) {stray chosen : Option Slot} {sched : SchedState}
    (choice : m.readyChoice stray = some (chosen, sched)) :
    sched.idx < NPROC ∧ ∀ q, chosen = some q → m.states q = .runnable := by
  cases policy : m.readyProcess with
  | none => exact absurd policy orderly.policy
  | some installed =>
    obtain ⟨_, _, result, conserves, inside, -⟩ :=
      select_conserves installed m.proc m.sched orderly.index
    simp only [readyChoice, policy, result, Option.some.injEq, Prod.mk.injEq] at choice
    obtain ⟨rfl, rfl⟩ := choice
    exact ⟨inside, fun q same => conserves.sound q same⟩

variable [DecidableEq Cpu] {event : Event Cpu} {action : Action} {new : ProcState}
    {before after : ProcState} {kind : Reaper}

theorem ReapMove.states (running : m.states p = .running) (move : ReapMove m c p kind next) (q : Slot) : StateMove (m.states q)
    (next.states q) := by
  cases move with
  | reaped z _ _ zombie =>
    rw [states_reaped]
    refine moves_update m.states ?_ q
    rw [show m.states z = .zombie from zombie]
    exact .reap
  | failed => exact .stay _
  | blocked =>
    rw [states_sleep, states_setTask]
    exact moves_update m.states (running ▸ .sleep) q

theorem ActMove.states (orderly : Orderly m) (here : m.cpus c = ⟨some p, .process⟩)
    (move : ActMove m c p action next) (q : Slot) : StateMove (m.states q) (next.states q) := by
  have running : m.states p = .running := orderly.placed.running c p (by rw [here]) (by simp [here])
  have embryo (np : Slot) (child : (m.task p).child = some np) : m.states np = .embryo := orderly.tasked.embryo p np child
  cases move with
  | yield =>
    rw [states_enterSched, states_setProc]
    exact moves_update m.states (running ▸ .yield) q
  | sleep =>
    rw [states_sleep]
    exact moves_update m.states (running ▸ .sleep) q
  | kill pid => exact .woken (states_kill m pid q)
  | full | noImage | execAlloc | execBad | badScheduler | setscheduler => exact .stay _
  | create _ _ np _ _ unused =>
    rw [states_setTask, states_setProc]
    have before : m.states np = .unused := unused
    exact moves_update m.states (before ▸ .allocate) q
  | noStack _ np task | noCopy np task =>
    rw [states_finish, states_setProc]
    exact moves_update m.states (embryo np (by rw [task]; rfl) ▸ .abandon) q
  | kstack | copyuvm | shareuvm =>
    rw [states_setTask, states_setProc]
    exact moves_update m.states (.stay _) q
  | ready np task =>
    rw [states_finish, states_setProc]
    exact moves_update m.states (embryo np (by rw [task]; rfl) ▸ .publish) q
  | exit =>
    by_cases same : q = p
    · subst same
      rw [running]
      change StateMove .running (exitTable m.proc m.initproc q q).state
      rw [(exitTable_self m.proc m.initproc q).1]
      exact .exit
    · exact .woken (exitTable_other m.proc m.initproc same).state
  | wait _ _ _ _ reap => exact reap.states running q
  | execCommit =>
    rw [states_finish, states_setProc]
    exact moves_update m.states (.stay _) q

theorem Move.states (orderly : Orderly m) (move : Move m event next) (q : Slot) :
    StateMove (m.states q) (next.states q) := by
  cases move with
  | idle | resume | retire | tick | kalloc | kfree => exact .stay _
  | dispatch _ _ _ p _ _ choice =>
    have ready := (orderly.choice choice).2 p rfl
    rw [states_setProc]
    exact moves_update m.states (ready ▸ .dispatch) q
  | awake =>
    rw [states_leave, states_setProc]
    exact moves_update m.states (.stay _) q
  | rescan c p _ _ here _ _ reap =>
    have running : m.states p = .running := orderly.placed.running c p (by rw [here]) (by simp [here])
    have same : (m.setProc p fun proc => { proc with chan := none }).states = m.states := states_setProc_same m p rfl
    have moved := reap.states (by rw [same]; exact running) q
    rwa [same] at moved
  | act _ _ _ _ here act => exact act.states orderly here q
  | wakeup chan => exact .woken (wakeup1_stirred m.proc chan q).state
  | updateStatistics =>
    change StateMove (m.states q) (Process.updateStatistics m.proc q).state
    rw [updateStatistics_state]
    exact .stay _

variable {states : Slot → ProcState}

theorem running_update {np : Slot} (before : states np ≠ .running) (after : new ≠ .running) (q : Slot) :
    update states np new q = .running ↔ states q = .running := by
  refine (Function.forall_update_iff states fun q now => now = .running ↔ states q = .running).mpr
    ⟨⟨fun now => absurd now after, fun was => absurd was before⟩, ?_⟩ q
  intro q _
  exact Iff.rfl

theorem running_woken (move : after = before ∨ before = .sleeping ∧ after = .runnable) : after = .running ↔ before = .running := by
  cases move with
  | inl same => rw [same]
  | inr woken => simp [woken.1, woken.2]

theorem Placed.stop {lock : Option Cpu} {cpus : Cpu → CpuState} (placed : Placed lock cpus states)
    (on : (cpus c).proc = some p) (mine : lock = none ∨ lock = some c) (stopped : new ≠ .running) : Placed (some c)
    (update cpus c { cpus c with mode := .switched })
      (update states p new) := by
  refine placed.switch on mine (fun q other => ?_) ?_
  · rw [update_of_ne other]
  · rw [update_self]
    exact stopped

theorem ReapMove.placed (placed : Placed m.lock m.cpus m.states)
    (on : (m.cpus c).proc = some p) (mode : (m.cpus c).mode = .process ∨ (m.cpus c).mode = .resuming)
    (mine : m.lock = none ∨ m.lock = some c) (move : ReapMove m c p kind next) : Placed next.lock next.cpus next.states := by
  cases move with
  | reaped z _ _ zombie =>
    rw [states_reaped]
    have before : m.states z ≠ .running := by simp [Machine.states, zombie]
    have cpus : ((((m.freeZombie kind z).setProc z kind.clear).finish p (m.proc z).pid).leave c).cpus =
        update m.cpus c { m.cpus c with mode := .process } := by
      unfold freeZombie
      split <;> rfl
    rw [cpus]
    exact placed.release mode mine (running_update before (by simp))
  | failed => exact placed.release mode mine fun _ => Iff.rfl
  | blocked =>
    rw [states_sleep]
    exact placed.stop on mine (by simp)

theorem ActMove.placed (orderly : Orderly m) (here : m.cpus c = ⟨some p, .process⟩) (move : ActMove m c p action next) :
    Placed next.lock next.cpus next.states := by
  have placed := orderly.placed
  have on : (m.cpus c).proc = some p := by rw [here]
  have embryo (np : Slot) (child : (m.task p).child = some np) : m.states np ≠ .running := by
    simp [orderly.tasked.embryo p np child]
  cases move with
  | yield free =>
    rw [states_enterSched, states_setProc]
    exact placed.stop on (.inl free) (by simp)
  | sleep _ free =>
    rw [states_sleep]
    exact placed.stop on (.inl free) (by simp)
  | kill pid => exact placed.quiet fun q => running_woken (states_kill m pid q)
  | full | noImage | execAlloc | execBad | badScheduler | setscheduler => exact placed
  | create _ _ np _ _ unused =>
    rw [states_setTask, states_setProc]
    have before : m.states np ≠ .running := by simp [Machine.states, unused]
    exact placed.quiet (running_update before (by simp))
  | noStack _ np task | noCopy np task | ready np task =>
    rw [states_finish, states_setProc]
    exact placed.quiet (running_update (embryo np (by rw [task]; rfl)) (by simp))
  | kstack | copyuvm | shareuvm =>
    rw [states_setTask, states_setProc_same _ _ rfl]
    exact placed
  | exit free =>
    refine placed.switch on (.inl free) (fun q other => ?_) ?_
    · exact running_woken (exitTable_other m.proc m.initproc other).state
    · change (exitTable m.proc m.initproc p p).state ≠ .running
      simp [(exitTable_self m.proc m.initproc p).1]
  | wait _ _ free _ reap => exact reap.placed placed on (.inl (by rw [here])) (.inl free)
  | execCommit =>
    rw [states_finish, states_setProc_same _ _ rfl]
    exact placed

theorem Move.placed (orderly : Orderly m) (move : Move m event next) :
    Placed next.lock next.cpus next.states := by
  have placed := orderly.placed
  cases move with
  | idle | tick | kalloc | kfree => exact placed
  | dispatch _ _ _ p mode free choice =>
    rw [states_setProc]
    rw [free] at placed
    refine placed.dispatch mode ((orderly.choice choice).2 p rfl) (fun q other => ?_) ?_
    · rw [update_of_ne other]
      rfl
    · rw [update_self]
  | resume c _ here =>
    have mode : (m.cpus c).mode = .resuming := by rw [here]
    exact placed.release (.inr mode) (.inr ((placed.owner c).mpr (.inl mode))) fun _ => Iff.rfl
  | awake c _ here =>
    have mode : (m.cpus c).mode = .resuming := by rw [here]
    rw [states_leave, states_setProc_same _ _ rfl]
    exact placed.release (.inr mode) (.inr ((placed.owner c).mpr (.inl mode))) fun _ => Iff.rfl
  | rescan c p _ _ here _ _ reap =>
    have mode : (m.cpus c).mode = .resuming := by rw [here]
    have same : (m.setProc p fun proc => { proc with chan := none }).states = m.states := states_setProc_same m p rfl
    have base : Placed (m.setProc p fun proc => { proc with chan := none }).lock m.cpus
        (m.setProc p fun proc => { proc with chan := none }).states := by
      rw [same]
      exact placed
    have on : (m.cpus c).proc = some p := by rw [here]
    exact reap.placed base on (.inr mode) (.inr ((placed.owner c).mpr (.inl mode)))
  | retire _ mode => exact placed.retire mode
  | act _ _ _ _ here act => exact act.placed orderly here
  | wakeup chan => exact placed.quiet fun q => running_woken (wakeup1_stirred m.proc chan q).state
  | updateStatistics =>
    refine placed.quiet fun q => ?_
    change (Process.updateStatistics m.proc q).state = .running ↔ _
    rw [updateStatistics_state]
    rfl

theorem embryo_update {p : Slot} (before : states p ≠ .embryo) (q : Slot) (embryo : states q = .embryo) :
    update states p new q = .embryo := by
  have other : q ≠ p := fun same => before (same ▸ embryo)
  rwa [update_of_ne other]

theorem live_update {p : Slot} (move : ¬ Live (states p) ∨ Live new) (q : Slot) (up : Live (states q)) : Live
    (update states p new q) := by
  by_cases same : q = p
  · subst same
    rw [update_self]
    exact move.resolve_left (not_not_intro up)
  · rwa [update_of_ne same]

section

variable (move : after = before ∨ before = .sleeping ∧ after = .runnable)
include move

theorem live_woken (up : Live before) : Live after := by
  cases move with
  | inl same => rwa [same]
  | inr woken => exact .inr (.inl woken.2)

theorem embryo_woken (embryo : before = .embryo) : after = .embryo := by
  cases move with
  | inl same => exact same.trans embryo
  | inr woken => exact absurd (embryo.symm.trans woken.1) (by simp)

end

theorem ReapMove.tasked (tasked : Tasked m.task m.states) (running : m.states p = .running)
    (childless : (m.task p).child = none) (move : ReapMove m c p kind next) : Tasked next.task next.states := by
  cases move with
  | reaped z _ _ zombie =>
    have dead : m.states z = .zombie := zombie
    rw [states_reaped]
    have task : ((((m.freeZombie kind z).setProc z kind.clear).finish p (m.proc z).pid).leave c).task =
        update m.task p .user := by
      unfold freeZombie
      split <;> rfl
    rw [task]
    exact tasked.finish (fun q embryo => .inr (embryo_update (by simp [dead]) q embryo))
      fun q _ up => live_update (.inl (by simp [dead, Live])) q up
  | failed => exact tasked.finish (fun _ embryo => .inr embryo) fun _ _ up => up
  | blocked =>
    rw [states_sleep]
    have moved : Tasked m.task (update m.states p .sleeping) :=
      tasked.quiet (embryo_update (by simp [running])) fun q _ up =>
        live_update (.inr (.inr (.inr rfl))) q up
    refine moved.advance (.waiting kind) childless.symm ?_
    rw [update_self]
    exact .inr (.inr rfl)

theorem ActMove.tasked (orderly : Orderly m) (here : m.cpus c = ⟨some p, .process⟩) (move : ActMove m c p action next) :
    Tasked next.task next.states := by
  have tasked := orderly.tasked
  have running : m.states p = .running := orderly.placed.running c p (by rw [here]) (by simp [here])
  have busy : Live (m.states p) := .inl running
  have returns : Tasked (update m.task p .user) m.states := tasked.finish (fun _ embryo => .inr embryo) fun _ _ up => up
  cases move with
  | yield =>
    rw [states_enterSched, states_setProc]
    exact tasked.quiet (embryo_update (by simp [running])) fun q _ up =>
      live_update (.inr (.inr (.inl rfl))) q up
  | sleep =>
    rw [states_sleep]
    exact tasked.quiet (embryo_update (by simp [running])) fun q _ up =>
      live_update (.inr (.inr (.inr rfl))) q up
  | kill pid =>
    exact tasked.finish (fun q embryo => .inr (embryo_woken (states_kill m pid q) embryo))
      fun q _ up => live_woken (states_kill m pid q) up
  | full | noImage | execBad | badScheduler | setscheduler => exact returns
  | create _ kind np _ task unused =>
    rw [states_setTask, states_setProc]
    have before : m.states np = .unused := unused
    have other : p ≠ np := fun same => absurd (running.symm.trans (same ▸ before)) (by simp)
    -- `np` was UNUSED, so no other call is setting it up.
    change Tasked (update m.task p (.allocated kind np)) (update m.states np .embryo)
    refine tasked.update (.allocated kind np) (fun q new _ child => ?_) (fun new child => ?_)
      (fun q _ up _ => live_update (.inl (by simp [before, Live])) q up) fun _ => ?_
    · exact embryo_update (by simp [before]) new (tasked.embryo q new child)
    · cases child
      refine ⟨by simp, fun q _ again => ?_⟩
      exact absurd (before.symm.trans (tasked.embryo q np again)) (by simp)
    · rw [update_of_ne other]
      exact busy
  | noStack _ np task | noCopy np task | ready np task =>
    rw [states_finish, states_setProc]
    have before : m.states np = .embryo := tasked.embryo p np (by rw [task]; rfl)
    refine tasked.finish (fun q embryo => ?_) fun q _ up => live_update (.inl (by simp [before, Live])) q up
    by_cases same : q = np
    · exact .inl (by rw [same, task]; rfl)
    · exact .inr (by rw [update_of_ne same]; exact embryo)
  | kstack kind np _ task =>
    rw [states_setTask, states_setProc_same _ _ rfl]
    exact tasked.advance (.stacked kind np) (by rw [task]; rfl) busy
  | copyuvm np _ task | shareuvm np _ task =>
    rw [states_setTask, states_setProc_same _ _ rfl]
    exact tasked.advance (.filled np) (by rw [task]; rfl) busy
  | exit _ task =>
    refine tasked.quiet (fun q embryo => ?_) fun q inside up => ?_
    · have other : q ≠ p := fun same => absurd (running.symm.trans (same ▸ embryo)) (by simp)
      exact embryo_woken (exitTable_other m.proc m.initproc other).state embryo
    · have other : q ≠ p := fun same => inside (same ▸ task)
      exact live_woken (exitTable_other m.proc m.initproc other).state up
  | wait _ _ _ task reap => exact reap.tasked tasked running (by rw [task]; rfl)
  | execAlloc dir task => exact tasked.advance (.exec dir) (by rw [task]; rfl) busy
  | execCommit =>
    rw [states_finish, states_setProc_same _ _ rfl]
    exact returns

theorem Move.tasked (orderly : Orderly m) (move : Move m event next) : Tasked next.task next.states := by
  have tasked := orderly.tasked
  cases move with
  | idle | resume | retire | tick | kalloc | kfree => exact tasked
  | dispatch _ _ _ p _ _ choice =>
    have ready := (orderly.choice choice).2 p rfl
    rw [states_setProc]
    exact tasked.quiet (embryo_update fun embryo => absurd (ready.symm.trans embryo) (by simp)) fun q _ up =>
      live_update (.inr (.inl rfl)) q up
  | awake =>
    rw [states_leave, states_setProc_same _ _ rfl]
    exact tasked
  | rescan c p _ _ here _ task reap =>
    have running : m.states p = .running := orderly.placed.running c p (by rw [here]) (by simp [here])
    have same : (m.setProc p fun proc => { proc with chan := none }).states = m.states := states_setProc_same m p rfl
    refine reap.tasked ?_ (by rw [same]; exact running) ?_
    · rw [same]
      exact tasked
    · change (m.task p).child = none
      rw [task]
      rfl
  | act _ _ _ _ here act => exact act.tasked orderly here
  | wakeup chan =>
    exact tasked.quiet (fun q => embryo_woken (wakeup1_stirred m.proc chan q).state)
      fun q _ up => live_woken (wakeup1_stirred m.proc chan q).state up
  | updateStatistics =>
    have same (q : Slot) : (Process.updateStatistics m.proc q).state = m.states q := updateStatistics_state m.proc q
    exact tasked.quiet (fun q embryo => (same q).trans embryo) fun q _ up => by
      change Live (Process.updateStatistics m.proc q).state
      rw [same]
      exact up

theorem ReapMove.sched (move : ReapMove m c p kind next) :
    next.readyProcess = m.readyProcess ∧ next.schedSelected = m.schedSelected ∧ next.sched = m.sched := by
  cases move with
  | reaped =>
    unfold freeZombie
    split <;> exact ⟨rfl, rfl, rfl⟩
  | failed | blocked => exact ⟨rfl, rfl, rfl⟩

/-- setscheduler is not called with the number of policies. -/
def KnownPolicy (_ : Machine Cpu) (event : Event Cpu) (_ : Machine Cpu) : Prop :=
  match event with
  | .act _ (.setscheduler sid) => sid ≠ Int32.ofNat schedulerName.length
  | _ => True

theorem setscheduler_installs {sid : Int32} (accepted : ¬ (sid < 0 ∨ sid > Int32.ofNat schedulerName.length))
    (known : sid ≠ Int32.ofNat schedulerName.length) : schedulerFunction[sid.toInt.toNat]? ≠ none := by
  simp only [not_or] at accepted
  have lower := Int32.le_iff_toInt_le.mp (Int32.not_lt.mp accepted.1)
  have upper := Int32.le_iff_toInt_le.mp (Int32.not_lt.mp accepted.2)
  have bound : (Int32.ofNat schedulerName.length).toInt = 5 := by decide
  have different : sid.toInt ≠ 5 := fun same => known (Int32.toInt_inj.mp (same.trans bound.symm))
  have inside : sid.toInt.toNat < schedulerFunction.length := by
    change sid.toInt.toNat < 5
    omega
  rw [List.getElem?_eq_getElem inside]
  exact Option.some_ne_none _

theorem ActMove.policy (orderly : Orderly m) (known : KnownPolicy m (.act c action) next)
    (move : ActMove m c p action next) : next.readyProcess ≠ none ∧ next.sched.idx < NPROC := by
  cases move with
  | setscheduler _ _ accepted => exact ⟨setscheduler_installs accepted known, orderly.index⟩
  | wait _ _ _ _ reap =>
    rw [reap.sched.1, reap.sched.2.2]
    exact ⟨orderly.policy, orderly.index⟩
  | _ => exact ⟨orderly.policy, orderly.index⟩

theorem Move.policy (orderly : Orderly m) (known : KnownPolicy m event next) (move : Move m event next) :
    next.readyProcess ≠ none ∧ next.sched.idx < NPROC := by
  cases move with
  | idle _ _ _ _ _ choice | dispatch _ _ _ _ _ _ choice => exact ⟨orderly.policy, (orderly.choice choice).1⟩
  | rescan _ _ _ _ _ _ _ reap =>
    rw [reap.sched.1, reap.sched.2.2]
    exact ⟨orderly.policy, orderly.index⟩
  | act _ _ _ _ _ act => exact act.policy orderly known
  | _ => exact ⟨orderly.policy, orderly.index⟩

theorem Orderly.step (orderly : Orderly m) (known : KnownPolicy m event next) (stepped : m.step event = some next) :
    Orderly next := by
  have move := step_move stepped
  have policy := move.policy orderly known
  exact ⟨move.placed orderly, move.tasked orderly, policy.1, policy.2⟩

end

theorem Orderly.boot (policy : Policy) : Orderly (boot policy : Machine Cpu) := by
  have stopped (q : Slot) : (Kernel.boot policy : Machine Cpu).states q ≠ .running := by
    by_cases first : q = 0
    · simp [Machine.states, Kernel.boot, first]
    · simp [Machine.states, Kernel.boot, first]
  constructor
  · constructor
    · intro c
      simp [Kernel.boot]
    · exact fun c _ => rfl
    · intro c p on
      simp [Kernel.boot] at on
    · intro c p on
      simp [Kernel.boot] at on
    · intro c d p on
      simp [Kernel.boot] at on
    · exact fun p running => absurd running (stopped p)
  · exact ⟨by simp [Kernel.boot, Task.child], by simp [Kernel.boot, Task.child], by simp [Kernel.boot]⟩
  · simp [Kernel.boot]
  · change NPROC - 1 < NPROC
    decide

def MovesLegally (m : Machine Cpu) (_ : Event Cpu) (next : Machine Cpu) : Prop :=
  ∀ q, StateMove (m.proc q).state (next.proc q).state

def Exclusive (m : Machine Cpu) : Prop :=
  (∀ c, (m.cpus c).proc = none ∨ ∃ p, (m.cpus c).proc = some p ∧ (m.proc p).state = .running) ∧
    ∀ p, (m.proc p).state = .running → ∃! c, (m.cpus c).proc = some p

theorem Orderly.exclusive {m : Machine Cpu} (orderly : Orderly m) (free : m.lock = none) : Exclusive m := by
  refine ⟨fun c => ?_, fun p running => ?_⟩
  · cases on : (m.cpus c).proc with
    | none => exact .inl rfl
    | some p =>
      have settled : (m.cpus c).mode ≠ .switched := fun gone =>
        absurd (free.symm.trans ((orderly.placed.owner c).mpr (.inr gone))) (by simp)
      exact .inr ⟨p, rfl, orderly.placed.running c p on settled⟩
  · obtain ⟨c, on⟩ := orderly.placed.placed p running
    exact ⟨c, on, fun d also => orderly.placed.single d c p also on⟩

variable [DecidableEq Cpu]

/-- As long as setscheduler selects an installed policy, every step of every
run moves the slots along the edges of the life cycle, and whenever the lock is
free the CPUs and the running processes correspond one to one. -/
theorem cpu_process_exclusive {policy : Policy} {events : List (Event Cpu)}
    (known : EveryStep step KnownPolicy (boot policy) events) : EveryStep step MovesLegally (boot policy) events ∧
      ∀ m, run step (boot policy) events = some m → m.lock = none → Exclusive m := by
  obtain ⟨every, final⟩ := runs_along (fun m : Machine Cpu => Orderly m) (.boot policy) known
    (fun _ _ _ orderly known stepped => ⟨orderly.step known stepped, (step_move stepped).states orderly⟩)
  exact ⟨every, fun m ran free => (final m ran).exclusive free⟩

instance (m next : Machine Cpu) (event : Event Cpu) : Decidable (KnownPolicy m event next) :=
  match event with
  | .act _ (.setscheduler sid) => inferInstanceAs (Decidable (sid ≠ Int32.ofNat schedulerName.length))
  | .act _ .yield | .act _ (.sleep _) | .act _ (.kill _) | .act _ .fork | .act _ (.clone _)
  | .act _ (.kstack _) | .act _ (.copyuvm _) | .act _ .shareuvm | .act _ .ready | .act _ .exit
  | .act _ (.wait _) | .act _ (.execAlloc _) | .act _ .execBad | .act _ (.execCommit _ _)
  | .dispatch _ _ | .resume _ | .retire _ | .wakeup _ | .tick | .updateStatistics | .kalloc _
  | .kfree _ => .isTrue trivial

/-- init forks on one of two CPUs, its child runs on the other and exits, and init reaps it. -/
def forkAndWait : List (Event Bool) :=
  [.dispatch false none, .resume false, .act false (.setscheduler 3), .act false .fork,
    .act false (.kstack (some 3)), .act false (.copyuvm (some 4)), .act false .ready, .dispatch true none,
    .resume true, .act false (.wait .wait), .retire false, .act true .exit, .retire true, .dispatch true none,
    .resume true]

theorem cpu_process_exclusive_fork : EveryStep step KnownPolicy (boot .default) forkAndWait ∧
    EveryStep step MovesLegally (boot .default) forkAndWait ∧
    ∃ m, run step (boot .default) forkAndWait = some m ∧ m.lock = none ∧ Exclusive m := by
  have known : EveryStep step KnownPolicy (boot .default) forkAndWait := by decide +kernel
  have reached : (run step (boot .default) forkAndWait).map (·.lock) = some none := by decide +kernel
  obtain ⟨m, ran, free⟩ := Option.map_eq_some_iff.mp reached
  have both := cpu_process_exclusive known
  exact ⟨known, both.1, m, ran, free, both.2 m ran free⟩

/-- `setscheduler(5)` is accepted. The next dispatch calls whatever lies behind
`schedulerFunction`, and if that returns slot 0 then two CPUs run init. -/
theorem cpus_share_process : (run step (boot .default)
      [.dispatch false none, .resume false, .act false (.setscheduler 5), .dispatch true (some 0), .resume true]).map
      (fun m => (m.lock, m.cpus false, m.cpus true, m.readyProcess)) =
        some (none, ⟨some 0, .process⟩, ⟨some 0, .process⟩, none) := by
  decide +kernel

end Xv6.Kernel
