import Xv6.Sem.Locks
import Xv6.Sem.Conservation

namespace Xv6.Sem

open Process Data Function Option SemState

/-! Lost wakeups. sem_signal wakes every sleeper after it raises the value.
sem_init on a destroyed semaphore and sem_wait with a negative count also raise
the value and wake nobody. -/

/-- Process `p` is asleep in `sem_wait(sem, count)`, or has released the
semaphore's lock and is about to be. -/
def Sleeper (s : SemState) (sem : Index) (p : Slot) (count : Int32) : Prop :=
  s.pc p = .sleepCommit sem count ∨ s.pc p = .asleep sem count ∧ (s.proc p).state = .sleeping

def Entering (s : SemState) (sem : Index) (p : Slot) (count : Int32) : Prop :=
  s.pc p = .sleepAcquire sem count ∨ s.pc p = .sleepRelease sem count

/-- A step that raises a value without waking anybody finds no sleeper it should wake. -/
def WakesNobody (s : SemState) (event : SemEvent) (_ : SemState) : Prop :=
  ∀ sem, match effect sem s event with
    | some (_, .init value) => ∀ p count, Sleeper s sem p count → value < count
    | some (_, .wait units) => 0 ≤ units ∨ ∀ p count, ¬ Sleeper s sem p count
    | _ => True

section

variable {s next : SemState} {event : SemEvent} {sem : Index}

def SemState.dozing (s : SemState) (sem : Index) (p : Slot) : Option Int32 :=
  match s.pc p with
  | .sleepCommit index count => if index = sem then some count else none
  | .asleep index count => if index = sem ∧ (s.proc p).state = .sleeping then some count else none
  | _ => none

theorem dozing_iff {p : Slot} {count : Int32} : s.dozing sem p = some count ↔ Sleeper s sem p count := by
  cases here : s.pc p <;> simp [dozing, Sleeper, here, and_assoc, and_comm]

instance (good : Int32 → Prop) [DecidablePred good] : Decidable (∀ p count, Sleeper s sem p count → good count) :=
  decidable_of_iff (∀ p, (s.dozing sem p).all (fun count => good count) = true) (by
    simp only [Option.all_eq_true, decide_eq_true_eq, dozing_iff])

instance : Decidable (∀ p count, ¬ Sleeper s sem p count) :=
  inferInstanceAs (Decidable (∀ p count, Sleeper s sem p count → False))

instance : Decidable (WakesNobody s event next) :=
  @Fintype.decidableForallFintype _ _ (fun sem =>
    match effect sem s event with
    | some (_, .init value) => inferInstanceAs (Decidable (∀ p count, Sleeper s sem p count → value < count))
    | some (_, .wait units) => inferInstanceAs (Decidable (0 ≤ units ∨ ∀ p count, ¬ Sleeper s sem p count))
    | some (_, .destroy) | some (_, .signal _) | none => .isTrue trivial) _

end

structure Awaited (s : SemState) : Prop where
  locked : Locked s
  entering : ∀ sem p count, Entering s sem p count → (s.sema sem).value < count
  sleeping : ∀ sem p count, Sleeper s sem p count → (s.sema sem).value < count ∨ ∃ q units, s.pc q = .waking sem units

section

variable {s next : SemState} {event : SemEvent} {sem : Index} {p q : Slot} {count : Int32} {new : SemPc}

theorem sleeper_frame (sleeper : Sleeper next sem q count) (moved : next.pc = update s.pc p new)
    (awake : (∀ sem count, new ≠ .sleepCommit sem count) ∧ ∀ sem count, new ≠ .asleep sem count)
    (kept : ∀ q, q ≠ p → next.proc q = s.proc q) : Sleeper s sem q count := by
  simp only [Sleeper, moved] at sleeper
  by_cases same : q = p
  · subst same
    simp only [update_self] at sleeper
    cases sleeper with
    | inl going => exact absurd going (awake.1 sem count)
    | inr gone => exact absurd gone.1 (awake.2 sem count)
  · rw [update_of_ne same, kept q same] at sleeper
    exact sleeper

/-- A process falls asleep only through the three parts of `sleep`. -/
theorem sleeper_origin (stepped : semStep s event = some next) (sleeper : Sleeper next sem q count) :
    Sleeper s sem q count ∨ event = .step q ∧ s.pc q = .sleepRelease sem count := by
  cases semStep_move stepped with
  | sleepRelease p _ _ here =>
    by_cases same : q = p
    · subst same
      simp [Sleeper, goto] at sleeper
      exact .inr ⟨rfl, by rw [here, sleeper.1, sleeper.2]⟩
    · simp only [Sleeper, goto, update_of_ne same] at sleeper
      exact .inl sleeper
  | sleepCommit p _ _ here =>
    by_cases same : q = p
    · subst same
      simp [Sleeper, goto] at sleeper
      exact .inl (.inl (by rw [here, sleeper.1.1, sleeper.1.2]))
    · simp only [Sleeper, goto, setProc, update_of_ne same] at sleeper
      exact .inl sleeper
  | resume =>
    refine .inl (sleeper_frame sleeper rfl (by simp) fun q other => ?_)
    simp [goto, setProc, update_of_ne other]
  | wakeup p index units =>
    have still : Sleeper (s.goto p (.releasing index (.signal units))) sem q count := by
      cases sleeper with
      | inl going => exact .inl going
      | inr gone => exact .inr ⟨gone.1, (wakeup1_sleeping gone.2).1⟩
    exact .inl (sleeper_frame still rfl (by simp) fun _ _ => rfl)
  | kill pid =>
    cases sleeper with
    | inl going => exact .inl (.inl going)
    | inr gone =>
      cases killTable_state s.proc pid q with
      | inl kept => exact .inl (.inr ⟨gone.1, kept.symm.trans gone.2⟩)
      | inr woken => exact .inl (.inr ⟨gone.1, woken.1⟩)
  | rest p _ _ here =>
    have other : q ≠ p := by
      rintro rfl
      simp [Sleeper, setProc, here] at sleeper
    simp only [Sleeper, setProc, update_of_ne other] at sleeper
    exact .inl sleeper
  | _ => exact .inl (sleeper_frame sleeper rfl (by simp) fun _ _ => rfl)

theorem entering_frame (moved : next.pc = update s.pc p new)
    (awake : (∀ sem count, new ≠ .sleepAcquire sem count) ∧ ∀ sem count, new ≠ .sleepRelease sem count)
    (entering : Entering next sem q count) : Entering s sem q count := by
  simp only [Entering, moved] at entering
  by_cases same : q = p
  · subst same
    simp only [update_self] at entering
    cases entering with
    | inl first => exact absurd first (awake.1 sem count)
    | inr second => exact absurd second (awake.2 sem count)
  · rw [update_of_ne same] at entering
    exact entering

theorem entering_origin (stepped : semStep s event = some next) (entering : Entering next sem q count) : Entering s sem q count ∨
      event = .step q ∧ s.pc q = .looping sem count ∧ (s.sema sem).value < count := by
  cases semStep_move stepped with
  | sleep p _ _ here lacking =>
    by_cases same : q = p
    · subst same
      simp [Entering, goto] at entering
      obtain ⟨rfl, rfl⟩ := entering
      exact .inr ⟨rfl, here, lacking⟩
    · simp only [Entering, goto, update_of_ne same] at entering
      exact .inl entering
  | sleepAcquire p _ _ here =>
    by_cases same : q = p
    · subst same
      simp [Entering, goto] at entering
      exact .inl (.inl (by rw [here, entering.1, entering.2]))
    · simp only [Entering, goto, update_of_ne same] at entering
      exact .inl entering
  | kill | rest => exact .inl entering
  | _ => exact .inl (entering_frame rfl (by simp) entering)

/-- A wakeup finds every sleeper: one that still held `ptable.lock` would have kept it out. -/
theorem wakeup_leaves_none {s : SemState} (locked : Locked s) (free : s.ptlock = none)
    (here : s.pc p = .waking sem count) (q : Slot) (units : Int32) :
    ¬ Sleeper ({ s with proc := wakeup1 s.proc (.sema sem) }.goto p (.releasing sem (.signal count))) sem q
      units := by
  intro sleeper
  have other : q ≠ p := by
    rintro rfl
    simp [Sleeper, goto] at sleeper
  simp only [Sleeper, goto, update_of_ne other] at sleeper
  cases sleeper with
  | inl going =>
    have held := locked.ptable q (by rw [going]; rfl)
    exact absurd (free.symm.trans held) (by simp)
  | inr gone => exact (wakeup1_sleeping gone.2).2 (locked.chan q sem units gone.1)

theorem waking_step (locked : Locked s) (stepped : semStep s event = some next) (here : s.pc p = .waking sem count) :
    next.pc p = .waking sem count ∨ ∀ q units, ¬ Sleeper next sem q units := by
  by_cases acts : event.actor = some p
  · cases event with
    | call =>
      simp only [SemEvent.actor, some.injEq] at acts
      subst acts
      simp [semStep, here] at stepped
    | step =>
      simp only [SemEvent.actor, some.injEq] at acts
      subst acts
      simp only [semStep, here, guarded] at stepped
      obtain ⟨free, rfl⟩ := stepped
      exact .inr (wakeup_leaves_none locked free here)
    | kill | rest => contradiction
  · rw [pc_frame stepped acts]
    exact .inl here

end

section

variable {s next : SemState} {event : SemEvent} {sem : Index} {p : Slot} {op : SemOp}

theorem effect_critical (found : effect sem s event = some (p, op)) : (s.pc p).critical = some sem := by
  obtain ⟨-, -, point⟩ := effect_some found
  cases point with
  | inl first => rw [first]; rfl
  | inr again =>
    obtain ⟨_, -, there⟩ := again
    rw [there]
    rfl

theorem value_silent (stepped : semStep s event = some next) (silent : effect sem s event = none) :
    (next.sema sem).value = (s.sema sem).value := by
  have contents := contents_step sem stepped
  rw [silent] at contents
  exact congrArg Contents.value contents

/-- While one process is in the critical section, a call of another takes no effect. -/
theorem Locked.effect_owner (locked : Locked s) {q : Slot} (found : effect sem s event = some (p, op))
    (inside : (s.pc q).critical = some sem) : q = p := by
  have own := locked.sema p sem (effect_critical found)
  rw [locked.sema q sem inside, some.injEq] at own
  exact own

theorem Awaited.entering_step (awaited : Awaited s) (stepped : semStep s event = some next) (sem : Index)
    (q : Slot) (count : Int32) (entering : Entering next sem q count) : (next.sema sem).value < count := by
  cases entering_origin stepped entering with
  | inl before =>
    have lacking := awaited.entering sem q count before
    cases found : effect sem s event with
    | none => rwa [value_silent stepped found]
    | some =>
      have same := awaited.locked.effect_owner found (q := q) (by
        cases before with
        | inl first => rw [first]; rfl
        | inr second => rw [second]; rfl)
      obtain ⟨-, -, point⟩ := effect_some found
      rw [← same] at point
      cases before with
      | inl first | inr first => simp [first] at point
  | inr fresh =>
    obtain ⟨rfl, there, lacking⟩ := fresh
    have refused : ¬ count ≤ (s.contents sem).value := Int32.not_le.mpr lacking
    have silent : effect sem s (.step q) = none := by simp [effect, there, SemPc.effect, refused]
    rwa [value_silent stepped silent]

theorem Awaited.sleeping_effect (awaited : Awaited s) (stepped : semStep s event = some next)
    (found : effect sem s event = some (p, op)) (safe : WakesNobody s event next) {q : Slot} {count : Int32}
    (sleeper : Sleeper s sem q count) : (next.sema sem).value < count ∨ ∃ r units, next.pc r = .waking sem units := by
  obtain ⟨rfl, enabled, point⟩ := effect_some found
  have value : (next.sema sem).value = _ := congrArg Contents.value (contents_step sem stepped)
  rw [found, Option.elim_some] at value
  have clear := safe sem
  simp only [found] at clear
  have lacking : (s.sema sem).value < count := by
    cases awaited.sleeping sem q count sleeper with
    | inl less => exact less
    | inr waker =>
      obtain ⟨r, units, there⟩ := waker
      have same := awaited.locked.effect_owner found (q := r) (by rw [there]; rfl)
      rw [← same, there] at point
      simp at point
  cases op with
  | init =>
    rw [value]
    exact .inl (clear q count sleeper)
  | destroy =>
    rw [value]
    exact .inl lacking
  | wait units =>
    cases clear with
    | inl nonneg =>
      have less := toInt_sub_of_le (Int32.le_iff_toInt_le.mp nonneg) enabled
      have := Int32.lt_iff_toInt_lt.mp lacking
      have : (0 : Int32).toInt ≤ units.toInt := Int32.le_iff_toInt_le.mp nonneg
      rw [value]
      refine .inl (Int32.lt_iff_toInt_lt.mpr ?_)
      simp only [SemOp.apply, less, SemState.contents, Int32.toInt_zero] at *
      omega
    | inr none => exact absurd sleeper (none q count)
  | signal units =>
    cases point with
    | inl there =>
      simp only [semStep, there, semBody, some.injEq] at stepped
      subst next
      exact .inr ⟨p, units, by simp [goto]⟩
    | inr again =>
      obtain ⟨_, _, -⟩ := again
      contradiction

theorem Awaited.step (awaited : Awaited s) (safe : WakesNobody s event next) (stepped : semStep s event = some next) :
    Awaited next := by
  refine ⟨awaited.locked.step stepped, awaited.entering_step stepped, fun sem q count sleeper => ?_⟩
  cases sleeper_origin stepped sleeper with
  | inl before =>
    cases found : effect sem s event with
    | some => exact awaited.sleeping_effect stepped found safe before
    | none =>
      rw [value_silent stepped found]
      cases awaited.sleeping sem q count before with
      | inl less => exact .inl less
      | inr waker =>
        obtain ⟨r, units, there⟩ := waker
        cases waking_step awaited.locked stepped there with
        | inl still => exact .inr ⟨r, units, still⟩
        | inr none => exact absurd sleeper (none q count)
  | inr fresh =>
    obtain ⟨rfl, there⟩ := fresh
    have silent : effect sem s (.step q) = none := by simp [effect, there, SemPc.effect]
    rw [value_silent stepped silent]
    exact .inl (awaited.entering sem q count (.inr there))

theorem Awaited.initial (table : Table) : Awaited { proc := table } where
  locked := .initial table
  entering := by simp [Entering]
  sleeping := by simp [Sleeper]

end

/-- In every run in which no sem_init re-activates a semaphore with units a
sleeper is waiting for, and no sem_wait with a negative count takes effect while
somebody sleeps, nobody sleeps through the units it waits for. -/
theorem sem_no_lost_wakeup {table : Table} {events : List SemEvent} {s : SemState}
    (safe : EveryStep semStep WakesNobody { proc := table } events)
    (ran : run semStep { proc := table } events = some s) (sem : Index) (p : Slot) (count : Int32)
    (free : (s.sema sem).lock = none) (inside : s.pc p = .asleep sem count)
    (asleep : (s.proc p).state = .sleeping) : ¬ (s.sema sem).value ≥ count := by
  have awaited := (runs_along Awaited (.initial table) safe
    fun _ _ _ awaited safe stepped => ⟨awaited.step safe stepped, trivial⟩).2 s ran
  refine Int32.not_le.mpr ?_
  cases awaited.sleeping sem p count (.inr ⟨inside, asleep⟩) with
  | inl less => exact less
  | inr waker =>
    obtain ⟨q, _, there⟩ := waker
    have held := awaited.locked.sema q sem (by rw [there]; rfl)
    exact absurd (free.symm.trans held) (by simp)

/-- Processes 0 and 1 run; no semaphore has been used. -/
def twoRunning : Table := fun p =>
  if p.val < 2 then { state := .running, pid := Int32.ofNat (p.val + 1) } else {}

/-- A whole call of process `p` that does not block and does not wake anybody. -/
def call (p : Slot) (op : SemOp) : List SemEvent := [.call p 0 op, .step p, .step p, .step p]

/-- Process 0 creates semaphore 0 without units and process 1 goes to sleep in `sem_wait(0, 1)`. -/
def sleepOnZero : List SemEvent := call 0 (.init 0) ++ [.call 1 0 (.wait 1), .step 1, .step 1, .step 1, .step 1, .step 1, .step 1]

theorem sem_no_lost_wakeup_asleep : EveryStep semStep WakesNobody { proc := twoRunning } sleepOnZero ∧
    ∃ s, run semStep { proc := twoRunning } sleepOnZero = some s ∧
      (s.sema 0).lock = none ∧ s.pc 1 = .asleep 0 1 ∧ (s.proc 1).state = .sleeping ∧
      ¬ (s.sema 0).value ≥ 1 := by
  have safe : EveryStep semStep WakesNobody { proc := twoRunning } sleepOnZero := by decide +kernel
  have reached : (run semStep { proc := twoRunning } sleepOnZero).map
      (fun s => ((s.sema 0).lock, s.pc 1, (s.proc 1).state)) = some (none, .asleep 0 1, .sleeping) := by
    decide +kernel
  obtain ⟨s, ran, ends⟩ := Option.map_eq_some_iff.mp reached
  simp only [Prod.mk.injEq] at ends
  obtain ⟨free, inside, asleep⟩ := ends
  exact ⟨safe, s, ran, free, inside, asleep, sem_no_lost_wakeup safe ran 0 1 1 free inside asleep⟩

/-- Process 1 sleeps on although the value suffices: after a destroy and a new
sem_init to 5, and after a `sem_wait(0, -1)`. The lock is free in both states. -/
theorem sem_wakeup_lost : (run semStep { proc := twoRunning } (sleepOnZero ++ call 0 .destroy ++ call 0 (.init 5))).map
      (fun s => ((s.sema 0).lock, s.pc 1, (s.proc 1).state, (s.sema 0).value)) =
        some (none, .asleep 0 1, .sleeping, 5) ∧
    (run semStep { proc := twoRunning } (sleepOnZero ++ call 0 (.wait (-1)))).map
      (fun s => ((s.sema 0).lock, s.pc 1, (s.proc 1).state, (s.sema 0).value)) =
        some (none, .asleep 0 1, .sleeping, 1) := by
  decide +kernel

end Xv6.Sem
