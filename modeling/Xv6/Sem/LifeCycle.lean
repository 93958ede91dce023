import Xv6.Sem.Wakeup

namespace Xv6.Sem

open Process Data Function

/-! Only sem_init reads the `active` flag, so it is up to the callers to keep
sem_wait and sem_signal off a semaphore that is not active. -/

/-- The process is inside sem_wait or sem_signal on `sem`. -/
def SemPc.uses (sem : Index) : SemPc → Bool
  | .acquiring index (.wait _) | .acquiring index (.signal _) | .locked index (.wait _)
  | .locked index (.signal _) | .releasing index (.wait _) | .releasing index (.signal _)
  | .looping index _ | .sleepAcquire index _ | .sleepRelease index _ | .sleepCommit index _
  | .asleep index _ | .reacquire index _ | .waking index _ => index = sem
  | _ => false

/-- Callers start sem_wait and sem_signal on active semaphores only, and destroy
a semaphore when no other call on it is in progress. -/
def Careful (sem : Index) (s : SemState) (event : SemEvent) (_ : SemState) : Prop :=
  match event with
  | .call _ number (.wait _) | .call _ number (.signal _) =>
    semIndex number = some sem → (s.sema sem).active = true
  | .step p => s.pc p = .locked sem .destroy → ∀ q, (s.pc q).uses sem = false
  | _ => True

instance (sem : Index) (s : SemState) (event : SemEvent) (next : SemState) : Decidable (Careful sem s event next) :=
  match event with
  | .call _ number (.wait _) | .call _ number (.signal _) =>
    inferInstanceAs (Decidable (semIndex number = some sem → (s.sema sem).active = true))
  | .step p => inferInstanceAs (Decidable (s.pc p = .locked sem .destroy → ∀ q, (s.pc q).uses sem = false))
  | .call _ _ (.init _) | .call _ _ .destroy | .kill _ | .rest _ _ => .isTrue trivial

/-- While a semaphore is inactive no wait or signal takes effect, a wait or
signal that returns has failed, and nobody sleeps on it. -/
structure LifeCycle (sem : Index) (s : SemState) (event : SemEvent) (next : SemState) : Prop where
  ineffective : (s.sema sem).active = false → ∀ p count,
    effect sem s event ≠ some (p, .wait count) ∧ effect sem s event ≠ some (p, .signal count)
  unchanged : (s.sema sem).active = false → (next.sema sem).active = false → (next.sema sem).value = (s.sema sem).value
  fails : (s.sema sem).active = false → ∀ p count, event = .step p →
    s.pc p = .releasing sem (.wait count) ∨ s.pc p = .releasing sem (.signal count) →
    next.result p = some (-1)
  awake : (next.sema sem).active = false → ∀ p count,
    next.pc p = .asleep sem count → (next.proc p).state ≠ .sleeping

def Unused (sem : Index) (s : SemState) : Prop := (s.sema sem).active = false → ∀ p, (s.pc p).uses sem = false

section

variable {sem : Index} {s next : SemState} {event : SemEvent} {p : Slot}

theorem uses_frame {q : Slot} {new : SemPc} (inside : (next.pc p).uses sem = true) (moved : next.pc = update s.pc q new)
    (inherits : new.uses sem = true → (s.pc q).uses sem = true) : (s.pc p).uses sem = true := by
  rw [moved] at inside
  by_cases same : p = q
  · subst same
    rw [update_self] at inside
    exact inherits inside
  · rwa [update_of_ne same] at inside

theorem uses_origin (stepped : semStep s event = some next) (inside : (next.pc p).uses sem = true) :
    (s.pc p).uses sem = true ∨ ∃ number count, semIndex number = some sem ∧
      (event = .call p number (.wait count) ∨ event = .call p number (.signal count)) := by
  cases semStep_move stepped with
  | reject | release => exact .inl (uses_frame inside rfl (by simp [SemPc.uses]))
  | call q number op _ _ _ found =>
    by_cases same : p = q
    · subst same
      simp only [SemState.goto, update_self] at inside
      cases op with
      | init | destroy => simp [SemPc.uses] at inside
      | wait count =>
        simp only [SemPc.uses, decide_eq_true_eq] at inside
        exact .inr ⟨number, count, inside ▸ found, .inl rfl⟩
      | signal count =>
        simp only [SemPc.uses, decide_eq_true_eq] at inside
        exact .inr ⟨number, count, inside ▸ found, .inr rfl⟩
    · simp only [SemState.goto, update_of_ne same] at inside
      exact .inl inside
  | acquire _ _ op here =>
    refine .inl (uses_frame inside rfl ?_)
    cases op <;> simp [here, SemPc.uses]
  | take _ _ _ here =>
    refine .inl (uses_frame inside rfl ?_)
    cases here with
    | inl first | inr first => simp [first, SemPc.uses]
  | kill | rest => exact .inl inside
  | initAgain _ _ _ here | activate _ _ _ here | destroy _ _ here | short _ _ _ here | signal _ _ _ here
  | sleep _ _ _ here | sleepAcquire _ _ _ here | sleepRelease _ _ _ here | sleepCommit _ _ _ here | resume _ _ _ here
  | reacquire _ _ _ here | wakeup _ _ _ here => exact .inl (uses_frame inside rfl (by simp [here, SemPc.uses]))

theorem active_step (stepped : semStep s event = some next) (inactive : (next.sema sem).active = false) :
    (s.sema sem).active = false ∨ ∃ p, event = .step p ∧ s.pc p = .locked sem .destroy := by
  have contents := contents_step sem stepped
  have flag : (next.contents sem).active = false := inactive
  cases found : effect sem s event with
  | none =>
    rw [found] at contents
    rw [contents] at flag
    exact .inl flag
  | some call =>
    obtain ⟨p, op⟩ := call
    obtain ⟨acts, -, point⟩ := effect_some found
    rw [found] at contents
    rw [contents] at flag
    cases op with
    | init => contradiction
    | destroy =>
      cases point with
      | inl first => exact .inr ⟨p, acts, first⟩
      | inr again =>
        obtain ⟨_, _, -⟩ := again
        contradiction
    | wait | signal => exact .inl flag

theorem Unused.step (unused : Unused sem s) (careful : Careful sem s event next) (stepped : semStep s event = some next) :
    Unused sem next := by
  intro inactive p
  cases inside : (next.pc p).uses sem with
  | false => rfl
  | true =>
    have before : (s.sema sem).active = false ∨ ∀ q, (s.pc q).uses sem = false := by
      cases active_step stepped inactive with
      | inl already => exact .inl already
      | inr destroyed =>
        obtain ⟨q, rfl, point⟩ := destroyed
        exact .inr (careful point)
    cases uses_origin stepped inside with
    | inl still =>
      have outside : (s.pc p).uses sem = false := by
        cases before with
        | inl already => exact unused already p
        | inr none => exact none p
      exact absurd (outside.symm.trans still) (by simp)
    | inr started =>
      obtain ⟨_, _, index, called⟩ := started
      have active : (s.sema sem).active = true := by
        cases called with
        | inl wait | inr wait => subst wait; exact careful index
      cases active_step stepped inactive with
      | inl already => exact absurd (already.symm.trans active) (by simp)
      | inr destroyed =>
        obtain ⟨q, acts, -⟩ := destroyed
        cases called with
        | inl wait | inr wait => exact absurd (wait.symm.trans acts) (by simp)

theorem Unused.ineffective (unused : Unused sem s) (inactive : (s.sema sem).active = false) (p : Slot) (count : Int32) :
    effect sem s event ≠ some (p, .wait count) ∧ effect sem s event ≠ some (p, .signal count) := by
  have outside := unused inactive p
  constructor
  · intro found
    obtain ⟨-, -, point⟩ := effect_some found
    cases point with
    | inl first => simp [first, SemPc.uses] at outside
    | inr again =>
      obtain ⟨_, -, there⟩ := again
      simp [there, SemPc.uses] at outside
  · intro found
    obtain ⟨-, -, point⟩ := effect_some found
    cases point with
    | inl first => simp [first, SemPc.uses] at outside
    | inr again =>
      obtain ⟨_, _, -⟩ := again
      contradiction

theorem Unused.lifeCycle (unused : Unused sem s) (careful : Careful sem s event next)
    (stepped : semStep s event = some next) : LifeCycle sem s event next where
  ineffective := unused.ineffective
  unchanged := by
    intro inactive still
    cases found : effect sem s event with
    | none => exact value_silent stepped found
    | some call =>
      obtain ⟨p, op⟩ := call
      have contents := contents_step sem stepped
      rw [found] at contents
      cases op with
      | init =>
        have active : (next.sema sem).active = true := congrArg Contents.active contents
        exact absurd (still.symm.trans active) (by simp)
      | destroy => exact congrArg Contents.value contents
      | wait count => exact absurd found (unused.ineffective inactive p count).1
      | signal count => exact absurd found (unused.ineffective inactive p count).2
  fails := by
    intro inactive p count _ returning
    have outside := unused inactive p
    cases returning with
    | inl wait | inr wait => simp [wait, SemPc.uses] at outside
  awake := by
    intro inactive p count there
    have outside := unused.step careful stepped inactive p
    simp [there, SemPc.uses] at outside

end

/-- In every run of careful callers the life cycle of the semaphore is respected
from boot on: between a destroy and the next sem_init nothing happens to it. -/
theorem sem_life_cycle (sem : Index) {table : Table} {events : List SemEvent}
    (careful : EveryStep semStep (Careful sem) { proc := table } events) :
    EveryStep semStep (LifeCycle sem) { proc := table } events := by
  exact (runs_along (Unused sem) (fun _ _ => rfl) careful
    (fun _ _ _ unused careful stepped => ⟨unused.step careful stepped, unused.lifeCycle careful stepped⟩)).1

/-- Two incarnations of semaphore 0, each destroyed after its last signal. -/
def twoLives : List SemEvent :=
  call 0 (.init 1) ++ call 1 (.wait 1) ++ [.call 1 0 (.signal 1), .step 1, .step 1, .step 1, .step 1] ++
    call 0 .destroy ++ call 0 (.init 7) ++ call 1 (.wait 3) ++ call 0 .destroy

theorem sem_life_cycle_two_lives : EveryStep semStep (Careful 0) { proc := twoRunning } twoLives ∧
    (run semStep { proc := twoRunning } twoLives).isSome = true ∧
    EveryStep semStep (LifeCycle 0) { proc := twoRunning } twoLives := by
  have careful : EveryStep semStep (Careful 0) { proc := twoRunning } twoLives := by decide +kernel
  exact ⟨careful, by decide +kernel, sem_life_cycle 0 careful⟩

/-- At boot a sem_signal on an inactive semaphore succeeds and its unit is
taken by a sem_wait; and a destroy leaves process 1 asleep. -/
theorem sem_life_cycle_ignored :
    (run semStep { proc := twoRunning } [.call 0 0 (.signal 1), .step 0, .step 0, .step 0, .step 0]).map
      (fun s => ((s.sema 0).active, (s.sema 0).value, s.result 0)) = some (false, 1, some 0) ∧
    (run semStep { proc := twoRunning } ([.call 0 0 (.signal 1), .step 0, .step 0, .step 0, .step 0] ++ call 1 (.wait 1))).map
      (fun s => ((s.sema 0).active, (s.sema 0).value, s.result 1)) = some (false, 0, some 0) ∧
    (run semStep { proc := twoRunning } (sleepOnZero ++ call 0 .destroy)).map
      (fun s => ((s.sema 0).active, (s.sema 0).lock, s.pc 1, (s.proc 1).state)) =
        some (false, none, .asleep 0 1, .sleeping) := by
  decide +kernel

end Xv6.Sem
