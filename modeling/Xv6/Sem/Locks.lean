import Xv6.Sem.Effect

namespace Xv6.Sem

open Process Function SemState

/-! Who holds which lock, read off the program points. -/

/-- The semaphore whose lock a process holds. -/
def SemPc.critical : SemPc → Option Index
  | .locked sem _ | .looping sem _ | .sleepAcquire sem _ | .sleepRelease sem _ | .waking sem _
  | .releasing sem _ => some sem
  | _ => none

def SemPc.holdsPtable : SemPc → Bool
  | .sleepRelease _ _ | .sleepCommit _ _ => true
  | _ => false

structure Locked (s : SemState) : Prop where
  sema : ∀ p sem, (s.pc p).critical = some sem → (s.sema sem).lock = some p
  ptable : ∀ p, (s.pc p).holdsPtable = true → s.ptlock = some p
  chan : ∀ p sem count, s.pc p = .asleep sem count → (s.proc p).chan = some (.sema sem)

section

variable {s next : SemState} {p q : Slot} {new : SemPc} {sem index : Index} {change : Semaphore → Semaphore}

theorem critical_kept (locked : Locked s) (moved : next.pc = update s.pc p new)
    (locks : ∀ sem, (next.sema sem).lock = (s.sema sem).lock)
    (inherits : ∀ sem, new.critical = some sem → (s.pc p).critical = some sem) (q : Slot) (sem : Index)
    (inside : (next.pc q).critical = some sem) : (next.sema sem).lock = some q := by
  rw [locks]
  rw [moved] at inside
  by_cases same : q = p
  · subst same
    rw [update_self] at inside
    exact locked.sema q sem (inherits sem inside)
  · rw [update_of_ne same] at inside
    exact locked.sema q sem inside

theorem critical_changed (locked : Locked s) (keeps : ∀ sema, (change sema).lock = sema.lock)
    (inherits : ∀ sem, new.critical = some sem → (s.pc p).critical = some sem) (q : Slot) (sem : Index)
    (inside : (((s.setSema index change).goto p new).pc q).critical = some sem) :
    (((s.setSema index change).goto p new).sema sem).lock = some q := by
  have locks (sem : Index) : (((s.setSema index change).goto p new).sema sem).lock = (s.sema sem).lock := by
    by_cases same : sem = index
    · subst same
      simp [setSema, SemState.goto, keeps]
    · simp [setSema, SemState.goto, update_of_ne same]
  exact critical_kept locked rfl locks inherits q sem inside

theorem critical_acquired (locked : Locked s) (free : (s.sema index).lock = none)
    (own : new.critical = some index) (q : Slot) (sem : Index)
    (inside : (((s.setSema index fun sema => { sema with lock := some p }).goto p new).pc q).critical = some sem) :
    (((s.setSema index fun sema => { sema with lock := some p }).goto p new).sema sem).lock = some q := by
  simp only [goto, setSema] at inside ⊢
  by_cases same : q = p
  · subst same
    rw [update_self, own, Option.some.injEq] at inside
    subst inside
    simp
  · rw [update_of_ne same] at inside
    have held := locked.sema q sem inside
    have different : sem ≠ index := by
      rintro rfl
      exact absurd (free.symm.trans held) (by simp)
    rw [update_of_ne different]
    exact held

theorem critical_released (locked : Locked s) (own : (s.pc p).critical = some index)
    (moved : next.pc = update s.pc p new) (outside : new.critical = none)
    (released : next.sema = (s.release index).sema) (q : Slot) (sem : Index) (inside : (next.pc q).critical = some sem) :
    (next.sema sem).lock = some q := by
  rw [moved] at inside
  by_cases same : q = p
  · subst same
    rw [update_self, outside] at inside
    contradiction
  · rw [update_of_ne same] at inside
    have held := locked.sema q sem inside
    have different : sem ≠ index := by
      rintro rfl
      have mine := locked.sema p sem own
      rw [held, Option.some.injEq] at mine
      exact same mine
    rw [released]
    simp only [SemState.release, setSema, update_of_ne different]
    exact held

end

variable {event : SemEvent}

theorem Locked.sema_step {s next : SemState} (locked : Locked s) (stepped : semStep s event = some next) :
    ∀ p sem, (next.pc p).critical = some sem → (next.sema sem).lock = some p := by
  cases semStep_move stepped with
  | reject | call | sleepCommit | resume =>
    exact critical_kept locked rfl (fun _ => rfl) (by simp [SemPc.critical])
  | acquire _ _ _ _ free | reacquire _ _ _ _ free => exact critical_acquired locked free rfl
  | initAgain _ _ _ here | short _ _ _ here | sleep _ _ _ here | sleepAcquire _ _ _ here | wakeup _ _ _ here =>
    exact critical_kept locked rfl (fun _ => rfl) (by simp [here, SemPc.critical])
  | activate _ _ _ here | destroy _ _ here | signal _ _ _ here =>
    exact critical_changed locked (fun _ => rfl) (by simp [here, SemPc.critical])
  | take _ _ _ here =>
    refine critical_changed locked (fun _ => rfl) ?_
    cases here with
    | inl first | inr first => simp [first, SemPc.critical]
  | sleepRelease _ _ _ here =>
    exact critical_released locked (by rw [here]; rfl) rfl rfl rfl
  | release _ _ _ here => exact critical_released locked (by rw [here]; rfl) rfl rfl rfl
  | kill | rest => exact locked.sema

section

variable {s next : SemState} {p : Slot} {new : SemPc}

theorem ptable_kept (locked : Locked s) (moved : next.pc = update s.pc p new)
    (same : next.ptlock = s.ptlock) (outside : new.holdsPtable = true → (s.pc p).holdsPtable = true)
    (q : Slot) (inside : (next.pc q).holdsPtable = true) : next.ptlock = some q := by
  rw [same]
  rw [moved] at inside
  by_cases here : q = p
  · subst here
    rw [update_self] at inside
    exact locked.ptable q (outside inside)
  · rw [update_of_ne here] at inside
    exact locked.ptable q inside

theorem Locked.not_holdsPtable (locked : Locked s) {q : Slot} (other : s.ptlock ≠ some q) : (s.pc q).holdsPtable = false := by
  cases inside : (s.pc q).holdsPtable with
  | false => rfl
  | true => exact absurd (locked.ptable q inside) other

end

theorem Locked.ptable_step {s next : SemState} (locked : Locked s) (stepped : semStep s event = some next) : ∀ p,
    (next.pc p).holdsPtable = true → next.ptlock = some p := by
  cases semStep_move stepped with
  | sleepAcquire p _ _ _ free =>
    intro q inside
    by_cases same : q = p
    · rw [same]
      rfl
    · have outside := locked.not_holdsPtable (q := q) (by simp [free])
      simp [goto, update_of_ne same, outside] at inside
  | sleepRelease _ _ _ here => exact ptable_kept locked rfl rfl (by simp [here, SemPc.holdsPtable])
  | sleepCommit p _ _ here =>
    intro q inside
    have mine := locked.ptable p (by rw [here]; rfl)
    by_cases same : q = p
    · subst same
      simp [goto, SemPc.holdsPtable] at inside
    · have outside := locked.not_holdsPtable (q := q) (by simp [mine, Ne.symm same])
      simp [goto, setProc, update_of_ne same, outside] at inside
  | kill | rest => exact locked.ptable
  | _ => exact ptable_kept locked rfl rfl (by simp [SemPc.holdsPtable])

theorem chan_kept {s next : SemState} {p : Slot} {new : SemPc} (locked : Locked s)
    (moved : next.pc = update s.pc p new) (kept : ∀ q, q ≠ p → (next.proc q).chan = (s.proc q).chan)
    (awake : ∀ sem count, new = .asleep sem count → (next.proc p).chan = some (.sema sem))
    (q : Slot) (sem : Index) (count : Int32) (there : next.pc q = .asleep sem count) : (next.proc q).chan = some (.sema sem) := by
  rw [moved] at there
  by_cases same : q = p
  · subst same
    rw [update_self] at there
    exact awake sem count there
  · rw [update_of_ne same] at there
    rw [kept q same]
    exact locked.chan q sem count there

theorem Locked.chan_step {s next : SemState} (locked : Locked s) (stepped : semStep s event = some next) :
    ∀ p sem count, next.pc p = .asleep sem count → (next.proc p).chan = some (.sema sem) := by
  cases semStep_move stepped with
  | sleepCommit =>
    refine chan_kept locked rfl (fun q other => ?_) fun _ _ same => ?_
    · simp [goto, setProc, update_of_ne other]
    · cases same
      simp [goto, setProc]
  | resume =>
    refine chan_kept locked rfl (fun q other => ?_) (by simp)
    simp [goto, setProc, update_of_ne other]
  | wakeup _ index =>
    exact chan_kept locked rfl (fun q _ => wakeup1_chan s.proc (.sema index) q) (by simp)
  | kill pid =>
    intro q sem count there
    exact (killTable_chan s.proc pid q).trans (locked.chan q sem count there)
  | rest p _ _ here =>
    intro q sem count there
    have other : q ≠ p := by
      rintro rfl
      exact absurd (here.symm.trans there) (by simp)
    simp only [setProc, update_of_ne other]
    exact locked.chan q sem count there
  | _ => exact chan_kept locked rfl (fun _ _ => rfl) (by simp)

theorem Locked.step {s next : SemState} (locked : Locked s) (stepped : semStep s event = some next) : Locked next :=
  ⟨locked.sema_step stepped, locked.ptable_step stepped, locked.chan_step stepped⟩

theorem Locked.initial (table : Table) : Locked { proc := table } :=
  ⟨by simp [SemPc.critical], by simp [SemPc.holdsPtable], by simp⟩

end Xv6.Sem
