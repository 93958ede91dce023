import Xv6.Sem.Calls

namespace Xv6.Sem

open Process Data

/-! The abstract semaphore: a value and a flag that each call changes at one
moment, the step in which it takes effect under the lock. The calls of `Calls`
refine it. -/

structure Contents where
  value : Int32
  active : Bool
deriving DecidableEq, Repr

def SemState.contents (s : SemState) (sem : Index) : Contents := ⟨(s.sema sem).value, (s.sema sem).active⟩

def SemOp.apply : SemOp → Contents → Contents
  | .init value, _ => ⟨value, true⟩
  | .destroy, sema => { sema with active := false }
  | .wait count, sema => { sema with value := sema.value - count }
  | .signal count, sema => { sema with value := sema.value + count }

/-- When a call can take effect: a wait needs its units, and sem_init leaves an
active semaphore alone. -/
def SemOp.Enabled : SemOp → Contents → Prop
  | .init _, sema => sema.active = false
  | .wait count, sema => count ≤ sema.value
  | _, _ => True

/-- The call that takes effect on `sem` when process `p` runs at this point. -/
def SemPc.effect (sem : Index) (sema : Contents) : SemPc → Option SemOp
  | .locked index (.init value) => if index = sem ∧ sema.active = false then some (.init value) else none
  | .locked index .destroy => if index = sem then some .destroy else none
  | .locked index (.signal count) => if index = sem then some (.signal count) else none
  | .locked index (.wait count) => if index = sem ∧ count ≤ sema.value then some (.wait count) else none
  | .looping index count => if index = sem ∧ count ≤ sema.value then some (.wait count) else none
  | _ => none

def effect (sem : Index) (s : SemState) : SemEvent → Option (Slot × SemOp)
  | .step p => ((s.pc p).effect sem (s.contents sem)).map (p, ·)
  | _ => none

theorem effect_some {sem : Index} {s : SemState} {event : SemEvent} {p : Slot} {op : SemOp}
    (found : effect sem s event = some (p, op)) : event = .step p ∧ op.Enabled (s.contents sem) ∧
      (s.pc p = .locked sem op ∨ ∃ count, op = .wait count ∧ s.pc p = .looping sem count) := by
  cases event with
  | step q =>
    simp only [effect, Option.map_eq_some_iff, Prod.mk.injEq] at found
    obtain ⟨call, taken, rfl, rfl⟩ := found
    refine ⟨rfl, ?_⟩
    cases here : s.pc q with
    | locked _ call =>
      cases call with
      | init =>
        simp only [here, SemPc.effect, guarded] at taken
        obtain ⟨⟨rfl, inactive⟩, rfl⟩ := taken
        exact ⟨inactive, .inl rfl⟩
      | destroy | signal =>
        simp only [here, SemPc.effect, guarded] at taken
        obtain ⟨rfl, rfl⟩ := taken
        exact ⟨trivial, .inl rfl⟩
      | wait =>
        simp only [here, SemPc.effect, guarded] at taken
        obtain ⟨⟨rfl, enough⟩, rfl⟩ := taken
        exact ⟨enough, .inl rfl⟩
    | looping _ count =>
      simp only [here, SemPc.effect, guarded] at taken
      obtain ⟨⟨rfl, enough⟩, rfl⟩ := taken
      exact ⟨enough, .inr ⟨count, rfl, rfl⟩⟩
    | _ => simp [here, SemPc.effect] at taken
  | _ => simp [effect] at found

section

variable {s next : SemState} {p : Slot} {sem index : Index} {change : Semaphore → Semaphore}

theorem contents_setSema : (s.setSema index change).contents sem =
    if index = sem then ⟨(change (s.sema sem)).value, (change (s.sema sem)).active⟩ else s.contents sem := by
  by_cases same : index = sem
  · subst same
    simp [SemState.contents, SemState.setSema]
  · simp [SemState.contents, SemState.setSema, Function.update_of_ne (Ne.symm same), same]

theorem contents_setSema_lock (lock : Option Slot) :
    (s.setSema index fun sema => { sema with lock := lock }).contents sem = s.contents sem := by
  rw [contents_setSema]
  split <;> rfl

theorem contents_silent (silent : (s.pc p).effect sem (s.contents sem) = none) (kept : next.contents sem = s.contents sem) :
    next.contents sem = (effect sem s (.step p)).elim (s.contents sem) fun call => call.2.apply (s.contents sem) := by
  rw [kept]
  simp [effect, silent]

theorem contents_applied (op : SemOp) {pc : SemPc}
    (applied : (s.pc p).effect sem (s.contents sem) = if index = sem then some op else none)
    (agrees : ∀ sema : Semaphore, ⟨(change sema).value, (change sema).active⟩ = op.apply ⟨sema.value, sema.active⟩) :
    ((s.setSema index change).goto p pc).contents sem =
      (effect sem s (.step p)).elim (s.contents sem) fun call => call.2.apply (s.contents sem) := by
  have moved : ((s.setSema index change).goto p pc).contents sem = (s.setSema index change).contents sem := rfl
  rw [moved, contents_setSema]
  simp only [effect, applied]
  split
  · exact agrees (s.sema sem)
  · rfl

theorem effect_lacking {count : Int32} (lacking : (s.sema index).value < count) :
    ¬ (index = sem ∧ count ≤ (s.contents sem).value) := by
  rintro ⟨rfl, enough⟩
  exact absurd enough (Int32.not_le.mpr lacking)

end

/-- Each step changes the contents of a semaphore by the call that takes effect
in it, or not at all. -/
theorem contents_step {s next : SemState} {event : SemEvent} (sem : Index) (stepped : semStep s event = some next) :
    next.contents sem = (effect sem s event).elim (s.contents sem) fun call => call.2.apply (s.contents sem) := by
  cases semStep_move stepped with
  | reject | call | kill | rest => rfl
  | acquire p _ _ here | reacquire p _ _ here =>
    exact contents_silent (by rw [here]; rfl) (contents_setSema_lock (some p))
  | initAgain _ _ _ here active =>
    refine contents_silent ?_ rfl
    simp only [here, SemPc.effect, ite_eq_right_iff]
    rintro ⟨rfl, inactive⟩
    exact absurd (active.symm.trans inactive) (by simp)
  | activate _ index value here inactive =>
    refine contents_applied (.init value) ?_ fun _ => rfl
    simp only [here, SemPc.effect]
    by_cases same : index = sem
    · subst same
      simp [SemState.contents, inactive]
    · simp [same]
  | destroy _ _ here =>
    exact contents_applied .destroy (by simp [here, SemPc.effect]) fun _ => rfl
  | take _ index count here enough =>
    refine contents_applied (.wait count) ?_ fun _ => rfl
    have sufficient : (index = sem ∧ count ≤ (s.contents sem).value) ↔ index = sem := by
      refine ⟨And.left, ?_⟩
      rintro rfl
      exact ⟨rfl, enough⟩
    cases here with
    | inl first | inr first => simp [first, SemPc.effect, sufficient]
  | short _ _ _ here lacking | sleep _ _ _ here lacking =>
    exact contents_silent (by simp only [here, SemPc.effect, effect_lacking lacking, if_false]) rfl
  | signal _ _ count here =>
    exact contents_applied (.signal count) (by simp [here, SemPc.effect]) fun _ => rfl
  | sleepAcquire _ _ _ here | sleepCommit _ _ _ here | resume _ _ _ here | wakeup _ _ _ here =>
    exact contents_silent (by rw [here]; rfl) rfl
  | sleepRelease _ _ _ here | release _ _ _ here =>
    exact contents_silent (by rw [here]; rfl) (contents_setSema_lock none)

end Xv6.Sem
