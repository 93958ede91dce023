import Xv6.Data.Run
import Xv6.Process.Table

namespace Xv6.Sem

open Process Data Function Option

/-! sem_init, sem_destroy, sem_wait and sem_signal, with `sleep` and `wakeup` as
they use them. Each acquisition and each release of a semaphore's lock is a step
of its own, and so are the three parts of `sleep` before the switch; a section
under `ptable.lock` alone is one step. -/

abbrev Index := Fin MAX_SEMA_NUM

structure Semaphore where
  value : Int32 := 0
  active : Bool := false
  lock : Option Slot := none
deriving DecidableEq, Repr

inductive SemOp where
  | init (value : Int32)
  | destroy
  | wait (count : Int32)
  | signal (count : Int32)
deriving DecidableEq, Repr

inductive SemPc where
  | outside
  | acquiring (sem : Index) (op : SemOp)
  | locked (sem : Index) (op : SemOp)
  | looping (sem : Index) (count : Int32)
  | sleepAcquire (sem : Index) (count : Int32)
  | sleepRelease (sem : Index) (count : Int32)
  | sleepCommit (sem : Index) (count : Int32)
  | asleep (sem : Index) (count : Int32)
  | reacquire (sem : Index) (count : Int32)
  | waking (sem : Index) (count : Int32)
  | releasing (sem : Index) (op : SemOp)
deriving DecidableEq, Repr

structure SemState where
  sema : Index → Semaphore := fun _ => {}
  proc : Table
  ptlock : Option Slot := none
  pc : Slot → SemPc := fun _ => .outside
  /-- What the last call of each process returned. -/
  result : Slot → Option Int32 := fun _ => none

inductive SemEvent where
  | call (p : Slot) (sem : Int32) (op : SemOp)
  | step (p : Slot)
  | kill (pid : Int32)
  /-- Anything the rest of the kernel does to a process outside these calls. -/
  | rest (p : Slot) (proc : Proc)
deriving DecidableEq, Repr

namespace SemState

variable (s : SemState) (p : Slot) (sem : Index)

def goto (pc : SemPc) : SemState := { s with pc := update s.pc p pc }

def setSema (change : Semaphore → Semaphore) : SemState :=
  { s with sema := update s.sema sem (change (s.sema sem)) }

def setProc (change : Proc → Proc) : SemState :=
  { s with proc := update s.proc p (change (s.proc p)) }

def finish (value : Int32) : SemState :=
  { s with result := update s.result p (some value), pc := update s.pc p .outside }

/-- `acquire(&sema[sem].lock)`: no step until the lock is free. -/
def acquire (pc : SemPc) : Option SemState :=
  if (s.sema sem).lock = none then
    some ((s.setSema sem fun sema => { sema with lock := some p }).goto p pc)
  else none

def release : SemState := s.setSema sem fun sema => { sema with lock := none }

end SemState

def semIndex (sem : Int32) : Option Index :=
  if inside : 0 ≤ sem.toInt ∧ sem.toInt < MAX_SEMA_NUM then some ⟨sem.toInt.toNat, by omega⟩ else none

/-- The first statement of each call under the lock. -/
def semBody (s : SemState) (p : Slot) (sem : Index) : SemOp → SemState
  | .init value =>
    if (s.sema sem).active then s.goto p (.releasing sem (.init value))
    else (s.setSema sem fun sema => { sema with active := true, value := value }).goto p
      (.releasing sem (.init value))
  | .destroy => (s.setSema sem fun sema => { sema with active := false }).goto p (.releasing sem .destroy)
  | .wait count =>
    if (s.sema sem).value ≥ count then
      (s.setSema sem fun sema => { sema with value := sema.value - count }).goto p
        (.releasing sem (.wait count))
    else s.goto p (.looping sem count)
  | .signal count =>
    (s.setSema sem fun sema => { sema with value := sema.value + count }).goto p (.waking sem count)

def semStep (s : SemState) : SemEvent → Option SemState
  | .call p sem op =>
    if s.pc p = .outside ∧ (s.proc p).state = .running then
      match semIndex sem with
      | none => some (s.finish p (-1))
      | some sem => some (s.goto p (.acquiring sem op))
    else none
  | .step p =>
    match s.pc p with
    | .outside => none
    | .acquiring sem op => s.acquire p sem (.locked sem op)
    | .locked sem op => some (semBody s p sem op)
    | .looping sem count =>
      if (s.sema sem).value < count then some (s.goto p (.sleepAcquire sem count))
      else some ((s.setSema sem fun sema => { sema with value := sema.value - count }).goto p
        (.releasing sem (.wait count)))
    | .sleepAcquire sem count =>
      if s.ptlock = none then some ({ s with ptlock := some p }.goto p (.sleepRelease sem count)) else none
    | .sleepRelease sem count => some ((s.release sem).goto p (.sleepCommit sem count))
    | .sleepCommit sem count =>
      -- sched() hands ptable.lock to the scheduler, which releases it
      some (({ s with ptlock := none }.setProc p fun proc =>
        { proc with chan := some (.sema sem), state := .sleeping }).goto p (.asleep sem count))
    | .asleep sem count =>
      -- the scheduler picks a runnable process and sleep() resumes after sched()
      if s.ptlock = none ∧ (s.proc p).state = .runnable then
        some ((s.setProc p fun proc => { proc with state := .running, chan := none }).goto p
          (.reacquire sem count))
      else none
    | .reacquire sem count => s.acquire p sem (.looping sem count)
    | .waking sem count =>
      if s.ptlock = none then
        some ({ s with proc := wakeup1 s.proc (.sema sem) }.goto p (.releasing sem (.signal count)))
      else none
    | .releasing sem _ => some ((s.release sem).finish p 0)
  | .kill pid => if s.ptlock = none then some { s with proc := (killTable s.proc pid).1 } else none
  | .rest p proc =>
    if s.ptlock = none ∧ s.pc p = .outside then some (s.setProc p fun _ => proc) else none

/-- Everything a step can do, guards included. -/
inductive SemMove (s : SemState) : SemEvent → SemState → Prop where
  | reject (p : Slot) (sem : Int32) (op : SemOp) (here : s.pc p = .outside)
      (running : (s.proc p).state = .running) (outOfRange : semIndex sem = none) :
      SemMove s (.call p sem op) (s.finish p (-1))
  | call (p : Slot) (number : Int32) (op : SemOp) (sem : Index) (here : s.pc p = .outside)
      (running : (s.proc p).state = .running) (index : semIndex number = some sem) :
      SemMove s (.call p number op) (s.goto p (.acquiring sem op))
  | acquire (p : Slot) (sem : Index) (op : SemOp) (here : s.pc p = .acquiring sem op)
      (free : (s.sema sem).lock = none) :
      SemMove s (.step p)
        ((s.setSema sem fun sema => { sema with lock := some p }).goto p (.locked sem op))
  | initAgain (p : Slot) (sem : Index) (value : Int32) (here : s.pc p = .locked sem (.init value))
      (active : (s.sema sem).active = true) :
      SemMove s (.step p) (s.goto p (.releasing sem (.init value)))
  | activate (p : Slot) (sem : Index) (value : Int32) (here : s.pc p = .locked sem (.init value))
      (inactive : (s.sema sem).active = false) :
      SemMove s (.step p)
        ((s.setSema sem fun sema => { sema with active := true, value := value }).goto p
          (.releasing sem (.init value)))
  | destroy (p : Slot) (sem : Index) (here : s.pc p = .locked sem .destroy) :
      SemMove s (.step p)
        ((s.setSema sem fun sema => { sema with active := false }).goto p (.releasing sem .destroy))
  | take (p : Slot) (sem : Index) (count : Int32)
      (here : s.pc p = .locked sem (.wait count) ∨ s.pc p = .looping sem count)
      (enough : count ≤ (s.sema sem).value) :
      SemMove s (.step p)
        ((s.setSema sem fun sema => { sema with value := sema.value - count }).goto p
          (.releasing sem (.wait count)))
  | short (p : Slot) (sem : Index) (count : Int32) (here : s.pc p = .locked sem (.wait count))
      (lacking : (s.sema sem).value < count) : SemMove s (.step p) (s.goto p (.looping sem count))
  | signal (p : Slot) (sem : Index) (count : Int32) (here : s.pc p = .locked sem (.signal count)) :
      SemMove s (.step p)
        ((s.setSema sem fun sema => { sema with value := sema.value + count }).goto p (.waking sem count))
  | sleep (p : Slot) (sem : Index) (count : Int32) (here : s.pc p = .looping sem count)
      (lacking : (s.sema sem).value < count) : SemMove s (.step p) (s.goto p (.sleepAcquire sem count))
  | sleepAcquire (p : Slot) (sem : Index) (count : Int32) (here : s.pc p = .sleepAcquire sem count)
      (free : s.ptlock = none) :
      SemMove s (.step p) ({ s with ptlock := some p }.goto p (.sleepRelease sem count))
  | sleepRelease (p : Slot) (sem : Index) (count : Int32) (here : s.pc p = .sleepRelease sem count) :
      SemMove s (.step p) ((s.release sem).goto p (.sleepCommit sem count))
  | sleepCommit (p : Slot) (sem : Index) (count : Int32) (here : s.pc p = .sleepCommit sem count) :
      SemMove s (.step p) (({ s with ptlock := none }.setProc p fun proc =>
        { proc with chan := some (.sema sem), state := .sleeping }).goto p (.asleep sem count))
  | resume (p : Slot) (sem : Index) (count : Int32) (here : s.pc p = .asleep sem count)
      (free : s.ptlock = none) (runnable : (s.proc p).state = .runnable) :
      SemMove s (.step p)
        ((s.setProc p fun proc => { proc with state := .running, chan := none }).goto p
          (.reacquire sem count))
  | reacquire (p : Slot) (sem : Index) (count : Int32) (here : s.pc p = .reacquire sem count)
      (free : (s.sema sem).lock = none) :
      SemMove s (.step p)
        ((s.setSema sem fun sema => { sema with lock := some p }).goto p (.looping sem count))
  | wakeup (p : Slot) (sem : Index) (count : Int32) (here : s.pc p = .waking sem count)
      (free : s.ptlock = none) :
      SemMove s (.step p)
        ({ s with proc := wakeup1 s.proc (.sema sem) }.goto p (.releasing sem (.signal count)))
  | release (p : Slot) (sem : Index) (op : SemOp) (here : s.pc p = .releasing sem op) :
      SemMove s (.step p) ((s.release sem).finish p 0)
  | kill (pid : Int32) (free : s.ptlock = none) :
      SemMove s (.kill pid) { s with proc := (killTable s.proc pid).1 }
  | rest (p : Slot) (proc : Proc) (free : s.ptlock = none) (here : s.pc p = .outside) :
      SemMove s (.rest p proc) (s.setProc p fun _ => proc)

theorem semBody_move {s : SemState} {p : Slot} {sem : Index} {op : SemOp} (here : s.pc p = .locked sem op) :
    SemMove s (.step p) (semBody s p sem op) := by
  cases op with
  | init value =>
    simp only [semBody]
    split
    · rename_i active
      exact .initAgain p sem value here active
    · rename_i inactive
      exact .activate p sem value here (by simpa using inactive)
  | destroy => exact .destroy p sem here
  | wait count =>
    simp only [semBody]
    split
    · rename_i enough
      exact .take p sem count (.inl here) enough
    · rename_i lacking
      exact .short p sem count here (Int32.not_le.mp lacking)
  | signal count => exact .signal p sem count here

theorem semStep_move {s next : SemState} {event : SemEvent} (stepped : semStep s event = some next) : SemMove s event next := by
  cases event with
  | call p number op =>
    simp only [semStep, ite_none_right_eq_some] at stepped
    obtain ⟨⟨here, running⟩, taken⟩ := stepped
    cases index : semIndex number with
    | none =>
      simp only [index, some.injEq] at taken
      subst next
      exact .reject p number op here running index
    | some sem =>
      simp only [index, some.injEq] at taken
      subst next
      exact .call p number op sem here running index
  | step p =>
    cases here : s.pc p with
    | outside => simp [semStep, here] at stepped
    | acquiring sem op =>
      simp only [semStep, here, SemState.acquire, guarded] at stepped
      obtain ⟨free, rfl⟩ := stepped
      exact .acquire p sem op here free
    | locked =>
      simp only [semStep, here, some.injEq] at stepped
      subst next
      exact semBody_move here
    | looping sem count =>
      simp only [semStep, here] at stepped
      split at stepped
      · rename_i lacking
        cases stepped
        exact .sleep p sem count here lacking
      · rename_i enough
        cases stepped
        exact .take p sem count (.inr here) (Int32.not_lt.mp enough)
    | sleepAcquire sem count =>
      simp only [semStep, here, guarded] at stepped
      obtain ⟨free, rfl⟩ := stepped
      exact .sleepAcquire p sem count here free
    | sleepRelease sem count =>
      simp only [semStep, here, some.injEq] at stepped
      subst next
      exact .sleepRelease p sem count here
    | sleepCommit sem count =>
      simp only [semStep, here, some.injEq] at stepped
      subst next
      exact .sleepCommit p sem count here
    | asleep sem count =>
      simp only [semStep, here, guarded] at stepped
      obtain ⟨⟨free, runnable⟩, rfl⟩ := stepped
      exact .resume p sem count here free runnable
    | reacquire sem count =>
      simp only [semStep, here, SemState.acquire, guarded] at stepped
      obtain ⟨free, rfl⟩ := stepped
      exact .reacquire p sem count here free
    | waking sem count =>
      simp only [semStep, here, guarded] at stepped
      obtain ⟨free, rfl⟩ := stepped
      exact .wakeup p sem count here free
    | releasing sem op =>
      simp only [semStep, here, some.injEq] at stepped
      subst next
      exact .release p sem op here
  | kill pid =>
    simp only [semStep, guarded] at stepped
    obtain ⟨free, rfl⟩ := stepped
    exact .kill pid free
  | rest p proc =>
    simp only [semStep, guarded] at stepped
    obtain ⟨⟨free, here⟩, rfl⟩ := stepped
    exact .rest p proc free here

def SemEvent.actor : SemEvent → Option Slot
  | .call p _ _ | .step p => some p
  | _ => none

theorem pc_frame {s next : SemState} {event : SemEvent} {p : Slot} (stepped : semStep s event = some next)
    (idle : event.actor ≠ some p) : next.pc p = s.pc p := by
  cases semStep_move stepped with
  | kill | rest => rfl
  | _ => exact update_of_ne (fun same => idle (congrArg some same.symm)) _ _

end Xv6.Sem
