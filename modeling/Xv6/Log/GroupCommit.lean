import Xv6.Log.Commit

namespace Xv6.Log

open Option

/-! begin_op, log_write, end_op and commit run by any number of processes.
The sections under `log.lock` are single steps. log_write makes its capacity
test before it takes the lock, so its test and its append are two steps. -/

/-- Where a process is in the logging interface. `logged` records the distinct
blocks an operation has passed to log_write; the code keeps no such list. -/
inductive LogPc where
  | idle
  | beginning
  | sleeping
  | inOp (logged : List UInt32)
  | appending (logged : List UInt32) (blockno : UInt32)
  | writing (tail : Nat)
  | installing
  | closing
deriving DecidableEq, Repr

inductive Panic where
  | tooBigATransaction | logWriteOutsideOfTrans | logCommitting
deriving DecidableEq, Repr

structure LogState (P : Type) where
  outstanding : Int := 0
  committing : Bool := false
  block : List UInt32 := []
  pc : P → LogPc := fun _ => .idle
  /-- The block numbers write_log has written so far. -/
  written : List Nat := []
  panic : Option Panic := none

inductive LogEvent (P : Type) where
  | call (p : P)
  | enter (p : P)
  | wake (p : P)
  | test (p : P) (blockno : UInt32)
  | append (p : P)
  | endOp (p : P)
  | commit (p : P)
deriving DecidableEq, Repr

variable {P : Type} [DecidableEq P]

def LogState.goto (s : LogState P) (p : P) (pc : LogPc) : LogState P :=
  { s with pc := Function.update s.pc p pc }

def LogState.wakeup (s : LogState P) : LogState P :=
  { s with pc := fun q => if s.pc q = .sleeping then .beginning else s.pc q }

/-- One iteration of begin_op's loop. -/
def beginOp (s : LogState P) (p : P) : LogState P :=
  if s.committing then s.goto p .sleeping
  else if (s.block.length : Int) + (s.outstanding + 1) * MAXOPBLOCKS > LOGSIZE then s.goto p .sleeping
  else { s with outstanding := s.outstanding + 1 }.goto p (.inOp [])

def logWriteTest (log : Region) (s : LogState P) (p : P) (logged : List UInt32) (blockno : UInt32) : LogState P :=
  if s.block.length ≥ LOGSIZE ∨ s.block.length ≥ log.size - 1 then
    { s with panic := some .tooBigATransaction }
  else if s.outstanding < 1 then { s with panic := some .logWriteOutsideOfTrans }
  else s.goto p (.appending (logged.insert blockno) blockno)

/-- The locked half of log_write: absorb the block if it is already logged. -/
def logWriteAppend (s : LogState P) (p : P) (logged : List UInt32) (blockno : UInt32) : LogState P :=
  if blockno ∈ s.block then s.goto p (.inOp logged)
  else { s with block := s.block ++ [blockno] }.goto p (.inOp logged)

/-- end_op up to its release of the lock. The last operation goes on to commit. -/
def endOp (s : LogState P) (p : P) : LogState P :=
  let s := { s with outstanding := s.outstanding - 1 }
  if s.committing then { s with panic := some .logCommitting }
  else if s.outstanding = 0 then { s with committing := true }.goto p (.writing 0)
  else s.wakeup.goto p .idle

/-- commit() and the end of end_op, one disk write of write_log at a time. The
header writes and install_trans touch nothing that is modelled here. The buffer
cache is left out: where bget finds no buffer it panics, and the run ends. -/
def commitStep (log : Region) (s : LogState P) (p : P) : LogPc → Option (LogState P)
  | .writing tail =>
    if tail < s.block.length then
      some ({ s with written := s.written ++ [log.start + tail + 1] }.goto p (.writing (tail + 1)))
    else some (s.goto p .installing)
  | .installing => some ({ s with block := [] }.goto p .closing)
  | .closing => some ({ s with committing := false }.wakeup.goto p .idle)
  | _ => none

-- A kernel that has panicked takes no further step.
def logStep (log : Region) (s : LogState P) (event : LogEvent P) : Option (LogState P) :=
  if s.panic.isSome then none
  else
    match event with
    | .call p => if s.pc p = .idle then some (s.goto p .beginning) else none
    | .enter p => if s.pc p = .beginning then some (beginOp s p) else none
    | .wake p => if s.pc p = .sleeping then some (s.goto p .beginning) else none
    | .test p blockno =>
      match s.pc p with
      | .inOp logged => some (logWriteTest log s p logged blockno)
      | _ => none
    | .append p =>
      match s.pc p with
      | .appending logged blockno => some (logWriteAppend s p logged blockno)
      | _ => none
    | .endOp p =>
      match s.pc p with
      | .inOp _ => some (endOp s p)
      | _ => none
    | .commit p => commitStep log s p (s.pc p)

/-- Everything a step can do, guards included. -/
inductive LogMove (log : Region) (s : LogState P) : LogEvent P → LogState P → Prop where
  | call (p : P) (here : s.pc p = .idle) : LogMove log s (.call p) (s.goto p .beginning)
  | sleep (p : P) (here : s.pc p = .beginning)
      (full : s.committing = true ∨ (s.block.length : Int) + (s.outstanding + 1) * MAXOPBLOCKS > LOGSIZE) :
      LogMove log s (.enter p) (s.goto p .sleeping)
  | enter (p : P) (here : s.pc p = .beginning) (idle : s.committing = false)
      (room : (s.block.length : Int) + (s.outstanding + 1) * MAXOPBLOCKS ≤ LOGSIZE) :
      LogMove log s (.enter p) ({ s with outstanding := s.outstanding + 1 }.goto p (.inOp []))
  | wake (p : P) (here : s.pc p = .sleeping) : LogMove log s (.wake p) (s.goto p .beginning)
  | test (p : P) (blockno : UInt32) (logged : List UInt32) (here : s.pc p = .inOp logged)
      (capacity : s.block.length < LOGSIZE ∧ s.block.length < log.size - 1) (busy : 1 ≤ s.outstanding) :
      LogMove log s (.test p blockno) (s.goto p (.appending (logged.insert blockno) blockno))
  | tooBig (p : P) (blockno : UInt32) (logged : List UInt32) (here : s.pc p = .inOp logged)
      (full : s.block.length ≥ LOGSIZE ∨ s.block.length ≥ log.size - 1) :
      LogMove log s (.test p blockno) { s with panic := some .tooBigATransaction }
  | outside (p : P) (blockno : UInt32) (logged : List UInt32) (here : s.pc p = .inOp logged)
      (idle : s.outstanding < 1) :
      LogMove log s (.test p blockno) { s with panic := some .logWriteOutsideOfTrans }
  | absorb (p : P) (logged : List UInt32) (blockno : UInt32) (here : s.pc p = .appending logged blockno)
      (present : blockno ∈ s.block) : LogMove log s (.append p) (s.goto p (.inOp logged))
  | append (p : P) (logged : List UInt32) (blockno : UInt32) (here : s.pc p = .appending logged blockno)
      (absent : blockno ∉ s.block) :
      LogMove log s (.append p) ({ s with block := s.block ++ [blockno] }.goto p (.inOp logged))
  | committing (p : P) (logged : List UInt32) (here : s.pc p = .inOp logged) (busy : s.committing = true) :
      LogMove log s (.endOp p)
        { s with outstanding := s.outstanding - 1, panic := some .logCommitting }
  | last (p : P) (logged : List UInt32) (here : s.pc p = .inOp logged) (idle : s.committing = false)
      (alone : s.outstanding = 1) :
      LogMove log s (.endOp p) ({ s with outstanding := 0, committing := true }.goto p (.writing 0))
  | leave (p : P) (logged : List UInt32) (here : s.pc p = .inOp logged) (idle : s.committing = false)
      (others : s.outstanding ≠ 1) :
      LogMove log s (.endOp p) ({ s with outstanding := s.outstanding - 1 }.wakeup.goto p .idle)
  | write (p : P) (tail : Nat) (here : s.pc p = .writing tail) (inside : tail < s.block.length) :
      LogMove log s (.commit p)
        ({ s with written := s.written ++ [log.start + tail + 1] }.goto p (.writing (tail + 1)))
  | written (p : P) (tail : Nat) (here : s.pc p = .writing tail) (done : s.block.length ≤ tail) :
      LogMove log s (.commit p) (s.goto p .installing)
  | install (p : P) (here : s.pc p = .installing) :
      LogMove log s (.commit p) ({ s with block := [] }.goto p .closing)
  | close (p : P) (here : s.pc p = .closing) :
      LogMove log s (.commit p) ({ s with committing := false }.wakeup.goto p .idle)

theorem logStep_move {log : Region} {s next : LogState P} {event : LogEvent P}
    (stepped : logStep log s event = some next) : s.panic = none ∧ LogMove log s event next := by
  unfold logStep at stepped
  split at stepped
  · contradiction
  · rename_i calm
    refine ⟨by simpa using calm, ?_⟩
    cases event with
    | call p =>
      simp only [ite_none_right_eq_some, some.injEq] at stepped
      obtain ⟨here, rfl⟩ := stepped
      exact .call p here
    | enter p =>
      simp only [ite_none_right_eq_some, some.injEq] at stepped
      obtain ⟨here, rfl⟩ := stepped
      unfold beginOp
      split
      · rename_i busy
        exact .sleep p here (.inl busy)
      · rename_i idle
        split
        · rename_i full
          exact .sleep p here (.inr full)
        · rename_i room
          exact .enter p here (by simpa using idle) (by omega)
    | wake p =>
      simp only [ite_none_right_eq_some, some.injEq] at stepped
      obtain ⟨here, rfl⟩ := stepped
      exact .wake p here
    | test p blockno =>
      cases here : s.pc p with
      | inOp logged =>
        simp only [here, some.injEq] at stepped
        subst next
        unfold logWriteTest
        split
        · rename_i full
          exact .tooBig p blockno logged here full
        · rename_i capacity
          split
          · rename_i idle
            exact .outside p blockno logged here idle
          · rename_i busy
            exact .test p blockno logged here (by omega) (by omega)
      | _ => simp [here] at stepped
    | append p =>
      cases here : s.pc p with
      | appending logged blockno =>
        simp only [here, some.injEq] at stepped
        subst next
        unfold logWriteAppend
        split
        · rename_i present
          exact .absorb p logged blockno here present
        · rename_i absent
          exact .append p logged blockno here absent
      | _ => simp [here] at stepped
    | endOp p =>
      cases here : s.pc p with
      | inOp logged =>
        simp only [here, some.injEq] at stepped
        subst next
        simp only [endOp]
        split
        · rename_i busy
          exact .committing p logged here busy
        · rename_i idle
          have quiet : s.committing = false := by simpa using idle
          split
          · rename_i alone
            rw [alone]
            exact .last p logged here quiet (by omega)
          · rename_i others
            exact .leave p logged here quiet (by omega)
      | _ => simp [here] at stepped
    | commit p =>
      cases here : s.pc p with
      | writing tail =>
        simp only [here, commitStep] at stepped
        split at stepped
        · rename_i inside
          cases stepped
          exact .write p tail here inside
        · rename_i done
          cases stepped
          exact .written p tail here (by omega)
      | installing =>
        simp only [here, commitStep, some.injEq] at stepped
        subst next
        exact .install p here
      | closing =>
        simp only [here, commitStep, some.injEq] at stepped
        subst next
        exact .close p here
      | _ => simp [here, commitStep] at stepped

end Xv6.Log
