import Xv6.Data.Run
import Xv6.Process.Table

namespace Xv6.Interrupt

open Function

open Process (ProcState)

/-! The interrupt flag, pushcli and popcli. A kernel thread is the thread of a
process or the scheduler of a CPU. It is a stack of frames, one for each interrupt
that it is handling and one for the code that was interrupted first. What a thread
does between these calls is left open; `clis` and `held` are auxiliary and say which
of them it has to undo. -/

inductive Lock where
  | ptable
  | schedulerlock
  | other (n : Nat)
deriving DecidableEq, Repr

inductive Op where
  | run
  /-- In pushcli, after readeflags; for acquire, with its lock. -/
  | cli (eflags : Bool) (lock : Option Lock)
  | spin (lock : Lock)
  /-- In sched, after swtch. -/
  | swtch (intena : Bool)
deriving DecidableEq, Repr

structure Frame where
  /-- The interrupt flag that iret restores. -/
  saved : Bool := false
  op : Op := .run
  /-- Calls of pushcli without popcli. -/
  clis : Nat := 0
  /-- Calls of acquire without release. -/
  held : List Lock := []
  /-- Auxiliary: the flag at the outermost pushcli or acquire. -/
  entry : Option Bool := none
deriving DecidableEq, Repr

def Op.spinning : Op → Nat
  | .spin _ => 1
  | _ => 0

/-- How many calls of pushcli are to be undone. -/
def Frame.depth (frame : Frame) : Nat := frame.clis + frame.held.length + frame.op.spinning

structure Cpu where
  ncli : Int := 0
  intena : Bool := false
  flag : Bool := false
deriving DecidableEq, Repr

inductive Panic where
  /-- "mycpu called with interrupts enabled" -/
  | mycpu
  /-- "popcli - interruptible" -/
  | popcliInterruptible
  | popcli
  | acquire
  | release
  /-- "sched ptable.lock" -/
  | schedPtable
  /-- "sched locks" -/
  | schedLocks
  /-- "sched running" -/
  | schedRunning
  /-- "sched interruptible" -/
  | schedInterruptible
deriving DecidableEq, Repr

namespace Cpu

variable (cpu : Cpu)

def mycpu : Except Panic Cpu := if cpu.flag = true then .error .mycpu else .ok cpu

/-- From cli on. -/
def pushcli (eflags : Bool) : Cpu where
  flag := false
  intena := if cpu.ncli = 0 then eflags else cpu.intena
  ncli := cpu.ncli + 1

def popcli : Except Panic Cpu :=
  if cpu.flag = true then .error .popcliInterruptible
  else if cpu.ncli - 1 < 0 then .error .popcli
  else .ok { cpu with ncli := cpu.ncli - 1, flag := cpu.ncli - 1 = 0 ∧ cpu.intena = true }

end Cpu

namespace Frame

variable (frame : Frame) (lock : Option Lock)

/-- pushcli, up to readeflags. -/
def enter (cpu : Cpu) : Frame :=
  { frame with op := .cli cpu.flag lock, entry := if frame.depth = 0 then some cpu.flag else frame.entry }

/-- pushcli, from cli on. -/
def push : Frame :=
  match lock with
  | none => { frame with op := .run, clis := frame.clis + 1 }
  | some lock => { frame with op := .spin lock }

/-- acquire, when the lock is free. -/
def take (lock : Lock) : Frame := { frame with op := .run, held := lock :: frame.held }

end Frame

/-- What a scheduler does next, when its frame is at `run`. -/
inductive Loop where
  | sti
  | acquirePtable
  | acquireChoose
  | releaseChoose
  | switch
  | releasePtable
deriving DecidableEq, Repr

structure Proc where
  state : ProcState := .unused
  frames : List Frame := []

structure Scheduler where
  loop : Loop := .sti
  frames : List Frame := [{}]

structure State (C P : Type) where
  cpu : C → Cpu := fun _ => {}
  /-- `c->proc`, for the thread that runs; none is the scheduler. -/
  running : C → Option P := fun _ => none
  scheduler : C → Scheduler := fun _ => {}
  proc : P → Proc
  /-- `lk->cpu` of a lock that is locked. -/
  lock : Lock → Option C := fun _ => none
  halted : Option Panic := none

/-- A process that will start at forkret, which returns from the acquire of a scheduler. -/
def forkret : List Frame := [{ held := [.ptable] }]

inductive Event (C P : Type) where
  | pushcli (c : C)
  | acquire (c : C) (lock : Lock)
  /-- The rest of pushcli or acquire, or of sched when it is back. -/
  | resume (c : C)
  | popcli (c : C)
  | release (c : C) (lock : Lock)
  | interrupt (c : C)
  /-- cpuid in a handler, which calls mycpu. -/
  | cpuid (c : C)
  | iret (c : C)
  | trapret (c : C)
  /-- The process gives up its state before it calls sched. -/
  | park (c : C) (state : ProcState)
  | sched (c : C)
  /-- A thread that has `ptable.lock` changes the state of another process. -/
  | wakeup (c : C) (q : P)
  | fork (c : C) (q : P)
  | wait (c : C) (q : P)
  /-- The next call of a scheduler; `next` is what ready_process returns. -/
  | loop (c : C) (next : Option P)
deriving DecidableEq, Repr

namespace State

variable {C P : Type} [DecidableEq C] [DecidableEq P] (s : State C P) (c : C)

def stack : List Frame :=
  match s.running c with
  | some p => (s.proc p).frames
  | none => (s.scheduler c).frames

def setStack (frames : List Frame) : State C P :=
  match s.running c with
  | some p => { s with proc := update s.proc p { s.proc p with frames } }
  | none => { s with scheduler := update s.scheduler c { s.scheduler c with frames } }

def setCpu (cpu : Cpu) : State C P := { s with cpu := update s.cpu c cpu }

def setLock (lock : Lock) (owner : Option C) : State C P := { s with lock := update s.lock lock owner }

def setState (p : P) (state : ProcState) : State C P :=
  { s with proc := update s.proc p { s.proc p with state } }

def halt (panic : Panic) : State C P := { s with halted := some panic }

/-- Whether the thread on `c` is the code of a process, or a handler. -/
def Free : Prop :=
  match s.running c with
  | some p => (s.proc p).state = .running
  | none => 2 ≤ (s.scheduler c).frames.length

instance : Decidable (s.Free c) := by
  unfold Free
  split <;> infer_instance

def enter (lock : Option Lock) (frame : Frame) (rest : List Frame) : State C P :=
  s.setStack c (frame.enter lock (s.cpu c) :: rest)

def holding (lock : Lock) : Except Panic Bool :=
  match s.lock lock with
  | none => .ok false
  | some owner => (s.cpu c).mycpu.map fun _ => owner = c

/-- popcli, when `frame` is what the thread has to undo after it. -/
def leave (frame : Frame) (rest : List Frame) : State C P :=
  match (s.cpu c).popcli with
  | .error panic => s.halt panic
  | .ok cpu => (s.setCpu c cpu).setStack c (frame :: rest)

def release (lock : Lock) (frame : Frame) (rest : List Frame) : State C P :=
  match s.holding c lock with
  | .error panic => s.halt panic
  | .ok false => s.halt .release
  | .ok true => (s.setLock lock none).leave c { frame with held := frame.held.erase lock } rest

def resume (frame : Frame) (rest : List Frame) : Option (State C P) :=
  match frame.op with
  | .run => none
  | .cli eflags lock =>
    let next := (s.setCpu c ((s.cpu c).pushcli eflags)).setStack c (frame.push lock :: rest)
    if ∃ l ∈ lock, s.lock l = some c then some (next.halt .acquire) else some next
  | .spin lock => if s.lock lock = none then some ((s.setLock lock (some c)).setStack c (frame.take lock :: rest)) else none
  | .swtch intena =>
    match (s.cpu c).mycpu with
    | .error panic => some (s.halt panic)
    | .ok cpu => some ((s.setCpu c { cpu with intena }).setStack c ({ frame with op := .run } :: rest))

/-- sched in the process `p`; myproc is a pushcli and a popcli. -/
def sched (p : P) (frame : Frame) (rest : List Frame) : State C P :=
  match s.holding c .ptable with
  | .error panic => s.halt panic
  | .ok false => s.halt .schedPtable
  | .ok true =>
    if (s.cpu c).ncli ≠ 1 then s.halt .schedLocks
    else if (s.proc p).state = .running then s.halt .schedRunning
    else if (s.cpu c).flag = true then s.halt .schedInterruptible
    else
      { s.setStack c ({ frame with op := .swtch (s.cpu c).intena } :: rest) with
        running := update s.running c none }

def setLoop (loop : Loop) : State C P :=
  { s with scheduler := update s.scheduler c { s.scheduler c with loop } }

def loop (next : Option P) (frame : Frame) : Option (State C P) :=
  match (s.scheduler c).loop with
  | .sti => some ((s.setCpu c { s.cpu c with flag := true }).setLoop c .acquirePtable)
  | .acquirePtable => some ((s.setLoop c .acquireChoose).enter c (some .ptable) frame [])
  | .acquireChoose => some ((s.setLoop c .releaseChoose).enter c (some .schedulerlock) frame [])
  | .releaseChoose => some ((s.setLoop c .switch).release c .schedulerlock frame [])
  | .switch =>
    match next with
    | none => some (s.setLoop c .releasePtable)
    | some p =>
      if (s.proc p).state = .runnable then
        some { (s.setLoop c .releasePtable).setState p .running with running := update s.running c (some p) }
      else none
  | .releasePtable => some ((s.setLoop c .sti).release c .ptable frame [])

/-- A change of the state of `q` by a thread that has `ptable.lock`. -/
def change (frame : Frame) (q : P) (old new : ProcState) : Option (State C P) :=
  if s.Free c ∧ frame.op = .run ∧ .ptable ∈ frame.held ∧ (s.proc q).state = old then some (s.setState q new) else none

def step (event : Event C P) : Option (State C P) :=
  if s.halted = none then
    match event with
    | .pushcli c =>
      match s.stack c with
      | frame :: rest => if s.Free c ∧ frame.op = .run then some (s.enter c none frame rest) else none
      | [] => none
    | .acquire c lock =>
      match s.stack c with
      | frame :: rest => if s.Free c ∧ frame.op = .run then some (s.enter c (some lock) frame rest) else none
      | [] => none
    | .resume c =>
      match s.stack c with
      | frame :: rest => s.resume c frame rest
      | [] => none
    | .popcli c =>
      match s.stack c with
      | frame :: rest =>
        if s.Free c ∧ frame.op = .run ∧ 0 < frame.clis then some (s.leave c { frame with clis := frame.clis - 1 } rest)
        else none
      | [] => none
    | .release c lock =>
      match s.stack c with
      | frame :: rest =>
        if s.Free c ∧ frame.op = .run ∧ lock ∈ frame.held then some (s.release c lock frame rest) else none
      | [] => none
    | .interrupt c =>
      if (s.cpu c).flag = true then
        some ((s.setCpu c { s.cpu c with flag := false }).setStack c ({ saved := (s.cpu c).flag } :: s.stack c))
      else none
    | .cpuid c =>
      match s.stack c with
      | frame :: _ :: _ =>
        if s.Free c ∧ frame.op = .run then
          match (s.cpu c).mycpu with
          | .error panic => some (s.halt panic)
          | .ok _ => some s
        else none
      | _ => none
    | .iret c =>
      match s.stack c with
      | frame :: below :: rest =>
        if s.Free c ∧ frame.op = .run ∧ frame.depth = 0 then
          some ((s.setCpu c { s.cpu c with flag := frame.saved }).setStack c (below :: rest))
        else none
      | _ => none
    | .trapret c =>
      match s.running c, s.stack c with
      | some _, [frame] =>
        if s.Free c ∧ frame.op = .run ∧ frame.depth = 0 then some (s.setCpu c { s.cpu c with flag := true }) else none
      | _, _ => none
    | .park c state =>
      match s.running c, s.stack c with
      | some p, frame :: _ =>
        if s.Free c ∧ frame.op = .run ∧ .ptable ∈ frame.held ∧ state ∈ [.runnable, .sleeping, .zombie] then
          some (s.setState p state)
        else none
      | _, _ => none
    | .sched c =>
      match s.running c, s.stack c with
      | some p, frame :: rest =>
        if (s.proc p).state ≠ .running ∧ frame.op = .run then some (s.sched c p frame rest) else none
      | _, _ => none
    | .wakeup c q =>
      match s.stack c with
      | frame :: _ => s.change c frame q .sleeping .runnable
      | [] => none
    | .fork c q =>
      match s.stack c with
      | frame :: _ =>
        (s.change c frame q .unused .runnable).map fun s =>
          { s with proc := update s.proc q { s.proc q with frames := forkret } }
      | [] => none
    | .wait c q =>
      match s.stack c with
      | frame :: _ => s.change c frame q .zombie .unused
      | [] => none
    | .loop c next =>
      match s.running c, s.stack c with
      | none, [frame] => if frame.op = .run then s.loop c next frame else none
      | _, _ => none
  else none

/-- Before the first process runs; `ready` are the processes that are RUNNABLE. -/
def boot (ready : P → Bool) : State C P where
  proc p := if ready p = true then { state := .runnable, frames := forkret } else {}

end State

end Xv6.Interrupt
