import Xv6.Process.Calls
import Xv6.Scheduler.Policies

namespace Xv6.Kernel

open Process Scheduler Function

/-! The process subsystem on any number of CPUs. A section under `ptable.lock`
is one step, except that the lock stays taken across `swtch`: from a dispatch to
the release by the process that resumes, and from `sched` to the release in
scheduler(). fork, clone and exec run in several steps, between which everything
else may happen. -/

inductive Mode where
  | scheduler | resuming | process | switched
deriving DecidableEq, Repr

structure CpuState where
  proc : Option Slot := none
  mode : Mode := .scheduler
deriving DecidableEq, Repr

inductive Creation where
  | fork
  | clone (stack : UInt32)
deriving DecidableEq, Repr

/-- How far a process has got in a call that takes several steps. -/
inductive Task where
  | user
  | allocated (kind : Creation) (np : Slot)
  | stacked (kind : Creation) (np : Slot)
  | filled (np : Slot)
  | waiting (kind : Reaper)
  | exec (pgdir : Page)
deriving DecidableEq, Repr

inductive PageUse where
  | free | dir | kstack | other
deriving DecidableEq, Repr

structure Machine (Cpu : Type) where
  proc : Table
  lock : Option Cpu := none
  cpus : Cpu → CpuState := fun _ => {}
  task : Slot → Task := fun _ => .user
  nextpid : Int32
  initproc : Slot
  ticks : UInt32 := 0
  pages : Page → PageUse
  sched : SchedState := {}
  /-- None once it has been read from past the end of `schedulerFunction`. -/
  readyProcess : Option Policy
  schedSelected : Int32
  result : Slot → Option Int32 := fun _ => none

/-- What the process on a CPU does next. Pages are the results of kalloc. -/
inductive Action where
  | yield
  | sleep (chan : Chan)
  | kill (pid : Int32)
  | fork
  | clone (stack : UInt32)
  | kstack (page : Option Page)
  | copyuvm (dir : Option Page)
  | shareuvm
  | ready
  | exit
  | wait (kind : Reaper)
  | execAlloc (dir : Option Page)
  | execBad
  | execCommit (sz : UInt32) (name : List UInt8)
  | setscheduler (sid : Int32)
deriving DecidableEq, Repr

/-- `stray` is what a call through a bad `ready_process` happens to return. -/
inductive Event (Cpu : Type) where
  | dispatch (c : Cpu) (stray : Option Slot)
  | resume (c : Cpu)
  | retire (c : Cpu)
  | act (c : Cpu) (action : Action)
  | wakeup (chan : Chan)
  | tick
  | updateStatistics
  | kalloc (page : Page)
  | kfree (page : Page)
deriving DecidableEq, Repr

variable {Cpu : Type} [DecidableEq Cpu]

namespace Machine

variable (m : Machine Cpu) (c : Cpu) (p : Slot)

def running : Option Slot := if (m.cpus c).mode = .process then (m.cpus c).proc else none

def setProc (change : Proc → Proc) : Machine Cpu :=
  { m with proc := update m.proc p (change (m.proc p)) }

def setTask (task : Task) : Machine Cpu := { m with task := update m.task p task }

def setCpu (cpu : CpuState) : Machine Cpu := { m with cpus := update m.cpus c cpu }

def setPage (page : Page) (use : PageUse) : Machine Cpu :=
  { m with pages := update m.pages page use }

/-- A call returns `value` to user space. -/
def finish (value : Int32) : Machine Cpu :=
  { m with task := update m.task p .user, result := update m.result p (some value) }

/-- `sched()`: the CPU goes back to scheduler() with the lock held. -/
def enterSched : Machine Cpu :=
  { m with lock := some c, cpus := update m.cpus c { m.cpus c with mode := .switched } }

def leave : Machine Cpu :=
  { m with lock := none, cpus := update m.cpus c { m.cpus c with mode := .process } }

/-- `sleep(chan, &ptable.lock)`, and sleep on another lock once ptable.lock is held. -/
def sleep (chan : Chan) : Machine Cpu :=
  (m.setProc p fun proc => { proc with chan := some chan, state := .sleeping, context := .sleep }).enterSched c

/-- kfree of the kernel stack and, for wait and wait2, freevm. -/
def freeZombie (kind : Reaper) (q : Slot) : Machine Cpu :=
  let m' := m.setPage (m.proc q).kstack .free
  if kind.freesSpace then m'.setPage (m.proc q).pgdir .free else m'

/-- wait, wait2 or join from the top of its loop, with the lock held. freevm
panics on a null page directory. -/
def reap (kind : Reaper) : Option (Machine Cpu) :=
  match kind.scan m.proc p with
  | .reap q =>
    if kind.freesSpace = true ∧ (m.proc q).pgdir = 0 then none
    else some ((((m.freeZombie kind q).setProc q kind.clear).finish p (m.proc q).pid).leave c)
  | .fail => some ((m.finish p (-1)).leave c)
  | .block => some ((m.setTask p (.waiting kind)).sleep c p (.proc p))

def create (kind : Creation) : Option (Machine Cpu) :=
  if m.lock = none ∧ m.task p = .user then
    match allocproc m.proc m.nextpid m.ticks with
    | none => some (m.finish p (-1))
    | some (np, table, nextpid) => some ({ m with proc := table, nextpid }.setTask p (.allocated kind np))
  else none

/-- The rest of allocproc, after its release of the lock. -/
def kstack (page : Option Page) : Option (Machine Cpu) :=
  match m.task p with
  | .allocated kind np =>
    match page with
    | none => some ((m.setProc np fun proc => { proc with kstack := 0, state := .unused }).finish p (-1))
    | some page =>
      if m.pages page = .free then
        some (((m.setPage page .kstack).setProc np fun proc =>
          { proc with kstack := page, context := .forkret }).setTask p (.stacked kind np))
      else none
  | _ => none

def copyuvm (dir : Option Page) : Option (Machine Cpu) :=
  match m.task p with
  | .stacked .fork np =>
    match dir with
    | none => some (((m.setPage (m.proc np).kstack .free).setProc np fun proc =>
      { proc with pgdir := 0, kstack := 0, state := .unused }).finish p (-1))
    | some dir =>
      if m.pages dir = .free then
        some (((m.setPage dir .dir).setProc np fun proc =>
          forkProc proc (m.proc p) p dir).setTask p (.filled np))
      else none
  | _ => none

def shareuvm : Option (Machine Cpu) :=
  match m.task p with
  | .stacked (.clone stack) np =>
    some ((m.setProc np fun proc => cloneProc proc (m.proc p) p stack).setTask p (.filled np))
  | _ => none

def ready : Option (Machine Cpu) :=
  match m.task p with
  | .filled np =>
    if m.lock = none then
      some ((m.setProc np fun proc => { proc with state := .runnable }).finish p (m.proc np).pid)
    else none
  | _ => none

/-- exec up to setupkvm, whose failure is one of the ways it returns -1. -/
def execAlloc (dir : Option Page) : Option (Machine Cpu) :=
  if m.task p = .user then
    match dir with
    | none => some (m.finish p (-1))
    | some dir => if m.pages dir = .free then some ((m.setPage dir .dir).setTask p (.exec dir)) else none
  else none

def execBad : Option (Machine Cpu) :=
  match m.task p with
  | .exec dir => some ((m.setPage dir .free).finish p (-1))
  | _ => none

def execCommit (sz : UInt32) (name : List UInt8) : Option (Machine Cpu) :=
  match m.task p with
  | .exec dir =>
    if (m.proc p).pgdir = 0 then none
    else some (((m.setPage (m.proc p).pgdir .free).setProc p fun proc =>
      { proc with pgdir := dir, sz := sz, name := name }).finish p 0)
  | _ => none

def setscheduler (sid : Int32) : Option (Machine Cpu) :=
  if m.task p = .user then
    if sid < 0 ∨ sid > Int32.ofNat schedulerName.length then some (m.finish p (-1))
    else some ({ m with
      readyProcess := schedulerFunction[sid.toInt.toNat]?, schedSelected := sid }.finish p sid)
  else none

/-- sleep() with a lock other than ptable.lock; fork, clone and the reapers do not call it. -/
def sleepOn (chan : Chan) : Option (Machine Cpu) :=
  match m.task p, chan with
  | _, .proc _ => none
  | .user, chan => if m.lock = none then some (m.sleep c p chan) else none
  | .exec _, chan => if m.lock = none then some (m.sleep c p chan) else none
  | _, _ => none

def act : Action → Option (Machine Cpu)
  | .yield =>
    if m.lock = none then
      some ((m.setProc p fun proc => { proc with state := .runnable, context := .yield }).enterSched c)
    else none
  | .sleep chan => m.sleepOn c p chan
  | .kill pid =>
    if m.lock = none ∧ m.task p = .user then
      some ({ m with proc := (killTable m.proc pid).1 }.finish p (killTable m.proc pid).2)
    else none
  | .fork => m.create p .fork
  | .clone stack => m.create p (.clone stack)
  | .kstack page => m.kstack p page
  | .copyuvm dir => m.copyuvm p dir
  | .shareuvm => m.shareuvm p
  | .ready => m.ready p
  | .exit =>
    if m.lock = none ∧ m.task p = .user ∧ p ≠ m.initproc then
      some ({ m with proc := exitTable m.proc m.initproc p }.enterSched c)
    else none
  | .wait kind => if m.lock = none ∧ m.task p = .user then m.reap c p kind else none
  | .execAlloc dir => m.execAlloc p dir
  | .execBad => m.execBad p
  | .execCommit sz name => m.execCommit p sz name
  | .setscheduler sid => m.setscheduler p sid

/-- `(*ready_process)()`. -/
def readyChoice (stray : Option Slot) : Option (Option Slot × SchedState) :=
  match m.readyProcess with
  | some policy => policy.select m.proc m.sched
  | none => some (stray, m.sched)

def dispatch (stray : Option Slot) : Option (Machine Cpu) :=
  if (m.cpus c).mode = .scheduler ∧ m.lock = none then
    match m.readyChoice stray with
    | none => none
    | some (none, sched) => some { m with sched }
    | some (some p, sched) =>
      some (({ m with sched, lock := some c }.setCpu c ⟨some p, .resuming⟩).setProc p fun proc =>
        { proc with state := .running })
  else none

/-- The process on the CPU continues where its context was saved. A reaper's
sleep keeps the lock and goes round its loop again. -/
def resume : Option (Machine Cpu) :=
  match m.cpus c with
  | ⟨some p, .resuming⟩ =>
    match (m.proc p).context with
    | .forkret | .yield => some (m.leave c)
    | .sleep =>
      let m := m.setProc p fun proc => { proc with chan := none }
      match m.task p with
      | .waiting kind => m.reap c p kind
      | _ => some (m.leave c)
  | _ => none

def step : Event Cpu → Option (Machine Cpu)
  | .dispatch c stray => m.dispatch c stray
  | .resume c => m.resume c
  | .retire c =>
    if (m.cpus c).mode = .switched then some ({ m with lock := none }.setCpu c ⟨none, .scheduler⟩) else none
  | .act c action =>
    match m.running c with
    | some p => m.act c p action
    | none => none
  | .wakeup chan => if m.lock = none then some { m with proc := wakeup1 m.proc chan } else none
  | .tick => some { m with ticks := m.ticks + 1 }
  | .updateStatistics => if m.lock = none then some { m with proc := updateStatistics m.proc } else none
  | .kalloc page => if m.pages page = .free then some (m.setPage page .other) else none
  | .kfree page => if m.pages page = .other ∧ page ≠ 0 then some (m.setPage page .free) else none

end Machine

/-- After userinit: the first process is ready to run, and the page names 1 and 2
stand for its page directory and its kernel stack. -/
def boot (policy : Policy) : Machine Cpu where
  proc := fun p => if p = 0 then
      { sz := 4096, pgdir := 1, kstack := 2, state := .runnable, pid := 1, priority := 10,
        name := [105, 110, 105, 116, 99, 111, 100, 101] }
    else {}
  nextpid := 2
  initproc := 0
  pages := fun page => match page with
    | 0 => .other
    | 1 => .dir
    | 2 => .kstack
    | _ => .free
  readyProcess := some policy
  schedSelected := Int32.ofNat (schedulerFunction.idxOf policy)

end Xv6.Kernel
