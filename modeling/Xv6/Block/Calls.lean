import Xv6.Process.Calls
import Xv6.Sem.Calls

namespace Xv6.Block

open Process Sem Function

/-! The system calls that wait: wait, wait2, join, sem_wait, piperead, pipewrite,
consoleread and sys_sleep, and kill, which interrupts them. Every acquisition
and every release of a spin lock is a step. A program counter is what a process
still has to do; a loop goes back to a named point. -/

def PIPESIZE : UInt32 := 512

def INPUT_BUF : UInt32 := 128

/-- The spin locks; `inode` is the one inside the sleep-lock of an inode. -/
inductive Lock where
  | ptable | ticks | cons
  | pipe (index : Nat)
  | sema (index : Index)
  | inode (index : Nat)
deriving DecidableEq, Repr

structure Pipe where
  data : UInt32 → UInt8 := fun _ => 0
  nread : UInt32 := 0
  nwrite : UInt32 := 0
  readopen : Bool := true
  writeopen : Bool := true

structure Input where
  buf : UInt32 → UInt8 := fun _ => 0
  r : UInt32 := 0
  w : UInt32 := 0

/-- What the calls share besides the process table. -/
structure Shared where
  value : Index → Int32 := fun _ => 0
  pipe : Nat → Pipe := fun _ => {}
  input : Input := {}
  ticks : UInt32 := 0
  /-- `ip->lock.locked`. -/
  locked : Nat → Bool := fun _ => false

namespace Shared

variable (shared : Shared)

def setValue (sem : Index) (value : Int32) : Shared :=
  { shared with value := update shared.value sem value }

def setPipe (index : Nat) (pipe : Pipe) : Shared :=
  { shared with pipe := update shared.pipe index pipe }

def setLocked (ip : Nat) (locked : Bool) : Shared :=
  { shared with locked := update shared.locked ip locked }

end Shared

/-- Addresses the calls sleep on, besides those of processes, semaphores and `ticks`. -/
def nreadChan (pipe : Nat) : Chan := .object (3 * pipe + 1)

def nwriteChan (pipe : Nat) : Chan := .object (3 * pipe + 2)

def inodeChan (ip : Nat) : Chan := .object (3 * ip + 3)

def inputChan : Chan := .object 0

/-- consoleread is entered with the lock of `ip` held. -/
inductive Call where
  | wait (kind : Reaper)
  | semWait (sem count : Int32)
  | piperead (pipe : Nat) (n : Int32)
  | pipewrite (pipe : Nat) (bytes : List UInt8)
  | consoleread (ip : Nat) (n : Int32)
  | sleep (n : Int32)
  | kill (pid : Int32)
deriving DecidableEq, Repr

/-- The tests and assignments of the calls, each on data its lock protects. -/
inductive Point where
  | semFirst (sem : Index) (count : Int32)
  | semLoop (sem : Index) (count : Int32)
  | readEmpty (pipe : Nat) (n : Int32)
  | readCopy (pipe : Nat) (n : Int32) (got : List UInt8)
  | writeNext (pipe : Nat) (n : Nat) (rest : List UInt8)
  | writeFull (pipe : Nat) (n : Nat) (c : UInt8) (rest : List UInt8)
  | writeOpen (pipe : Nat) (n : Nat) (c : UInt8) (rest : List UInt8)
  | holding (ip : Nat) (n : Nat)
  | unlock (ip : Nat) (n : Nat)
  /-- `n` of the `target` characters are still wanted. -/
  | consNext (ip : Nat) (target n : Nat)
  /-- One more than `left` characters are still wanted. -/
  | consEmpty (ip : Nat) (target left : Nat)
  | consTake (ip : Nat) (target left : Nat)
  | ilock (ip : Nat) (value : Int32)
  | sleepStart (n : Int32)
  | sleepTest (n : Int32) (ticks0 : UInt32)
deriving DecidableEq, Repr

inductive Pc where
  | user | exiting | panic
  /-- trap() before and after the call: a killed process exits there. -/
  | trap (call : Call)
  | ret (value : Int32)
  | acquire (lock : Lock) (next : Pc)
  | release (lock : Lock) (next : Pc)
  /-- `p->chan = chan; p->state = SLEEPING; sched();` -/
  | sched (chan : Chan) (next : Pc)
  | asleep (next : Pc)
  | clear (next : Pc)
  | wakeup1 (chan : Chan) (next : Pc)
  | ifKilled (yes no : Pc)
  | scan (kind : Reaper)
  | kill (pid : Int32)
  | point (point : Point)
deriving DecidableEq, Repr

namespace Pc

/-- sleep(chan, lk) for a lock other than ptable.lock. -/
def sleep (chan : Chan) (lk : Lock) (back : Pc) : Pc :=
  .acquire .ptable (.release lk (.sched chan (.clear (.release .ptable (.acquire lk back)))))

def wakeup (chan : Chan) (next : Pc) : Pc := .acquire .ptable (.wakeup1 chan (.release .ptable next))

/-- `release(lk); return value;` -/
def leave (lk : Lock) (value : Int32) : Pc := .release lk (.ret value)

/-- ilock(ip), on an inode that is valid, at the end of consoleread. -/
def ilock (ip : Nat) (value : Int32) : Pc := .acquire (.inode ip) (.point (.ilock ip value))

end Pc

def Call.start : Call → Pc
  | .wait kind => .acquire .ptable (.scan kind)
  | .semWait sem count =>
    match semIndex sem with
    | none => .ret (-1)
    | some sem => .acquire (.sema sem) (.point (.semFirst sem count))
  | .piperead pipe n => .acquire (.pipe pipe) (.point (.readEmpty pipe n))
  | .pipewrite pipe bytes => .acquire (.pipe pipe) (.point (.writeNext pipe bytes.length bytes))
  | .consoleread ip n => .acquire (.inode ip) (.point (.holding ip n.toInt.toNat))
  | .sleep n => .acquire .ticks (.point (.sleepStart n))
  | .kill pid => .acquire .ptable (.kill pid)

/-- Only consoleread is entered under a condition. -/
def Call.entered (shared : Shared) : Call → Bool
  | .consoleread ip _ => shared.locked ip
  | _ => true

def ctrlD : UInt8 := 4

def newline : UInt8 := 10

def Point.run (shared : Shared) : Point → Shared × Pc
  | .semFirst sem count =>
    if shared.value sem ≥ count then
      (shared.setValue sem (shared.value sem - count), .leave (.sema sem) 0)
    else (shared, .point (.semLoop sem count))
  | .semLoop sem count =>
    if shared.value sem < count then (shared, .sleep (.sema sem) (.sema sem) (.point (.semLoop sem count)))
    else (shared.setValue sem (shared.value sem - count), .leave (.sema sem) 0)
  | .readEmpty index n =>
    let p := shared.pipe index
    if p.nread = p.nwrite ∧ p.writeopen = true then
      (shared, .ifKilled (.leave (.pipe index) (-1))
        (.sleep (nreadChan index) (.pipe index) (.point (.readEmpty index n))))
    else (shared, .point (.readCopy index n []))
  | .readCopy index n got =>
    let p := shared.pipe index
    if got.length < n.toInt.toNat ∧ p.nread ≠ p.nwrite then
      (shared.setPipe index { p with nread := p.nread + 1 }, .point (.readCopy index n (got ++ [p.data (p.nread % PIPESIZE)])))
    else (shared, .wakeup (nwriteChan index) (.leave (.pipe index) (.ofNat got.length)))
  | .writeNext index n [] => (shared, .wakeup (nreadChan index) (.leave (.pipe index) (.ofNat n)))
  | .writeNext index n (c :: rest) => (shared, .point (.writeFull index n c rest))
  | .writeFull index n c rest =>
    let p := shared.pipe index
    if p.nwrite = p.nread + PIPESIZE then (shared, .point (.writeOpen index n c rest))
    else
      (shared.setPipe index { p with
        data := update p.data (p.nwrite % PIPESIZE) c, nwrite := p.nwrite + 1 },
        .point (.writeNext index n rest))
  | .writeOpen index n c rest =>
    if (shared.pipe index).readopen = false then (shared, .leave (.pipe index) (-1))
    else (shared, .ifKilled (.leave (.pipe index) (-1)) (.wakeup (nreadChan index)
      (.sleep (nwriteChan index) (.pipe index) (.point (.writeFull index n c rest)))))
  | .holding ip n =>
    -- holdingsleep and the beginning of releasesleep
    if shared.locked ip = true then
      (shared, .release (.inode ip) (.acquire (.inode ip) (.point (.unlock ip n))))
    else (shared, .panic)
  | .unlock ip n =>
    (shared.setLocked ip false, .wakeup (inodeChan ip) (.release (.inode ip)
      (.acquire .cons (.point (.consNext ip n n)))))
  | .consNext ip target 0 => (shared, .release .cons (.ilock ip (.ofNat target)))
  | .consNext ip target (left + 1) => (shared, .point (.consEmpty ip target left))
  | .consEmpty ip target left =>
    if shared.input.r = shared.input.w then
      (shared, .ifKilled (.release .cons (.ilock ip (-1)))
        (.sleep inputChan .cons (.point (.consEmpty ip target left))))
    else (shared, .point (.consTake ip target left))
  | .consTake ip target left =>
    let c := shared.input.buf (shared.input.r % INPUT_BUF)
    let taken := { shared with input := { shared.input with r := shared.input.r + 1 } }
    if c = ctrlD then
      (if left + 1 < target then shared else taken, .release .cons (.ilock ip (.ofNat (target - (left + 1)))))
    else if c = newline then (taken, .release .cons (.ilock ip (.ofNat (target - left))))
    else (taken, .point (.consNext ip target left))
  | .ilock ip value =>
    if shared.locked ip = true then
      (shared, .sleep (inodeChan ip) (.inode ip) (.point (.ilock ip value)))
    else (shared.setLocked ip true, .leave (.inode ip) value)
  | .sleepStart n => (shared, .point (.sleepTest n shared.ticks))
  | .sleepTest n ticks0 =>
    if shared.ticks - ticks0 < n.toUInt32 then
      (shared, .ifKilled (.leave .ticks (-1)) (.sleep .ticks .ticks (.point (.sleepTest n ticks0))))
    else (shared, .leave .ticks 0)

structure State where
  proc : Table
  locks : Lock → Option Slot := fun _ => none
  shared : Shared := {}
  pc : Slot → Pc := fun _ => .user
  result : Slot → Option Int32 := fun _ => none

/-- What the rest of the kernel does to the shared data, under the lock of the data. -/
inductive Change where
  | value (sem : Index) (value : Int32)
  | pipe (index : Nat) (pipe : Pipe)
  | input (input : Input)
  | ticks (ticks : UInt32)
  | locked (ip : Nat) (locked : Bool)

def Change.lock : Change → Lock
  | .value sem _ => .sema sem
  | .pipe index _ => .pipe index
  | .input _ => .cons
  | .ticks _ => .ticks
  | .locked ip _ => .inode ip

def Change.apply (shared : Shared) : Change → Shared
  | .value sem new => shared.setValue sem new
  | .pipe index new => shared.setPipe index new
  | .input new => { shared with input := new }
  | .ticks new => { shared with ticks := new }
  | .locked ip new => shared.setLocked ip new

inductive Event where
  | call (p : Slot) (call : Call)
  | step (p : Slot)
  | dispatch (p : Slot)
  | preempt (p : Slot)
  | wakeup (chan : Chan)
  | change (change : Change)
  /-- Anything else that happens to a process outside these calls. -/
  | rest (p : Slot) (proc : Proc)

namespace State

variable (s : State) (p : Slot)

def goto (pc : Pc) : State := { s with pc := update s.pc p pc }

def setProc (change : Proc → Proc) : State :=
  { s with proc := update s.proc p (change (s.proc p)) }

def setLock (lock : Lock) (holder : Option Slot) : State :=
  { s with locks := update s.locks lock holder }

/-- One pass of wait, wait2 or join over the table. -/
def scan (kind : Reaper) : State :=
  match kind.scan s.proc p with
  | .reap z => (s.setProc z kind.clear).goto p (.leave .ptable (s.proc z).pid)
  | .fail => s.goto p (.leave .ptable (-1))
  | .block => s.goto p (.sched (.proc p) (.clear (.scan kind)))

/-- The next step of a process that runs in one of the calls. -/
def advance : Option State :=
  match s.pc p with
  | .user | .exiting | .panic | .asleep _ => none
  | .trap call => some (s.goto p (if (s.proc p).killed = true then .exiting else call.start))
  | .ret value =>
    if (s.proc p).killed = true then some (s.goto p .exiting)
    else some ({ s with result := update s.result p (some value) }.goto p .user)
  | .acquire lock next =>
    if s.locks lock = none then some ((s.setLock lock (some p)).goto p next) else none
  | .release lock next => some ((s.setLock lock none).goto p next)
  | .sched chan next =>
    -- scheduler() releases ptable.lock
    some (((s.setLock .ptable none).setProc p fun proc =>
      { proc with chan := some chan, state := .sleeping }).goto p (.asleep next))
  | .clear next => some ((s.setProc p fun proc => { proc with chan := none }).goto p next)
  | .wakeup1 chan next => some ({ s with proc := wakeup1 s.proc chan }.goto p next)
  | .ifKilled yes no => some (s.goto p (if (s.proc p).killed = true then yes else no))
  | .scan kind => some (s.scan p kind)
  | .kill pid =>
    some ({ s with proc := (killTable s.proc pid).1 }.goto p (.leave .ptable (killTable s.proc pid).2))
  | .point point => some ({ s with shared := (point.run s.shared).1 }.goto p (point.run s.shared).2)

/-- scheduler() dispatches the process; sleep() goes on with ptable.lock held. -/
def dispatch : State :=
  let s := s.setProc p fun proc => { proc with state := .running }
  match s.pc p with
  | .asleep next => (s.setLock .ptable (some p)).goto p next
  | _ => s

def step : Event → Option State
  | .call p call =>
    if s.pc p = .user ∧ (s.proc p).state = .running ∧ call.entered s.shared = true then
      some (s.goto p (.trap call))
    else none
  | .step p => if (s.proc p).state = .running then s.advance p else none
  | .dispatch p =>
    if s.locks .ptable = none ∧ (s.proc p).state = .runnable then some (s.dispatch p) else none
  | .preempt p =>
    if s.locks .ptable = none ∧ (s.proc p).state = .running then
      some (s.setProc p fun proc => { proc with state := .runnable })
    else none
  | .wakeup chan => if s.locks .ptable = none then some { s with proc := wakeup1 s.proc chan } else none
  | .change change =>
    if s.locks change.lock = none then some { s with shared := change.apply s.shared } else none
  | .rest p proc =>
    if s.locks .ptable = none ∧ (s.pc p = .user ∨ s.pc p = .exiting) then
      some ((s.setProc p fun _ => proc).goto p .user)
    else none

end State

end Xv6.Block
