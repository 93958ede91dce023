import Xv6.Process.Table
import Xv6.Data.Run

namespace Xv6.Sync

open Process Data

/-! sleep(chan, lk) and wakeup(chan), for code that works on data under a spin
lock `lk`. Every acquisition and every release of a lock is a step, and so is
every test or assignment of the code. The lock may be ptable.lock itself. -/

inductive Lock where
  | ptable | other
deriving DecidableEq, Repr

/-- What runs in the kernel: a process, or an interrupt handler on some CPU. -/
inductive Thread where
  | proc (p : Slot)
  | handler (n : Nat)
deriving DecidableEq, Repr

/-- What the code does next, once it has tested or changed the data. -/
inductive Move (K : Type) where
  | goto (next : K)
  /-- `if(myproc()->killed)`. -/
  | ifKilled (yes no : K)
  | sleep (chan : Chan) (next : K)
  | wakeup (chan : Chan) (next : K)
  /-- `release(lk)`, after which the code is done. -/
  | leave
deriving DecidableEq, Repr

/-- Code under `lk`: `K` are its points, `σ` is the data the lock protects. -/
structure Code (σ K : Type) where
  lk : Lock
  /-- The channels on which only this code sleeps. -/
  channels : List Chan
  entry : K → Bool
  run : K → σ → σ × Move K

/-- Where a thread is. The points between `sleepLock` and `reacquire` are those of
sleep(), in the order of its lines; between `wakeLock` and `wakeUnlock` those of wakeup(). -/
inductive Pc (K : Type) where
  | out
  | acquire (next : K)
  | inside (next : K)
  | leaving
  | wakeLock (chan : Chan) (next : K)
  | wake (chan : Chan) (next : K)
  | wakeUnlock (next : K)
  | sleepLock (chan : Chan) (next : K)
  | sleepUnlock (chan : Chan) (next : K)
  | commit (chan : Chan) (next : K)
  /-- In scheduler(), which has still to release ptable.lock. -/
  | switched (chan : Chan) (next : K)
  | asleep (chan : Chan) (next : K)
  | resumed (next : K)
  | tidied (next : K)
  | reacquire (next : K)
deriving DecidableEq, Repr

def Pc.isOut {K : Type} : Pc K → Bool
  | .out => true
  | _ => false

/-- The point of the code a thread is at or goes on to. -/
def Pc.point {K : Type} : Pc K → Option K
  | .out | .leaving => none
  | .acquire k | .inside k | .wakeUnlock k | .resumed k | .tidied k | .reacquire k => some k
  | .wakeLock _ k | .wake _ k | .sleepLock _ k | .sleepUnlock _ k | .commit _ k | .switched _ k | .asleep _ k => some k

structure State (σ K : Type) where
  proc : Table
  data : σ
  locks : Lock → Option Thread := fun _ => none
  pc : Thread → Pc K := fun _ => .out

inductive Event (K : Type) where
  | start (t : Thread) (k : K)
  | step (t : Thread)
  /-- scheduler() releases ptable.lock after a process has switched to it. -/
  | retire (p : Slot)
  | dispatch (p : Slot)
  | preempt (p : Slot)
  /-- A wakeup from code that does not hold `lk`. -/
  | wakeup (chan : Chan)
  | kill (pid : Int32)
  /-- Anything else that happens to a process outside the code. -/
  | rest (p : Slot) (proc : Proc)
deriving DecidableEq, Repr

variable {σ K : Type}

namespace State

variable (s : State σ K)

def goto (t : Thread) (pc : Pc K) : State σ K := { s with pc := Function.update s.pc t pc }

def setLock (lock : Lock) (holder : Option Thread) : State σ K :=
  { s with locks := Function.update s.locks lock holder }

def setProc (p : Slot) (change : Proc → Proc) : State σ K :=
  { s with proc := Function.update s.proc p (change (s.proc p)) }

/-- An interrupt handler runs whatever the state of the process it interrupts. -/
def running : Thread → Bool
  | .proc p => (s.proc p).state = .running
  | .handler _ => true

variable (code : Code σ K)

def perform (k : K) : State σ K := { s with data := (code.run k s.data).1 }

/-- Only a process sleeps, and only a process looks at its `killed`. -/
def move (t : Thread) : Move K → Option (State σ K)
  | .goto next => some (s.goto t (.inside next))
  | .ifKilled yes no =>
    match t with
    | .proc p => some (s.goto t (.inside (if (s.proc p).killed = true then yes else no)))
    | .handler _ => none
  | .sleep chan next =>
    match t with
    | .proc _ => some (s.goto t (if code.lk = .ptable then .commit chan next else .sleepLock chan next))
    | .handler _ => none
  | .wakeup chan next =>
    -- the caller of wakeup1 holds ptable.lock already
    some (s.goto t (if code.lk = .ptable then .wake chan next else .wakeLock chan next))
  | .leave => some (s.goto t .leaving)

def advance (t : Thread) : Option (State σ K) :=
  match s.pc t with
  | .out | .switched .. | .asleep .. => none
  | .acquire next | .reacquire next =>
    if s.locks code.lk = none then some ((s.setLock code.lk (some t)).goto t (.inside next)) else none
  | .inside k => (s.perform code k).move code t (code.run k s.data).2
  | .leaving => some ((s.setLock code.lk none).goto t .out)
  | .wakeLock chan next =>
    if s.locks .ptable = none then some ((s.setLock .ptable (some t)).goto t (.wake chan next)) else none
  | .wake chan next =>
    some ({ s with proc := wakeup1 s.proc chan }.goto t
      (if code.lk = Lock.ptable then .inside next else .wakeUnlock next))
  | .wakeUnlock next => some ((s.setLock .ptable none).goto t (.inside next))
  | .sleepLock chan next =>
    if s.locks .ptable = none then some ((s.setLock .ptable (some t)).goto t (.sleepUnlock chan next)) else none
  | .sleepUnlock chan next => some ((s.setLock code.lk none).goto t (.commit chan next))
  | .commit chan next =>
    match t with
    | .proc p =>
      some ((s.setProc p fun proc => { proc with chan := some chan, state := .sleeping }).goto t
        (.switched chan next))
    | .handler _ => none
  | .resumed next =>
    match t with
    | .proc p =>
      some ((s.setProc p fun proc => { proc with chan := none }).goto t
        (if code.lk = .ptable then .inside next else .tidied next))
    | .handler _ => none
  | .tidied next => some ((s.setLock .ptable none).goto t (.reacquire next))

/-- A process that slept goes on in sched() with ptable.lock held; one that was
preempted or is new releases it at once. -/
def dispatch (p : Slot) : Option (State σ K) :=
  let s := s.setProc p fun proc => { proc with state := .running }
  match s.pc (.proc p) with
  | .asleep _ next => some ((s.setLock .ptable (some (.proc p))).goto (.proc p) (.resumed next))
  | .out => some s
  | _ => none

end State

def Code.step (code : Code σ K) (s : State σ K) : Event K → Option (State σ K)
  | .start t k =>
    if (s.pc t).isOut = true ∧ s.running t = true ∧ code.entry k = true then some (s.goto t (.acquire k)) else none
  | .step t => if s.running t = true then s.advance code t else none
  | .retire p =>
    match s.pc (.proc p) with
    | .switched chan next => some ((s.setLock .ptable none).goto (.proc p) (.asleep chan next))
    | _ => none
  | .dispatch p =>
    if s.locks .ptable = none ∧ (s.proc p).state = .runnable then s.dispatch p else none
  | .preempt p =>
    if s.locks .ptable = none ∧ (s.proc p).state = .running ∧ (s.pc (.proc p)).isOut = true then
      some (s.setProc p fun proc => { proc with state := .runnable })
    else none
  | .wakeup chan => if s.locks .ptable = none then some { s with proc := wakeup1 s.proc chan } else none
  | .kill pid =>
    if s.locks .ptable = none then some { s with proc := (killTable s.proc pid).1 } else none
  | .rest p proc =>
    if s.locks .ptable = none ∧ (s.pc (.proc p)).isOut = true ∧
        (proc.state = .sleeping → ∀ chan ∈ code.channels, proc.chan ≠ some chan) then
      some (s.setProc p fun _ => proc)
    else none

end Xv6.Sync
