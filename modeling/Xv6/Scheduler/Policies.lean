import Xv6.Process.Table
import Xv6.Scheduler.Random

namespace Xv6.Scheduler

open Process

/-! The five policies of proc.c. Each returns the slot it chooses, or none for a
null pointer. An outer `none` is an array access outside its array, or a loop
that did not end: neither is a result of the C function. -/

/-- The static variables the policies read and write. -/
structure SchedState where
  rng : Rng := {}
  idx : Nat := NPROC - 1
deriving DecidableEq, Repr

/-- `ptable.proc + index`. -/
def slotAt (index : Int) : Option Slot :=
  if inside : 0 ≤ index ∧ index < NPROC then some ⟨index.toNat, by omega⟩ else none

def defaultLoop (table : Table) (rnd : Int32) : List Nat → Option (Option Slot)
  | [] => some none
  | i :: rest => do
    let p ← slotAt ((rnd.toInt + i).tmod NPROC)
    if (table p).state = .runnable then some (some p) else defaultLoop table rnd rest

def defaultScheduler (table : Table) (rng : Rng) : Option (Option Slot × Rng) := do
  let (rnd, rng) := random rng (Int32.ofNat NPROC)
  let p ← defaultLoop table rnd (List.range NPROC)
  some (p, rng)

/-- The scan that priorityScheduler and fcfsScheduler share: keep the first
runnable process whose key is below the key of the one kept so far. -/
def leastLoop {κ : Type} [LT κ] [DecidableLT κ] (key : Proc → κ) (table : Table) : List Slot → Option Slot → Option Slot
  | [], res => res
  | p :: rest, res =>
    if (table p).state = .runnable then
      match res with
      | some best =>
        leastLoop key table rest (if key (table p) < key (table best) then some p else some best)
      | none => leastLoop key table rest (some p)
    else leastLoop key table rest res

def priorityScheduler (table : Table) : Option Slot := leastLoop Proc.priority table slots none

def fcfsScheduler (table : Table) : Option Slot := leastLoop Proc.ctime table slots none

/-- The do-while of rrScheduler. `i` is the value of `idx` on entry; `fuel`
bounds the iterations and is never exhausted (`rrScheduler_spec`). -/
def rrLoop (table : Table) (i : Nat) : Nat → Nat → Option (Option Slot × Nat)
  | 0, _ => none
  | fuel + 1, idx => do
    let idx := (idx + 1) % NPROC
    let p ← slotAt idx
    if (table p).state = .runnable then some (some p, idx)
    else if i ≠ idx then rrLoop table i fuel idx
    else some (none, idx)

def rrScheduler (table : Table) (idx : Nat) : Option (Option Slot × Nat) := rrLoop table idx NPROC idx

def MLQ_LEVELS : Nat := 3

def MLQ_TIME_SLICES : List Int32 := [7, 14, 0]

/-- The local arrays of smlScheduler: `MQ[level][position]` and `Idxs[level]`. -/
structure Queues where
  MQ : Nat → Nat → Option Slot := fun _ _ => none
  Idxs : Nat → Nat := fun _ => 0

/-- `MQ[i][Idxs[i]++] = p`. -/
def Queues.push (queues : Queues) (i : Nat) (p : Slot) : Option Queues :=
  if i < MLQ_LEVELS ∧ queues.Idxs i < NPROC then
    some {
      MQ := Function.update queues.MQ i
        (Function.update (queues.MQ i) (queues.Idxs i) (some p))
      Idxs := Function.update queues.Idxs i (queues.Idxs i + 1) }
  else none

/-- The inner loop of smlScheduler over the levels, for one runnable process. -/
def placeLoop (priority : Int32) (p : Slot) : List Nat → Queues → Option Queues
  | [], queues => some queues
  | i :: rest, queues =>
    if i < MLQ_LEVELS - 1 then do
      let slice ← MLQ_TIME_SLICES[i]?
      if priority ≤ slice then queues.push i p else placeLoop priority p rest queues
    else do
      let queues ← queues.push i p
      placeLoop priority p rest queues

def fillLoop (table : Table) : List Slot → Queues → Option Queues
  | [], queues => some queues
  | p :: rest, queues =>
    if (table p).state = .runnable then do
      let queues ← placeLoop (table p).priority p (List.range MLQ_LEVELS) queues
      fillLoop table rest queues
    else fillLoop table rest queues

/-- `MQ[i][j]`, where `j` is an `int` that `random` returned. -/
def Queues.at (queues : Queues) (i : Nat) (j : Int) : Option (Option Slot) :=
  if i < MLQ_LEVELS ∧ 0 ≤ j ∧ j < NPROC then some (queues.MQ i j.toNat) else none

def pickLoop (rng : Rng) (queues : Queues) : List Nat → Option (Option Slot × Rng)
  | [] => some (none, rng)
  | i :: rest =>
    if i < MLQ_LEVELS then
      if 0 < queues.Idxs i then do
        let (j, rng) := random rng (Int32.ofNat (queues.Idxs i))
        let p ← queues.at i j.toInt
        some (p, rng)
      else pickLoop rng queues rest
    else none

def smlScheduler (table : Table) (rng : Rng) : Option (Option Slot × Rng) := do
  let queues ← fillLoop table slots {}
  pickLoop rng queues (List.range MLQ_LEVELS)

/-- The entries of `schedulerFunction` in sdh.h, in order. -/
inductive Policy where
  | default | priority | fcfs | rr | sml
deriving DecidableEq, Repr

def schedulerName : List String := ["DEFAULT", "PRIORITY", "FCFS", "CFS", "SML"]

def schedulerFunction : List Policy := [.default, .priority, .fcfs, .rr, .sml]

/-- Calling through `ready_process`. -/
def Policy.select (policy : Policy) (table : Table) (sched : SchedState) : Option (Option Slot × SchedState) :=
  match policy with
  | .default => (defaultScheduler table sched.rng).map fun (p, rng) => (p, { sched with rng })
  | .priority => some (priorityScheduler table, sched)
  | .fcfs => some (fcfsScheduler table, sched)
  | .rr => (rrScheduler table sched.idx).map fun (p, idx) => (p, { sched with idx })
  | .sml => (smlScheduler table sched.rng).map fun (p, rng) => (p, { sched with rng })

end Xv6.Scheduler
