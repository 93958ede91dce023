import Mathlib.Algebra.Ring.Nat
import Mathlib.Data.List.FinRange
import Mathlib.Logic.Function.Basic

namespace Xv6.Process

open Function (update update_self update_of_ne)

def NPROC : Nat := 64

instance : NeZero NPROC := ⟨by decide⟩

/-- A position of `ptable.proc`; a `struct proc *` is one, or null. -/
abbrev Slot := Fin NPROC

/-- The address of a page the kernel allocated; 0 is the null pointer. -/
abbrev Page := Nat

def MAX_SEMA_NUM : Nat := 32

instance : NeZero MAX_SEMA_NUM := ⟨by decide⟩

inductive ProcState where
  | unused | embryo | sleeping | runnable | running | zombie
deriving DecidableEq, Repr

/-- Sleep channels. The kernel sleeps on addresses of distinct objects. -/
inductive Chan where
  | proc (slot : Slot)
  | sema (index : Fin MAX_SEMA_NUM)
  | ticks
  | object (address : Nat)
deriving DecidableEq, Repr

/-- The kernel code at which a saved `p->context` continues. -/
inductive Context where
  | forkret | yield | sleep
deriving DecidableEq, Repr

structure Proc where
  sz : UInt32 := 0
  pgdir : Page := 0
  kstack : Page := 0
  state : ProcState := .unused
  pid : Int32 := 0
  priority : Int32 := 0
  parent : Option Slot := none
  context : Context := .forkret
  chan : Option Chan := none
  killed : Bool := false
  name : List UInt8 := []
  isthread : Bool := false
  stack : UInt32 := 0
  ctime : UInt32 := 0
  stime : Int32 := 0
  retime : Int32 := 0
  rutime : Int32 := 0
deriving DecidableEq, Repr

abbrev Table := Slot → Proc

/-- The order in which every loop of proc.c visits the table. -/
def slots : List Slot := List.finRange NPROC

@[simp] theorem mem_slots (slot : Slot) : slot ∈ slots := List.mem_finRange slot

/-- A loop over the table that stops at the first slot it looks for. -/
def Table.first (table : Table) (wanted : Proc → Bool) : Option Slot :=
  slots.find? fun slot => wanted (table slot)

variable {table : Table} {wanted : Proc → Bool}

theorem Table.first_some {slot : Slot} (found : table.first wanted = some slot) : wanted (table slot) = true :=
  List.find?_some (p := fun slot => wanted (table slot)) found

theorem Table.first_none (absent : table.first wanted = none) (slot : Slot) : wanted (table slot) = false := by
  have missed := List.find?_eq_none.mp absent slot (mem_slots slot)
  simpa using missed

/-- `wakeup1`: every process sleeping on the channel becomes runnable. -/
def wakeup1 (table : Table) (chan : Chan) : Table := fun slot =>
  if (table slot).state = .sleeping ∧ (table slot).chan = some chan then
    { table slot with state := .runnable }
  else table slot

/-- The body of `kill` under `ptable.lock`, with its return value. -/
def killTable (table : Table) (pid : Int32) : Table × Int32 :=
  match table.first fun proc => proc.pid == pid with
  | none => (table, -1)
  | some slot =>
    let proc := { table slot with killed := true }
    let proc := if proc.state = .sleeping then { proc with state := .runnable } else proc
    (update table slot proc, 0)

theorem killTable_fields (table : Table) (pid : Int32) (p : Slot) : (killTable table pid).1 p = { table p with
      killed := ((killTable table pid).1 p).killed, state := ((killTable table pid).1 p).state } := by
  unfold killTable
  split
  · rfl
  · rename_i slot found
    by_cases same : p = slot
    · subst same
      dsimp only
      split
      · simp
      · simp
    · simp [update_of_ne same]

theorem killTable_chan (table : Table) (pid : Int32) (p : Slot) : ((killTable table pid).1 p).chan = (table p).chan := by
  rw [killTable_fields]

theorem wakeup1_chan (table : Table) (chan : Chan) (p : Slot) : (wakeup1 table chan p).chan = (table p).chan := by
  unfold wakeup1
  split <;> rfl

theorem killTable_state (table : Table) (pid : Int32) (p : Slot) : ((killTable table pid).1 p).state = (table p).state ∨
      (table p).state = .sleeping ∧ ((killTable table pid).1 p).state = .runnable := by
  unfold killTable
  split
  · exact .inl rfl
  · rename_i slot found
    by_cases same : p = slot
    · subst same
      by_cases asleep : (table p).state = .sleeping
      · simp [asleep]
      · simp [asleep]
    · exact .inl (by simp only [update_of_ne same])

/-- The victim of a kill is the first slot with the pid, and it does not stay asleep. -/
theorem killTable_hit (table : Table) (pid : Int32) (p : Slot) : (killTable table pid).1 p = table p ∨
      (table.first fun proc => proc.pid == pid) = some p ∧ ((killTable table pid).1 p).state ≠ .sleeping := by
  unfold killTable
  cases found : table.first fun proc => proc.pid == pid with
  | none => exact .inl rfl
  | some slot =>
    by_cases same : p = slot
    · subst same
      refine .inr ⟨rfl, ?_⟩
      dsimp only
      rw [update_self]
      split
      · simp
      · assumption
    · exact .inl (by simp only [update_of_ne same])

theorem wakeup1_sleeping {chan : Chan} {p : Slot} (asleep : (wakeup1 table chan p).state = .sleeping) :
    (table p).state = .sleeping ∧ (table p).chan ≠ some chan := by
  unfold wakeup1 at asleep
  split at asleep
  · contradiction
  · rename_i missed
    exact ⟨asleep, fun on => missed ⟨asleep, on⟩⟩

end Xv6.Process
