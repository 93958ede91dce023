import Mathlib.Data.List.Basic
import Mathlib.Logic.Function.Basic

namespace Xv6.Data

open Function

/-! Programs that read and write single blocks of a disk. A block write is
atomic and writes reach the disk in program order, so what a crash can leave
behind is the disk after some prefix of the program's writes. -/

abbrev Disk (β : Type) := Nat → β

inductive DiskProg (β α : Type) where
  | done (result : α)
  | read (address : Nat) (next : β → DiskProg β α)
  | write (address : Nat) (block : β) (next : DiskProg β α)

namespace DiskProg

variable {α α' β : Type}

def bind : DiskProg β α → (α → DiskProg β α') → DiskProg β α'
  | .done result, continuation => continuation result
  | .read address next, continuation => .read address fun block => (next block).bind continuation
  | .write address block next, continuation => .write address block (next.bind continuation)

instance : Monad (DiskProg β) where
  pure := .done
  bind := bind

/-- The result of a run that is not interrupted. -/
def result : DiskProg β α → Disk β → α
  | .done value, _ => value
  | .read address next, disk => (next (disk address)).result disk
  | .write address block next, disk => next.result (update disk address block)

/-- The writes of an uninterrupted run, in program order. -/
def writes : DiskProg β α → Disk β → List (Nat × β)
  | .done _, _ => []
  | .read address next, disk => (next (disk address)).writes disk
  | .write address block next, disk =>
    (address, block) :: next.writes (update disk address block)

def apply (disk : Disk β) : List (Nat × β) → Disk β
  | [] => disk
  | (address, block) :: rest => apply (update disk address block) rest

/-- The disk a crash leaves when `count` writes of the program reached it. -/
def crashAfter (program : DiskProg β α) (count : Nat) (disk : Disk β) : Disk β :=
  apply disk ((program.writes disk).take count)

def finish (program : DiskProg β α) (disk : Disk β) : Disk β :=
  apply disk (program.writes disk)

variable {disk other : Disk β} {first second : List (Nat × β)} {address : Nat}

theorem apply_append : apply disk (first ++ second) = apply (apply disk first) second := by
  induction first generalizing disk with
  | nil => rfl
  | cons _ _ ih => exact ih

theorem apply_unwritten (untouched : ∀ write ∈ first, write.1 ≠ address) : apply disk first address = disk address := by
  induction first generalizing disk with
  | nil => rfl
  | cons head rest ih =>
    obtain ⟨place, block⟩ := head
    have different : address ≠ place := Ne.symm (untouched (place, block) (by simp))
    have rest_untouched : ∀ write ∈ rest, write.1 ≠ address :=
      fun write member => untouched write (by simp [member])
    rw [apply, ih rest_untouched, update_of_ne different]

/-- A block that some write of a list of agreeing writes touches holds what
those writes say, whatever it held before. -/
theorem apply_written {value : β} (agree : ∀ write ∈ first, write.1 = address → write.2 = value)
    (touched : ∃ write ∈ first, write.1 = address) : apply disk first address = value := by
  induction first generalizing disk with
  | nil => simp at touched
  | cons head rest ih =>
    obtain ⟨place, block⟩ := head
    by_cases later : ∃ write ∈ rest, write.1 = address
    · exact ih (fun write member => agree write (by simp [member])) later
    · have here : place = address := by
        obtain ⟨write, member, same⟩ := touched
        rcases List.mem_cons.mp member with rfl | tail
        · exact same
        · exact absurd ⟨write, tail, same⟩ later
      have untouched : ∀ write ∈ rest, write.1 ≠ address := by
        intro write member same
        exact later ⟨write, member, same⟩
      have stored := agree (place, block) (by simp) here
      rw [apply, apply_unwritten untouched, here, update_self]
      exact stored

@[simp] theorem writes_pure (value : α) : (pure value : DiskProg β α).writes disk = [] := rfl

theorem writes_bind (program : DiskProg β α) (continuation : α → DiskProg β α') (disk : Disk β) :
    (program >>= continuation).writes disk = program.writes disk ++
      (continuation (program.result disk)).writes (program.finish disk) := by
  change (program.bind continuation).writes disk = _
  induction program generalizing disk with
  | done => rfl
  | read address _ ih => exact ih (disk address) disk
  | write address block _ ih =>
    simp only [bind, writes, result, List.cons_append]
    rw [ih (update disk address block)]
    rfl

theorem result_bind (program : DiskProg β α) (continuation : α → DiskProg β α') (disk : Disk β) :
    (program >>= continuation).result disk = (continuation (program.result disk)).result (program.finish disk) := by
  induction program generalizing disk with
  | done => rfl
  | read address _ ih => exact ih (disk address) disk
  | write address block _ ih => exact ih (update disk address block)

/-- Crash points of a sequence: inside the first part, or after it and inside the second. -/
theorem apply_take_append (count : Nat) : apply disk ((first ++ second).take count) =
      apply (apply disk (first.take count)) (second.take (count - first.length)) := by
  rw [List.take_append, apply_append]

end DiskProg

end Xv6.Data
