import Mathlib.Algebra.Ring.Nat
import Xv6.Data.Run

namespace Xv6.Malloc

open Function

/-! The user heap. A header takes eight bytes, so `p + n` for a `Header *p` is
the address `p + 8 * n`; address 0 is the null pointer. Memory from `sbrk` ends
below `KERNBASE`, so no sum of addresses or sizes wraps. -/

def KERNBASE : Nat := 0x80000000

structure Heap where
  /-- `p->s.ptr` and `p->s.size` of the header at an address; what the program never wrote there is arbitrary. -/
  ptr : Nat → Nat
  size : Nat → Nat
  freep : Nat := 0
  /-- The end of the process's memory. -/
  top : Nat
  /-- What `sbrk` has returned so far, start and number of units. -/
  regions : List (Nat × Nat) := []

namespace Heap

/-- The addresses of a block's units, its header first. -/
def units (h : Heap) (block : Nat) : List Nat := List.range' block (h.size block) 8

/-- All units obtained from `sbrk`. -/
def obtained (h : Heap) : List Nat := h.regions.flatMap fun region => List.range' region.1 region.2 8

/-- `sbrk`, for `nu` units: it fails, or returns an aligned address at or above
the end of memory, `skip` units above the least one. -/
def sbrk (h : Heap) (nu : Nat) (answer : Option Nat) : Option (Nat × Heap) :=
  match answer with
  | none => none
  | some skip =>
    let start := (h.top + 7) / 8 * 8 + 8 * skip
    if start + 8 * nu < KERNBASE then
      some (start, { h with top := start + 8 * nu, regions := (start, nu) :: h.regions })
    else none

/-- The loop of `free`: the node after which the block belongs. -/
def place (h : Heap) (bp : Nat) : Nat → Nat → Option Nat
  | 0, _ => none
  | fuel + 1, p =>
    if p < bp ∧ bp < h.ptr p then some p
    else if h.ptr p ≤ p ∧ (p < bp ∨ bp < h.ptr p) then some p
    else h.place bp fuel (h.ptr p)

/-- The first `if` of `free`, joining the block to its upper neighbour. -/
def joinUpper (h : Heap) (bp p : Nat) : Heap :=
  if bp + 8 * h.size bp = h.ptr p then
    { h with
      size := update h.size bp (h.size bp + h.size (h.ptr p))
      ptr := update h.ptr bp (h.ptr (h.ptr p)) }
  else { h with ptr := update h.ptr bp (h.ptr p) }

/-- The second `if` of `free`, joining the block to its lower neighbour. -/
def joinLower (h : Heap) (bp p : Nat) : Heap :=
  if p + 8 * h.size p = bp then
    { h with
      size := update h.size p (h.size p + h.size bp)
      ptr := update h.ptr p (h.ptr bp) }
  else { h with ptr := update h.ptr p bp }

def free (h : Heap) (fuel ap : Nat) : Option Heap :=
  let bp := ap - 8
  match h.place bp fuel h.freep with
  | none => none
  | some p => some { (h.joinUpper bp p).joinLower bp p with freep := p }

/-- `answer` gives what `sbrk` does at each end of memory it may be called at. -/
def morecore (h : Heap) (fuel nu : Nat) (answer : Nat → Option Nat) : Option (Nat × Heap) :=
  let nu := if nu < 4096 then 4096 else nu
  match h.sbrk nu (answer h.top) with
  | none => some (0, h)
  | some (hp, h) =>
    match free { h with size := update h.size hp nu } fuel (hp + 8) with
    | none => none
    | some h => some (h.freep, h)

/-- What `malloc` does at the first block that is large enough. -/
def carve (h : Heap) (nunits prevp p : Nat) : Nat × Heap :=
  if h.size p = nunits then
    (p + 8, { h with ptr := update h.ptr prevp (h.ptr p), freep := prevp })
  else
    let rest := h.size p - nunits
    let tail := p + 8 * rest
    (tail + 8, { h with
      size := update (update h.size p rest) tail nunits
      freep := prevp })

def search (nunits : Nat) (answer : Nat → Option Nat) : Nat → Heap → Nat → Nat → Option (Nat × Heap)
  | 0, _, _, _ => none
  | fuel + 1, h, prevp, p =>
    if nunits ≤ h.size p then some (h.carve nunits prevp p)
    else if p = h.freep then
      match h.morecore fuel nunits answer with
      | none => none
      | some (p, h) => if p = 0 then some (0, h) else search nunits answer fuel h p (h.ptr p)
    else search nunits answer fuel h p (h.ptr p)

/-- The number of units for a request, in `uint` arithmetic. -/
def nunits (nbytes : UInt32) : UInt32 := (nbytes + 8 - 1) / 8 + 1

/-- The test for the first call of `malloc`. -/
def init (h : Heap) (base : Nat) : Heap :=
  if h.freep = 0 then
    { h with
      ptr := update h.ptr base base
      size := update h.size base 0
      freep := base }
  else h

def malloc (h : Heap) (base fuel : Nat) (nbytes : UInt32) (answer : Nat → Option Nat) : Option (Nat × Heap) :=
  let h := h.init base
  search (nunits nbytes).toNat answer fuel h h.freep (h.ptr h.freep)

end Heap

/-! A program that uses the heap: the blocks it was given and has not freed are `live`,
by the addresses of their headers, and it may write what it likes into them. -/

structure Program where
  heap : Heap
  live : List Nat := []

/-- Before the first call the header `base` is below all memory that `sbrk`
will return. -/
def Program.start (ptr size : Nat → Nat) (base : Nat) : Program := { heap := { ptr, size, top := base + 8 } }

inductive Event where
  | malloc (fuel : Nat) (nbytes : UInt32) (answer : Nat → Option Nat)
  | free (fuel block : Nat)
  /-- The program stores into a unit of a block, other than its header. -/
  | store (block unit ptr size : Nat)

/-- The requests whose rounded size is below 2^31. -/
def Small (nbytes : UInt32) : Prop := ((nbytes.toNat + 7) / 8 + 1) * 8 < 2 ^ 31

instance (nbytes : UInt32) : Decidable (Small nbytes) := inferInstanceAs (Decidable (_ < _))

def step (base : Nat) (program : Program) : Event → Option Program
  | .malloc fuel nbytes answer =>
    if Small nbytes then
      match program.heap.malloc base fuel nbytes answer with
      | none => none
      | some (0, heap) => some { program with heap }
      | some (ap, heap) => some { heap, live := (ap - 8) :: program.live }
    else none
  | .free fuel block =>
    if block ∈ program.live then
      match program.heap.free fuel (block + 8) with
      | none => none
      | some heap => some { heap, live := program.live.erase block }
    else none
  | .store block unit ptr size =>
    if block ∈ program.live ∧ 0 < unit ∧ unit < program.heap.size block then
      some { program with heap := { program.heap with
        ptr := update program.heap.ptr (block + 8 * unit) ptr
        size := update program.heap.size (block + 8 * unit) size } }
    else none

end Xv6.Malloc
