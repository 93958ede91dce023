import Xv6.Data.Bytes
import Xv6.Data.Program
import Xv6.Memory.Uvm

namespace Xv6.Vm

open Data Memory

/-! Physical memory, its allocator and the page tables in it: kalloc.c and vm.c.
Pages are counted: a frame is a page of physical memory, and `v` one of an address
space, so that PDX is `v / 1024` and PTX is `v % 1024`. A page holds bytes or
entries; how an entry is made of bytes is left out. -/

abbrev Frame := Nat

/-- A page table entry: PTE_ADDR, and PTE_FLAGS. -/
structure Pte where
  frame : Frame := 0
  p : Bool := false
  w : Bool := false
  u : Bool := false
  other : Nat := 0
deriving DecidableEq, Repr

inductive Page where
  | table (entry : Nat → Pte)
  | data (bytes : Bytes)

def Page.entry : Page → Nat → Pte
  | .table entry => entry
  | .data _ => fun _ => {}

@[simp] theorem Page.entry_table (entry : Nat → Pte) : (Page.table entry).entry = entry := rfl

def Page.bytes : Page → Bytes
  | .table _ => fun _ => 0
  | .data bytes => bytes

/-- The frames that end at PHYSTOP. -/
def PHYSTOP : Frame := 0xE000

/-- The pages below KERNBASE. -/
def userPages : Nat := 0x80000

structure Machine where
  page : Frame → Page := fun _ => .data fun _ => 0
  free : List Frame
  /-- The calls of kalloc that fail although there are free pages. -/
  fails : Nat → Bool := fun _ => false
  calls : Nat := 0
  /-- The first frame above `end`: kfree panics for the frames below it. -/
  first : Frame := 0x116

inductive Panic where
  | kfree
  | remap
  /-- A page table entry is read through a null pointer. -/
  | null
deriving DecidableEq, Repr

abbrev Kernel := StateT Machine (Except Panic)

def Machine.Allocatable (m : Machine) (f : Frame) : Prop := m.first ≤ f ∧ f < PHYSTOP

instance (m : Machine) (f : Frame) : Decidable (m.Allocatable f) := inferInstanceAs (Decidable (_ ∧ _))

def setPage (f : Frame) (page : Page) : Kernel Unit := modify fun m => { m with page := Function.update m.page f page }

def setEntry (f i : Nat) (pte : Pte) : Kernel Unit :=
  modify fun m => { m with page := Function.update m.page f (.table (Function.update (m.page f).entry i pte)) }

def kalloc : Kernel (Option Frame) := do
  let m ← get
  match m.fails m.calls, m.free with
  | false, f :: rest => do
    modify fun m => { m with calls := m.calls + 1, free := rest }
    pure (some f)
  | _, _ => do
    modify fun m => { m with calls := m.calls + 1 }
    pure none

def kfree (f : Frame) : Kernel Unit := do
  let m ← get
  if m.Allocatable f then do
    setPage f (.data fun _ => 1)
    modify fun m => { m with free := f :: m.free }
  else throw .kfree

/-- `pgdir[i]`. -/
def Machine.pde (m : Machine) (dir i : Nat) : Pte := (m.page dir).entry i

/-- The page table with the entry of `v`. -/
def walkpgdir (dir v : Nat) (alloc : Bool) : Kernel (Option Frame) := do
  let m ← get
  if (m.pde dir (v / 1024)).p = true then pure (some (m.pde dir (v / 1024)).frame)
  else if alloc = true then do
    let t ← kalloc
    match t with
    | none => pure none
    | some t => do
      setPage t (.table fun _ => {})
      setEntry dir (v / 1024) { frame := t, p := true, w := true, u := true }
      pure (some t)
  else pure none

/-- mappages of one page. -/
def mapPage (dir v : Nat) (f : Frame) (perm : Pte) : Kernel Bool := do
  let t ← walkpgdir dir v true
  match t with
  | none => pure false
  | some t => do
    let m ← get
    if ((m.page t).entry (v % 1024)).p = true then throw .remap
    else do
      setEntry t (v % 1024) { perm with frame := f, p := true }
      pure true

/-- The loop of deallocuvm: a missing page table is jumped over. Each round goes on
by a page at least, and `limit` is not above KERNBASE. -/
def deallocLoop (dir limit : Nat) : Nat → Nat → Kernel Unit
  | 0, _ => pure ()
  | fuel + 1, v =>
    if v * 4096 < limit then do
      let t ← walkpgdir dir v false
      match t with
      | none => deallocLoop dir limit fuel ((v / 1024 + 1) * 1024)
      | some t => do
        let m ← get
        if ((m.page t).entry (v % 1024)).p = true then do
          kfree ((m.page t).entry (v % 1024)).frame
          setEntry t (v % 1024) {}
          deallocLoop dir limit fuel (v + 1)
        else deallocLoop dir limit fuel (v + 1)
    else pure ()

def deallocuvm (dir : Nat) (oldsz newsz : UInt32) : Kernel UInt32 :=
  if newsz ≥ oldsz then pure oldsz
  else do
    deallocLoop dir oldsz.toNat 0x100000 ((PGROUNDUP newsz).toNat / 4096)
    pure newsz

/-- The loop of allocuvm, with `n` rounds to go. -/
def allocLoop (dir : Nat) (oldsz newsz : UInt32) : Nat → Nat → Kernel UInt32
  | 0, _ => pure newsz
  | n + 1, v => do
    let mem ← kalloc
    match mem with
    | none => do
      let _ ← deallocuvm dir newsz oldsz
      pure 0
    | some mem => do
      setPage mem (.data fun _ => 0)
      let mapped ← mapPage dir v mem { w := true, u := true }
      if mapped = true then allocLoop dir oldsz newsz n (v + 1)
      else do
        let _ ← deallocuvm dir newsz oldsz
        kfree mem
        pure 0

/-- The pages of `sz` bytes. -/
def pages (sz : UInt32) : Nat := (sz.toNat + 4095) / 4096

def allocuvm (dir : Nat) (oldsz newsz : UInt32) : Kernel UInt32 :=
  if newsz ≥ KERNBASE then pure 0
  else if newsz < oldsz then pure oldsz
  else allocLoop dir oldsz newsz (pages newsz - (PGROUNDUP oldsz).toNat / 4096) ((PGROUNDUP oldsz).toNat / 4096)

end Xv6.Vm
