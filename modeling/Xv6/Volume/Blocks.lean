import Xv6.Volume.Layout
import Xv6.Data.Program
import Xv6.Data.Run

namespace Xv6.Volume

open Data Function

/-! The block allocator and what inodes hold. The functions see the disk through
the buffer cache, so a block is read as it was last written. Each call has its
inode locked, and `bn`, `off` and `n` are counted without a bound once the code
has checked that they do not wrap. -/

def T_DIR : UInt16 := 1

def T_DEV : UInt16 := 3

inductive Panic where
  /-- "balloc: out of blocks" -/
  | balloc
  /-- "freeing free block" -/
  | bfree
  /-- "bmap: out of range" -/
  | bmap
  /-- "ialloc: no inodes" -/
  | ialloc
  /-- "dirlookup not DIR" -/
  | dirlookup
  /-- "dirlookup read" -/
  | dirlookupRead
deriving DecidableEq, Repr

/-- A call of balloc or bfree, with the disk before and after it. -/
inductive Call where
  | balloc (before : Disk) (b : Nat) (after : Disk)
  | bfree (before : Disk) (b : Nat) (after : Disk)

structure Mount (sb : Superblock) where
  disk : Disk
  /-- The inodes in memory, as ilock reads them. -/
  inode : Fin sb.ninodes → Dinode
  calls : List Call := []

abbrev Kernel (sb : Superblock) := StateT (Mount sb) (Except Panic)

/-- `addrs[k]`. -/
def Dinode.addr (d : Dinode) (k : Nat) : Nat := (d.addrs (Fin.ofNat _ k)).toNat

def Dinode.setAddr (d : Dinode) (k b : Nat) : Dinode :=
  { d with addrs := update d.addrs (Fin.ofNat _ k) (.ofNat b) }

variable {sb : Superblock}

namespace Mount

def write (v : Mount sb) (b : Nat) (block : Bytes) : Mount sb := { v with disk := update v.disk b block }

def setInode (v : Mount sb) (i : Fin sb.ninodes) (d : Dinode) : Mount sb :=
  { v with inode := update v.inode i d }

end Mount

/-! ## Blocks -/

def bzero (disk : Disk) (bno : Nat) : Disk := update disk bno fun _ => 0

/-- Where the two loops of balloc stop. -/
def firstFree (sb : Superblock) (disk : Disk) : Option Nat :=
  (List.range ((sb.size + BPB - 1) / BPB)).findSome? fun k =>
    ((List.range BPB).find? fun bi =>
      k * BPB + bi < sb.size ∧ bit (disk (sb.bblock (k * BPB))) bi = false).map (k * BPB + ·)

def markUsed (sb : Superblock) (disk : Disk) (b : Nat) : Disk := update disk (sb.bblock b) (setBit (disk (sb.bblock b)) (b % BPB))

def markFree (sb : Superblock) (disk : Disk) (b : Nat) : Disk :=
  update disk (sb.bblock b) (clearBit (disk (sb.bblock b)) (b % BPB))

def balloc : Kernel sb Nat := do
  let v ← get
  match firstFree sb v.disk with
  | some b => do
    let disk := bzero (markUsed sb v.disk b) b
    modify fun v => { v with disk, calls := v.calls ++ [.balloc v.disk b disk] }
    pure b
  | none => throw .balloc

/-- Free a disk block. The superblock that bfree reads again is never written. -/
def bfree (b : Nat) : Kernel sb Unit := do
  let v ← get
  if inUse sb v.disk b = false then throw .bfree
  else
    let disk := markFree sb v.disk b
    modify fun v => { v with disk, calls := v.calls ++ [.bfree v.disk b disk] }

/-! ## Inode content -/

def iupdate (i : Fin sb.ninodes) : Kernel sb Unit :=
  modify fun v => { v with disk := setDinode sb v.disk i (v.inode i) }

/-- `if((addr = ip->addrs[k]) == 0) ip->addrs[k] = addr = balloc(ip->dev)`. -/
def loadAddr (i : Fin sb.ninodes) (k : Nat) : Kernel sb Nat := do
  let v ← get
  if (v.inode i).addr k = 0 then do
    let b ← balloc
    modify fun v => v.setInode i ((v.inode i).setAddr k b)
    pure b
  else pure ((v.inode i).addr k)

/-- The same for `a[k]` in the indirect block. -/
def loadEntry (indirect k : Nat) : Kernel sb Nat := do
  let v ← get
  if entry (v.disk indirect) k = 0 then do
    let b ← balloc
    modify fun v => v.write indirect (setEntry (v.disk indirect) k (.ofNat b))
    pure b
  else pure (entry (v.disk indirect) k).toNat

/-- Return the disk block address of the nth block in inode ip.
If there is no such block, bmap allocates one. -/
def bmap (i : Fin sb.ninodes) (bn : Nat) : Kernel sb Nat :=
  if bn < NDIRECT then loadAddr i bn
  else if bn - NDIRECT < NINDIRECT then do
    let indirect ← loadAddr i NDIRECT
    loadEntry indirect (bn - NDIRECT)
  else throw .bmap

/-- The first loop of itrunc. -/
def truncDirect (i : Fin sb.ninodes) : Kernel sb Unit :=
  (List.range NDIRECT).forM fun k => do
    let v ← get
    if (v.inode i).addr k = 0 then pure ()
    else do
      bfree ((v.inode i).addr k)
      modify fun v => v.setInode i ((v.inode i).setAddr k 0)

/-- The indirect block in itrunc, and the loop over its entries. -/
def truncIndirect (i : Fin sb.ninodes) : Kernel sb Unit := do
  let v ← get
  if (v.inode i).addr NDIRECT = 0 then pure ()
  else do
    let indirect := (v.inode i).addr NDIRECT
    (List.range NINDIRECT).forM fun k => do
      let v ← get
      if entry (v.disk indirect) k = 0 then pure ()
      else bfree (entry (v.disk indirect) k).toNat
    bfree indirect
    modify fun v => v.setInode i ((v.inode i).setAddr NDIRECT 0)

def itrunc (i : Fin sb.ninodes) : Kernel sb Unit := do
  truncDirect i
  truncIndirect i
  modify fun v => v.setInode i { v.inode i with size := 0 }
  iupdate i

inductive Reply where
  /-- What the driver of a device returns. -/
  | driver
  /-- -1 -/
  | failed
  | count (n : Nat)
  /-- The number of bytes copied, and the bytes. -/
  | data (bytes : List UInt8)
  | inode (inum : Nat)
  | done
deriving DecidableEq, Repr

/-- How much of a transfer of `n` bytes at `off` is in the block of `off`. -/
def chunk (off n : Nat) : Nat := min n (BSIZE - off % BSIZE)

/-- The loop of readi, with `n` bytes to go. -/
def readLoop (i : Fin sb.ninodes) : Nat → Nat → Nat → Kernel sb (List UInt8)
  | 0, _, _ => pure []
  | fuel + 1, off, n =>
    if n = 0 then pure []
    else do
      let b ← bmap i (off / BSIZE)
      let v ← get
      let rest ← readLoop i fuel (off + chunk off n) (n - chunk off n)
      pure (slice (v.disk b) (off % BSIZE) (chunk off n) ++ rest)

/-- Read data from inode. Each round of the loop copies a byte at least. -/
def readi (i : Fin sb.ninodes) (off n : UInt32) : Kernel sb Reply := do
  let v ← get
  let size := (v.inode i).size
  if (v.inode i).type = T_DEV then pure .driver
  else if size < off ∨ off + n < off then pure .failed
  else do
    let n := if size < off + n then size - off else n
    let bytes ← readLoop i n.toNat off.toNat n.toNat
    pure (.data bytes)

/-- The loop of writei, with `n` bytes to go, the first of them at `src` + `tot`. -/
def writeLoop (i : Fin sb.ninodes) (src : Bytes) : Nat → Nat → Nat → Nat → Kernel sb Unit
  | 0, _, _, _ => pure ()
  | fuel + 1, tot, off, n =>
    if n = 0 then pure ()
    else do
      let b ← bmap i (off / BSIZE)
      modify fun v => v.write b (splice (v.disk b) (off % BSIZE) (slice src tot (chunk off n)))
      writeLoop i src fuel (tot + chunk off n) (off + chunk off n) (n - chunk off n)

/-- `if(n > 0 && off > ip->size)` in writei, after the loop. -/
def extend (i : Fin sb.ninodes) (off n : UInt32) : Kernel sb Unit := do
  let v ← get
  if 0 < n ∧ (v.inode i).size < off then do
    modify fun v => v.setInode i { v.inode i with size := off }
    iupdate i
  else pure ()

/-- Write data to inode. -/
def writei (i : Fin sb.ninodes) (src : Bytes) (off n : UInt32) : Kernel sb Reply := do
  let v ← get
  if (v.inode i).type = T_DEV then pure .driver
  else if (v.inode i).size < off ∨ off + n < off then pure .failed
  else if UInt32.ofNat (MAXFILE * BSIZE) < off + n then pure .failed
  else do
    writeLoop i src n.toNat 0 off.toNat n.toNat
    extend i (off + n) n
    pure (.count n.toNat)

/-! ## Inodes -/

/-- Allocate an inode. ilock will read what is written here. -/
def ialloc (type : UInt16) : Kernel sb Reply := do
  let v ← get
  match (List.finRange sb.ninodes).find? fun (inum : Fin sb.ninodes) => 1 ≤ inum.val ∧ (dinode sb v.disk inum).type = 0 with
  | some inum => do
    modify fun v => { v.setInode inum { type } with disk := setDinode sb v.disk inum { type } }
    pure (.inode inum)
  | none => throw .ialloc

/-- The part of iput that frees the inode; `last` says that the entry is valid
and has no other reference. -/
def iput (i : Fin sb.ninodes) (last : Bool) : Kernel sb Unit := do
  let v ← get
  if last = true ∧ (v.inode i).nlink = 0 then do
    itrunc i
    modify fun v => v.setInode i { v.inode i with type := 0 }
    iupdate i
  else pure ()

/-- The calls that see the contents of one inode. -/
inductive Access where
  | readi (off n : UInt32)
  | writei (src : Bytes) (off n : UInt32)
  | itrunc

inductive Event (sb : Superblock) where
  | access (i : Fin sb.ninodes) (request : Access)
  | ialloc (type : UInt16)
  | iput (i : Fin sb.ninodes) (last : Bool)
  /-- The caller of ilock changes these fields, and calls iupdate. -/
  | iupdate (i : Fin sb.ninodes) (major minor nlink : UInt16)

def Access.call (i : Fin sb.ninodes) : Access → Kernel sb Reply
  | .readi off n => Volume.readi i off n
  | .writei src off n => Volume.writei i src off n
  | .itrunc => do
    Volume.itrunc i
    pure .done

def Event.call : Event sb → Kernel sb Reply
  | .access i request => request.call i
  | .ialloc type => Volume.ialloc type
  | .iput i last => do
    Volume.iput i last
    pure .done
  | .iupdate i major minor nlink => do
    modify fun v => v.setInode i { v.inode i with major, minor, nlink }
    Volume.iupdate i
    pure .done

structure Session (sb : Superblock) where
  volume : Mount sb
  /-- What the last call returned. -/
  reply : Reply := .done
  /-- After a panic. -/
  halted : Option Panic := none

def Session.step (s : Session sb) (event : Event sb) : Option (Session sb) :=
  if s.halted = none then
    match event.call s.volume with
    | .ok (reply, volume) => some { volume, reply }
    | .error panic => some { s with halted := some panic }
  else none

/-- The volume when its inodes have been read. -/
def mount (sb : Superblock) (disk : Disk) : Mount sb where
  disk := disk
  inode i := dinode sb disk i

end Xv6.Volume
