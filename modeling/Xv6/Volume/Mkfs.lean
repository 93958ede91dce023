import Xv6.Volume.Directory

namespace Xv6.Volume.Mkfs

open Data

/-! mkfs: the program that writes the image the kernel mounts. The host is
little-endian, so that xshort and xint change nothing. -/

def T_FILE : UInt16 := 2

def FSSIZE : Nat := 1102

def NINODES : Nat := 200

def ROOTINO : Nat := 1

def nlog : Nat := 30

def ninodeblocks : Nat := NINODES / IPB + 1

def nbitmap : Nat := FSSIZE / (BSIZE * 8) + 1

def nmeta : Nat := 2 + nlog + ninodeblocks + nbitmap

/-- The superblock that mkfs writes. -/
def sb : Superblock where
  size := FSSIZE
  ninodes := NINODES
  inodestart := 2 + nlog
  bmapstart := 2 + nlog + ninodeblocks
  afterSuperblock := by decide
  afterInodes := by decide
  afterMap := by decide
  small := by decide

/-- An argument of mkfs: a name, and what the reads from the file return one after the other. -/
structure File where
  name : List UInt8
  /-- Whether open succeeds. -/
  readable : Bool := true
  chunks : List (List UInt8)
  noNul : 0 ∉ name
  /-- The loop stops at a read that returns 0, and a read returns `sizeof(buf)` bytes at most. -/
  full : ∀ chunk ∈ chunks, 0 < chunk.length ∧ chunk.length ≤ BSIZE

structure Image where
  disk : Disk := fun _ _ => 0
  /-- The length of the file, in sectors. -/
  length : Nat := 0
  freeinode : Nat := 1
  freeblock : Nat := nmeta
  /-- Auxiliary: the last dinode that winode wrote for a number. -/
  written : Nat → Option Dinode := fun _ => none

inductive Exit where
  /-- perror, then exit(1). -/
  | failed
  | assertion
deriving DecidableEq, Repr

abbrev Writer := StateT Image (Except Exit)

def assert (condition : Bool) : Writer Unit := if condition = true then pure () else throw .assertion

def wsect (sec : Nat) (buf : Bytes) : Writer Unit :=
  modify fun s => { s with disk := Function.update s.disk sec buf, length := max s.length (sec + 1) }

/-- A read beyond the end of the file fails. -/
def rsect (sec : Nat) : Writer Bytes := do
  let s ← get
  if sec < s.length then pure (s.disk sec) else throw .failed

def winode (inum : Nat) (ip : Dinode) : Writer Unit := do
  let buf ← rsect (sb.iblock inum)
  wsect (sb.iblock inum) (splice buf (128 * (inum % IPB)) ip.bytes)
  modify fun s => { s with written := Function.update s.written inum (some ip) }

def rinode (inum : Nat) : Writer Dinode := do
  let buf ← rsect (sb.iblock inum)
  pure (.read buf (128 * (inum % IPB)))

def ialloc (type : UInt16) : Writer Nat := do
  let s ← get
  modify fun s => { s with freeinode := s.freeinode + 1 }
  winode s.freeinode { type, nlink := 1 }
  pure s.freeinode

/-- `freeblock++`. -/
def nextBlock : Writer Nat := do
  let s ← get
  modify fun s => { s with freeblock := s.freeblock + 1 }
  pure s.freeblock

/-- Marks the first `used` blocks. -/
def balloc (used : Nat) : Writer Unit := do
  assert (used < BSIZE * 8)
  wsect sb.bmapstart ((List.range used).foldl setBit fun _ => 0)

/-- `if(xint(din.addrs[k]) == 0) din.addrs[k] = xint(freeblock++)`. -/
def place (din : Dinode) (k : Nat) : Writer Dinode :=
  if din.addr k = 0 then do
    let b ← nextBlock
    pure (din.setAddr k b)
  else pure din

/-- The same for an entry of the indirect block, which is then written. -/
def placeEntry (indirect k : Nat) : Writer Nat := do
  let buf ← rsect indirect
  if entry buf k = 0 then do
    let b ← nextBlock
    wsect indirect (setEntry buf k (.ofNat b))
    pure b
  else pure (entry buf k).toNat

/-- The block of the file block `fbn`, in a round of the loop of iappend. -/
def locate (din : Dinode) (fbn : Nat) : Writer (Dinode × Nat) :=
  if fbn < NDIRECT then do
    let din ← place din fbn
    pure (din, din.addr fbn)
  else do
    let din ← place din NDIRECT
    let x ← placeEntry (din.addr NDIRECT) (fbn - NDIRECT)
    pure (din, x)

/-- The body of the loop of iappend, which copies `p` to the block of `off`. -/
def appendRound (din : Dinode) (off : Nat) (p : List UInt8) : Writer Dinode := do
  assert (off / BSIZE < MAXFILE)
  let (din, x) ← locate din (off / BSIZE)
  let buf ← rsect x
  wsect x (splice buf (off % BSIZE) p)
  pure din

/-- The loop of iappend. -/
def appendLoop : Nat → Dinode → Nat → List UInt8 → Writer Dinode
  | 0, din, off, _ => pure { din with size := .ofNat off }
  | fuel + 1, din, off, p =>
    if p = [] then pure { din with size := .ofNat off }
    else do
      let din ← appendRound din off (p.take (chunk off p.length))
      appendLoop fuel din (off + chunk off p.length) (p.drop (chunk off p.length))

/-- Each round of the loop copies a byte at least. -/
def iappend (inum : Nat) (p : List UInt8) : Writer Unit := do
  let din ← rinode inum
  let din ← appendLoop p.length din din.size.toNat p
  winode inum din

/-- Skip leading _ in name when writing to file system. -/
def skipUnderscore (name : List UInt8) : List UInt8 := if name.head? = some 95 then name.tail else name

/-- A round of the loop over the arguments. -/
def addFile (file : File) : Writer Unit := do
  assert (47 ∉ file.name)
  if file.readable = true then do
    let inum ← ialloc T_FILE
    iappend ROOTINO (dirent inum (skipUnderscore file.name))
    file.chunks.forM (iappend inum)
  else throw .failed

/-- The block of the superblock, with its fields in order. -/
def superblock : Bytes :=
  splice (fun _ => 0) 0 (arrayBytes [.ofNat FSSIZE, .ofNat (FSSIZE - nmeta), .ofNat NINODES, .ofNat nlog, 2, .ofNat sb.inodestart,
    .ofNat sb.bmapstart])

def zeroImage (size : Nat) : Writer Unit := (List.range size).forM fun i => wsect i fun _ => 0

/-- The zeroed image, the superblock and the two first entries of the root directory. -/
def format : Writer Unit := do
  zeroImage FSSIZE
  wsect 1 superblock
  let rootino ← ialloc T_DIR
  assert (rootino = ROOTINO)
  iappend ROOTINO (dirent ROOTINO [46])
  iappend ROOTINO (dirent ROOTINO [46, 46])

/-- Fix size of root inode dir, and write the free map. -/
def finish : Writer Unit := do
  let din ← rinode ROOTINO
  winode ROOTINO { din with size := .ofNat ((din.size.toNat / BSIZE + 1) * BSIZE) }
  let s ← get
  balloc s.freeblock

def main (files : List File) : Writer Unit := do
  format
  files.forM addFile
  finish

end Xv6.Volume.Mkfs
