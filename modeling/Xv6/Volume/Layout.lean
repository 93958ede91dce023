import Xv6.Data.Bytes

namespace Xv6.Volume

open Data Function List

/-! The on-disk format: dinodes packed into inode blocks, the free map, and
arrays of block numbers in indirect blocks. -/

def BSIZE : Nat := 512

def NDIRECT : Nat := 28

def NINDIRECT : Nat := BSIZE / 4

def MAXFILE : Nat := NDIRECT + NINDIRECT

/-- Inodes per block, of 128 bytes each. -/
def IPB : Nat := BSIZE / 128

/-- Bitmap bits per block. -/
def BPB : Nat := BSIZE * 8

/-- The contents of the blocks, by block number. -/
abbrev Disk := Nat → Bytes

/-- None of the functions here depends on the sign of a `short`. -/
structure Dinode where
  type : UInt16 := 0
  major : UInt16 := 0
  minor : UInt16 := 0
  nlink : UInt16 := 0
  size : UInt32 := 0
  addrs : Fin (NDIRECT + 1) → UInt32 := fun _ => 0

/-- The fields of the superblock that the allocators use, as mkfs lays them out:
inode blocks, then the free map, then data blocks. -/
structure Superblock where
  size : Nat
  ninodes : Nat
  inodestart : Nat
  bmapstart : Nat
  afterSuperblock : 1 < inodestart
  afterInodes : inodestart + ninodes / IPB + 1 ≤ bmapstart
  afterMap : bmapstart + size / BPB + 1 ≤ size
  /-- The `int` counters of balloc do not overflow. -/
  small : size + BPB < 2 ^ 31

namespace Superblock

variable (sb : Superblock)

/-- Block containing inode i. -/
def iblock (i : Nat) : Nat := i / IPB + sb.inodestart

/-- Block of free map containing bit for block b. -/
def bblock (b : Nat) : Nat := b / BPB + sb.bmapstart

/-- The first data block. -/
def dataStart : Nat := sb.bmapstart + sb.size / BPB + 1

end Superblock

/-! ## Arrays of words -/

/-- `((uint*)block)[k]`. -/
def entry (block : Bytes) (k : Nat) : UInt32 := .ofNat (value (slice block (4 * k) 4))

/-- `((uint*)block)[k] = v`. -/
def setEntry (block : Bytes) (k : Nat) (v : UInt32) : Bytes := splice block (4 * k) (word 4 v.toNat)

section

variable {block : Bytes} {k j : Nat} {v : UInt32}

theorem ofNat_value_word32 (v : UInt32) : UInt32.ofNat (value (word 4 v.toNat)) = v := by
  rw [value_word v.toNat_lt, UInt32.ofNat_toNat]

theorem ofNat_value_word16 (v : UInt16) : UInt16.ofNat (value (word 2 v.toNat)) = v := by
  rw [value_word v.toNat_lt, UInt16.ofNat_toNat]

theorem entry_setEntry_self : entry (setEntry block k v) k = v := by
  have written : slice (splice block (4 * k) (word 4 v.toNat)) (4 * k) (word 4 v.toNat).length = _ := slice_splice_self
  rw [length_word] at written
  rw [entry, setEntry, written, ofNat_value_word32]

theorem entry_setEntry_of_ne (other : j ≠ k) : entry (setEntry block k v) j = entry block j := by
  rw [entry, entry, setEntry, slice_splice_apart (by rw [length_word]; omega)]

theorem entry_zero : entry (fun _ => 0) k = 0 := rfl

end

/-! ## Dinodes -/

/-- The bytes of an array of block numbers. -/
def arrayBytes (values : List UInt32) : List UInt8 := values.flatMap fun v => word 4 v.toNat

theorem length_arrayBytes (values : List UInt32) : (arrayBytes values).length = 4 * values.length := by
  induction values with
  | nil => rfl
  | cons _ _ ih =>
    rw [arrayBytes, flatMap_cons, length_append, length_word, ← arrayBytes, ih, length_cons]
    omega

theorem take_drop_arrayBytes {values : List UInt32} {k : Nat} (inside : k < values.length) :
    ((arrayBytes values).drop (4 * k)).take 4 = word 4 (values.get ⟨k, inside⟩).toNat := by
  induction values generalizing k with
  | nil => simp at inside
  | cons v _ ih =>
    rw [arrayBytes, flatMap_cons, ← arrayBytes]
    cases k with
    | zero =>
      rw [Nat.mul_zero, drop_zero, take_append_of_le_length (by simp), take_of_length_le (by simp)]
      rfl
    | succ k =>
      have further : 4 * (k + 1) = (word 4 v.toNat).length + 4 * k := by
        rw [length_word]
        omega
      rw [further, drop_append, drop_eq_nil_of_le (by omega), nil_append, Nat.add_sub_cancel_left]
      exact ih (Nat.lt_of_succ_lt_succ inside)

namespace Dinode

/-- The fields before the block numbers, one after the other. -/
def header (d : Dinode) : List UInt8 :=
  word 2 d.type.toNat ++ (word 2 d.major.toNat ++ (word 2 d.minor.toNat ++ (word 2 d.nlink.toNat ++ word 4 d.size.toNat)))

def addrBytes (d : Dinode) : List UInt8 := arrayBytes (List.ofFn d.addrs)

def bytes (d : Dinode) : List UInt8 := d.header ++ d.addrBytes

def read (block : Bytes) (off : Nat) : Dinode where
  type := .ofNat (value (slice block off 2))
  major := .ofNat (value (slice block (off + 2) 2))
  minor := .ofNat (value (slice block (off + 4) 2))
  nlink := .ofNat (value (slice block (off + 6) 2))
  size := .ofNat (value (slice block (off + 8) 4))
  addrs := fun k => .ofNat (value (slice block (off + (12 + 4 * k)) 4))

variable {block other : Bytes} {off : Nat} {d : Dinode}

theorem length_header (d : Dinode) : d.header.length = 12 := by simp [header]

theorem length_bytes (d : Dinode) : d.bytes.length = 128 := by
  rw [bytes, length_append, length_header, addrBytes, length_arrayBytes, length_ofFn, NDIRECT]

theorem read_congr (same : ∀ i, off ≤ i → i < off + 128 → block i = other i) : read block off = read other off := by
  have part {at' n : Nat} (low : off ≤ at') (high : at' + n ≤ off + 128) : slice block at' n = slice other at' n :=
    slice_congr fun i above below => same i (by omega) (by omega)
  unfold read
  have addrs : (fun k : Fin (NDIRECT + 1) => UInt32.ofNat (value (slice block (off + (12 + 4 * k)) 4))) =
      fun k => .ofNat (value (slice other (off + (12 + 4 * k)) 4)) := by
    funext k
    have := k.isLt
    rw [part (by omega) (by simp only [NDIRECT] at this; omega)]
  rw [part (by omega) (by omega), part (by omega) (by omega), part (by omega) (by omega), part (by omega) (by omega),
    part (by omega) (by omega), addrs]

theorem read_splice : read (splice block off d.bytes) off = d := by
  have part (m n : Nat) (inside : m + n ≤ 128) : slice (splice block off d.bytes) (off + m) n = (d.bytes.drop m).take n :=
    slice_splice (by rw [length_bytes]; exact inside)
  have front (m n : Nat) (inside : m + n ≤ 12) : slice (splice block off d.bytes) (off + m) n = (d.header.drop m).take n := by
    rw [part m n (by omega), bytes, drop_append_of_le_length (by rw [length_header]; omega),
      take_append_of_le_length (by rw [length_drop, length_header]; omega)]
  have addrs (k : Fin (NDIRECT + 1)) :
      UInt32.ofNat (value (slice (splice block off d.bytes) (off + (12 + 4 * k)) 4)) = d.addrs k := by
    have bound : k.val < 29 := k.isLt
    have inside : k.val < (ofFn d.addrs).length := by
      rw [length_ofFn]
      exact k.isLt
    rw [part _ _ (by omega), bytes, drop_append, drop_eq_nil_of_le (by rw [length_header]; omega), nil_append,
      length_header, Nat.add_sub_cancel_left, addrBytes, take_drop_arrayBytes inside, ofNat_value_word32, get_ofFn]
    rfl
  have type := front 0 2 (by omega)
  rw [Nat.add_zero] at type
  unfold read
  rw [type, front 2 2 (by omega), front 4 2 (by omega), front 6 2 (by omega), front 8 4 (by omega)]
  simp [header, drop_append, drop_eq_nil_of_le, take_of_length_le, ofNat_value_word16, ofNat_value_word32, addrs]

theorem read_zero (off : Nat) : read (fun _ => 0) off = {} := rfl

end Dinode

/-- The dinode of inode i. -/
def dinode (sb : Superblock) (disk : Disk) (i : Nat) : Dinode := .read (disk (sb.iblock i)) (128 * (i % IPB))

def setDinode (sb : Superblock) (disk : Disk) (i : Nat) (d : Dinode) : Disk :=
  update disk (sb.iblock i) (splice (disk (sb.iblock i)) (128 * (i % IPB)) d.bytes)

/-- The bit of block b in the free map. -/
def inUse (sb : Superblock) (disk : Disk) (b : Nat) : Bool := bit (disk (sb.bblock b)) (b % BPB)

variable {sb : Superblock} {disk : Disk} {i j b : Nat} {d : Dinode}

theorem dinode_setDinode_self : dinode sb (setDinode sb disk i d) i = d := by
  rw [dinode, setDinode, update_self, Dinode.read_splice]

theorem dinode_setDinode_of_ne (other : j ≠ i) : dinode sb (setDinode sb disk i d) j = dinode sb disk j := by
  unfold dinode setDinode
  by_cases same : sb.iblock j = sb.iblock i
  · rw [same, update_self]
    refine Dinode.read_congr fun k low high => splice_apart ?_
    rw [Dinode.length_bytes]
    have apart : j % IPB ≠ i % IPB := by
      simp only [Superblock.iblock, IPB, BSIZE] at same ⊢
      omega
    omega
  · rw [update_of_ne same]

theorem setDinode_of_ne {block : Nat} (other : block ≠ sb.iblock i) : setDinode sb disk i d block = disk block :=
  update_of_ne other ..

end Xv6.Volume
