import Mathlib.Data.List.OfFn
import Mathlib.Tactic.IntervalCases
import Xv6.Data.Disk

namespace Xv6.Log

open Data

def MAXOPBLOCKS : Nat := 10

def LOGSIZE : Nat := MAXOPBLOCKS * 3

/-- The 512 bytes of a block, as the 128 words of a `struct logheader *` into it. -/
abbrev Block := Fin 128 → UInt32

/-- `struct logheader`: `n` is the length of `block`, whose array has `LOGSIZE` entries. -/
structure LogHeader where
  block : List UInt32
  bound : block.length ≤ LOGSIZE

def LogHeader.empty : LogHeader := ⟨[], by decide⟩

/-- `log.start` and `log.size`, as initlog copies them from the super block: one
header block, then data blocks, with block numbers that fit in an `int`. -/
structure Region where
  start : Nat
  size : Nat
  header : 0 < size
  fits : start + size ≤ 2 ^ 31

def Region.Contains (log : Region) (address : Nat) : Prop := log.start ≤ address ∧ address < log.start + log.size

/-- The log region mkfs lays out: `sb.logstart = 2` and `sb.nlog = LOGSIZE`. -/
def mkfsRegion : Region := ⟨2, LOGSIZE, by decide, by decide⟩

/-- `lh->n` in the header block. -/
def count (buf : Block) : Int := (buf 0).toInt32.toInt

/-- The buffers that log_write marked `B_DIRTY`: they stay in the cache until
install_trans writes them home. Every other buffer reads as the disk does. -/
abbrev Pinned := Nat → Option Block

def bread (pinned : Pinned) (blockno : Nat) : DiskProg Block Block :=
  match pinned blockno with
  | some data => .done data
  | none => .read blockno .done

def bwrite (blockno : Nat) (data : Block) : DiskProg Block Unit := .write blockno data (.done ())

/-- read_head's loop. More than `LOGSIZE` entries would be stored past the end of
`log.lh.block`; the result is none there. -/
def decodeHeader (buf : Block) : Option LogHeader :=
  if room : (count buf).toNat ≤ LOGSIZE then
    some ⟨List.ofFn fun i : Fin (count buf).toNat => buf ⟨i + 1, by
      have := i.isLt
      simp only [LOGSIZE, MAXOPBLOCKS] at room
      omega⟩, by simpa using room⟩
  else none

def readHead (log : Region) (pinned : Pinned) : DiskProg Block (Option LogHeader) := do
  let buf ← bread pinned log.start
  pure (decodeHeader buf)

/-- write_head's stores into the buffer: words past the entries in use keep their contents. -/
def encodeHeader (buf : Block) (lh : LogHeader) : Block := fun word =>
  if word = 0 then UInt32.ofNat lh.block.length
  else (lh.block[word.val - 1]?).getD (buf word)

def writeHead (log : Region) (pinned : Pinned) (lh : LogHeader) : DiskProg Block Unit := do
  let buf ← bread pinned log.start
  bwrite log.start (encodeHeader buf lh)

def installLoop (log : Region) (pinned : Pinned) : List UInt32 → Nat → DiskProg Block Unit
  | [], _ => pure ()
  | home :: rest, tail => do
    let lbuf ← bread pinned (log.start + tail + 1)
    let _dbuf ← bread pinned home.toNat
    bwrite home.toNat lbuf
    installLoop log pinned rest (tail + 1)

def installTrans (log : Region) (pinned : Pinned) (lh : LogHeader) : DiskProg Block Unit := installLoop log pinned lh.block 0

def writeLogLoop (log : Region) (pinned : Pinned) : List UInt32 → Nat → DiskProg Block Unit
  | [], _ => pure ()
  | home :: rest, tail => do
    let _to ← bread pinned (log.start + tail + 1)
    let cached ← bread pinned home.toNat
    bwrite (log.start + tail + 1) cached
    writeLogLoop log pinned rest (tail + 1)

def writeLog (log : Region) (pinned : Pinned) (lh : LogHeader) : DiskProg Block Unit := writeLogLoop log pinned lh.block 0

def commit (log : Region) (pinned : Pinned) (lh : LogHeader) : DiskProg Block Unit :=
  if 0 < lh.block.length then do
    writeLog log pinned lh
    writeHead log pinned lh
    installTrans log pinned lh
    writeHead log pinned .empty
  else pure ()

/-- Recovery runs with the empty cache of a freshly booted machine. -/
def recoverFromLog (log : Region) : DiskProg Block Unit := do
  let head ← readHead log (fun _ => none)
  match head with
  | none => pure ()
  | some lh => do
    installTrans log (fun _ => none) lh
    writeHead log (fun _ => none) .empty

theorem count_encodeHeader (buf : Block) (lh : LogHeader) : count (encodeHeader buf lh) = lh.block.length := by
  have small : ∀ n : Fin (LOGSIZE + 1), (UInt32.ofNat n).toInt32.toInt = n := by decide
  have within : lh.block.length < LOGSIZE + 1 := Nat.lt_succ_of_le lh.bound
  simpa [count, encodeHeader] using small ⟨lh.block.length, within⟩

theorem decodeHeader_encodeHeader (buf : Block) (lh : LogHeader) : decodeHeader (encodeHeader buf lh) = some lh := by
  obtain ⟨block, bound⟩ := lh
  have length : (count (encodeHeader buf ⟨block, bound⟩)).toNat = block.length := by
    rw [count_encodeHeader]
    simp
  unfold decodeHeader
  rw [dif_pos (by rw [length]; exact bound)]
  simp only [Option.some.injEq, LogHeader.mk.injEq]
  apply List.ext_getElem
  · simpa using length
  · intro i left right
    simp [encodeHeader, right]

theorem decodeHeader_of_count_zero {buf : Block} (zero : count buf = 0) : decodeHeader buf = some .empty := by
  have length : (count buf).toNat = 0 := by simp [zero]
  unfold decodeHeader
  rw [dif_pos (by rw [length]; exact Nat.zero_le _)]
  simp only [Option.some.injEq, LogHeader.empty, LogHeader.mk.injEq]
  exact List.eq_nil_of_length_eq_zero (by simpa using length)

end Xv6.Log
