import Xv6.Volume.Append

namespace Xv6.Volume.Reservation

open Finset List

/-! The blocks that the transactions of filewrite put into the log. A block in use
has one place in one file, so a block is named by its place. A transaction in which
balloc finds no block panics and never ends; here balloc always finds one. -/

inductive Block where
  | data (bn : Nat)
  | indirect
  /-- The one block of the free map. -/
  | bitmap
  /-- The block with the inode. -/
  | inode
deriving DecidableEq, Repr

/-- The inode, which is not a device, and the blocks logged since `begin_op`. -/
structure File where
  size : UInt32
  /-- Whether the address of a block is not 0, in `addrs` or in the indirect block. -/
  held : Nat → Bool
  /-- Whether `addrs[NDIRECT]` is not 0. -/
  indirect : Bool
  logged : List Block := []

/-- balloc, and bzero of the block. -/
def balloc (block : Block) (f : File) : File := { f with logged := block :: .bitmap :: f.logged }

/-- `if((addr = ip->addrs[NDIRECT]) == 0)`. -/
def loadIndirect (f : File) : File :=
  if f.indirect = true then f
  else { balloc .indirect f with indirect := true, held := fun bn => decide (bn < NDIRECT) && f.held bn }

def bmap (bn : Nat) (f : File) : File :=
  if bn < NDIRECT then
    if f.held bn = true then f else { balloc (.data bn) f with held := Function.update f.held bn true }
  else
    let f := loadIndirect f
    if f.held bn = true then f
    else { f with held := Function.update f.held bn true, logged := .indirect :: (balloc (.data bn) f).logged }

/-- The loop of writei, with `n` bytes to go. -/
def writeLoop : Nat → Nat → Nat → File → File
  | 0, _, _, f => f
  | fuel + 1, off, n, f =>
    if n = 0 then f
    else
      let f := bmap (off / BSIZE) f
      writeLoop fuel (off + chunk off n) (n - chunk off n) { f with logged := .data (off / BSIZE) :: f.logged }

/-- `off > ip->size || off + n < off`, and `off + n > MAXFILE*BSIZE`. -/
def Refused (f : File) (off n : UInt32) : Prop := (f.size < off ∨ off + n < off) ∨ UInt32.ofNat (MAXFILE * BSIZE) < off + n

instance (f : File) (off n : UInt32) : Decidable (Refused f off n) := inferInstanceAs (Decidable (_ ∨ _))

/-- Whether writei writes, and the file. -/
def writei (off n : UInt32) (f : File) : Bool × File :=
  if Refused f off n then (false, f)
  else
    let f := writeLoop n.toNat off.toNat n.toNat f
    if 0 < n ∧ f.size < off + n then (true, { f with size := off + n, logged := .inode :: f.logged }) else (true, f)

/-- What each round of filewrite logs between begin_op and end_op. -/
def rounds (n : Nat) : Nat → UInt32 → Nat → File → List (List Block)
  | 0, _, _, _ => []
  | fuel + 1, off, i, f =>
    if i < n then
      let n1 := UInt32.ofNat (min (n - i) maxWrite)
      match writei off n1 { f with logged := [] } with
      | (true, f) => f.logged :: rounds n fuel (off + n1) (i + n1.toNat) f
      | (false, f) => [f.logged]
    else []

def filewrite (f : File) (off : UInt32) (n : Int32) : List (List Block) := rounds n.toInt.toNat n.toInt.toNat off 0 f

/-- No transaction of filewrite logs more than begin_op has reserved for it. -/
def Reserved (f : File) (off : UInt32) (n : Int32) : Prop := ∀ logged ∈ filewrite f off n, logged.toFinset.card ≤ Log.MAXOPBLOCKS

/-! ## What is logged -/

/-- Whether there is a block for `bn`. -/
def File.has (f : File) (bn : Nat) : Bool := f.held bn && (decide (bn < NDIRECT) || f.indirect)

/-- The blocks of a file that `n` bytes at `off` go to. -/
def blocks (off n : Nat) : Finset Nat := if n = 0 then ∅ else Finset.Icc (off / BSIZE) ((off + n - 1) / BSIZE)

/-- What the loop of writei logs. -/
def Logs (f : File) (touched : Finset Nat) : Block → Prop
  | .data bn => bn ∈ touched
  | .bitmap => ∃ bn ∈ touched, f.has bn = false
  | .indirect => ∃ bn ∈ touched, NDIRECT ≤ bn ∧ f.has bn = false
  | .inode => False

section

variable {f : File} {off n bn : Nat}

theorem mem_blocks : bn ∈ blocks off n ↔ n ≠ 0 ∧ off / BSIZE ≤ bn ∧ bn ≤ (off + n - 1) / BSIZE := by
  unfold blocks
  split <;> simp_all

theorem blocks_chunk (some : n ≠ 0) : blocks off n = insert (off / BSIZE) (blocks (off + chunk off n) (n - chunk off n)) := by
  have positive := chunk_pos off some
  have small := chunk_le off n
  have fits := chunk_fits off n
  ext bn
  rw [mem_insert, mem_blocks, mem_blocks]
  simp only [BSIZE] at *
  omega

theorem bmap_spec (f : File) (bn : Nat) : (∀ k, (bmap bn f).has k = (f.has k || decide (k = bn))) ∧ (bmap bn f).size = f.size ∧
      ∀ block, block ∈ (bmap bn f).logged ↔ block ∈ f.logged ∨ f.has bn = false ∧
        (block = .data bn ∨ block = .bitmap ∨ block = .indirect ∧ NDIRECT ≤ bn) := by
  by_cases direct : bn < NDIRECT
  · have beyond : ¬ NDIRECT ≤ bn := Nat.not_le.mpr direct
    cases held : f.held bn with
    | true =>
      refine ⟨fun k => ?_, by simp [bmap, direct, held], fun block => by simp [bmap, direct, held, File.has]⟩
      by_cases same : k = bn
      · simp [bmap, direct, held, File.has, same]
      · simp [bmap, direct, held, same]
    | false =>
      refine ⟨fun k => ?_, by simp [bmap, direct, held, balloc], fun block => ?_⟩
      · by_cases same : k = bn
        · simp [bmap, direct, held, File.has, balloc, same]
        · simp [bmap, direct, held, File.has, balloc, same]
      · simp only [bmap, direct, held, File.has, balloc, beyond]
        simp
        tauto
  · have beyond : NDIRECT ≤ bn := Nat.not_lt.mp direct
    cases indirect : f.indirect with
    | true =>
      have loaded : loadIndirect f = f := by simp [loadIndirect, indirect]
      cases held : f.held bn with
      | true =>
        refine ⟨fun k => ?_, by simp [bmap, direct, held, loaded], fun block => by
          simp [bmap, direct, held, loaded, File.has, indirect]⟩
        by_cases same : k = bn
        · simp [bmap, direct, held, loaded, File.has, indirect, same]
        · simp [bmap, direct, held, loaded, same]
      | false =>
        refine ⟨fun k => ?_, by simp [bmap, direct, held, loaded], fun block => ?_⟩
        · by_cases same : k = bn
          · simp [bmap, direct, held, loaded, File.has, indirect, same]
          · simp [bmap, direct, held, loaded, File.has, indirect, same]
        · simp only [bmap, direct, held, loaded, File.has, indirect, balloc]
          simp [beyond]
          tauto
    | false =>
      refine ⟨fun k => ?_, by simp [bmap, direct, loadIndirect, indirect, balloc], fun block => ?_⟩
      · by_cases same : k = bn
        · simp [bmap, direct, loadIndirect, indirect, balloc, File.has, same]
        · by_cases low : k < NDIRECT <;> simp [bmap, direct, loadIndirect, indirect, balloc, File.has, same, low]
      · simp only [bmap, direct, loadIndirect, indirect, balloc, File.has]
        simp [direct, beyond]
        tauto

theorem writeLoop_spec (fuel off : Nat) (enough : n ≤ fuel) (f : File) : (writeLoop fuel off n f).size = f.size ∧
      ∀ block, block ∈ (writeLoop fuel off n f).logged ↔ block ∈ f.logged ∨ Logs f (blocks off n) block := by
  induction fuel generalizing off n f with
  | zero =>
    obtain rfl : n = 0 := Nat.le_zero.mp enough
    refine ⟨rfl, fun block => ?_⟩
    cases block <;> simp [writeLoop, Logs, blocks]
  | succ _ ih =>
    by_cases none : n = 0
    · refine ⟨by simp [writeLoop, none], fun block => ?_⟩
      cases block <;> simp [writeLoop, none, Logs, blocks]
    · have positive := chunk_pos off none
      obtain ⟨has, size, logged⟩ := bmap_spec f (off / BSIZE)
      obtain ⟨size', logged'⟩ := ih (n := n - chunk off n) (off + chunk off n) (by omega)
        { bmap (off / BSIZE) f with logged := .data (off / BSIZE) :: (bmap (off / BSIZE) f).logged }
      simp only [writeLoop, if_neg none]
      refine ⟨size'.trans size, fun block => ?_⟩
      rw [logged', List.mem_cons, logged, blocks_chunk none]
      have has' (k : Nat) : File.has { bmap (off / BSIZE) f with
          logged := .data (off / BSIZE) :: (bmap (off / BSIZE) f).logged } k = (f.has k || decide (k = off / BSIZE)) := has k
      cases block with
      | data => simp [Logs]; tauto
      | inode => simp [Logs]
      | bitmap | indirect =>
        simp only [Logs, has', mem_insert]
        cases missing : f.has (off / BSIZE) <;> simp <;> grind

end

/-- The data blocks of a write, and the blocks of the free map, the inode and the
addresses where they change. -/
def demand (f : File) (off n : UInt32) : Nat :=
  (blocks off.toNat n.toNat).card + (if ∃ bn ∈ blocks off.toNat n.toNat, f.has bn = false then 1 else 0) +
    (if ∃ bn ∈ blocks off.toNat n.toNat, NDIRECT ≤ bn ∧ f.has bn = false then 1 else 0) +
    if 0 < n ∧ f.size < off + n then 1 else 0

/-- The size of the first round. -/
def firstPiece (n : Int32) : UInt32 := UInt32.ofNat (min n.toInt.toNat maxWrite)

section

variable {f : File} {off n : UInt32}

section

variable (accepted : ¬ Refused f off n)
include accepted

theorem mem_logged_writei (begun : f.logged = []) (block : Block) :
    block ∈ (writei off n f).2.logged ↔ Logs f (blocks off.toNat n.toNat) block ∨ block = .inode ∧ 0 < n ∧ f.size < off + n := by
  obtain ⟨size, logged⟩ := writeLoop_spec n.toNat off.toNat (Nat.le_refl _) f
  rw [begun] at logged
  unfold writei
  simp only [if_neg accepted, size]
  split
  · rename_i grows
    simp [logged, grows, or_comm]
  · rename_i fits
    simp [logged, fits]

theorem card_logged_writei (begun : f.logged = []) :
    (writei off n f).2.logged.toFinset.card = demand f off n := by
  have same : (writei off n f).2.logged.toFinset = (blocks off.toNat n.toNat).image Block.data ∪
      (if ∃ bn ∈ blocks off.toNat n.toNat, f.has bn = false then {.bitmap} else ∅) ∪
      (if ∃ bn ∈ blocks off.toNat n.toNat, NDIRECT ≤ bn ∧ f.has bn = false then {.indirect} else ∅) ∪
      if 0 < n ∧ f.size < off + n then {.inode} else ∅ := by
    have member (block b : Block) (p : Prop) [Decidable p] : block ∈ (if p then ({b} : Finset Block) else ∅) ↔ p ∧ block = b := by
      split <;> simp_all
    ext block
    rw [mem_toFinset, mem_logged_writei accepted begun]
    cases block <;> simp [Logs, member]
  have single (block : Block) (p : Prop) [Decidable p] :
      (if p then ({block} : Finset Block) else ∅).card = if p then 1 else 0 := by
    split <;> rfl
  have apart (block : Block) (rest : Finset Block) (other : block ∉ rest) (p : Prop) [Decidable p] :
      Disjoint rest (if p then {block} else ∅) := by
    split
    · exact Finset.disjoint_singleton_right.mpr other
    · exact disjoint_empty_right _
  rw [same, card_union_of_disjoint, card_union_of_disjoint, card_union_of_disjoint,
    card_image_of_injective _ fun _ _ => Block.data.inj, single, single, single]
  · rfl
  · exact apart _ _ (by simp) _
  · exact apart _ _ (by simp; split <;> simp) _
  · exact apart _ _ (by simp; constructor <;> split <;> simp) _

theorem writei_fst : (writei off n f).1 = true := by
  unfold writei
  rw [if_neg accepted]
  dsimp only
  split <;> rfl

end

theorem card_blocks_le (off n : Nat) : n ≤ (blocks off n).card * BSIZE := by
  unfold blocks
  split
  · simp_all
  · rw [Nat.card_Icc]
    simp only [BSIZE]
    omega

end

/-- For every file, offset and size: the first piece decides, and a full piece is too large. -/
theorem filewrite_reserved_iff (f : File) (off : UInt32) (n : Int32) :
    Reserved f off n ↔ Refused f off (firstPiece n) ∨ demand f off (firstPiece n) ≤ Log.MAXOPBLOCKS := by
  have size : (firstPiece n).toNat = min n.toInt.toNat maxWrite :=
    UInt32.toNat_ofNat_of_lt' (Nat.lt_of_le_of_lt (Nat.min_le_right ..) (by decide))
  cases count : n.toInt.toNat with
  | zero =>
    have none : firstPiece n = 0 := by
      rw [firstPiece, count]
      rfl
    have few : demand f off 0 ≤ Log.MAXOPBLOCKS := by
      simp [demand, blocks]
    rw [none]
    exact iff_of_true (by simp [Reserved, filewrite, rounds, count]) (.inr few)
  | succ rest =>
    have first : filewrite f off n = match writei off (firstPiece n) { f with logged := [] } with
        | (true, g) => g.logged :: rounds (rest + 1) rest (off + firstPiece n) (firstPiece n).toNat g
        | (false, g) => [g.logged] := by
      simp [filewrite, rounds, count, firstPiece]
    by_cases refused : Refused f off (firstPiece n)
    · refine iff_of_true ?_ (.inl refused)
      have stops : writei off (firstPiece n) { f with logged := [] } = (false, { f with logged := [] }) := if_pos refused
      simp [Reserved, first, stops]
    · have card : (writei off (firstPiece n) { f with logged := [] }).2.logged.toFinset.card = demand f off (firstPiece n) :=
        card_logged_writei refused rfl
      have goes : (writei off (firstPiece n) { f with logged := [] }).1 = true := writei_fst refused
      cases result : writei off (firstPiece n) { f with logged := [] } with
      | mk _ g =>
        rw [result] at card goes first
        subst goes
        dsimp only at first
        constructor
        · intro reserved
          have bound := reserved g.logged (by rw [first]; exact List.mem_cons_self)
          rw [card] at bound
          exact .inr bound
        · intro small
          have few := small.resolve_left refused
          -- thirteen blocks are too many, so this round was the last
          have last : n.toInt.toNat ≤ maxWrite := by
            have full : maxWrite = 6656 := rfl
            have part : (blocks off.toNat (firstPiece n).toNat).card ≤ 10 := Nat.le_trans (by unfold demand; omega) few
            have enough := Nat.le_trans (card_blocks_le off.toNat (firstPiece n).toNat) (Nat.mul_le_mul_right BSIZE part)
            rw [size, full] at enough
            rw [full]
            simp only [BSIZE] at enough
            omega
          have ends : rounds (rest + 1) rest (off + firstPiece n) (firstPiece n).toNat g = [] := by
            rw [size, Nat.min_eq_left last, count]
            cases rest <;> simp [rounds]
          intro logged member
          rw [first, ends, List.mem_singleton] at member
          rw [member, card]
          exact few

/-- A write of 13 blocks to an empty file logs them all, the free map and the inode. -/
theorem thirteen_blocks_not_reserved : ¬ Reserved { size := 0, held := fun _ => false, indirect := false } 0 6656 := by
  unfold Reserved
  decide +kernel

end Xv6.Volume.Reservation
