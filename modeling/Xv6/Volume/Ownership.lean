import Xv6.Volume.Blocks

namespace Xv6.Volume

open Data Function Fin Finset List Nat Mount Dinode

/-! Which blocks belong to which inodes, and what the allocator does to that. -/

/-- Where an inode can hold a block number. -/
inductive Slot where
  | direct (k : Fin NDIRECT)
  | indirect
  | entry (k : Fin NINDIRECT)
deriving DecidableEq, Fintype

def Dinode.pointer (disk : Disk) (d : Dinode) : Slot → Nat
  | .direct k => d.addr k
  | .indirect => d.addr NDIRECT
  | .entry k => if d.addr NDIRECT = 0 then 0 else (entry (disk (d.addr NDIRECT)) k).toNat

open Dinode (pointer)

variable {sb : Superblock}

def Mount.pointer (v : Mount sb) (i : Fin sb.ninodes) (slot : Slot) : Nat := (v.inode i).pointer v.disk slot

/-- No block has two places, and all of them are data blocks. -/
structure Placed (v : Mount sb) : Prop where
  exclusive : ∀ i j s t, v.pointer i s ≠ 0 → v.pointer i s = v.pointer j t → i = j ∧ s = t
  inside : ∀ i s, v.pointer i s ≠ 0 → sb.dataStart ≤ v.pointer i s ∧ v.pointer i s < sb.size

/-- The free map knows of them. -/
structure Owned (v : Mount sb) : Prop extends Placed v where
  used : ∀ i s, v.pointer i s ≠ 0 → inUse sb v.disk (v.pointer i s) = true
  kept : ∀ b, b < sb.dataStart → inUse sb v.disk b = true

/-- The blocks that balloc can still return. -/
def freeBlocks (sb : Superblock) (disk : Disk) : Finset Nat := (Finset.range sb.size).filter fun b => inUse sb disk b = false

/-- A balloc changes one bit, from 0 to 1, and returns a zeroed block; a bfree changes one bit back. -/
def Call.Good (sb : Superblock) : Call → Prop
  | .balloc before b after => sb.dataStart ≤ b ∧ b < sb.size ∧ inUse sb before b = false ∧ (∀ off, after b off = 0) ∧
      ∀ c, sb.bblock c < sb.dataStart → inUse sb after c = (decide (c = b) || inUse sb before c)
  | .bfree before b after => sb.dataStart ≤ b ∧ b < sb.size ∧ inUse sb before b = true ∧
      ∀ c, sb.bblock c < sb.dataStart → inUse sb after c = (!decide (c = b) && inUse sb before c)

/-! ## The areas of the disk -/

section

variable {b c : Nat} {disk other : Disk}

theorem iblock_lt (i : Fin sb.ninodes) : sb.iblock i < sb.bmapstart := by
  have := sb.afterInodes
  simp only [Superblock.iblock, IPB, BSIZE] at *
  omega

theorem bmapstart_le_bblock (sb : Superblock) (b : Nat) : sb.bmapstart ≤ sb.bblock b := Nat.le_add_left ..

theorem bblock_lt (small : b < sb.size) : sb.bblock b < sb.dataStart := by
  have : b / BPB ≤ sb.size / BPB := Nat.div_le_div_right (Nat.le_of_lt small)
  simp only [Superblock.bblock, Superblock.dataStart]
  omega

theorem bmapstart_lt_dataStart (sb : Superblock) : sb.bmapstart < sb.dataStart := lt_succ_of_le (Nat.le_add_right ..)

theorem dataStart_le_size (sb : Superblock) : sb.dataStart ≤ sb.size := sb.afterMap

theorem dataStart_pos (sb : Superblock) : 0 < sb.dataStart := Nat.lt_of_le_of_lt (Nat.zero_le _) (bmapstart_lt_dataStart sb)

theorem toNat_block (small : b < sb.size) : (UInt32.ofNat b).toNat = b := by
  have := sb.small
  exact UInt32.toNat_ofNat_of_lt' (by simp only [UInt32.size]; omega)

theorem dinode_congr {i : Nat} (same : other (sb.iblock i) = disk (sb.iblock i)) : dinode sb other i = dinode sb disk i := by
  rw [dinode, same, dinode]

theorem inUse_congr (same : other (sb.bblock c) = disk (sb.bblock c)) : inUse sb other c = inUse sb disk c := by
  rw [inUse, same, inUse]

theorem inUse_markUsed : inUse sb (markUsed sb disk b) c = (decide (c = b) || inUse sb disk c) := by
  unfold inUse markUsed
  by_cases same : sb.bblock c = sb.bblock b
  · have place : c % BPB = b % BPB ↔ c = b := by
      simp only [Superblock.bblock, BPB, BSIZE] at same ⊢
      omega
    rw [same, update_self, bit_setBit, decide_eq_decide.mpr place]
  · have differs : c ≠ b := fun equal => same (by rw [equal])
    rw [update_of_ne same, decide_eq_false differs, Bool.false_or]

theorem inUse_markFree : inUse sb (markFree sb disk b) c = (!decide (c = b) && inUse sb disk c) := by
  unfold inUse markFree
  by_cases same : sb.bblock c = sb.bblock b
  · have place : c % BPB = b % BPB ↔ c = b := by
      simp only [Superblock.bblock, BPB, BSIZE] at same ⊢
      omega
    rw [same, update_self, bit_clearBit, decide_eq_decide.mpr place]
  · have differs : c ≠ b := fun equal => same (by rw [equal])
    rw [update_of_ne same, decide_eq_false differs, Bool.not_false, Bool.true_and]

end

/-! ## balloc and bfree -/

section

variable {disk : Disk} {b : Nat} {v v' : Mount sb}

theorem firstFree_some (found : firstFree sb disk = some b) : b < sb.size ∧ inUse sb disk b = false := by
  obtain ⟨k, -, inner⟩ := List.exists_of_findSome?_eq_some found
  obtain ⟨bi, stopped, rfl⟩ := Option.map_eq_some_iff.mp inner
  have free : k * BPB + bi < sb.size ∧ bit (disk (sb.bblock (k * BPB))) bi = false := by
    simpa using List.find?_some stopped
  have small : bi < BPB := List.mem_range.mp (List.mem_of_find?_eq_some stopped)
  have block : sb.bblock (k * BPB + bi) = sb.bblock (k * BPB) := by
    simp only [Superblock.bblock, BPB, BSIZE] at small ⊢
    omega
  have place : (k * BPB + bi) % BPB = bi := by
    simp only [BPB, BSIZE] at small ⊢
    omega
  rw [inUse, block, place]
  exact free

theorem firstFree_none (none : firstFree sb disk = none) (small : b < sb.size) : inUse sb disk b = true := by
  have round := List.findSome?_eq_none_iff.mp none (b / BPB) (by
    rw [List.mem_range]
    simp only [BPB, BSIZE]
    omega)
  have full := List.find?_eq_none.mp (Option.map_eq_none_iff.mp round) (b % BPB) (List.mem_range.mpr (Nat.mod_lt _ (by decide)))
  have whole : b / BPB * BPB + b % BPB = b := Nat.div_add_mod' b BPB
  have block : sb.bblock (b / BPB * BPB) = sb.bblock b := by
    simp only [Superblock.bblock, BPB, BSIZE]
    omega
  rw [whole, block] at full
  simpa [small, inUse] using full

/-- What balloc does when it returns. -/
structure Allocates (v : Mount sb) (b : Nat) (v' : Mount sb) : Prop where
  inode : v'.inode = v.inode
  disk : v'.disk = bzero (markUsed sb v.disk b) b
  calls : v'.calls = v.calls ++ [.balloc v.disk b v'.disk]
  small : b < sb.size
  free : inUse sb v.disk b = false

theorem balloc_ends : Ends balloc v (Allocates v) fun panic => panic = .balloc ∧ freeBlocks sb v.disk = ∅ := by
  refine .bind (.get ?_)
  cases found : firstFree sb v.disk with
  | none =>
    refine .throw ⟨rfl, Finset.filter_eq_empty_iff.mpr fun b member => ?_⟩
    rw [firstFree_none found (Finset.mem_range.mp member)]
    decide
  | some =>
    obtain ⟨small, free⟩ := firstFree_some found
    exact .bind (.modify (.pure ⟨rfl, rfl, rfl, small, free⟩))

/-- Only the inodes in memory and the indirect blocks say where the blocks are. -/
theorem Mount.pointer_congr (inode : v'.inode = v.inode)
    (same : ∀ i, v.pointer i .indirect ≠ 0 → v'.disk (v.pointer i .indirect) = v.disk (v.pointer i .indirect))
    (i : Fin sb.ninodes) (s : Slot) : v'.pointer i s = v.pointer i s := by
  unfold Mount.pointer
  rw [inode]
  cases s with
  | direct | indirect => rfl
  | entry =>
    simp only [Dinode.pointer]
    split
    · rfl
    · rename_i present
      have equal : v'.disk ((v.inode i).addr NDIRECT) = v.disk ((v.inode i).addr NDIRECT) := same i present
      rw [equal]

/-- A block in use that has no place yet. -/
structure Fresh (v : Mount sb) (b : Nat) : Prop where
  inside : sb.dataStart ≤ b ∧ b < sb.size
  used : inUse sb v.disk b = true
  unplaced : ∀ i s, v.pointer i s ≠ b

theorem Fresh.ne_zero (fresh : Fresh v b) : b ≠ 0 := by
  have := dataStart_pos sb
  have := fresh.inside
  omega

namespace Allocates

section

variable (allocates : Allocates v b v')
include allocates

theorem dataStart_le (owned : Owned v) : sb.dataStart ≤ b := by
  by_contra below
  have used := owned.kept b (by omega)
  rw [allocates.free] at used
  contradiction

theorem unplaced (owned : Owned v) (i : Fin sb.ninodes) (s : Slot) : v.pointer i s ≠ b := by
  intro same
  have above := allocates.dataStart_le owned
  have := dataStart_pos sb
  have used := owned.used i s (by omega)
  rw [same, allocates.free] at used
  contradiction

theorem disk_of_ne {c : Nat} (other : c ≠ b) (apart : c < sb.bmapstart ∨ sb.dataStart ≤ c) :
    v'.disk c = v.disk c := by
  have := bblock_lt allocates.small
  have := bmapstart_le_bblock sb b
  rw [allocates.disk, bzero, update_of_ne other, markUsed, update_of_ne (by omega)]

theorem zeroed : v'.disk b = fun _ => 0 := by
  rw [allocates.disk, bzero, update_self]

section

variable (owned : Owned v)
include owned

theorem inUse_eq {c : Nat} (inMap : sb.bblock c < sb.dataStart) :
    inUse sb v'.disk c = (decide (c = b) || inUse sb v.disk c) := by
  have above := allocates.dataStart_le owned
  rw [← inUse_markUsed, allocates.disk]
  apply inUse_congr
  rw [bzero, update_of_ne (by omega)]

theorem pointer_eq (i : Fin sb.ninodes) (s : Slot) :
    v'.pointer i s = v.pointer i s := by
  refine pointer_congr allocates.inode (fun j present => ?_) i s
  exact allocates.disk_of_ne (allocates.unplaced owned j _) (.inr (owned.inside j _ present).1)

theorem fresh : Fresh v' b where
  inside := ⟨allocates.dataStart_le owned, allocates.small⟩
  used := by
    rw [allocates.inUse_eq owned (bblock_lt allocates.small)]
    simp
  unplaced i s := by
    rw [allocates.pointer_eq owned]
    exact allocates.unplaced owned i s

theorem good : Call.Good sb (.balloc v.disk b v'.disk) := by
  refine ⟨allocates.dataStart_le owned, allocates.small, allocates.free, fun off => ?_, fun c => allocates.inUse_eq owned⟩
  rw [allocates.zeroed]

theorem freeBlocks_card :
    (freeBlocks sb v'.disk).card + 1 = (freeBlocks sb v.disk).card := by
  have member : b ∈ freeBlocks sb v.disk := by
    rw [freeBlocks, Finset.mem_filter, Finset.mem_range]
    exact ⟨allocates.small, allocates.free⟩
  have erased : freeBlocks sb v'.disk = (freeBlocks sb v.disk).erase b := by
    ext c
    simp only [freeBlocks, Finset.mem_filter, Finset.mem_range, Finset.mem_erase]
    by_cases small : c < sb.size
    · rw [allocates.inUse_eq owned (bblock_lt small)]
      simp [small]
    · simp [small]
  rw [erased, card_erase_add_one member]

end

theorem owned (owned : Owned v) : Owned v' where
  exclusive i j s t := by
    rw [allocates.pointer_eq owned, allocates.pointer_eq owned]
    exact owned.exclusive i j s t
  inside i s := by
    rw [allocates.pointer_eq owned]
    exact owned.inside i s
  used i s := by
    rw [allocates.pointer_eq owned]
    intro present
    rw [allocates.inUse_eq owned (bblock_lt (owned.inside i s present).2), owned.used i s present, Bool.or_true]
  kept c below := by
    have := dataStart_le_size sb
    rw [allocates.inUse_eq owned (bblock_lt (by omega)), owned.kept c below, Bool.or_true]

end

end Allocates

theorem Placed.attach (placed : Placed v) (data : sb.dataStart ≤ b ∧ b < sb.size) (unplaced : ∀ i s, v.pointer i s ≠ b)
    {i : Fin sb.ninodes} {s : Slot} (pointer : ∀ j t, v'.pointer j t = if j = i ∧ t = s then b else v.pointer j t) :
    Placed v' where
  exclusive j k t u := by
    rw [pointer, pointer]
    split
    · rename_i here
      split
      · rename_i there
        exact fun _ _ => ⟨here.1.trans there.1.symm, here.2.trans there.2.symm⟩
      · exact fun _ same => absurd same.symm (unplaced k u)
    · split
      · exact fun _ same => absurd same (unplaced j t)
      · exact placed.exclusive j k t u
  inside j t := by
    rw [pointer]
    split
    · exact fun _ => data
    · exact placed.inside j t

theorem Owned.attach (owned : Owned v) (fresh : Fresh v b) {i : Fin sb.ninodes} {s : Slot}
    (pointer : ∀ j t, v'.pointer j t = if j = i ∧ t = s then b else v.pointer j t)
    (used : ∀ c, c < sb.size → inUse sb v'.disk c = inUse sb v.disk c) : Owned v' where
  toPlaced := owned.toPlaced.attach fresh.inside fresh.unplaced pointer
  used j t := by
    rw [pointer]
    split
    · rw [used b fresh.inside.2]
      exact fun _ => fresh.used
    · intro present
      rw [used _ (owned.inside j t present).2]
      exact owned.used j t present
  kept c below := by
    have := dataStart_le_size sb
    rw [used c (by omega)]
    exact owned.kept c below

end

/-! ## bmap -/

/-- The place of `addrs[k]`. -/
def addrSlot (k : Nat) : Slot := if direct : k < NDIRECT then .direct ⟨k, direct⟩ else .indirect

/-- The place of the block `bn` of the contents. -/
def slotAt (bn : Nat) : Slot :=
  if direct : bn < NDIRECT then .direct ⟨bn, direct⟩
  else if below : bn - NDIRECT < NINDIRECT then .entry ⟨bn - NDIRECT, below⟩
  else .indirect

theorem entry_lt {bn : Nat} (beyond : ¬ bn < NDIRECT) (bound : bn < MAXFILE) : bn - NDIRECT < NINDIRECT := by
  simp only [MAXFILE] at bound
  omega

/-- The places that bmap fills on the way to the block `bn`. -/
def route (bn : Nat) : Finset Slot := if bn < NDIRECT then {slotAt bn} else {.indirect, slotAt bn}

/-- Blocks have been added to the inode `i`, in the places `new`. -/
structure Grows (i : Fin sb.ninodes) (new : Finset Slot) (v v' : Mount sb) : Prop where
  others : ∀ j, j ≠ i → v'.inode j = v.inode j
  fields : ∃ addrs, v'.inode i = { v.inode i with addrs }
  dinodes : ∀ j : Fin sb.ninodes, dinode sb v'.disk j = dinode sb v.disk j
  pointers : ∀ j s, ¬ (j = i ∧ s ∈ new) → v'.pointer j s = v.pointer j s
  fresh : ∀ s ∈ new, v.pointer i s = 0 ∧ v'.pointer i s ≠ 0
  free : (freeBlocks sb v'.disk).card + new.card = (freeBlocks sb v.disk).card
  calls : (∀ call ∈ v.calls, call.Good sb) → ∀ call ∈ v'.calls, call.Good sb

/-- The blocks that hold contents stay as they are. -/
def Keeps (v v' : Mount sb) : Prop := ∀ i s, s ≠ .indirect → v.pointer i s ≠ 0 → v'.disk (v.pointer i s) = v.disk (v.pointer i s)

section

variable {v v' w : Mount sb} {i : Fin sb.ninodes} {b k bn : Nat} {new more : Finset Slot}

theorem Grows.refl (i : Fin sb.ninodes) (v : Mount sb) : Grows i ∅ v v where
  others _ _ := rfl
  fields := ⟨_, rfl⟩
  dinodes _ := rfl
  pointers _ _ _ := rfl
  fresh := by simp
  free := rfl
  calls := id

theorem Grows.trans (first : Grows i new v w) (second : Grows i more w v') : Grows i (new ∪ more) v v' where
  others j other := (second.others j other).trans (first.others j other)
  fields := by
    obtain ⟨_, fields⟩ := first.fields
    obtain ⟨addrs', fields'⟩ := second.fields
    exact ⟨addrs', by rw [fields', fields]⟩
  dinodes j := (second.dinodes j).trans (first.dinodes j)
  pointers j s outside := by
    rw [second.pointers j s fun inside => outside ⟨inside.1, Finset.mem_union_right _ inside.2⟩,
      first.pointers j s fun inside => outside ⟨inside.1, Finset.mem_union_left _ inside.2⟩]
  fresh s member := by
    by_cases early : s ∈ new
    · obtain ⟨empty, placed⟩ := first.fresh s early
      refine ⟨empty, ?_⟩
      rwa [second.pointers i s fun inside => placed (second.fresh s inside.2).1]
    · have late : s ∈ more := (Finset.mem_union.mp member).resolve_left early
      obtain ⟨empty, placed⟩ := second.fresh s late
      rw [first.pointers i s fun inside => early inside.2] at empty
      exact ⟨empty, placed⟩
  free := by
    have apart : Disjoint new more := by
      rw [Finset.disjoint_left]
      exact fun s early late => (first.fresh s early).2 (second.fresh s late).1
    rw [Finset.card_union_of_disjoint apart, ← first.free, ← second.free]
    omega
  calls good := second.calls (first.calls good)

theorem Keeps.trans (first : Keeps v w) (grows : Grows i new v w) (second : Keeps w v') : Keeps v v' := by
  intro j s content present
  have same : w.pointer j s = v.pointer j s := by
    refine grows.pointers j s fun inside => present ?_
    rw [inside.1]
    exact (grows.fresh s inside.2).1
  have later := second j s content (by rwa [same])
  rw [same] at later
  exact later.trans (first j s content present)

theorem addr_setAddr_self (d : Dinode) (small : b < sb.size) : (d.setAddr k b).addr k = b := by
  simp only [addr, setAddr, update_self, toNat_block small]

theorem addr_setAddr_of_ne (d : Dinode) {l : Nat} (low : k ≤ NDIRECT) (low' : l ≤ NDIRECT) (other : l ≠ k) :
    (d.setAddr k b).addr l = d.addr l := by
  have apart : Fin.ofNat (NDIRECT + 1) l ≠ Fin.ofNat (NDIRECT + 1) k := by
    intro same
    have equal := congrArg Fin.val same
    simp only [Fin.ofNat, NDIRECT] at equal low low'
    omega
  simp only [Dinode.addr, Dinode.setAddr, update_of_ne apart]

theorem pointer_addrSlot (disk : Disk) (d : Dinode) (low : k ≤ NDIRECT) : d.pointer disk (addrSlot k) = d.addr k := by
  unfold addrSlot
  split
  · rfl
  · have top : k = NDIRECT := by omega
    rw [top]
    rfl

theorem pointer_setAddr (disk : Disk) (d : Dinode) (small : b < sb.size) (low : k ≤ NDIRECT)
    (empty : k = NDIRECT → d.addr NDIRECT = 0 ∧ disk b = fun _ => 0) (s : Slot) :
    (d.setAddr k b).pointer disk s = if s = addrSlot k then b else d.pointer disk s := by
  cases s with
  | direct l =>
    by_cases same : l.val = k
    · have place : Slot.direct l = addrSlot k := by simp [addrSlot, ← same]
      rw [if_pos place, Dinode.pointer, same, addr_setAddr_self d small]
    · have place : Slot.direct l ≠ addrSlot k := by
        unfold addrSlot
        split
        · rintro ⟨⟩
          exact same rfl
        · simp
      rw [if_neg place, Dinode.pointer, addr_setAddr_of_ne d low (Nat.le_of_lt l.isLt) same, Dinode.pointer]
  | indirect =>
    by_cases same : k = NDIRECT
    · rw [if_pos (by simp [addrSlot, same]), Dinode.pointer, ← same, addr_setAddr_self d small]
    · have direct : k < NDIRECT := by omega
      rw [if_neg (by simp [addrSlot, direct]), Dinode.pointer, addr_setAddr_of_ne d low (Nat.le_refl _) (Ne.symm same),
        Dinode.pointer]
  | entry l =>
    have place : Slot.entry l ≠ addrSlot k := by
      unfold addrSlot
      split <;> simp
    rw [if_neg place]
    by_cases same : k = NDIRECT
    · obtain ⟨before, zeroed⟩ := empty same
      rw [Dinode.pointer, Dinode.pointer, if_pos before, same, addr_setAddr_self d small, zeroed]
      split
      · rfl
      · rw [entry_zero]
        rfl
    · rw [Dinode.pointer, Dinode.pointer, addr_setAddr_of_ne d low (Nat.le_refl _) (Ne.symm same)]

/-- Empty places among `slots` have got blocks. -/
structure Fills (i : Fin sb.ninodes) (slots : Finset Slot) (v v' : Mount sb) : Prop where
  owned : Owned v'
  grows : ∃ new ⊆ slots, Grows i new v v'

/-- The places among `slots` that have no block. -/
def missing (v : Mount sb) (i : Fin sb.ninodes) (slots : Finset Slot) : Finset Slot := slots.filter fun s => v.pointer i s = 0

/-- There are not enough free blocks to fill them. -/
def Lacks (v : Mount sb) (i : Fin sb.ninodes) (slots : Finset Slot) : Prop :=
  (freeBlocks sb v.disk).card < (missing v i slots).card

variable {slots rest : Finset Slot} {s : Slot}

theorem Fills.mono (fills : Fills i rest v v') (sub : rest ⊆ slots) : Fills i slots v v' := by
  obtain ⟨owned, new, inside, grows⟩ := fills
  exact ⟨owned, new, inside.trans sub, grows⟩

theorem Fills.trans (first : Fills i slots v w) (second : Fills i slots w v') : Fills i slots v v' := by
  obtain ⟨-, new, inside, grows⟩ := first
  obtain ⟨owned, more, inside', grows'⟩ := second
  exact ⟨owned, new ∪ more, union_subset inside inside', grows.trans grows'⟩

theorem Lacks.before (lacks : Lacks w i rest) (fills : Fills i slots v w) (sub : rest ⊆ slots) : Lacks v i slots := by
  obtain ⟨-, new, inside, grows⟩ := fills
  have apart : Disjoint new (missing w i rest) := by
    rw [Finset.disjoint_left]
    intro s early late
    exact (grows.fresh s early).2 (Finset.mem_filter.mp late).2
  have covered : new ∪ missing w i rest ⊆ missing v i slots := by
    intro s member
    rw [missing, Finset.mem_filter]
    rcases Finset.mem_union.mp member with early | late
    · exact ⟨inside early, (grows.fresh s early).1⟩
    · obtain ⟨member, empty⟩ := Finset.mem_filter.mp late
      refine ⟨sub member, ?_⟩
      by_cases early : s ∈ new
      · exact (grows.fresh s early).1
      · rwa [grows.pointers i s fun inside => early inside.2] at empty
  have sizes := Finset.card_le_card covered
  rw [Finset.card_union_of_disjoint apart] at sizes
  have := grows.free
  unfold Lacks at lacks ⊢
  omega

theorem lacks_of_empty (full : freeBlocks sb v.disk = ∅) (member : s ∈ slots) (empty : v.pointer i s = 0) : Lacks v i slots := by
  rw [Lacks, full, card_empty, card_pos]
  exact ⟨s, Finset.mem_filter.mpr ⟨member, empty⟩⟩

theorem Allocates.fills (allocates : Allocates v b w) (owned : Owned v) (empty : v.pointer i s = 0)
    (others : ∀ j, j ≠ i → v'.inode j = w.inode j) (fields : ∃ addrs, v'.inode i = { w.inode i with addrs })
    (blocks : ∀ c, c < sb.dataStart → v'.disk c = w.disk c)
    (pointer : ∀ j t, v'.pointer j t = if j = i ∧ t = s then b else w.pointer j t) (calls : v'.calls = w.calls) :
    Fills i {s} v v' := by
  have fresh := allocates.fresh owned
  have used (c : Nat) (small : c < sb.size) : inUse sb v'.disk c = inUse sb w.disk c := inUse_congr (blocks _ (bblock_lt small))
  refine ⟨(allocates.owned owned).attach fresh pointer used, {s}, Finset.Subset.refl _, ?_⟩
  refine ⟨fun j other => ?_, ?_, fun j => ?_, fun j t outside => ?_, fun t member => ?_, ?_, fun good call member => ?_⟩
  · rw [others j other, allocates.inode]
  · rwa [allocates.inode] at fields
  · have low : sb.iblock j < sb.bmapstart := iblock_lt j
    have := bmapstart_lt_dataStart sb
    have := fresh.inside
    refine (dinode_congr (blocks _ (by omega))).trans (dinode_congr (allocates.disk_of_ne (by omega) (.inl low)))
  · rw [pointer, if_neg fun inside => outside ⟨inside.1, by rw [inside.2]; exact Finset.mem_singleton_self s⟩,
      allocates.pointer_eq owned]
  · rw [Finset.mem_singleton] at member
    rw [member, pointer, if_pos ⟨rfl, rfl⟩]
    exact ⟨empty, fresh.ne_zero⟩
  · have same : freeBlocks sb v'.disk = freeBlocks sb w.disk := by
      refine Finset.filter_congr fun c member => ?_
      rw [used c (Finset.mem_range.mp member)]
    rw [same, Finset.card_singleton, allocates.freeBlocks_card owned]
  · rw [calls, allocates.calls, List.mem_append, List.mem_singleton] at member
    rcases member with early | rfl
    · exact good call early
    · exact allocates.good owned

/-- What loading a place returns: it is filled, and the blocks with contents are as before. -/
def Loads (i : Fin sb.ninodes) (slots : Finset Slot) (s : Slot) (v : Mount sb) (b : Nat) (v' : Mount sb) : Prop :=
  Fills i slots v v' ∧ Keeps v v' ∧ v'.pointer i s = b ∧ b ≠ 0

theorem Allocates.keeps (allocates : Allocates v b w) (owned : Owned v)
    (blocks : ∀ j t, t ≠ .indirect → w.pointer j t ≠ 0 → v'.disk (w.pointer j t) = w.disk (w.pointer j t)) : Keeps v v' := by
  intro j t content present
  have same := allocates.pointer_eq owned j t
  have later := blocks j t content (by rwa [same])
  rw [same] at later
  rw [later]
  exact allocates.disk_of_ne (allocates.unplaced owned j t) (.inr (owned.inside j t present).1)

theorem loadAddr_ends (owned : Owned v) (low : k ≤ NDIRECT) :
    Ends (loadAddr i k) v (Loads i {addrSlot k} (addrSlot k) v) fun panic => panic = .balloc ∧ Lacks v i {addrSlot k} := by
  refine .bind (.get ?_)
  have place : v.pointer i (addrSlot k) = (v.inode i).addr k := pointer_addrSlot _ _ low
  split
  · rename_i empty
    rw [← place] at empty
    refine .bind (balloc_ends.mono (fun b w allocates => ?_) fun panic ⟨reason, full⟩ =>
      ⟨reason, lacks_of_empty full (Finset.mem_singleton_self _) empty⟩)
    have fresh := allocates.fresh owned
    have pointer (j : Fin sb.ninodes) (t : Slot) : (w.setInode i ((w.inode i).setAddr k b)).pointer j t =
        if j = i ∧ t = addrSlot k then b else w.pointer j t := by
      by_cases mine : j = i
      · rw [mine, Mount.pointer, Mount.setInode]
        simp only [update_self, true_and]
        refine pointer_setAddr w.disk (w.inode i) fresh.inside.2 low (fun top => ⟨?_, allocates.zeroed⟩) t
        rw [allocates.inode, ← top, ← place, empty]
      · rw [Mount.pointer, Mount.setInode]
        simp only [update_of_ne mine, mine, false_and, if_false]
        rfl
    refine .bind (.modify (.pure ⟨?_, ?_, ?_, fresh.ne_zero⟩))
    · exact allocates.fills owned empty (fun j other => update_of_ne other ..) ⟨_, update_self ..⟩ (fun _ _ => rfl) pointer rfl
    · exact allocates.keeps owned fun _ _ _ _ => rfl
    · rw [pointer, if_pos ⟨rfl, rfl⟩]
  · rename_i present
    exact .pure ⟨⟨owned, ∅, empty_subset _, .refl i v⟩, fun _ _ _ _ => rfl, place, present⟩

theorem pointer_setEntry (placed : Placed v) (present : v.pointer i .indirect ≠ 0) (small : b < sb.size) (k : Fin NINDIRECT)
    (j : Fin sb.ninodes) (t : Slot) :
    (v.write (v.pointer i .indirect) (setEntry (v.disk (v.pointer i .indirect)) k (.ofNat b))).pointer j t =
      if j = i ∧ t = .entry k then b else v.pointer j t := by
  cases t with
  | direct | indirect => simp [Mount.pointer, Dinode.pointer, write]
  | entry l =>
    simp only [Slot.entry.injEq]
    change (if (v.inode j).addr NDIRECT = 0 then 0 else
      (entry (update v.disk (v.pointer i .indirect) _ ((v.inode j).addr NDIRECT)) l).toNat) = _
    by_cases mine : j = i
    · have there : (v.inode i).addr NDIRECT ≠ 0 := present
      rw [mine, if_neg there, show v.pointer i .indirect = (v.inode i).addr NDIRECT from rfl, update_self]
      by_cases same : l = k
      · rw [same, entry_setEntry_self, if_pos ⟨rfl, rfl⟩, toNat_block small]
      · rw [entry_setEntry_of_ne fun equal => same (Fin.ext equal), if_neg fun both => same both.2, Mount.pointer,
          Dinode.pointer, if_neg there]
    · rw [if_neg (show ¬ (j = i ∧ l = k) from fun both => mine both.1)]
      by_cases there : (v.inode j).addr NDIRECT = 0
      · rw [if_pos there]
        exact (if_pos there).symm
      · have apart : (v.inode j).addr NDIRECT ≠ v.pointer i .indirect := fun equal =>
          mine (placed.exclusive j i .indirect .indirect there equal).1
        rw [if_neg there, update_of_ne apart]
        exact (if_neg there).symm

theorem loadEntry_ends (owned : Owned v) (present : v.pointer i .indirect ≠ 0) (k : Fin NINDIRECT) :
    Ends (loadEntry (v.pointer i .indirect) k) v (Loads i {.entry k} (.entry k) v)
      fun panic => panic = .balloc ∧ Lacks v i {.entry k} := by
  refine .bind (.get ?_)
  have place : v.pointer i (.entry k) = (entry (v.disk (v.pointer i .indirect)) k).toNat := if_neg present
  split
  · rename_i zero
    have empty : v.pointer i (.entry k) = 0 := by
      rw [place, zero]
      rfl
    refine .bind (balloc_ends.mono (fun b w allocates => ?_) fun panic ⟨reason, full⟩ =>
      ⟨reason, lacks_of_empty full (Finset.mem_singleton_self _) empty⟩)
    have fresh := allocates.fresh owned
    have owned' := allocates.owned owned
    rw [← allocates.pointer_eq owned] at present ⊢
    have pointer := pointer_setEntry owned'.toPlaced present fresh.inside.2 k
    refine .bind (.modify (.pure ⟨?_, ?_, ?_, fresh.ne_zero⟩))
    · refine allocates.fills owned empty (fun _ _ => rfl) ⟨_, rfl⟩ (fun c low => ?_) pointer rfl
      have := (owned'.inside i _ present).1
      exact update_of_ne (by omega) ..
    · refine allocates.keeps owned fun j t content there => ?_
      have apart : w.pointer j t ≠ w.pointer i .indirect := fun equal => content (owned'.exclusive j i t .indirect there equal).2
      exact update_of_ne apart ..
    · rw [pointer, if_pos ⟨rfl, rfl⟩]
  · rename_i there
    refine .pure ⟨⟨owned, ∅, empty_subset _, .refl i v⟩, fun _ _ _ _ => rfl, place, fun zero => there ?_⟩
    exact UInt32.toNat_inj.mp zero

theorem bmap_ends (owned : Owned v) (bound : bn < MAXFILE) :
    Ends (bmap i bn) v (Loads i (route bn) (slotAt bn) v) fun panic => panic = .balloc ∧ Lacks v i (route bn) := by
  unfold bmap
  by_cases direct : bn < NDIRECT
  · have place : slotAt bn = addrSlot bn := by simp [slotAt, addrSlot, direct]
    rw [if_pos direct, route, if_pos direct, place]
    exact loadAddr_ends owned (Nat.le_of_lt direct)
  · have below := entry_lt direct bound
    have place : slotAt bn = .entry ⟨bn - NDIRECT, below⟩ := by simp [slotAt, direct, below]
    rw [if_neg direct, if_pos below, route, if_neg direct, place]
    have first : addrSlot NDIRECT = .indirect := by simp [addrSlot]
    have head : {Slot.indirect} ⊆ ({.indirect, .entry ⟨bn - NDIRECT, below⟩} : Finset Slot) := by simp
    have tail : {Slot.entry ⟨bn - NDIRECT, below⟩} ⊆ ({.indirect, .entry ⟨bn - NDIRECT, below⟩} : Finset Slot) := by simp
    have loaded := loadAddr_ends (i := i) owned (Nat.le_refl NDIRECT)
    rw [first] at loaded
    refine .bind (loaded.mono (fun b w ⟨fills, keeps, here, present⟩ => ?_) fun panic ⟨reason, lacks⟩ =>
      ⟨reason, lacks.before ⟨owned, ∅, empty_subset _, .refl i v⟩ head⟩)
    subst here
    refine (loadEntry_ends fills.owned present ⟨bn - NDIRECT, below⟩).mono (fun b v' ⟨fills', keeps', there, present'⟩ => ?_)
      fun panic ⟨reason, lacks⟩ => ⟨reason, lacks.before (fills.mono head) tail⟩
    obtain ⟨_, -, grows⟩ := fills.grows
    exact ⟨(fills.mono head).trans (fills'.mono tail), keeps.trans grows keeps', there, present'⟩

end

/-! ## itrunc -/

/-- The blocks `freed` have been given back since `v`. -/
structure Frees (freed : Nat → Prop) (v w : Mount sb) : Prop where
  disk : ∀ c, c < sb.bmapstart ∨ sb.dataStart ≤ c → w.disk c = v.disk c
  marks : ∀ c, sb.bblock c < sb.dataStart → (inUse sb w.disk c = true ↔ inUse sb v.disk c = true ∧ ¬ freed c)
  calls : (∀ call ∈ v.calls, call.Good sb) → ∀ call ∈ w.calls, call.Good sb

variable {v v' w : Mount sb} {i : Fin sb.ninodes} {b : Nat} {freed freed' : Nat → Prop} {gone : Slot → Prop}

theorem Frees.refl (v : Mount sb) : Frees (fun _ => False) v v := ⟨fun _ _ => rfl, by simp, id⟩

theorem Frees.congr (frees : Frees freed v w) (same : ∀ c, freed c ↔ freed' c) : Frees freed' v w := by
  have equal : freed = freed' := funext fun c => propext (same c)
  rwa [← equal]

theorem Frees.give (frees : Frees freed v w) (inside : sb.dataStart ≤ b ∧ b < sb.size) (used : inUse sb v.disk b = true)
    (kept : ¬ freed b) :
    Ends (bfree b) w (fun _ w' => w'.inode = w.inode ∧ Frees (fun c => freed c ∨ c = b) v w') fun _ => False := by
  have used' : inUse sb w.disk b = true := (frees.marks b (bblock_lt inside.2)).mpr ⟨used, kept⟩
  refine .bind (.get ?_)
  rw [if_neg (by simp [used'])]
  have low := bblock_lt inside.2
  have high := bmapstart_le_bblock sb b
  refine .modify ⟨rfl, fun c apart => ?_, fun c inMap => ?_, fun good call member => ?_⟩
  · change update w.disk (sb.bblock b) _ c = _
    rw [update_of_ne (by omega)]
    exact frees.disk c apart
  · rw [inUse_markFree, Bool.and_eq_true, frees.marks c inMap]
    simp
    tauto
  · rcases List.mem_append.mp member with early | last
    · exact frees.calls good call early
    · rw [List.mem_singleton.mp last]
      exact ⟨inside.1, inside.2, used', fun c _ => inUse_markFree⟩

/-- The blocks of the inode in the places `gone`. -/
def Mount.blocks (v : Mount sb) (i : Fin sb.ninodes) (gone : Slot → Prop) (c : Nat) : Prop :=
  c ≠ 0 ∧ ∃ s, gone s ∧ v.pointer i s = c

theorem Owned.give (owned : Owned v) {s : Slot} (frees : Frees (v.blocks i gone) v w)
    (present : v.pointer i s ≠ 0) (kept : ¬ gone s) : Ends (bfree (v.pointer i s)) w
      (fun _ w' => w'.inode = w.inode ∧ Frees (v.blocks i fun t => gone t ∨ t = s) v w') fun _ => False := by
  refine (frees.give (owned.inside i s present) (owned.used i s present) ?_).returns fun _ w' ⟨inode, frees⟩ =>
    ⟨inode, frees.congr fun c => ?_⟩
  · rintro ⟨-, t, away, same⟩
    have equal := (owned.exclusive i i s t present same.symm).2
    exact kept (equal ▸ away)
  · constructor
    · rintro (⟨nonzero, t, away, same⟩ | equal)
      · exact ⟨nonzero, t, .inl away, same⟩
      · exact ⟨equal ▸ present, s, .inr rfl, equal.symm⟩
    · rintro ⟨nonzero, t, away | equal, same⟩
      · exact .inl ⟨nonzero, t, away, same⟩
      · exact .inr (by rw [← same, equal])

theorem Frees.skip {s : Slot} (frees : Frees (v.blocks i gone) v w) (empty : v.pointer i s = 0) :
    Frees (v.blocks i fun t => gone t ∨ t = s) v w := by
  refine frees.congr fun c => ?_
  constructor
  · rintro ⟨nonzero, t, away, same⟩
    exact ⟨nonzero, t, .inl away, same⟩
  · rintro ⟨nonzero, t, away | equal, same⟩
    · exact ⟨nonzero, t, away, same⟩
    · rw [equal, empty] at same
      exact absurd same.symm nonzero

theorem Frees.places {gone gone' : Slot → Prop} (frees : Frees (v.blocks i gone) v w) (same : ∀ s, gone s ↔ gone' s) :
    Frees (v.blocks i gone') v w := by
  have equal : gone = gone' := funext fun s => propext (same s)
  rwa [← equal]

/-- In the first loop of itrunc, with the direct blocks `rest` to go. -/
structure Trims (i : Fin sb.ninodes) (rest : List Nat) (v w : Mount sb) : Prop where
  nodup : rest.Nodup
  low : ∀ k ∈ rest, k < NDIRECT
  frees : Frees (v.blocks i fun s => ∃ k : Fin NDIRECT, s = .direct k ∧ k.val ∉ rest) v w
  others : ∀ j, j ≠ i → w.inode j = v.inode j
  fields : ∃ addrs, w.inode i = { v.inode i with addrs }
  addrs : ∀ k, (w.inode i).addrs k = if k.val < NDIRECT ∧ k.val ∉ rest then 0 else (v.inode i).addrs k

theorem ofNat_eq {k : Nat} (low : k < NDIRECT) (l : Fin (NDIRECT + 1)) : l = Fin.ofNat _ k ↔ l.val = k := by
  rw [Fin.ext_iff, val_ofNat, mod_eq_of_lt (lt_succ_of_lt low)]

theorem trim_ends (owned : Owned v) {k : Nat} {rest : List Nat} (trims : Trims i (k :: rest) v w) :
    Ends (do
      let w ← get
      if (w.inode i).addr k = 0 then pure ()
      else do
        bfree ((w.inode i).addr k)
        modify fun w => w.setInode i ((w.inode i).setAddr k 0)) w (fun _ w' => Trims i rest v w') fun _ => False := by
  obtain ⟨nodup, low, frees, others, fields, addrs⟩ := trims
  obtain ⟨new, nodup⟩ := List.nodup_cons.mp nodup
  have small : k < NDIRECT := low k (mem_cons_self ..)
  have low' : ∀ l ∈ rest, l < NDIRECT := fun l member => low l (mem_cons_of_mem _ member)
  have here : (w.inode i).addr k = v.pointer i (.direct ⟨k, small⟩) := by
    have place := (ofNat_eq small (Fin.ofNat _ k)).mp rfl
    rw [addr, addrs, if_neg fun both => both.2 (by rw [place]; exact mem_cons_self ..)]
    rfl
  have places (s : Slot) : ((∃ l : Fin NDIRECT, s = .direct l ∧ l.val ∉ k :: rest) ∨ s = .direct ⟨k, small⟩) ↔
      ∃ l : Fin NDIRECT, s = .direct l ∧ l.val ∉ rest := by
    constructor
    · rintro (⟨l, place, away⟩ | place)
      · exact ⟨l, place, fun member => away (mem_cons_of_mem _ member)⟩
      · exact ⟨⟨k, small⟩, place, new⟩
    · rintro ⟨l, place, away⟩
      by_cases same : l.val = k
      · exact .inr (by rw [place]; simp [Fin.ext_iff, same])
      · exact .inl ⟨l, place, by simp [same, away]⟩
  have zeroed (l : Fin (NDIRECT + 1)) (value : UInt32) (now : l = Fin.ofNat _ k → value = 0)
      (else' : l ≠ Fin.ofNat _ k → value = if l.val < NDIRECT ∧ l.val ∉ k :: rest then 0 else (v.inode i).addrs l) :
      value = if l.val < NDIRECT ∧ l.val ∉ rest then 0 else (v.inode i).addrs l := by
    by_cases same : l = Fin.ofNat _ k
    · rw [now same, if_pos]
      rw [(ofNat_eq small l).mp same]
      exact ⟨small, new⟩
    · have differs : l.val ≠ k := fun equal => same ((ofNat_eq small l).mpr equal)
      rw [else' same]
      simp [differs]
  refine .bind (.get ?_)
  by_cases empty : (w.inode i).addr k = 0
  · rw [if_pos empty]
    refine .pure ⟨nodup, low', (frees.skip (here ▸ empty)).places places, others, fields, fun l => ?_⟩
    refine zeroed l _ (fun same => ?_) fun _ => addrs l
    rw [same]
    exact UInt32.toNat_inj.mp empty
  · rw [if_neg empty, here]
    refine .bind ((owned.give frees (here ▸ empty) ?_).returns fun _ w' ⟨same, frees⟩ => .modify ?_)
    · rintro ⟨l, place, away⟩
      cases place
      exact away (mem_cons_self ..)
    · have self : (w'.setInode i ((w'.inode i).setAddr k 0)).inode i = (w.inode i).setAddr k 0 := by
        rw [← same]
        exact update_self ..
      have frees := frees.places places
      refine ⟨nodup, low', ⟨frees.disk, frees.marks, frees.calls⟩, fun j other => ?_, ?_, fun l => ?_⟩
      · rw [← others j other, ← same]
        exact update_of_ne other ..
      · obtain ⟨_, equal⟩ := fields
        rw [self, equal]
        exact ⟨_, rfl⟩
      · rw [self, setAddr]
        refine zeroed l _ (fun equal => ?_) fun other => ?_
        · rw [equal]
          exact update_self ..
        · rw [← addrs l]
          exact update_of_ne other ..

/-- In the second loop, with the entries `rest` of the indirect block to go. -/
structure Drains (i : Fin sb.ninodes) (gone : Slot → Prop) (rest : List Nat) (v u w : Mount sb) : Prop where
  nodup : rest.Nodup
  low : ∀ k ∈ rest, k < NINDIRECT
  frees : Frees (v.blocks i fun s => gone s ∨ ∃ k : Fin NINDIRECT, s = .entry k ∧ k.val ∉ rest) v w
  inode : w.inode = u.inode

theorem drain_ends (owned : Owned v) {k : Nat} {rest : List Nat} {u : Mount sb}
    (present : v.pointer i .indirect ≠ 0) (direct : ∀ l, ¬ gone (.entry l)) (drains : Drains i gone (k :: rest) v u w) :
    Ends (do
      let w ← get
      if entry (w.disk (v.pointer i .indirect)) k = 0 then pure ()
      else bfree (entry (w.disk (v.pointer i .indirect)) k).toNat) w (fun _ w' => Drains i gone rest v u w') fun _ => False := by
  obtain ⟨nodup, low, frees, inode⟩ := drains
  obtain ⟨new, nodup⟩ := List.nodup_cons.mp nodup
  have small : k < NINDIRECT := low k (mem_cons_self ..)
  have low' : ∀ l ∈ rest, l < NINDIRECT := fun l member => low l (mem_cons_of_mem _ member)
  have here : (entry (w.disk (v.pointer i .indirect)) k).toNat = v.pointer i (.entry ⟨k, small⟩) := by
    rw [frees.disk _ (.inr (owned.inside i _ present).1)]
    exact (if_neg present).symm
  have places (s : Slot) : ((gone s ∨ ∃ l : Fin NINDIRECT, s = .entry l ∧ l.val ∉ k :: rest) ∨ s = .entry ⟨k, small⟩) ↔
      gone s ∨ ∃ l : Fin NINDIRECT, s = .entry l ∧ l.val ∉ rest := by
    constructor
    · rintro ((away | ⟨l, place, away⟩) | place)
      · exact .inl away
      · exact .inr ⟨l, place, fun member => away (mem_cons_of_mem _ member)⟩
      · exact .inr ⟨⟨k, small⟩, place, new⟩
    · rintro (away | ⟨l, place, away⟩)
      · exact .inl (.inl away)
      · by_cases same : l.val = k
        · exact .inr (by rw [place]; simp [Fin.ext_iff, same])
        · exact .inl (.inr ⟨l, place, by simp [same, away]⟩)
  refine .bind (.get ?_)
  by_cases zero : entry (w.disk (v.pointer i .indirect)) k = 0
  · rw [if_pos zero]
    have empty : v.pointer i (.entry ⟨k, small⟩) = 0 := by
      rw [← here, zero]
      rfl
    exact .pure ⟨nodup, low', (frees.skip empty).places places, inode⟩
  · rw [if_neg zero, here]
    have there : v.pointer i (.entry ⟨k, small⟩) ≠ 0 := by
      rw [← here]
      exact fun equal => zero (UInt32.toNat_inj.mp equal)
    refine (owned.give frees there ?_).returns fun _ w' ⟨same, frees⟩ =>
      ⟨nodup, low', frees.places places, same.trans inode⟩
    rintro (away | ⟨l, place, away⟩)
    · exact direct _ away
    · cases place
      exact away (mem_cons_self ..)

/-- What itrunc has done when it returns. -/
structure Truncates (i : Fin sb.ninodes) (v v' : Mount sb) : Prop where
  others : ∀ j, j ≠ i → v'.inode j = v.inode j
  inode : v'.inode i = { v.inode i with size := 0, addrs := fun _ => 0 }
  dinode : Volume.dinode sb v'.disk i = v'.inode i
  dinodes : ∀ j : Fin sb.ninodes, j ≠ i → Volume.dinode sb v'.disk j = Volume.dinode sb v.disk j
  disk : ∀ c, sb.dataStart ≤ c → v'.disk c = v.disk c
  marks : ∀ c, sb.bblock c < sb.dataStart →
    (inUse sb v'.disk c = true ↔ inUse sb v.disk c = true ∧ ¬ (c ≠ 0 ∧ ∃ s, v.pointer i s = c))
  calls : (∀ call ∈ v.calls, call.Good sb) → ∀ call ∈ v'.calls, call.Good sb

theorem truncDirect_ends (owned : Owned v) : Ends (truncDirect i) v (fun _ w => Trims i [] v w) fun _ => False := by
  refine .forM (Trims i · v ·) ?_ fun k rest w => trim_ends owned
  refine ⟨nodup_range, fun k => List.mem_range.mp, (Frees.refl v).congr fun c => ?_, fun _ _ => rfl, ⟨_, rfl⟩, fun k => ?_⟩
  · simp [Mount.blocks]
  · rw [if_neg (by simp)]

/-- The inode has no block any more. -/
structure Emptied (i : Fin sb.ninodes) (v w : Mount sb) : Prop where
  frees : Frees (v.blocks i fun _ => True) v w
  others : ∀ j, j ≠ i → w.inode j = v.inode j
  fields : ∃ addrs, w.inode i = { v.inode i with addrs }
  addrs : ∀ k, (w.inode i).addrs k = 0

theorem truncIndirect_ends (owned : Owned v) (trims : Trims i [] v w) :
    Ends (truncIndirect i) w (fun _ w' => Emptied i v w') fun _ => False := by
  have kept : (w.inode i).addr NDIRECT = v.pointer i .indirect := by
    rw [addr, trims.addrs, if_neg (by simp)]
    rfl
  have directs (s : Slot) : (∃ k : Fin NDIRECT, s = .direct k ∧ k.val ∉ ([] : List Nat)) ↔ ∃ k, s = .direct k := by simp
  have frees := trims.frees.places directs
  -- what the inode has left is the number of the indirect block
  have addrs (k : Fin (NDIRECT + 1)) : (w.inode i).addrs k = 0 ∨ k = Fin.ofNat _ NDIRECT := by
    by_cases low : k.val < NDIRECT
    · exact .inl (by rw [trims.addrs, if_pos ⟨low, by simp⟩])
    · exact .inr (Fin.ext (by rw [val_ofNat, mod_eq_of_lt (by omega)]; omega))
  refine .bind (.get ?_)
  rw [kept]
  by_cases empty : v.pointer i .indirect = 0
  · rw [if_pos empty]
    refine .pure ⟨frees.congr fun c => ?_, trims.others, trims.fields, fun k => ?_⟩
    · refine ⟨fun ⟨nonzero, s, _, same⟩ => ⟨nonzero, s, trivial, same⟩, fun ⟨nonzero, s, _, same⟩ => ?_⟩
      cases s with
      | direct k => exact ⟨nonzero, .direct k, ⟨k, rfl⟩, same⟩
      | indirect => exact absurd (same.symm.trans empty) nonzero
      | entry => exact absurd (same.symm.trans (if_pos empty)) nonzero
    · rcases addrs k with zero | rfl
      · exact zero
      · exact UInt32.toNat_inj.mp (kept.trans empty)
  · rw [if_neg empty]
    have start : Drains i (fun s => ∃ k, s = .direct k) (range NINDIRECT) v w w := by
      refine ⟨nodup_range, fun k => List.mem_range.mp, frees.places fun s => ?_, rfl⟩
      simp
    have apart : ¬ ((∃ k, Slot.indirect = .direct k) ∨ ∃ k : Fin NINDIRECT, Slot.indirect = .entry k ∧ k.val ∉ ([] : List Nat)) := by
      simp
    have drained := Ends.forM (Drains i (fun s => ∃ k, s = .direct k) · v w ·) start fun k rest u =>
      drain_ends owned empty (by simp)
    refine .bind (drained.returns fun _ u drains => .bind ((owned.give drains.frees empty apart).returns
      fun _ u' ⟨same, frees⟩ => .modify ?_))
    have inode : u'.inode = w.inode := same.trans drains.inode
    have self : (u'.setInode i ((u'.inode i).setAddr NDIRECT 0)).inode i = (w.inode i).setAddr NDIRECT 0 := by
      rw [← inode]
      exact update_self ..
    have whole : Frees (v.blocks i fun _ => True) v u' := by
      refine frees.places fun s => ?_
      cases s <;> simp
    refine ⟨⟨whole.disk, whole.marks, whole.calls⟩, fun j other => ?_, ?_, fun k => ?_⟩
    · rw [← trims.others j other, ← inode]
      exact update_of_ne other ..
    · obtain ⟨_, equal⟩ := trims.fields
      rw [self, equal]
      exact ⟨_, rfl⟩
    · rw [self]
      change update (w.inode i).addrs (Fin.ofNat _ NDIRECT) 0 k = 0
      by_cases top : k = Fin.ofNat _ NDIRECT
      · rw [top, update_self]
      · rw [update_of_ne top]
        exact (addrs k).resolve_right top

theorem Emptied.truncates (emptied : Emptied i v w) :
    Ends (do
      modify fun w => w.setInode i { w.inode i with size := 0 }
      iupdate i) w (fun _ v' => Truncates i v v') fun _ => False := by
  obtain ⟨frees, others, fields, addrs⟩ := emptied
  have low := iblock_lt i
  have middle := bmapstart_lt_dataStart sb
  have inode : ({ w.inode i with size := 0 } : Dinode) = { v.inode i with size := 0, addrs := fun _ => 0 } := by
    obtain ⟨old, equal⟩ := fields
    have zero : old = fun _ => 0 := by
      funext k
      rw [← addrs k, equal]
    rw [equal, zero]
  refine .bind (.modify (.modify ⟨fun j other => ?_, ?_, ?_, fun j other => ?_, fun c high => ?_, fun c inMap => ?_, frees.calls⟩))
  · rw [← others j other]
    exact update_of_ne other ..
  · rw [← inode]
    exact update_self ..
  · exact dinode_setDinode_self
  · have apart : j.val ≠ i.val := fun same => other (Fin.ext same)
    refine (dinode_setDinode_of_ne apart).trans (dinode_congr (frees.disk _ (.inl (iblock_lt j))))
  · refine (setDinode_of_ne (by omega)).trans (frees.disk c (.inr high))
  · have outside : sb.bblock c ≠ sb.iblock i := by
      have := bmapstart_le_bblock sb c
      omega
    rw [inUse_congr (setDinode_of_ne outside)]
    refine (frees.marks c inMap).trans ?_
    simp [Mount.blocks]

theorem itrunc_ends (owned : Owned v) : Ends (itrunc i) v (fun _ v' => Truncates i v v') fun _ => False :=
  .bind ((truncDirect_ends owned).returns fun _ _ trims =>
    .bind ((truncIndirect_ends owned trims).returns fun _ _ emptied => emptied.truncates))

end Xv6.Volume
