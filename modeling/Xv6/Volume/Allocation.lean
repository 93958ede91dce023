import Xv6.Volume.Contents

namespace Xv6.Volume

open Data Function

/-! The free map and the block numbers in the inodes agree after every call. -/

variable {sb : Superblock}

structure AllocationSafe (before : Session sb) (event : Event sb) (after : Session sb) : Prop where
  exclusive : ∀ i j s t, after.volume.pointer i s ≠ 0 → after.volume.pointer i s = after.volume.pointer j t → i = j ∧ s = t
  placed : ∀ i s, after.volume.pointer i s ≠ 0 → inUse sb after.volume.disk (after.volume.pointer i s) = true ∧
    sb.dataStart ≤ after.volume.pointer i s ∧ after.volume.pointer i s < sb.size
  synced : ∀ i : Fin sb.ninodes, dinode sb after.volume.disk i = after.volume.inode i
  calls : ∀ call ∈ after.volume.calls, call.Good sb
  truncated : ∀ i, event = .access i .itrunc → ∀ c, sb.bblock c < sb.dataStart →
    (inUse sb after.volume.disk c = true ↔ inUse sb before.volume.disk c = true ∧ ¬ (c ≠ 0 ∧ ∃ s, before.volume.pointer i s = c))
  panics : after.halted ≠ some .bfree ∧ after.halted ≠ some .bmap

section

variable {v : Mount sb} {i : Fin sb.ninodes} {d : Dinode} {s next : Session sb} {event : Event sb}

theorem WellFormed.store (wellFormed : WellFormed v)
    (kept : d.addrs = (v.inode i).addrs ∧ d.size = (v.inode i).size ∨ d.addrs = (fun _ => 0) ∧ d.size = 0) :
    WellFormed (v.store i d) := by
  refine ⟨wellFormed.owned.store (kept.imp And.left And.left), fun j => ?_, fun j => ?_, fun j x low => ?_⟩
  · by_cases mine : j = i
    · rw [mine, store_dinode_self, store_inode_self]
    · rw [store_dinode_of_ne mine, store_inode_of_ne mine]
      exact wellFormed.synced j
  · by_cases mine : j = i
    · rw [mine, store_inode_self]
      rcases kept with ⟨-, size⟩ | ⟨-, size⟩
      · rw [size]
        exact wellFormed.fits i
      · rw [size]
        exact Nat.zero_le _
    · rw [store_inode_of_ne mine]
      exact wellFormed.fits j
  · by_cases mine : j = i
    · rw [mine, store_inode_self] at low
      rcases kept with ⟨addrs, size⟩ | ⟨-, size⟩
      · rw [store_pointer wellFormed.owned.toPlaced addrs, mine]
        rw [size] at low
        exact wellFormed.covered i x low
      · rw [size] at low
        exact absurd low (Nat.not_lt_zero x)
    · rw [store_inode_of_ne mine] at low
      rw [store_pointer_of_ne wellFormed.owned.toPlaced mine]
      exact wellFormed.covered j x low

def Consistent (v : Mount sb) : Prop := WellFormed v ∧ ∀ call ∈ v.calls, call.Good sb

theorem ialloc_ends (consistent : Consistent v) (type : UInt16) :
    Ends (ialloc type) v (fun _ v' => Consistent v') fun panic => panic = .ialloc := by
  refine .bind (.get ?_)
  split
  · rename_i inum _
    refine .bind (.modify (.pure ⟨?_, consistent.2⟩))
    exact consistent.1.store (d := { type }) (i := inum) (.inr ⟨rfl, rfl⟩)
  · exact .throw rfl

theorem iput_ends (consistent : Consistent v) (last : Bool) :
    Ends (iput i last) v (fun _ v' => Consistent v') fun _ => False := by
  refine .bind (.get ?_)
  split
  · refine .bind ((itrunc_ends consistent.1.owned).returns fun _ w truncates => ?_)
    have wellFormed := (truncates.wellFormed consistent.1).store (i := i) (d := { w.inode i with type := 0 }) (.inl ⟨rfl, rfl⟩)
    exact store_ends ⟨wellFormed, truncates.calls consistent.2⟩
  · exact .pure consistent

theorem call_ends (consistent : Consistent v) (event : Event sb) :
    Ends event.call v (fun _ v' => Consistent v' ∧ ∀ i, event = .access i .itrunc → Truncates i v v')
      fun panic => (panic = .balloc ∨ panic = .ialloc) ∧ ∀ i, event ≠ .access i .itrunc := by
  cases event with
  | access _ request =>
    cases request with
    | itrunc =>
      refine (itrunc_serves consistent.1).mono (fun _ v' ⟨serves, truncates⟩ => ⟨⟨serves.wellFormed, serves.calls consistent.2⟩, ?_⟩)
        fun _ impossible => impossible.elim
      rintro j ⟨⟩
      exact truncates
    | readi off n =>
      exact (access_ends consistent.1 (.readi off n)).mono
        (fun _ v' serves => ⟨⟨serves.wellFormed, serves.calls consistent.2⟩, nofun⟩) fun _ failed => ⟨.inl failed.1, nofun⟩
    | writei src off n =>
      exact (access_ends consistent.1 (.writei src off n)).mono
        (fun _ v' serves => ⟨⟨serves.wellFormed, serves.calls consistent.2⟩, nofun⟩) fun _ failed => ⟨.inl failed.1, nofun⟩
  | ialloc type => exact (ialloc_ends consistent type).mono (fun _ _ kept => ⟨kept, nofun⟩) fun _ failed => ⟨.inr failed, nofun⟩
  | iput _ last =>
    exact .bind ((iput_ends consistent last).mono (fun _ _ kept => .pure ⟨kept, nofun⟩) fun _ impossible => impossible.elim)
  | iupdate i major minor nlink =>
    have kept := consistent.1.store (i := i) (d := { v.inode i with major, minor, nlink }) (.inl ⟨rfl, rfl⟩)
    refine .bind (.modify (.bind (.modify (.pure ⟨⟨?_, consistent.2⟩, nofun⟩))))
    have self : (v.setInode i { v.inode i with major, minor, nlink }).inode i = { v.inode i with major, minor, nlink } :=
      update_self ..
    rw [self]
    exact kept

theorem step_ends (stepped : s.step event = some next) :
    (∃ reply volume, event.call s.volume = .ok (reply, volume) ∧ next = { volume, reply }) ∨
      ∃ panic, event.call s.volume = .error panic ∧ next = { s with halted := some panic } := by
  unfold Session.step at stepped
  split at stepped
  · split at stepped
    · rename_i reply volume result
      exact .inl ⟨reply, volume, result, (Option.some.inj stepped).symm⟩
    · rename_i panic result
      exact .inr ⟨panic, result, (Option.some.inj stepped).symm⟩
  · contradiction

theorem Consistent.safe (consistent : Consistent s.volume) (stepped : s.step event = some next) : Consistent next.volume ∧
      AllocationSafe s event next := by
  have ends := call_ends consistent event
  have after (kept : Consistent next.volume)
      (truncated : ∀ i, event = .access i .itrunc → ∀ c, sb.bblock c < sb.dataStart → (inUse sb next.volume.disk c = true ↔
        inUse sb s.volume.disk c = true ∧ ¬ (c ≠ 0 ∧ ∃ t, s.volume.pointer i t = c)))
      (panics : next.halted ≠ some .bfree ∧ next.halted ≠ some .bmap) :
      Consistent next.volume ∧ AllocationSafe s event next :=
    ⟨kept, kept.1.owned.exclusive, fun i t present => ⟨kept.1.owned.used i t present, kept.1.owned.inside i t present⟩,
      kept.1.synced, kept.2, truncated, panics⟩
  unfold Ends at ends
  rcases step_ends stepped with ⟨reply, volume, result, rfl⟩ | ⟨panic, result, rfl⟩
  · rw [result] at ends
    exact after ends.1 (fun i call c => (ends.2 i call).marks c) (by simp)
  · rw [result] at ends
    refine after consistent (fun i call => absurd call (ends.2 i)) ?_
    rcases ends.1 with rfl | rfl <;> simp

end

/-- Every run of calls on a volume that is well formed when it is mounted. -/
theorem block_allocation_consistent (sb : Superblock) (disk : Disk) (wellFormed : WellFormed (mount sb disk))
    (events : List (Event sb)) : EveryStep Session.step AllocationSafe { volume := mount sb disk } events := by
  exact (runs_along (fun s : Session sb => Consistent s.volume) ⟨wellFormed, by simp [mount]⟩ (everyStep_true _ _ events)
    (fun _ _ _ consistent _ => consistent.safe)).1

section

theorem wellFormed_blank {disk : Disk} (zero : ∀ i : Fin sb.ninodes, disk (sb.iblock i) = fun _ => 0)
    (kept : ∀ b, b < sb.dataStart → inUse sb disk b = true) : WellFormed (mount sb disk) := by
  have inode (i : Fin sb.ninodes) : (mount sb disk).inode i = {} := by
    change dinode sb disk i = {}
    rw [dinode, zero i, Dinode.read_zero]
  have pointer (i : Fin sb.ninodes) (s : Slot) : (mount sb disk).pointer i s = 0 := by
    rw [Mount.pointer, inode]
    cases s <;> rfl
  refine ⟨⟨⟨fun i _ s _ present => ?_, fun i s present => ?_⟩, fun i s present => ?_, kept⟩, fun _ => rfl, fun i => ?_, fun i x low => ?_⟩
  · exact absurd (pointer i s) present
  · exact absurd (pointer i s) present
  · exact absurd (pointer i s) present
  · rw [inode]
    exact Nat.zero_le _
  · rw [inode] at low
    exact absurd low (Nat.not_lt_zero x)

/-- Two inode blocks, one block of free map and 34 data blocks. -/
def smallVolume : Superblock where
  size := 40
  ninodes := 8
  inodestart := 2
  bmapstart := 5
  afterSuperblock := by decide
  afterInodes := by decide
  afterMap := by decide
  small := by decide

/-- The blocks before the data are marked. -/
def blankDisk : Disk := update (fun _ _ => 0) 5 (update (fun _ => 0) 0 63)

theorem wellFormed_blankDisk : WellFormed (mount smallVolume blankDisk) := by
  refine wellFormed_blank (fun i => ?_) fun b low => ?_
  · have low : smallVolume.iblock i < smallVolume.bmapstart := iblock_lt i
    exact update_of_ne (Nat.ne_of_lt low) ..
  · have low : b < 6 := low
    interval_cases b <;> decide

end

def firstFile : Fin smallVolume.ninodes := ⟨1, by decide⟩

/-- A file that needs its indirect block is written, and freed. -/
def fillAndFree : List (Event smallVolume) :=
  [.ialloc 2, .access firstFile (.writei (fun _ => 7) 0 14400), .iput firstFile true]

theorem block_allocation_consistent_fillAndFree :
    (run Session.step { volume := mount smallVolume blankDisk } (fillAndFree.take 2)).map
        (fun s => (s.reply, s.volume.pointer firstFile .indirect, s.volume.calls.length)) = some (.count 14400, 34, 30) ∧
      (run Session.step { volume := mount smallVolume blankDisk } fillAndFree).map
        (fun s => (s.halted, s.volume.pointer firstFile .indirect, s.volume.calls.length)) = some (none, 0, 60) ∧
      EveryStep Session.step AllocationSafe { volume := mount smallVolume blankDisk } fillAndFree :=
  ⟨by decide +kernel, by decide +kernel, block_allocation_consistent smallVolume blankDisk wellFormed_blankDisk fillAndFree⟩

end Xv6.Volume
