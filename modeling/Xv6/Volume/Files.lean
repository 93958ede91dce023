import Xv6.Volume.Allocation

namespace Xv6.Volume

open Data Function

/-! Files are arrays of bytes. -/

variable {sb : Superblock}

/-- A call on the contents of an inode. -/
def Session.serve (s : Session sb) (request : Fin sb.ninodes × Access) : Option (Session sb) :=
  s.step (.access request.1 request.2)

structure FileSafe (before : Session sb) (request : Fin sb.ninodes × Access) (after : Session sb) : Prop where
  /-- With a free block for each place that has none, the call returns. -/
  returns : (missing before.volume request.1 request.2.needs).card ≤ (freeBlocks sb before.volume.disk).card → after.halted = none
  refines : after.halted = none → after.volume.contents = Function.update before.volume.contents request.1
    (request.2.act (before.volume.device request.1) (before.volume.contents request.1)).1
  reply : after.halted = none →
    after.reply = (request.2.act (before.volume.device request.1) (before.volume.contents request.1)).2
  synced : after.halted = none → ∀ j : Fin sb.ninodes, dinode sb after.volume.disk j = after.volume.inode j

theorem WellFormed.safe {s next : Session sb} {request : Fin sb.ninodes × Access} (wellFormed : WellFormed s.volume)
    (served : s.serve request = some next) : WellFormed next.volume ∧ FileSafe s request next := by
  obtain ⟨i, access⟩ := request
  have ends := access_ends (i := i) wellFormed access
  unfold Ends at ends
  rcases step_ends served with ⟨reply, volume, result, rfl⟩ | ⟨panic, result, rfl⟩
  · have result : access.call i s.volume = .ok (reply, volume) := result
    rw [result] at ends
    refine ⟨ends.wellFormed, fun _ => rfl, fun _ => ?_, fun _ => ends.reply, fun _ => ends.wellFormed.synced⟩
    funext j
    by_cases mine : j = i
    · rw [mine, update_self]
      exact ends.contents
    · rw [update_of_ne mine]
      exact ends.others j mine
  · have result : access.call i s.volume = .error panic := result
    rw [result] at ends
    refine ⟨wellFormed, fun enough => ?_, nofun, nofun, nofun⟩
    exact absurd ends.2 (Nat.not_lt_of_le enough)

/-- Every sequence of reads, writes and truncations of the inodes of a volume that is well formed when it is mounted. -/
theorem files_are_byte_arrays (sb : Superblock) (disk : Disk) (wellFormed : WellFormed (mount sb disk))
    (requests : List (Fin sb.ninodes × Access)) : EveryStep Session.serve FileSafe { volume := mount sb disk } requests := by
  exact (runs_along (fun s : Session sb => WellFormed s.volume) wellFormed (everyStep_true _ _ requests)
    (fun _ _ _ wellFormed _ => wellFormed.safe)).1

/-- A write over the end of the file and of its block, and a read of more than there is. -/
def overwriteAndRead : List (Fin smallVolume.ninodes × Access) :=
  [(firstFile, .writei (fun _ => 7) 0 512), (firstFile, .writei (fun k => .ofNat k) 510 4), (firstFile, .readi 509 100)]

theorem files_are_byte_arrays_overwriteAndRead :
    (run Session.serve { volume := mount smallVolume blankDisk } overwriteAndRead).map Session.reply =
        some (.data [7, 0, 1, 2, 3]) ∧
      EveryStep Session.serve FileSafe { volume := mount smallVolume blankDisk } overwriteAndRead :=
  ⟨by decide +kernel, files_are_byte_arrays smallVolume blankDisk wellFormed_blankDisk overwriteAndRead⟩

end Xv6.Volume
