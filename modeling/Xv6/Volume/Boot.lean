import Xv6.Volume.Decode
import Xv6.Volume.Files

namespace Xv6.Volume.Mkfs

open Data

/-! The kernel on a volume that mkfs has made. -/

variable {files : List File} {image : Image}

theorem Finished.wellFormed (finished : Finished files image) (few : files.length + 2 ≤ NINODES)
    (ragged : (files.length + 2) % (BSIZE / DIRENT) ≠ 0) : WellFormed (mount sb image.disk) := by
  have tidy := finished.holds.tidy
  have covered (i : Fin sb.ninodes) (bn : Nat) (below : bn < ((dinode sb image.disk i).size.toNat + BSIZE - 1) / BSIZE) :
      bn < MAXFILE ∧ (mount sb image.disk).pointer i (slotAt bn) ≠ 0 := by
    by_cases top : i = root
    · subst top
      exact (finished.covered_root_iff few).mpr ragged bn below
    · exact finished.covered top below
  have marked (b : Nat) (below : b < image.freeblock) : inUse sb image.disk b = true := by
    have room : FSSIZE ≤ BPB := by decide
    rw [finished.map b (Nat.lt_of_lt_of_le below (tidy.room.trans room))]
    exact decide_eq_true below
  refine ⟨⟨tidy.placed, fun i s _ => marked _ (tidy.below i s), fun b below => marked b (below.trans_le tidy.start)⟩,
    fun _ => rfl, fun i => ?_, fun i x inside => ?_⟩
  · by_contra large
    have last := (covered i MAXFILE (by simp only [mount, MAXFILE, BSIZE] at large ⊢; omega)).1
    omega
  · exact (covered i (x / BSIZE) (by simp only [mount, BSIZE] at inside ⊢; omega)).2

/-- The files that mkfs was given are on its volume, and in every run of the kernel they are arrays of
bytes that share no block. -/
theorem mkfs_volume_serves (accepted : main files {} = .ok ((), image)) (few : files.length + 2 ≤ NINODES)
    (ragged : (files.length + 2) % (BSIZE / DIRENT) ≠ 0) : let volume := mount sb image.disk
    (∀ i ≠ root, volume.contents i = contentOf files i) ∧ (∀ requests, EveryStep Session.serve FileSafe { volume } requests) ∧
      ∀ events, EveryStep Session.step AllocationSafe { volume } events := by
  have finished := (main_ends few).of_ok accepted
  have wellFormed := finished.wellFormed few ragged
  refine ⟨fun i other => ?_, fun requests => ?_, fun events => ?_⟩
  · rw [Mount.contents, ← finished.holds.bytes i, ← finished.sizes i other]
    rfl
  · exact (runs_along (WellFormed ·.volume) wellFormed (everyStep_true _ _ _) fun _ _ _ wellFormed _ => wellFormed.safe).1
  · exact (runs_along (Consistent ·.volume) ⟨wellFormed, by simp [mount]⟩ (everyStep_true _ _ _) fun _ _ _ consistent _ => consistent.safe).1

theorem mkfs_volume_serves_oneFile : ∃ image, main oneFile {} = .ok ((), image) ∧
    (∀ i ≠ root, (mount sb image.disk).contents i = contentOf oneFile i) ∧
    (∀ requests, EveryStep Session.serve FileSafe { volume := mount sb image.disk } requests) ∧
    ∀ events, EveryStep Session.step AllocationSafe { volume := mount sb image.disk } events := by
  have few : oneFile.length + 2 ≤ NINODES := by decide
  obtain ⟨image, result, _⟩ := main_accepts few ⟨by decide, fits_contentOf few (by decide) (by decide)⟩
  exact ⟨image, result, mkfs_volume_serves result few (by decide)⟩

end Xv6.Volume.Mkfs
