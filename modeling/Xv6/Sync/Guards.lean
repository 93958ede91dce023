import Xv6.Sync.SleepLock

namespace Xv6.Sync

open Data Function Option

/-! The holdingsleep tests of iunlock, brelse, bwrite and iderw. acquiresleep,
releasesleep and holdingsleep each hold the spin lock inside, so each is one
step; anybody may take any of them on any sleep lock. -/

/-- The test is under the spin lock and does not look at the pid. -/
def holdingsleep (lk : SleepLock) : Bool := lk.locked

inductive Guard where
  | iunlock | brelse | bwrite | iderw
deriving DecidableEq, Repr

/-- The sleep locks of the inodes and buffers, and the panic of a test that failed. -/
structure Guards (L : Type) where
  lock : L → SleepLock := fun _ => {}
  panic : Option Guard := none

inductive GuardEvent (P L : Type) where
  | acquiresleep (p : P) (l : L)
  /-- Also that at the end of iunlock and brelse. -/
  | releasesleep (p : P) (l : L)
  | test (p : P) (guard : Guard) (l : L)

variable {P L : Type} [DecidableEq L]

/-- acquiresleep sleeps as long as the lock is taken. -/
def Guards.step (pid : P → Int32) (s : Guards L) (event : GuardEvent P L) : Option (Guards L) :=
  if s.panic = none then
    match event with
    | .acquiresleep p l =>
      if (s.lock l).locked = false then some { s with lock := update s.lock l { locked := true, pid := pid p } } else none
    | .releasesleep _ l => some { s with lock := update s.lock l { locked := false, pid := 0 } }
    | .test _ g l => some (if holdingsleep (s.lock l) = true then s else { s with panic := some g })
  else none

def owner (_ : Guards L) (event : GuardEvent P L) (_ : Guards L) (held : L → Option P) : L → Option P :=
  match event with
  | .acquiresleep p l => update held l (some p)
  | .releasesleep _ l => update held l none
  | .test .. => held

abbrev Watched (P L : Type) := Guards L × (L → Option P)

/-- Only the holder of the lock gets past the test. -/
def ChecksOwner (before : Watched P L) (event : GuardEvent P L) (after : Watched P L) : Prop :=
  match event with
  | .test p _ l => after.1.panic = none → before.2 l = some p
  | _ => True

def NotOthers (before : Watched P L) (event : GuardEvent P L) (_ : Watched P L) : Prop :=
  match event with
  | .test p _ l => before.2 l = none ∨ before.2 l = some p
  | _ => True

def Recorded (s : Watched P L) : Prop := ∀ l, (s.1.lock l).locked = (s.2 l).isSome

theorem recorded_update {lock : L → SleepLock} {held : L → Option P} (recorded : ∀ l, (lock l).locked = (held l).isSome)
    (l : L) {lk : SleepLock} {now : Option P} (same : lk.locked = now.isSome) (m : L) :
    (update lock l lk m).locked = (update held l now m).isSome := by
  by_cases here : m = l
  · rw [here, update_self, update_self, same]
  · rw [update_of_ne here, update_of_ne here, recorded]

theorem guards_step {pid : P → Int32} {before after : Watched P L} {event : GuardEvent P L}
    (recorded : Recorded before) (stepped : withHistory (Guards.step pid) owner before event = some after) :
    Recorded after ∧ (ChecksOwner before event after ↔ NotOthers before event after) := by
  obtain ⟨moved, past⟩ := withHistory_step stepped
  unfold Recorded
  rw [past]
  cases event with
  | acquiresleep p l =>
    simp only [Guards.step, ite_none_right_eq_some, some.injEq] at moved
    rw [← moved.2.2]
    exact ⟨recorded_update recorded l rfl, .rfl⟩
  | releasesleep p l =>
    simp only [Guards.step, ite_none_right_eq_some, some.injEq] at moved
    rw [← moved.2]
    exact ⟨recorded_update recorded l rfl, .rfl⟩
  | test p guard l =>
    simp only [Guards.step, ite_none_right_eq_some, some.injEq] at moved
    obtain ⟨running, moved⟩ := moved
    have taken := recorded l
    split at moved
    · rename_i passes
      rw [← moved]
      refine ⟨recorded, fun checked => .inr (checked (moved ▸ running)), fun apart _ => ?_⟩
      rcases apart with free | mine
      · rw [free] at taken
        cases passes.symm.trans taken
      · exact mine
    · rename_i fails
      rw [holdingsleep, taken, not_isSome_iff_eq_none] at fails
      rw [← moved]
      refine ⟨recorded, fun _ => .inl fails, fun _ running' => ?_⟩
      cases (congrArg Guards.panic moved).trans running'

/-- The tests check the owner in the runs in which nobody calls one of the four on
a lock that somebody else has, and in no others. -/
theorem guards_check_owner_iff (pid : P → Int32) (events : List (GuardEvent P L)) :
    EveryStep (withHistory (Guards.step pid) owner) ChecksOwner (({}, fun _ => none) : Watched P L) events ↔
      EveryStep (withHistory (Guards.step pid) owner) NotOthers ({}, fun _ => none) events := by
  exact everyStep_congr Recorded (fun _ => rfl) fun _ _ _ => guards_step

/-- One process has a buffer locked and another one gets past brelse. -/
theorem brelse_of_other : (run (withHistory (Guards.step fun _ => 0) owner) (({}, fun _ => none) : Watched Bool Unit)
      [.acquiresleep true (), .test false .brelse ()]).map (fun s => (s.1.panic, s.2 ())) = some (none, some true) := rfl

end Xv6.Sync
