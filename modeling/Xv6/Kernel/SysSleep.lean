import Mathlib.Algebra.Ring.Int.Defs
import Mathlib.Algebra.Ring.Nat
import Xv6.Data.Run

namespace Xv6.Kernel

open Data

/-! sys_sleep. It holds tickslock but while it sleeps, and the timer interrupt
counts under tickslock, so a turn of the loop and a tick are one step each. -/

/-- A process in sys_sleep, and the ticks. -/
structure Sleeper where
  ticks : UInt32
  ticks0 : UInt32
  asleep : Bool := false
  killed : Bool := false
  result : Option Int32 := none
deriving DecidableEq, Repr

/-- One turn of the loop. `ticks - ticks0 < n` compares unsigned numbers. -/
def Sleeper.turn (n : Int32) (s : Sleeper) : Sleeper :=
  if s.ticks - s.ticks0 < n.toUInt32 then
    if s.killed = true then { s with result := some (-1) } else { s with asleep := true }
  else { s with result := some 0 }

/-- sys_sleep up to its first sleep or return. -/
def sysSleep (n : Int32) (ticks : UInt32) : Sleeper := Sleeper.turn n { ticks, ticks0 := ticks }

inductive TickEvent where
  /-- `ticks++; wakeup(&ticks);` -/
  | tick
  /-- Any other wakeup. -/
  | wakeup
  | kill
  | run
deriving DecidableEq, Repr

def Sleeper.step (n : Int32) (s : Sleeper) : TickEvent → Option Sleeper
  | .tick => some { s with ticks := s.ticks + 1, asleep := false }
  | .wakeup => some { s with asleep := false }
  | .kill => some { s with killed := true, asleep := false }
  | .run => if s.asleep = false ∧ s.result = none then some (s.turn n) else none

/-- The ticks since sys_sleep began. -/
def elapsed (_ : Sleeper) (event : TickEvent) (_ : Sleeper) (count : Nat) : Nat :=
  if event = .tick then count + 1 else count

/-- A process that is not killed returns 0 when it runs after `n` ticks, and not before. -/
def Punctual (n : Int32) (before : Sleeper × Nat) (event : TickEvent) (after : Sleeper × Nat) : Prop :=
  event = .run → before.1.killed = false → (after.1.result = some 0 ↔ n.toInt ≤ before.2)

/-- It does not run within `n` ticks after the difference of the counters has wrapped around. -/
def Unwrapped (n : Int32) (before : Sleeper × Nat) (event : TickEvent) (_ : Sleeper × Nat) : Prop :=
  event = .run → before.1.killed = false → before.2 < n.toInt ∨ n.toInt ≤ (before.2 % 2 ^ 32 : Nat)

def Counted (s : Sleeper × Nat) : Prop := s.1.ticks = s.1.ticks0 + .ofNat s.2

variable {n : Int32} {s : Sleeper}

theorem turn_ticks : (s.turn n).ticks = s.ticks ∧ (s.turn n).ticks0 = s.ticks0 := by
  unfold Sleeper.turn
  split
  · split <;> exact ⟨rfl, rfl⟩
  · exact ⟨rfl, rfl⟩

theorem toNat_toUInt32 (n : Int32) : (n.toUInt32.toNat : Int) = if n.toInt < 0 then n.toInt + 2 ^ 32 else n.toInt := by
  have bound := n.toBitVec.isLt
  rw [← Int32.toInt_toBitVec, BitVec.toInt_eq_toNat_cond, ← UInt32.toNat_toBitVec, Int32.toBitVec_toUInt32]
  split <;> split <;> omega

theorem turn_returns_iff {count : Nat} (running : s.result = none) (counted : Counted (s, count)) :
    (s.turn n).result = some 0 ↔ n.toUInt32.toNat ≤ count % 2 ^ 32 := by
  have ticks : s.ticks = s.ticks0 + .ofNat count := counted
  have elapsed : (s.ticks - s.ticks0).toNat = count % 2 ^ 32 := by
    rw [ticks, UInt32.add_comm, UInt32.add_sub_cancel, UInt32.toNat_ofNat']
  rw [← elapsed, ← UInt32.le_iff_toNat_le]
  unfold Sleeper.turn
  split
  · rename_i early
    refine iff_of_false ?_ (UInt32.not_le.mpr early)
    split <;> simp [running]
  · rename_i late
    exact iff_of_true rfl (UInt32.not_lt.mp late)

theorem sleeper_step {before after : Sleeper × Nat} {event : TickEvent} (positive : 0 ≤ n.toInt) (counted : Counted before)
    (stepped : withHistory (Sleeper.step n) elapsed before event = some after) :
    Counted after ∧ (Punctual n before event after ↔ Unwrapped n before event after) := by
  obtain ⟨moved, past⟩ := withHistory_step stepped
  unfold Counted
  rw [past]
  cases event with
  | run =>
    obtain ⟨ready, moved⟩ := guarded.mp moved
    rw [← moved]
    constructor
    · rw [turn_ticks.1, turn_ticks.2]
      exact counted
    · have unsigned := toNat_toUInt32 n
      rw [if_neg (by omega)] at unsigned
      have less := Nat.mod_le before.2 (2 ^ 32)
      unfold Punctual Unwrapped
      rw [← moved, turn_returns_iff ready.2 counted]
      refine forall_congr' fun _ => forall_congr' fun _ => ?_
      omega
  | tick =>
    simp only [Sleeper.step, Option.some.injEq] at moved
    rw [← moved]
    refine ⟨?_, iff_of_true nofun nofun⟩
    change before.1.ticks + 1 = before.1.ticks0 + .ofNat (before.2 + 1)
    rw [UInt32.ofNat_add, ← UInt32.add_assoc, ← counted]
    rfl
  | wakeup | kill =>
    simp only [Sleeper.step, Option.some.injEq] at moved
    rw [← moved]
    exact ⟨counted, iff_of_true nofun nofun⟩

theorem sysSleep_returns (n : Int32) (ticks : UInt32) : (sysSleep n ticks).result = some 0 ↔ n.toInt = 0 := by
  have unsigned := toNat_toUInt32 n
  have bound := n.le_toInt
  have start : Counted ({ ticks, ticks0 := ticks }, 0) := (UInt32.add_zero ticks).symm
  rw [sysSleep, turn_returns_iff rfl start]
  split at unsigned <;> omega

/-- sys_sleep keeps its time exactly for `n` that are not negative, as long as the
process runs in time when the tick counter has gone round. -/
theorem sys_sleep_punctual_iff (n : Int32) (ticks : UInt32) (events : List TickEvent) :
    (((sysSleep n ticks).result = some 0 ↔ n.toInt ≤ 0) ∧
      EveryStep (withHistory (Sleeper.step n) elapsed) (Punctual n) (sysSleep n ticks, 0) events) ↔
    0 ≤ n.toInt ∧ EveryStep (withHistory (Sleeper.step n) elapsed) (Unwrapped n) (sysSleep n ticks, 0) events := by
  have first : ((sysSleep n ticks).result = some 0 ↔ n.toInt ≤ 0) ↔ 0 ≤ n.toInt := by
    rw [sysSleep_returns]
    omega
  have start : Counted (sysSleep n ticks, 0) := by
    unfold Counted
    rw [sysSleep, turn_ticks.1, turn_ticks.2]
    exact (UInt32.add_zero _).symm
  rw [first]
  exact and_congr_right fun positive => everyStep_congr Counted start fun _ _ _ => sleeper_step positive

/-- A negative time is a very long one. -/
theorem negative_sleep : (sysSleep (-1) 7).result = none ∧ (sysSleep (-1) 7).asleep = true ∧
    (run (Sleeper.step (-1)) (sysSleep (-1) 7) [.tick, .run]).map (·.asleep) = some true := by
  decide

end Xv6.Kernel
