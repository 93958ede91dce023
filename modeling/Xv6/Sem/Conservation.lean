import Xv6.Sem.Effect
import Xv6.Data.Count

namespace Xv6.Sem

open Process Data Option

/-! What a semaphore is for: its value is what the signals have given less what
the waits have taken, and a semaphore of one unit is a mutex. Both are read off
the calls that take effect, so sleeping, spurious wakeups and the order in which
woken processes retest cost nothing. -/

/-- The past of one semaphore since a chosen moment. A process holds it from the
moment its sem_wait takes effect to the moment its sem_signal does. -/
structure Account where
  given : Int := 0
  taken : Int := 0
  holds : Slot → Bool := fun _ => false

def Account.record (account : Account) : Slot × SemOp → Account
  | (p, .wait count) => { account with
      taken := account.taken + count.toInt, holds := Function.update account.holds p true }
  | (p, .signal count) => { account with
      given := account.given + count.toInt, holds := Function.update account.holds p false }
  | _ => account

def observe (sem : Index) (s : SemState) (event : SemEvent) (_ : SemState) (account : Account) : Account :=
  (effect sem s event).elim account account.record

/-- Steps that neither destroy the semaphore, nor use a negative count, nor give
so much that the value could leave the `int` range. -/
def Ordinary (sem : Index) (initial : Int32) (before : SemState × Account) (event : SemEvent) (_ : SemState × Account) : Prop :=
  match effect sem before.1 event with
  | some (_, .wait count) => 0 ≤ count.toInt
  | some (_, .signal count) =>
    0 ≤ count.toInt ∧ initial.toInt + before.2.given + count.toInt < 2 ^ 31
  | some (_, .destroy) => False
  | _ => True

/-- Steps of processes that use the semaphore as a lock: one unit at a time, and
each process waits and signals in turn. -/
def Alternating (sem : Index) (before : SemState × Account) (event : SemEvent) (_ : SemState × Account) : Prop :=
  match effect sem before.1 event with
  | some (p, .wait count) => count = 1 ∧ before.2.holds p = false
  | some (p, .signal count) => count = 1 ∧ before.2.holds p = true
  | some (_, .destroy) => False
  | _ => True

section

variable {sem : Index} {initial : Int32} {before after : SemState × Account} {event : SemEvent}

instance : Decidable (Ordinary sem initial before event after) :=
  match found : effect sem before.1 event with
  | some (_, .wait count) => decidable_of_iff (0 ≤ count.toInt) (by simp [Ordinary, found])
  | some (_, .signal count) =>
    decidable_of_iff (0 ≤ count.toInt ∧ initial.toInt + before.2.given + count.toInt < 2 ^ 31)
      (by simp [Ordinary, found])
  | some (_, .destroy) => .isFalse (by simp [Ordinary, found])
  | some (_, .init _) => .isTrue (by simp [Ordinary, found])
  | none => .isTrue (by simp [Ordinary, found])

instance : Decidable (Alternating sem before event after) :=
  match found : effect sem before.1 event with
  | some (p, .wait count) =>
    decidable_of_iff (count = 1 ∧ before.2.holds p = false) (by simp [Alternating, found])
  | some (p, .signal count) =>
    decidable_of_iff (count = 1 ∧ before.2.holds p = true) (by simp [Alternating, found])
  | some (_, .destroy) => .isFalse (by simp [Alternating, found])
  | some (_, .init _) => .isTrue (by simp [Alternating, found])
  | none => .isTrue (by simp [Alternating, found])

end

theorem toInt_sub_of_le {value count : Int32} (nonneg : 0 ≤ count.toInt) (enough : count ≤ value) :
    (value - count).toInt = value.toInt - count.toInt := by
  have := Int32.le_iff_toInt_le.mp enough
  have := value.toInt_lt
  rw [Int32.toInt_sub]
  exact Int.bmod_eq_of_le (by omega) (by omega)

theorem toInt_add_of_lt {value count : Int32} (nonneg : 0 ≤ value.toInt) (more : 0 ≤ count.toInt)
    (fits : value.toInt + count.toInt < 2 ^ 31) : (value + count).toInt = value.toInt + count.toInt := by
  rw [Int32.toInt_add]
  exact Int.bmod_eq_of_le (by omega) (by omega)

structure Conserved (sem : Index) (initial : Int32) (state : SemState × Account) : Prop where
  active : (state.1.contents sem).active = true
  nonneg : 0 ≤ (state.1.contents sem).value.toInt
  taken : 0 ≤ state.2.taken
  balance : (state.1.contents sem).value.toInt = initial.toInt + state.2.given - state.2.taken

variable {state next : SemState × Account}

theorem Conserved.step {sem : Index} {initial : Int32} {event : SemEvent}
    (conserved : Conserved sem initial state) (ordinary : Ordinary sem initial state event next)
    (stepped : withHistory semStep (observe sem) state event = some next) : Conserved sem initial next := by
  obtain ⟨moved, recorded⟩ := withHistory_step stepped
  have contents := contents_step sem moved
  obtain ⟨active, nonneg, taken, balance⟩ := conserved
  cases found : effect sem state.1 event with
  | none =>
    simp only [found, elim_none, observe] at contents recorded
    exact ⟨by rw [contents, active], by rw [contents]; exact nonneg, by rw [recorded]; exact taken,
      by rw [contents, recorded, balance]⟩
  | some call =>
    obtain ⟨p, op⟩ := call
    simp only [found, elim_some, observe] at contents recorded
    obtain ⟨-, enabled, -⟩ := effect_some found
    cases op with
    | init => exact absurd (active.symm.trans enabled) (by simp)
    | destroy => simp [Ordinary, found] at ordinary
    | wait =>
      simp only [Ordinary, found] at ordinary
      have value := toInt_sub_of_le ordinary enabled
      have := Int32.le_iff_toInt_le.mp enabled
      simp only [SemOp.apply] at contents
      simp only [Account.record] at recorded
      refine ⟨by rw [contents, ← active], ?_, ?_, ?_⟩
      · rw [contents, value]
        omega
      · rw [recorded]
        exact Int.add_nonneg taken ordinary
      · rw [contents, value, recorded]
        simp only
        omega
    | signal =>
      simp only [Ordinary, found] at ordinary
      have value := toInt_add_of_lt nonneg ordinary.1 (by omega)
      simp only [SemOp.apply] at contents
      simp only [Account.record] at recorded
      refine ⟨by rw [contents, ← active], ?_, by rw [recorded]; exact taken, ?_⟩
      · rw [contents, value]
        omega
      · rw [contents, value, recorded]
        simp only
        omega

def Account.holders (account : Account) : Nat := tally (fun holds => holds = true) account.holds

/-- One unit in all: in the semaphore, or with the process that holds it. -/
structure Exclusive (sem : Index) (state : SemState × Account) : Prop where
  active : (state.1.contents sem).active = true
  nonneg : 0 ≤ (state.1.contents sem).value.toInt
  unit : (state.1.contents sem).value.toInt + state.2.holders = 1

theorem Exclusive.step {sem : Index} {event : SemEvent}
    (exclusive : Exclusive sem state) (alternating : Alternating sem state event next)
    (stepped : withHistory semStep (observe sem) state event = some next) : Exclusive sem next := by
  obtain ⟨moved, recorded⟩ := withHistory_step stepped
  have contents := contents_step sem moved
  obtain ⟨active, nonneg, unit⟩ := exclusive
  cases found : effect sem state.1 event with
  | none =>
    simp only [found, elim_none, observe] at contents recorded
    exact ⟨by rw [contents, active], by rw [contents]; exact nonneg, by rw [contents, recorded, unit]⟩
  | some call =>
    obtain ⟨p, op⟩ := call
    simp only [found, elim_some, observe] at contents recorded
    obtain ⟨-, enabled, -⟩ := effect_some found
    cases op with
    | init => exact absurd (active.symm.trans enabled) (by simp)
    | destroy => simp [Alternating, found] at alternating
    | wait =>
      simp only [Alternating, found] at alternating
      obtain ⟨rfl, free⟩ := alternating
      have value := toInt_sub_of_le (by decide) enabled
      have least := Int32.le_iff_toInt_le.mp enabled
      have one : (1 : Int32).toInt = 1 := by decide
      have more := tally_update (· = true) state.2.holds p true
      simp only [free, Bool.false_eq_true, if_false, if_true, Nat.add_zero] at more
      simp only [SemOp.apply] at contents
      refine ⟨by rw [contents, ← active], ?_, ?_⟩
      · rw [contents, value]
        omega
      · rw [contents, value, recorded]
        simp only [Account.record, Account.holders] at unit more ⊢
        omega
    | signal =>
      simp only [Alternating, found] at alternating
      obtain ⟨rfl, held⟩ := alternating
      have one : (1 : Int32).toInt = 1 := by decide
      have value := toInt_add_of_lt nonneg (by decide : 0 ≤ (1 : Int32).toInt) (by omega)
      have less := tally_update (· = true) state.2.holds p false
      simp only [held, Bool.false_eq_true, if_false, if_true, Nat.add_zero] at less
      simp only [SemOp.apply] at contents
      refine ⟨by rw [contents, ← active], ?_, ?_⟩
      · rw [contents, value]
        omega
      · rw [contents, value, recorded]
        simp only [Account.record, Account.holders] at unit less ⊢
        omega

end Xv6.Sem
