import Xv6.Scheduler.WorkConservation

namespace Xv6.Scheduler

open Process Data Option

/-! Successive calls of rrScheduler. Call `n` sees the table `tables n`, and
nothing relates one table to the next: only `idx` survives between calls. -/

/-- The value of the static `idx` before call `n`. -/
def rrIdx (tables : Nat → Table) : Nat → Option Nat
  | 0 => some (NPROC - 1)
  | n + 1 => do
    let idx ← rrIdx tables n
    let (_, after) ← rrScheduler (tables n) idx
    some after

def rrReturn (tables : Nat → Table) (n : Nat) : Option (Option Slot) := do
  let idx ← rrIdx tables n
  let (chosen, _) ← rrScheduler (tables n) idx
  some chosen

variable {tables : Nat → Table} {k : Slot}

theorem rrIdx_inside (tables : Nat → Table) (n : Nat) : ∃ idx, rrIdx tables n = some idx ∧ idx < NPROC := by
  induction n with
  | zero => exact ⟨NPROC - 1, rfl, by decide⟩
  | succ n ih =>
    obtain ⟨_, before, inside⟩ := ih
    obtain ⟨_, after, result, outcome⟩ := rrScheduler_spec (tables n) inside
    refine ⟨after, ?_, outcome.after_lt inside⟩
    simp only [rrIdx, before, result, bind_eq_bind, bind_some]

/-- While `k` is runnable the scan never passes it: a call either returns `k`
or leaves `idx` strictly closer to it. -/
theorem RoundRobin.progress {table : Table} {idx after : Nat} {chosen : Option Slot}
    (inside : idx < NPROC) (ready : (table k).state = .runnable) (outcome : RoundRobin table idx chosen after) :
    chosen = some k ∨ ∃ p, chosen = some p ∧ after = p ∧ p ≠ k ∧ Ring.gap NPROC after k < Ring.gap NPROC idx k := by
  cases outcome with
  | idle none_ready => exact absurd ready (none_ready k)
  | chose p steps _ _ reached _ first =>
    have reach := Ring.add_gap inside k.isLt
    rcases Nat.lt_trichotomy steps (Ring.gap NPROC idx k) with short | exact | passed
    · right
      have closer := Ring.gap_advance inside k.isLt short
      rw [reached] at closer
      refine ⟨p, rfl, rfl, ?_, by omega⟩
      intro same
      -- the next visit of `p` itself would be a whole turn away
      have whole : Ring.gap NPROC p k = NPROC := by
        simp [same, Ring.gap]
      have limit : Ring.gap NPROC idx k ≤ NPROC := Ring.gap_le k.isLt
      omega
    · left
      rw [exact, reach] at reached
      exact congrArg some (Fin.ext reached.symm)
    · exact absurd ready (first k _ (Ring.gap_pos inside) passed reach)

theorem rrCall_progress {n idx : Nat} (before : rrIdx tables n = some idx) (inside : idx < NPROC)
    (ready : (tables n k).state = .runnable) : rrReturn tables n = some (some k) ∨ ∃ p : Slot, rrReturn tables n = some (some p) ∧
      rrIdx tables (n + 1) = some (p : Nat) ∧ Ring.gap NPROC p k < Ring.gap NPROC idx k := by
  obtain ⟨chosen, after, result, outcome⟩ := rrScheduler_spec (tables n) inside
  have returned : rrReturn tables n = some chosen := by
    simp only [rrReturn, before, result, bind_eq_bind, bind_some]
  have next : rrIdx tables (n + 1) = some after := by
    simp only [rrIdx, before, result, bind_eq_bind, bind_some]
  rcases outcome.progress inside ready with here | ⟨p, chose, moved, _, closer⟩
  · exact .inl (returned.trans (congrArg some here))
  · subst chose moved
    exact .inr ⟨p, returned, next, closer⟩

/-- Every call that finds `k` runnable and returns another slot uses up at least
one unit of the distance from `idx` to `k`. -/
theorem gap_decreases (start finish : Nat) (ordered : start ≤ finish) {idx : Nat}
    (before : rrIdx tables start = some idx) (inside : idx < NPROC)
    (ready : ∀ c, start ≤ c → c < finish → (tables c k).state = .runnable)
    (missed : ∀ c, start ≤ c → c < finish → rrReturn tables c ≠ some (some k)) :
    ∃ final, rrIdx tables finish = some final ∧ final < NPROC ∧
      Ring.gap NPROC final k + (finish - start) ≤ Ring.gap NPROC idx k := by
  induction finish, ordered using Nat.le_induction with
  | base => exact ⟨idx, before, inside, by omega⟩
  | succ finish ordered ih =>
    obtain ⟨_, reached, within, _⟩ := ih (fun c low high => ready c low (by omega)) (fun c low high => missed c low (by omega))
    rcases rrCall_progress reached within (ready finish ordered (by omega)) with hit | ⟨p, _, next, closer⟩
    · exact absurd hit (missed finish ordered (by omega))
    · exact ⟨p, next, p.isLt, by omega⟩

theorem rr_return_within_turn (start : Nat) (ready : ∀ c, start ≤ c → c < start + NPROC → (tables c k).state = .runnable) :
    ∃ c, start ≤ c ∧ c < start + NPROC ∧ rrReturn tables c = some (some k) := by
  by_contra never
  push Not at never
  obtain ⟨idx, before, inside⟩ := rrIdx_inside tables start
  obtain ⟨final, _, within, _⟩ := gap_decreases start (start + NPROC) (by omega) before inside ready never
  have limit : Ring.gap NPROC idx k ≤ NPROC := Ring.gap_le k.isLt
  have positive : 0 < Ring.gap NPROC final k := Ring.gap_pos within
  omega

theorem rrIdx_after_return {n : Nat} {j : Slot} (returned : rrReturn tables n = some (some j)) :
    rrIdx tables (n + 1) = some (j : Nat) := by
  obtain ⟨_, before, inside⟩ := rrIdx_inside tables n
  obtain ⟨_, _, result, outcome⟩ := rrScheduler_spec (tables n) inside
  simp only [rrReturn, before, result, bind_eq_bind, bind_some, some.injEq] at returned
  subst returned
  cases outcome with
  | chose =>
    simp only [rrIdx, before, result, bind_eq_bind, bind_some]

theorem rr_no_overtaking {first second : Nat} {j : Slot} (ordered : first < second) (different : j ≠ k)
    (once : rrReturn tables first = some (some j)) (again : rrReturn tables second = some (some j))
    (ready : ∀ c, first < c → c ≤ second → (tables c k).state = .runnable) :
    ∃ c, first < c ∧ c < second ∧ rrReturn tables c = some (some k) := by
  by_contra never
  push Not at never
  obtain ⟨_, reached, _, _⟩ := gap_decreases (k := k) (first + 1) (second + 1) (by omega) (rrIdx_after_return once) j.isLt
    (fun c low high => ready c (by omega) (by omega)) (by
      intro c low high hit
      rcases Nat.lt_or_ge c second with earlier | last
      · exact never c (by omega) earlier hit
      · have same : c = second := by omega
        rw [same, again] at hit
        simp only [some.injEq] at hit
        exact different hit)
  rw [rrIdx_after_return again] at reached
  cases reached
  omega

/-- Bounded bypass: a slot that stays runnable is returned at least once in any
`NPROC` consecutive calls, and no other slot is returned twice in between. -/
theorem rr_bounded_bypass (tables : Nat → Table) (k : Slot) :
    (∀ start, (∀ c, start ≤ c → c < start + NPROC → (tables c k).state = .runnable) →
      ∃ c, start ≤ c ∧ c < start + NPROC ∧ rrReturn tables c = some (some k)) ∧ (∀ first second j, first < second → j ≠ k →
      rrReturn tables first = some (some j) → rrReturn tables second = some (some j) →
      (∀ c, first < c → c ≤ second → (tables c k).state = .runnable) →
      ∃ c, first < c ∧ c < second ∧ rrReturn tables c = some (some k)) :=
  ⟨fun start ready => rr_return_within_turn start ready,
    fun _ _ _ ordered different once again ready => rr_no_overtaking ordered different once again ready⟩

end Xv6.Scheduler
