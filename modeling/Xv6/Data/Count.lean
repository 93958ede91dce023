import Mathlib.Algebra.BigOperators.Group.Finset.Basic
import Mathlib.Algebra.BigOperators.Group.Finset.Piecewise
import Mathlib.Algebra.Order.BigOperators.Group.Finset
import Mathlib.Algebra.BigOperators.Ring.Finset
import Mathlib.Data.Fintype.BigOperators

namespace Xv6.Data

open Function Finset

/-! Totals over a finite family of members, each in some state, and how they
move when one member, or all of them, change state. `tally` counts the members
in a given kind of state. -/

variable {ι α β : Type*} [Fintype ι]

def total (weight : α → Nat) (status : ι → α) : Nat := ∑ i, weight (status i)

theorem total_update [DecidableEq ι] (weight : α → Nat) (status : ι → α) (i : ι) (value : α) :
    total weight (update status i value) + weight (status i) = total weight status + weight value := by
  have moved : (fun j => weight (update status i value j)) =
      update (fun j => weight (status j)) i (weight value) := by
    funext j
    by_cases same : j = i
    · subst same
      simp
    · simp [update_of_ne same]
  have before := sum_update_of_mem (mem_univ i) (fun j => weight (status j)) (weight (status i))
  rw [update_eq_self] at before
  unfold total
  rw [moved, sum_update_of_mem (mem_univ i), before]
  omega

theorem total_le_total {weight : α → Nat} {lighter : β → Nat} {status : ι → α} {other : ι → β}
    (less : ∀ i, lighter (other i) ≤ weight (status i)) : total lighter other ≤ total weight status :=
  sum_le_sum fun i _ => less i

theorem weight_le_total (weight : α → Nat) (status : ι → α) (i : ι) : weight (status i) ≤ total weight status :=
  single_le_sum (f := fun j => weight (status j)) (fun _ _ => Nat.zero_le _) (mem_univ i)

theorem weight_add_le_total [DecidableEq ι] (weight : α → Nat) (status : ι → α) {i j : ι} (different : i ≠ j) :
    weight (status i) + weight (status j) ≤ total weight status := by
  rw [← sum_pair (f := fun k => weight (status k)) different]
  exact sum_le_sum_of_subset_of_nonneg (subset_univ _) fun _ _ _ => Nat.zero_le _

variable {kind : α → Prop} [DecidablePred kind] {status : ι → α}

def tally (kind : α → Prop) [DecidablePred kind] (status : ι → α) : Nat :=
  total (fun state => if kind state then 1 else 0) status

theorem tally_update [DecidableEq ι] (kind : α → Prop) [DecidablePred kind] (status : ι → α) (i : ι) (value : α) :
    tally kind (update status i value) + (if kind (status i) then 1 else 0) = tally kind status + if kind value then 1 else 0 :=
  total_update _ status i value

theorem tally_pos_of_kind {i : ι} (holds : kind (status i)) : 0 < tally kind status := by
  have one := weight_le_total (fun state => if kind state then 1 else 0) status i
  simp only [if_pos holds] at one
  exact one

theorem not_kind_of_tally_zero (none : tally kind status = 0) (i : ι) : ¬ kind (status i) := by
  intro holds
  have := tally_pos_of_kind holds
  omega

theorem eq_of_tally_le_one [DecidableEq ι] (single : tally kind status ≤ 1) {i j : ι}
    (left : kind (status i)) (right : kind (status j)) : i = j := by
  by_contra different
  have both := weight_add_le_total (fun state => if kind state then 1 else 0) status different
  simp only [if_pos left, if_pos right] at both
  exact absurd (both.trans single) (by simp)

theorem tally_eq_zero (none : ∀ i, ¬ kind (status i)) : tally kind status = 0 :=
  sum_eq_zero fun i _ => if_neg (none i)

end Xv6.Data
