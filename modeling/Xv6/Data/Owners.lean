import Mathlib.Data.List.Nodup
import Mathlib.Logic.Function.Basic

namespace Xv6.Data

open Function

/-! Items that are free or have one role each. -/

variable {Role Item : Type} {holds : Role → Option Item} {free : List Item} {role : Role} {item : Item}

/-- At most one role has a property, still after one of them has changed. -/
theorem single_update {Value : Type} [DecidableEq Role] {value : Role → Value} {new : Value} (has : Value → Prop)
    (single : ∀ first second, has (value first) → has (value second) → first = second)
    (own : has new → ∀ other, other ≠ role → ¬ has (value other)) (first second : Role)
    (left : has (update value role new first)) (right : has (update value role new second)) : first = second := by
  by_cases here : first = role
  · subst here
    by_contra differs
    rw [update_self] at left
    rw [update_of_ne (Ne.symm differs)] at right
    exact own left second (Ne.symm differs) right
  · rw [update_of_ne here] at left
    by_cases there : second = role
    · subst there
      rw [update_self] at right
      exact absurd left (own right first here)
    · rw [update_of_ne there] at right
      exact single first second left right

structure Exclusive (holds : Role → Option Item) (free : List Item) : Prop where
  nodup : free.Nodup
  apart : ∀ role item, holds role = some item → item ∉ free
  single : ∀ role other item, holds role = some item → holds other = some item → role = other

/-- Free, or with a role. -/
def Owns (holds : Role → Option Item) (free : List Item) (item : Item) : Prop := item ∈ free ∨ ∃ role, holds role = some item

theorem Owns.perm {free' : List Item} (same : free.Perm free') (item : Item) : Owns holds free item ↔ Owns holds free' item := by
  unfold Owns
  rw [same.mem_iff]

namespace Exclusive

theorem perm {free' : List Item} (exclusive : Exclusive holds free) (same : free.Perm free') : Exclusive holds free' where
  nodup := same.nodup exclusive.nodup
  apart role item has := mt same.mem_iff.mpr (exclusive.apart role item has)
  single := exclusive.single

variable [DecidableEq Role]

theorem take (exclusive : Exclusive holds (item :: free)) (vacant : holds role = none) :
    Exclusive (update holds role (some item)) free ∧
      ∀ other, Owns (update holds role (some item)) free other ↔ Owns holds (item :: free) other := by
  obtain ⟨nodup, _, _⟩ := exclusive
  obtain ⟨_, nodup⟩ := List.nodup_cons.mp nodup
  have here (other : Role) : update holds role (some item) other = if other = role then some item else holds other :=
    update_apply ..
  refine ⟨⟨nodup, fun other found has => ?_, fun first second found has has' => ?_⟩, fun found => ?_⟩
  · grind
  · grind
  · unfold Owns
    constructor
    · rintro (listed | ⟨other, has⟩)
      · exact .inl (List.mem_cons_of_mem _ listed)
      · grind
    · rintro (listed | ⟨other, has⟩)
      · rcases List.mem_cons.mp listed with rfl | listed
        · exact .inr ⟨role, update_self ..⟩
        · exact .inl listed
      · exact .inr ⟨other, by grind⟩

theorem give (exclusive : Exclusive holds free) (has : holds role = some item) :
    Exclusive (update holds role none) (item :: free) ∧
      ∀ other, Owns (update holds role none) (item :: free) other ↔ Owns holds free other := by
  obtain ⟨nodup, apart, _⟩ := exclusive
  have here (other : Role) : update holds role none other = if other = role then none else holds other := update_apply ..
  have given : Exclusive (update holds role none) (item :: free) := by
    refine ⟨List.nodup_cons.mpr ⟨apart role item has, nodup⟩, fun other found has => ?_, fun first second found has has' => ?_⟩
    · grind
    · grind
  refine ⟨given, fun other => ?_⟩
  have back := (given.take (update_self ..)).2 other
  rw [update_idem, ← has, update_eq_self] at back
  exact back.symm

end Exclusive

end Xv6.Data
