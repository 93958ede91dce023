import Mathlib.Logic.Relation

namespace Xv6.Data

open Relation

/-! Cycles of a relation. A relation has none if every step between two members
of a cycle climbs. -/

variable {α : Type*} {r : α → α → Prop} {a : α}

theorem exists_before (cycle : TransGen r a a) : ∃ b, r b a ∧ TransGen r b b := by
  obtain ⟨b, there, back⟩ := TransGen.tail'_iff.mp cycle
  exact ⟨b, back, TransGen.head' back there⟩

theorem exists_after (cycle : TransGen r a a) : ∃ b, r a b ∧ TransGen r b b := by
  obtain ⟨b, there, back⟩ := TransGen.head'_iff.mp cycle
  exact ⟨b, there, TransGen.tail' back there⟩

theorem no_cycle_of_climb (height : α → Nat)
    (climb : ∀ a b, TransGen r a a → TransGen r b b → r a b → height a < height b) (a : α) : ¬ TransGen r a a := by
  -- along a path of the cycle that starts at `a` the height grows
  have grows (b : α) (path : TransGen r a b) : TransGen r b a → height a < height b := by
    induction path with
    | single step =>
      intro back
      exact climb _ _ (TransGen.head step back) (back.tail step) step
    | tail path step grown =>
      intro back
      have before := grown (TransGen.head step back)
      have around := (TransGen.head step back).trans path
      exact Nat.lt_trans before (climb _ _ around (back.trans (path.tail step)) step)
  intro cycle
  exact Nat.lt_irrefl _ (grows a cycle cycle)

end Xv6.Data
