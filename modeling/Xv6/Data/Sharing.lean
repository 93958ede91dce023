import Mathlib.Data.Option.Basic
import Mathlib.Logic.Function.Basic

namespace Xv6.Data

open Function

/-! Resources held in common. Every owner that holds a resource does so as a
member of a numbered group, and only members of one group hold the same one. -/

variable {Owner Resource : Type*}

structure Sharing (valid : Resource → Prop) (held : Owner → Option (Nat × Resource)) (next : Nat) : Prop where
  valid : ∀ owner group resource, held owner = some (group, resource) → valid resource
  separate : ∀ owner other group rival resource, held owner = some (group, resource) →
    held other = some (rival, resource) → group = rival
  fresh : ∀ owner group resource, held owner = some (group, resource) → group < next

/-- No other owner is in the group of `owner`. -/
def Alone (held : Owner → Option (Nat × Resource)) (owner : Owner) : Prop :=
  ∀ other, other ≠ owner → ∀ group mine theirs, held owner = some (group, mine) → held other ≠ some (group, theirs)

section

variable {valid : Resource → Prop} {held : Owner → Option (Nat × Resource)} {next : Nat} {owner : Owner}
    {after : Resource → Prop} {group : Nat} {other : Owner}

theorem Sharing.imp (sharing : Sharing valid held next)
    (kept : ∀ owner group resource, held owner = some (group, resource) → valid resource → after resource) :
    Sharing after held next where
  valid := fun owner group resource holds => kept owner group resource holds (sharing.valid owner group resource holds)
  separate := sharing.separate
  fresh := sharing.fresh

theorem Sharing.exclusive (sharing : Sharing valid held next) (alone : Alone held owner) {resource : Resource}
    (holds : held owner = some (group, resource)) (different : other ≠ owner) {rival : Nat} : held other ≠ some
    (rival, resource) := by
  intro also
  have same := sharing.separate owner other group rival resource holds also
  subst same
  exact alone other different group resource resource holds also

variable [DecidableEq Owner]

theorem held_update {change : Option (Nat × Resource)} {resource : Resource}
    (holds : update held owner change other = some (group, resource)) :
    other = owner ∧ change = some (group, resource) ∨ other ≠ owner ∧ held other = some (group, resource) := by
  by_cases same : other = owner
  · subst same
    rw [update_self] at holds
    exact .inl ⟨rfl, holds⟩
  · rw [update_of_ne same] at holds
    exact .inr ⟨same, holds⟩

section

variable (sharing : Sharing valid held next)
include sharing

theorem Sharing.drop : Sharing valid (update held owner none) next := by
  have before {other : Owner} {group : Nat} {resource : Resource}
      (holds : update held owner none other = some (group, resource)) :
      held other = some (group, resource) := by
    cases held_update holds with
    | inl mine => exact absurd mine.2 (by simp)
    | inr theirs => exact theirs.2
  constructor
  · exact fun other group resource holds => sharing.valid other group resource (before holds)
  · exact fun first second group rival resource holds also =>
      sharing.separate first second group rival resource (before holds) (before also)
  · exact fun other group resource holds => sharing.fresh other group resource (before holds)

theorem Sharing.share (source : Owner) :
    Sharing valid (update held owner (held source)) next := by
  have before {other : Owner} {group : Nat} {resource : Resource}
      (holds : update held owner (held source) other = some (group, resource)) :
      ∃ holder, held holder = some (group, resource) := by
    cases held_update holds with
    | inl mine => exact ⟨source, mine.2⟩
    | inr theirs => exact ⟨other, theirs.2⟩
  constructor
  · intro other group resource holds
    obtain ⟨holder, holds⟩ := before holds
    exact sharing.valid holder group resource holds
  · intro first second group rival resource holds also
    obtain ⟨left, holds⟩ := before holds
    obtain ⟨right, also⟩ := before also
    exact sharing.separate left right group rival resource holds also
  · intro other group resource holds
    obtain ⟨holder, holds⟩ := before holds
    exact sharing.fresh holder group resource holds

theorem Sharing.acquire {resource : Resource}
    (unused : ¬ valid resource) (kept : ∀ other, valid other → after other) (now : after resource) :
    Sharing after (update held owner (some (next, resource))) (next + 1) := by
  constructor
  · intro other group held' holds
    cases held_update holds with
    | inl mine =>
      cases mine.2
      exact now
    | inr theirs => exact kept held' (sharing.valid other group held' theirs.2)
  · intro first second group rival held' holds also
    cases held_update holds with
    | inl mine =>
      cases mine.2
      cases held_update also with
      | inl again =>
        cases again.2
        rfl
      | inr theirs => exact absurd (sharing.valid second rival resource theirs.2) unused
    | inr theirs =>
      cases held_update also with
      | inl mine =>
        cases mine.2
        exact absurd (sharing.valid first group resource theirs.2) unused
      | inr others => exact sharing.separate first second group rival held' theirs.2 others.2
  · intro other group held' holds
    cases held_update holds with
    | inl mine =>
      cases mine.2
      exact Nat.lt_succ_self next
    | inr theirs => exact Nat.lt_succ_of_lt (sharing.fresh other group held' theirs.2)

theorem Sharing.release (alone : Alone held owner) {resource : Resource} (holds : held owner = some (group, resource))
    (kept : ∀ other, other ≠ resource → valid other → after other) : Sharing after (update held owner none) next := by
  refine sharing.drop.imp fun other rival left holds' still => kept left ?_ still
  cases held_update holds' with
  | inl mine => exact absurd mine.2 (by simp)
  | inr theirs =>
    rintro rfl
    exact sharing.exclusive alone holds theirs.1 theirs.2

end

end

namespace Alone

variable {held : Owner → Option (Nat × Resource)} {owner : Owner} [DecidableEq Owner]

theorem drop (alone : Alone held owner) (leaver : Owner) : Alone (update held leaver none) owner := by
  intro other different group mine theirs holds also
  cases held_update holds with
  | inl left => exact absurd left.2 (by simp)
  | inr stays =>
    cases held_update also with
    | inl left => exact absurd left.2 (by simp)
    | inr rival => exact alone other different group mine theirs stays.2 rival.2

theorem share (alone : Alone held owner) {source joiner : Owner} (elsewhere : source ≠ owner)
    (different : joiner ≠ owner) : Alone (update held joiner (held source)) owner := by
  intro other other_ne group mine theirs holds also
  rw [update_of_ne different.symm] at holds
  cases held_update also with
  | inl joined => exact alone source elsewhere group mine theirs holds joined.2
  | inr rival => exact alone other other_ne group mine theirs holds rival.2

variable {valid : Resource → Prop} {next : Nat} {resource : Resource}

theorem acquire (alone : Alone held owner) (sharing : Sharing valid held next) {newcomer : Owner}
    (different : newcomer ≠ owner) : Alone (update held newcomer (some (next, resource))) owner := by
  intro other other_ne group mine theirs holds also
  rw [update_of_ne different.symm] at holds
  cases held_update also with
  | inl arrived =>
    cases arrived.2
    exact absurd (sharing.fresh owner next mine holds) (Nat.lt_irrefl next)
  | inr rival => exact alone other other_ne group mine theirs holds rival.2

theorem of_acquire (sharing : Sharing valid held next) : Alone (update held owner (some (next, resource))) owner := by
  intro other different group mine theirs holds also
  rw [update_self] at holds
  rw [update_of_ne different] at also
  cases holds
  exact absurd (sharing.fresh other next theirs also) (Nat.lt_irrefl next)

end Alone

end Xv6.Data
