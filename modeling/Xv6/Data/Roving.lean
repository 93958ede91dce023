import Mathlib.Data.List.Cycle

namespace Xv6.Data

open List

/-! Nodes linked in a circle and searched from a roving pointer. The nodes stand
in a list that starts at a fixed one, and the last of them links back to it. -/

variable {α : Type*} {r s : α → α → Prop} {nodes : List α} {first x y : α}

theorem isChain_of_sources (kept : ∀ a ∈ nodes, ∀ b, r a b → s a b) (chain : (nodes ++ [x]).IsChain r) :
    (nodes ++ [x]).IsChain s := by
  induction nodes with
  | nil => exact .singleton x
  | cons a _ ih =>
    obtain ⟨head, tail⟩ := List.isChain_cons.mp chain
    have later := ih (fun b member => kept b (mem_cons_of_mem a member)) tail
    exact List.isChain_cons.mpr ⟨fun b next => kept a mem_cons_self b (head b next), later⟩

section

variable (closed : (nodes ++ [first]).IsChain r)
include closed

theorem exists_walk (head : nodes.head? = some first) (member : x ∈ nodes) :
    ∃ others, (x :: others).Perm nodes ∧ (x :: (others ++ [x])).IsChain r := by
  obtain ⟨tail, rfl⟩ : ∃ tail, nodes = first :: tail := by
    cases nodes with
    | nil => cases head
    | cons _ tail => exact ⟨tail, by rw [Option.some.inj head]⟩
  obtain ⟨front, back, split⟩ := append_of_mem member
  have rotated : (x :: back ++ front) ~r (first :: tail) := split ▸ isRotated_append
  have around : Cycle.Chain r ((first :: tail : List α) : Cycle α) := (Cycle.chain_coe_cons r first tail).mpr closed
  rw [← Cycle.coe_eq_coe.mpr rotated] at around
  exact ⟨back ++ front, rotated.perm, (Cycle.chain_coe_cons r x (back ++ front)).mp around⟩

theorem exists_path (head : nodes.head? = some first) (start : x ∈ nodes) (target : y ∈ nodes) : ∃ path,
    (path ++ [y]).head? = some x ∧ (path ++ [y]).IsChain r ∧ y ∉ path ∧
      (∀ z ∈ path, z ∈ nodes) ∧ path.length < nodes.length := by
  obtain ⟨_, same, walk⟩ := exists_walk closed head start
  obtain ⟨path, _, split, unmet⟩ := eq_append_cons_of_mem (same.mem_iff.mpr target)
  rw [← cons_append, split, append_assoc, cons_append] at walk
  have within (z : α) (member : z ∈ path) : z ∈ nodes := by
    apply same.mem_iff.mp
    rw [split]
    exact mem_append_left _ member
  have shorter : path.length < nodes.length := by
    rw [← same.length_eq, split, length_append, length_cons]
    omega
  refine ⟨path, ?_, (List.isChain_split.mp walk).1, unmet, within, shorter⟩
  cases path with
  | nil | cons => simpa using (cons.inj split).1.symm

theorem exists_next (member : x ∈ nodes) (single : ∀ z, r x z → z = y) (other : y ≠ first) :
    ∃ front back, nodes = front ++ x :: y :: back := by
  obtain ⟨front, back, rfl⟩ := append_of_mem member
  rw [append_assoc, cons_append] at closed
  have tail := (List.isChain_split.mp closed).2
  cases back with
  | nil => exact absurd (single first (List.isChain_pair.mp tail)).symm other
  | cons z back =>
    obtain rfl := single z (List.isChain_cons_cons.mp tail).1
    exact ⟨front, back, rfl⟩

end

theorem eq_or_related (pairwise : nodes.Pairwise r) (left : x ∈ nodes) (right : y ∈ nodes) : x = y ∨ r x y ∨ r y x := by
  induction pairwise with
  | nil => cases left
  | cons head _ ih =>
    rcases List.mem_cons.mp left with rfl | later
    · rcases List.mem_cons.mp right with same | later
      · exact .inl same.symm
      · exact .inr (.inl (head y later))
    · rcases List.mem_cons.mp right with rfl | later'
      · exact .inr (.inr (head x later))
      · exact ih later later'

theorem exists_place [LinearOrder α] {value : α} (sorted : nodes.Pairwise (· < ·))
    (head : nodes.head? = some first) (below : first < value) :
    ∃ front place back, nodes = front ++ place :: back ∧ place < value ∧ ∀ z ∈ back, value ≤ z := by
  induction nodes generalizing first with
  | nil => cases head
  | cons a rest ih =>
    cases head
    cases rest with
    | nil => exact ⟨[], a, [], rfl, below, by simp⟩
    | cons b rest =>
      rcases lt_or_ge b value with lower | higher
      · obtain ⟨front, place, back, split, less, more⟩ := ih sorted.of_cons rfl lower
        exact ⟨a :: front, place, back, by rw [split, cons_append], less, more⟩
      · refine ⟨[], a, b :: rest, rfl, below, fun z member => ?_⟩
        rcases List.mem_cons.mp member with rfl | later
        · exact higher
        · exact higher.trans (rel_of_pairwise_cons sorted.of_cons later).le

end Xv6.Data
