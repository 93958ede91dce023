import Mathlib.Data.List.Basic
import Mathlib.Data.List.Nodup
import Mathlib.Logic.Function.Basic

namespace Xv6.Data

open Function List

/-! Singly linked lists with a null end, and the places a pointer to a link can
point to: the link of a node, or the variable that holds the start. -/

variable {ν : Type*} {next : ν → Option ν} {start : Option ν} {node : ν} {nodes front back : List ν}

/-- Following `next` from `start` visits `nodes` and ends. -/
def Linked (next : ν → Option ν) : Option ν → List ν → Prop
  | start, [] => start = none
  | start, node :: rest => start = some node ∧ Linked next (next node) rest

theorem Linked.start_eq (linked : Linked next start nodes) : start = nodes.head? := by
  cases nodes with
  | nil => exact linked
  | cons => exact linked.1

/-- What is found where `front` has been passed. -/
def link (next : ν → Option ν) (start : Option ν) : Option ν → Option ν
  | none => start
  | some node => next node

theorem Linked.drop (linked : Linked next start (front ++ back)) : Linked next (link next start front.getLast?) back := by
  induction front generalizing start with
  | nil => exact linked
  | cons _ rest ih =>
    cases rest with
    | nil => exact linked.2
    | cons =>
      have later := ih linked.2
      rwa [getLast?_cons_cons]

variable [DecidableEq ν]

theorem Linked.update {value : Option ν} (linked : Linked next start nodes) (fresh : node ∉ nodes) :
    Linked (Function.update next node value) start nodes := by
  induction nodes generalizing start with
  | nil => exact linked
  | cons _ _ ih =>
    rw [mem_cons, not_or] at fresh
    refine ⟨linked.1, ?_⟩
    rw [update_of_ne (Ne.symm fresh.1)]
    exact ih linked.2 fresh.2

theorem Linked.append {last : ν} (linked : Linked next start (nodes ++ [last])) (nodup : (nodes ++ [last]).Nodup)
    (fresh : node ∉ nodes ++ [last]) (ends : next node = none) :
    Linked (Function.update next last (some node)) start (nodes ++ [last, node]) := by
  induction nodes generalizing start with
  | nil =>
    have other : node ≠ last := by simpa using fresh
    exact ⟨linked.1, by simp, by rw [update_of_ne other, ends]; rfl⟩
  | cons first rest ih =>
    rw [cons_append, nodup_cons] at nodup
    have other : first ≠ last := fun same => nodup.1 (by simp [same])
    have fresh' : node ∉ rest ++ [last] := fun member => fresh (mem_cons_of_mem _ member)
    refine ⟨linked.1, ?_⟩
    rw [update_of_ne other]
    exact ih linked.2 nodup.2 fresh'

end Xv6.Data
