import Mathlib.Data.List.Basic
import Mathlib.Data.List.Nodup
import Mathlib.Logic.Function.Basic

namespace Xv6.Data

open Function List

/-! Doubly linked circular lists through a sentinel. The operations are the usual
pointer assignments, one after the other; `Circle` is the sequence they spell. -/

structure Links (ν : Type*) where
  next : ν → ν
  prev : ν → ν

variable {ν : Type*}

/-- Following the links from `head` visits `order` and comes back, both ways. -/
structure Links.Circle (links : Links ν) (head : ν) (order : List ν) : Prop where
  nodup : (head :: order).Nodup
  next : (head :: order).map links.next = order ++ [head]
  prev : (order ++ [head]).map links.prev = head :: order

theorem Links.Circle.empty {links : Links ν} {head : ν} (next : links.next head = head) (prev : links.prev head = head) :
    links.Circle head [] := ⟨nodup_singleton _, by simp [next], by simp [prev]⟩

variable [DecidableEq ν]

namespace Links

/-- `node->next->prev = node->prev; node->prev->next = node->next;` -/
def unlink (links : Links ν) (node : ν) : Links ν :=
  let prev := update links.prev (links.next node) (links.prev node)
  { next := update links.next (prev node) (links.next node), prev }

/-- `node->next = head->next; node->prev = head; head->next->prev = node; head->next = node;` -/
def pushFront (links : Links ν) (head node : ν) : Links ν :=
  let next := update links.next node (links.next head)
  let prev := update links.prev node head
  { next := update next head node, prev := update prev (next head) node }

/-- `for(node = start; node != head; node = follow node) if(test node) return node;`
where `none` means that `fuel` passes do not end the loop. -/
def search (follow : ν → ν) (head : ν) (test : ν → Bool) : Nat → ν → Option (Option ν)
  | 0, node => if node = head then some none else none
  | fuel + 1, node =>
    if node = head then some none
    else if test node = true then some (some node)
    else search follow head test fuel (follow node)

end Links

theorem map_update_of_notMem {α : Type*} {f : ν → α} {node : ν} {value : α} {nodes : List ν} (fresh : node ∉ nodes) :
    nodes.map (update f node value) = nodes.map f :=
  map_congr_left fun other member => update_of_ne (fun same : other = node => fresh (same ▸ member)) ..

namespace Links

variable {links : Links ν} {head node : ν} {order front back : List ν} {fuel : Nat}

theorem search_eq {follow : ν → ν} {test : ν → Bool} {start : ν} (away : head ∉ order)
    (path : (start :: order).map follow = order ++ [head]) (enough : order.length ≤ fuel) :
    search follow head test fuel (follow start) = some (order.find? test) := by
  induction order generalizing start fuel with
  | nil =>
    have arrived : follow start = head := by simpa using path
    cases fuel <;> simp [search, arrived]
  | cons node _ ih =>
    rw [map_cons, cons_append, cons.injEq] at path
    obtain ⟨_, rfl⟩ := Nat.exists_eq_succ_of_ne_zero (Nat.ne_zero_of_lt enough)
    have other : node ≠ head := fun same => away (same ▸ mem_cons_self)
    rw [path.1, search, if_neg other, List.find?_cons]
    cases found : test node with
    | true => rfl
    | false => exact ih (fun member => away (mem_cons_of_mem _ member)) path.2 (Nat.le_of_succ_le_succ enough)

section

variable (circle : links.Circle head order)
include circle

theorem Circle.search_next (test : ν → Bool) (enough : order.length ≤ fuel) :
    search links.next head test fuel (links.next head) = some (order.find? test) :=
  search_eq (List.nodup_cons.mp circle.nodup).1 circle.next enough

theorem Circle.search_prev (test : ν → Bool) (enough : order.length ≤ fuel) :
    search links.prev head test fuel (links.prev head) = some (order.reverse.find? test) := by
  refine search_eq (by simpa using (List.nodup_cons.mp circle.nodup).1) ?_ (by simpa using enough)
  have backward := congrArg reverse circle.prev
  simpa using backward

theorem Circle.pushFront (fresh : node ∉ head :: order) :
    (links.pushFront head node).Circle head (node :: order) := by
  obtain ⟨nodup, next, prev⟩ := circle
  have apart : node ≠ head := fun same => fresh (same ▸ mem_cons_self)
  have outside : node ∉ order := fun member => fresh (mem_cons_of_mem _ member)
  have away := (List.nodup_cons.mp nodup).1
  -- the node that follows the head, which is the head itself in an empty list
  obtain ⟨first, rest, split⟩ : ∃ first rest, order ++ [head] = first :: rest :=
    exists_cons_of_ne_nil (by simp)
  have distinct : (first :: rest).Nodup := split ▸ List.nodup_append_comm.mp nodup
  have other : node ∉ first :: rest := by rw [← split]; simp [outside, apart]
  rw [map_cons, split, cons.injEq] at next
  rw [split, map_cons, cons.injEq] at prev
  refine ⟨List.nodup_cons.mpr ⟨?_, List.nodup_cons.mpr ⟨outside, (List.nodup_cons.mp nodup).2⟩⟩, ?_, ?_⟩
  · simp [apart.symm, away]
  · simp only [Links.pushFront, map_cons, update_self, update_of_ne apart, cons_append]
    rw [map_update_of_notMem away, map_update_of_notMem outside, split, ← next.1, next.2]
  · simp only [Links.pushFront, update_of_ne apart.symm, next.1, cons_append, split, map_cons,
      update_self]
    have differs : node ≠ first := fun same => other (same ▸ mem_cons_self)
    rw [map_update_of_notMem (List.nodup_cons.mp distinct).1,
      map_update_of_notMem fun member => other (mem_cons_of_mem _ member), update_of_ne differs,
      update_self, prev.2]

theorem Circle.foldl_pushFront (nodes : List ν) (nodup : nodes.Nodup) (fresh : ∀ node ∈ nodes, node ∉ head :: order) :
    (nodes.foldl (·.pushFront head ·) links).Circle head (nodes.reverse ++ order) := by
  induction nodes generalizing links order with
  | nil => exact circle
  | cons node rest ih =>
    obtain ⟨notIn, nodup⟩ := List.nodup_cons.mp nodup
    have pushed := circle.pushFront (fresh node mem_cons_self)
    have later (other : ν) (member : other ∈ rest) : other ∉ head :: node :: order := by
      have outside := fresh other (mem_cons_of_mem _ member)
      simp only [mem_cons, not_or] at outside ⊢
      exact ⟨outside.1, fun equal => notIn (equal ▸ member), outside.2⟩
    simpa using ih pushed nodup later

end

theorem Circle.unlink (circle : links.Circle head (front ++ node :: back)) : (links.unlink node).Circle head (front ++ back) := by
  obtain ⟨nodup, next, prev⟩ := circle
  -- the neighbours of the node, either of which may be the head
  obtain ⟨before, last, left⟩ : ∃ before last, head :: front = before ++ [last] :=
    ⟨_, _, (dropLast_append_getLast (cons_ne_nil head front)).symm⟩
  obtain ⟨first, after, right⟩ : ∃ first after, back ++ [head] = first :: after :=
    exists_cons_of_ne_nil (by simp)
  have around : head :: (front ++ node :: back) = before ++ last :: node :: back := by
    rw [← cons_append, left, append_assoc]
    rfl
  have cycle : front ++ node :: back ++ [head] = front ++ node :: first :: after := by
    rw [append_assoc, cons_append, right]
  have short : front.length = before.length := by simpa using congrArg length left
  rw [around, cycle, map_append, map_cons, map_cons] at next
  rw [cycle, around, map_append, map_cons, map_cons] at prev
  obtain ⟨nextBefore, nextRest⟩ := append_inj next (by simp [short])
  obtain ⟨prevFront, prevRest⟩ := append_inj prev (by simp [short])
  simp only [cons.injEq] at nextRest prevRest
  obtain ⟨-, nextNode, nextBack⟩ := nextRest
  obtain ⟨prevNode, -, prevAfter⟩ := prevRest
  have distinct : (before ++ last :: node :: back).Nodup := around ▸ nodup
  have distinct' : (front ++ node :: first :: after).Nodup := cycle ▸ List.nodup_append_comm.mp nodup
  have lastFresh : last ∉ before ∧ last ∉ back := by
    simp only [nodup_append, nodup_cons, mem_cons, not_or] at distinct
    exact ⟨fun member => distinct.2.2 last member last (.inl rfl) rfl, distinct.2.1.1.2⟩
  have firstFresh : first ∉ front ∧ first ∉ after ∧ node ≠ first := by
    simp only [nodup_append, nodup_cons, mem_cons, not_or] at distinct'
    exact ⟨fun member => distinct'.2.2 first member first (.inr (.inl rfl)) rfl, distinct'.2.1.2.1, distinct'.2.1.1.1⟩
  have here : update links.prev (links.next node) (links.prev node) node = last := by
    rw [nextNode, update_of_ne firstFresh.2.2, prevNode]
  refine ⟨nodup.sublist ?_, ?_, ?_⟩
  · exact ((sublist_cons_self node back).append_left front).cons_cons head
  · dsimp only [Links.unlink]
    rw [here, nextNode, ← cons_append, left, append_assoc, append_assoc, right, map_append, cons_append,
      map_cons, update_self, map_update_of_notMem lastFresh.1, nil_append,
      map_update_of_notMem lastFresh.2, nextBefore, nextBack]
  · simp only [Links.unlink, nextNode, prevNode]
    rw [← cons_append, left, append_assoc, append_assoc, right, map_append, map_cons,
      update_self, map_update_of_notMem firstFresh.1, map_update_of_notMem firstFresh.2.1, prevFront,
      prevAfter, cons_append, nil_append]

end Links

end Xv6.Data
