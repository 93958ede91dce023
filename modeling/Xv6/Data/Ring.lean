import Mathlib

namespace Xv6.Data.Ring

open Function List Nat

/-! Distances round a ring of `size` positions. Going forward from one position
reaches every position, itself last, within `size` steps. -/

variable {size start target steps : Nat}

/-- The number of forward steps, from one to `size`, that lead from `start` to `target`. -/
def gap (size start target : Nat) : Nat :=
  if start < target then target - start else size - start + target

theorem wrap_eq (inside : start < size) (bounded : steps ≤ size) :
    (start + steps) % size = if start + steps < size then start + steps else start + steps - size := by
  split
  · rename_i short
    exact mod_eq_of_lt short
  · rename_i long
    rw [mod_eq_sub_mod (by omega), mod_eq_of_lt (by omega)]

theorem gap_pos (inside : start < size) : 0 < gap size start target := by
  unfold gap
  split <;> omega

theorem gap_le (reached : target < size) : gap size start target ≤ size := by
  unfold gap
  split <;> omega

theorem add_gap (inside : start < size) (reached : target < size) : (start + gap size start target) % size = target := by
  rw [wrap_eq inside (gap_le reached)]
  unfold gap
  split <;> split <;> omega

theorem gap_advance (inside : start < size) (reached : target < size) (short : steps < gap size start target) :
    gap size ((start + steps) % size) target = gap size start target - steps := by
  have bounded : steps ≤ size := Nat.le_trans (Nat.le_of_lt short) (gap_le reached)
  rw [wrap_eq inside bounded]
  unfold gap at short ⊢
  split <;> split at short <;> split <;> omega

theorem wrap_full (inside : start < size) : (start + size) % size = start := by
  rw [add_mod_right, mod_eq_of_lt inside]

/-! Free-running 32-bit counters into a ring of cells. The size divides 2^32, so
a counter that wraps goes on at the right cell. -/

variable {α : Type*} {cell : UInt32 → α} {size first : UInt32} {count : Nat}

theorem add_ofNat_succ : first + .ofNat (count + 1) = first + 1 + .ofNat count := by
  rw [UInt32.ofNat_add, UInt32.add_comm (.ofNat count), ← UInt32.add_assoc]
  rfl

theorem toNat_add_sub (short : count < 2 ^ 32) : (first + .ofNat count - first).toNat = count := by
  rw [UInt32.add_comm, UInt32.add_sub_cancel, UInt32.toNat_ofNat', mod_eq_of_lt short]

/-- The `count` cells from the counter `first` on. -/
def window (cell : UInt32 → α) (size first : UInt32) (count : Nat) : List α :=
  (List.range count).map fun i => cell ((first + .ofNat i) % size)

theorem window_succ : window cell size first (count + 1) =
    window cell size first count ++ [cell ((first + .ofNat count) % size)] := by
  simp [window, range_succ]

theorem window_cons : window cell size first (count + 1) = cell (first % size) :: window cell size (first + 1) count := by
  have shift (i : Nat) : first + .ofNat (i + 1) = first + 1 + .ofNat i := add_ofNat_succ
  simp only [window, range_succ_eq_map, map_cons, map_map, comp_def, succ_eq_add_one, shift]
  simp

theorem window_take {part : Nat} (short : part ≤ count) :
    (window cell size first count).take part = window cell size first part := by
  rw [window, ← map_take, take_range, Nat.min_eq_left short]
  rfl

variable (divides : size.toNat ∣ 2 ^ 32)
include divides

theorem toNat_slot (i : Nat) :
    ((first + .ofNat i) % size).toNat = (first.toNat + i) % size.toNat := by
  rw [UInt32.toNat_mod, UInt32.toNat_add, mod_mod_of_dvd _ divides, UInt32.toNat_ofNat',
    add_mod, mod_mod_of_dvd _ divides, ← add_mod]

theorem slot_ne {i j : Nat} (less : i < j) (near : j < size.toNat) :
    (first + .ofNat i) % size ≠ (first + .ofNat j) % size := by
  intro same
  have equal := congrArg UInt32.toNat same
  rw [toNat_slot divides, toNat_slot divides] at equal
  have gone : (j - i) % size.toNat = 0 := by
    have moved := sub_mod_eq_zero_of_mod_eq equal.symm
    rwa [Nat.add_sub_add_left] at moved
  rw [mod_eq_of_lt (by omega)] at gone
  omega

theorem window_fill (room : count < size.toNat) (value : α) :
    window (Function.update cell ((first + .ofNat count) % size) value) size first count = window cell size first count := by
  refine map_congr_left fun i inside => ?_
  exact update_of_ne (slot_ne divides (List.mem_range.mp inside) room) ..

omit divides

/-- The cells from the counter `first` up to `last` hold `items`, oldest first. -/
structure Queue (cell : UInt32 → α) (size first last : UInt32) (items : List α) : Prop where
  last : last = first + .ofNat items.length
  bounded : items.length ≤ size.toNat
  data : window cell size first items.length = items

namespace Queue

variable {last : UInt32} {items : List α} {item : α}

theorem empty (same : first = last) : Queue cell size first last [] := ⟨by simp [same], by simp, rfl⟩

theorem length_eq (queue : Queue cell size first last items) : (last - first).toNat = items.length := by
  have short : items.length < 2 ^ 32 := Nat.lt_of_le_of_lt queue.bounded size.toNat_lt
  rw [queue.last, toNat_add_sub short]

theorem first_eq_last (queue : Queue cell size first last items) : first = last ↔ items = [] := by
  refine ⟨fun same => ?_, fun none => by simp [queue.last, none]⟩
  have count := queue.length_eq
  rw [← same, UInt32.sub_self] at count
  exact length_eq_zero_iff.mp count.symm

theorem front {more : List α} (queue : Queue cell size first last (items ++ more)) :
    Queue cell size first (first + .ofNat items.length) items := by
  have short : items.length ≤ (items ++ more).length := by simp
  refine ⟨rfl, short.trans queue.bounded, ?_⟩
  rw [← window_take short, queue.data, take_left]

theorem push (queue : Queue cell size first last items) (divides : size.toNat ∣ 2 ^ 32)
    (room : items.length < size.toNat) (item : α) :
    Queue (update cell (last % size) item) size first (last + 1) (items ++ [item]) := by
  refine ⟨?_, by rwa [length_append], ?_⟩
  · rw [length_append, length_singleton, UInt32.ofNat_add, ← UInt32.add_assoc, ← queue.last]
    rfl
  · rw [length_append, length_singleton, window_succ, queue.last, window_fill divides room, update_self, queue.data]

theorem pop (queue : Queue cell size first last (item :: items)) :
    cell (first % size) = item ∧ Queue cell size (first + 1) last items := by
  obtain ⟨last, bounded, data⟩ := queue
  rw [length_cons] at last bounded data
  rw [window_cons, cons.injEq] at data
  refine ⟨data.1, ?_, by omega, data.2⟩
  rw [last, add_ofNat_succ]

theorem drop_back (queue : Queue cell size first last (items ++ [item])) :
    cell ((last - 1) % size) = item ∧ Queue cell size first (last - 1) items := by
  obtain ⟨last, bounded, data⟩ := queue
  rw [length_append, length_singleton] at last bounded data
  rw [UInt32.ofNat_add, ← UInt32.add_assoc] at last
  rw [window_succ] at data
  obtain ⟨kept, back⟩ := append_inj' data rfl
  rw [last, show UInt32.ofNat 1 = 1 from rfl, UInt32.add_sub_cancel]
  exact ⟨by simpa using back, rfl, by omega, kept⟩

end Queue

end Xv6.Data.Ring
