import Xv6.Data.Bytes

namespace Xv6.Library

open Data Function

/-! memmove of the kernel and of the user library. An address is a natural
number, as long as no address wraps around. -/

/-- `while(n-- > 0) *d++ = *s++;` -/
def copyUp : Bytes → Nat → Nat → Nat → Bytes
  | memory, _, _, 0 => memory
  | memory, d, s, n + 1 => copyUp (update memory d (memory s)) (d + 1) (s + 1) n

/-- `while(n-- > 0) *--d = *--s;` -/
def copyDown : Bytes → Nat → Nat → Nat → Bytes
  | memory, _, _, 0 => memory
  | memory, d, s, n + 1 => copyDown (update memory (d - 1) (memory (s - 1))) (d - 1) (s - 1) n

/-- string.c -/
def Kernel.memmove (memory : Bytes) (dst src n : Nat) : Bytes :=
  if src < dst ∧ src + n > dst then copyDown memory (dst + n) (src + n) n else copyUp memory dst src n

/-- ulib.c, whose `n` is an int. -/
def Ulib.memmove (memory : Bytes) (dst src : Nat) (n : Int) : Bytes := copyUp memory dst src n.toNat

structure Moved (memory : Bytes) (dst src n : Nat) (after : Bytes) : Prop where
  inside : ∀ i < n, after (dst + i) = memory (src + i)
  outside : ∀ a, ¬ (dst ≤ a ∧ a < dst + n) → after a = memory a

variable {memory after other : Bytes} {d s n : Nat}

theorem Moved.unique (moved : Moved memory d s n after) (moved' : Moved memory d s n other) : after = other := by
  funext a
  by_cases within : d ≤ a ∧ a < d + n
  · obtain ⟨i, rfl⟩ := Nat.exists_eq_add_of_le within.1
    have short : i < n := by omega
    rw [moved.inside i short, moved'.inside i short]
  · rw [moved.outside a within, moved'.outside a within]

theorem copyUp_outside {a : Nat} (outside : ¬ (d ≤ a ∧ a < d + n)) : copyUp memory d s n a = memory a := by
  induction n generalizing memory d s with
  | zero => rfl
  | succ n ih => rw [copyUp, ih (by omega), update_of_ne (by omega)]

/-- A byte of the source that lies in the destination is read after it was written. -/
theorem copyUp_inside {i : Nat} (inside : i < n) : copyUp memory d s n (d + i) =
    if s < d ∧ d ≤ s + i then copyUp memory d s n (s + i) else memory (s + i) := by
  induction n generalizing memory d s i with
  | zero => omega
  | succ n ih =>
    have first : copyUp memory d s (n + 1) d = memory s := by
      rw [copyUp, copyUp_outside (by omega), update_self]
    cases i with
    | zero =>
      rw [if_neg (by omega)]
      exact first
    | succ i =>
      have next := @ih (update memory d (memory s)) (d + 1) (s + 1) i (by omega)
      rw [← copyUp, Nat.add_right_comm d, Nat.add_right_comm s] at next
      rw [← Nat.add_assoc, ← Nat.add_assoc, next]
      by_cases same : s + i + 1 = d
      · rw [if_neg (by omega), if_pos (by omega), same, first, update_self]
      · rw [update_of_ne same]
        exact if_congr (by omega) rfl rfl

theorem copyDown_moved (below : s < d) : Moved memory d s n (copyDown memory (d + n) (s + n) n) := by
  induction n generalizing memory with
  | zero => exact ⟨fun _ none => absurd none (Nat.not_lt_zero _), fun _ _ => rfl⟩
  | succ n ih =>
    obtain ⟨inside, outside⟩ := @ih (update memory (d + n) (memory (s + n)))
    refine ⟨fun i short => ?_, fun a away => ?_⟩
    · rcases Nat.lt_succ_iff_lt_or_eq.mp short with lower | rfl
      · rw [← update_of_ne (show s + i ≠ d + n by omega) (memory (s + n)) memory]
        exact inside i lower
      · exact (outside (d + i) (by omega)).trans (update_self ..)
    · exact (outside a (by omega)).trans (update_of_ne (by omega) ..)

theorem copyUp_moved (apart : d ≤ s ∨ s + n ≤ d) : Moved memory d s n (copyUp memory d s n) :=
  ⟨fun i short => by rw [copyUp_inside short, if_neg (by omega)], fun _ => copyUp_outside⟩

theorem kernel_memmove_moved (memory : Bytes) (dst src n : Nat) :
    Moved memory dst src n (Kernel.memmove memory dst src n) := by
  unfold Kernel.memmove
  split
  · exact copyDown_moved (by omega)
  · exact copyUp_moved (by omega)

/-- A copy upwards onto a higher destination is right exactly when the source repeats itself. -/
theorem copyUp_moved_iff (below : s < d) : Moved memory d s n (copyUp memory d s n) ↔
    ∀ i, d + i < s + n → memory (d + i) = memory (s + i) := by
  constructor
  · intro moved i short
    have behind : i + (d - s) < n := by omega
    have late := @copyUp_inside memory d s n _ behind
    rw [if_pos (by omega), show s + (i + (d - s)) = d + i by omega, moved.inside i (by omega),
      moved.inside _ behind, show s + (i + (d - s)) = d + i by omega] at late
    exact late
  · intro repeats
    refine ⟨fun i short => ?_, fun _ => copyUp_outside⟩
    -- the byte that is read was itself copied `d - s` turns before
    induction i using Nat.strong_induction_on with
    | _ i ih =>
      rw [copyUp_inside short]
      split
      · rename_i late
        obtain ⟨k, same⟩ := Nat.exists_eq_add_of_le late.2
        rw [same, ih k (by omega) (by omega), repeats k (by omega)]
      · rfl

/-- What memmove is for, of both. -/
theorem memmove_overlap_safe_iff (memory : Bytes) (dst src n : Nat) :
    (Moved memory dst src n (Kernel.memmove memory dst src n) ∧ Moved memory dst src n (Ulib.memmove memory dst src n) ∧
      Kernel.memmove memory dst src n = Ulib.memmove memory dst src n) ↔
    (src < dst → ∀ i, dst + i < src + n → memory (dst + i) = memory (src + i)) := by
  have kernel := kernel_memmove_moved memory dst src n
  have user : Moved memory dst src n (Ulib.memmove memory dst src n) ↔
      (src < dst → ∀ i, dst + i < src + n → memory (dst + i) = memory (src + i)) := by
    rw [Ulib.memmove, Int.toNat_natCast]
    by_cases below : src < dst
    · rw [copyUp_moved_iff below]
      exact ⟨fun repeats _ => repeats, fun repeats => repeats below⟩
    · exact ⟨fun _ above => absurd above below, fun _ => copyUp_moved (by omega)⟩
  rw [← user]
  exact ⟨fun both => both.2.1, fun moved => ⟨kernel, moved, kernel.unique moved⟩⟩

/-- A copy by one byte upwards smears the first byte. -/
theorem ulib_memmove_smears : Ulib.memmove (fun a => if a = 0 then 1 else 0) 1 0 2 2 = 1 ∧
    Kernel.memmove (fun a => if a = 0 then 1 else 0) 1 0 2 2 = 0 ∧
    ¬ Moved (fun a => if a = 0 then 1 else 0) 1 0 2 (Ulib.memmove (fun a => if a = 0 then 1 else 0) 1 0 2) := by
  refine ⟨by decide, by decide, fun moved => ?_⟩
  have second := moved.inside 1 (by decide)
  revert second
  decide

end Xv6.Library
