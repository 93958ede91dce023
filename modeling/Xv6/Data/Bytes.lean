import Mathlib

namespace Xv6.Data

open Function BitVec List

/-! Blocks of bytes as functions of the offset, little-endian words in them, and
their bits. A block is read and written by slices. -/

abbrev Bytes := Nat → UInt8

/-- The `n` bytes from `off` on. -/
def slice (block : Bytes) (off n : Nat) : List UInt8 := (List.range n).map fun i => block (off + i)

/-- The block with `bytes` moved to `off`. -/
def splice (block : Bytes) (off : Nat) (bytes : List UInt8) : Bytes := fun i =>
  if off ≤ i then bytes.getD (i - off) (block i) else block i

section

variable {block other : Bytes} {off at' n m : Nat} {bytes : List UInt8} {size : Nat}

@[simp] theorem length_slice : (slice block off n).length = n := by simp [slice]

theorem getElem?_slice {i : Nat} (inside : i < n) : (slice block off n)[i]? = some (block (off + i)) := by
  simp [slice, inside]

theorem slice_congr (same : ∀ i, off ≤ i → i < off + n → block i = other i) : slice block off n = slice other off n := by
  refine map_congr_left fun i member => same _ (by omega) ?_
  have := List.mem_range.mp member
  omega

theorem slice_add : slice block off (n + m) = slice block off n ++ slice block (off + n) m := by
  simp [slice, range_add, Function.comp_def, Nat.add_assoc]

theorem splice_before {i : Nat} (before : i < off) : splice block off bytes i = block i := by
  rw [splice, if_neg (by omega)]

theorem splice_after {i : Nat} (after : off + bytes.length ≤ i) : splice block off bytes i = block i := by
  unfold splice
  split
  · rw [getD_eq_getElem?_getD, List.getElem?_eq_none (by omega)]
    rfl
  · rfl

theorem splice_apart {i : Nat} (apart : i < off ∨ off + bytes.length ≤ i) : splice block off bytes i = block i :=
  apart.elim splice_before splice_after

theorem splice_inside {i : Nat} (inside : i < bytes.length) : splice block off bytes (off + i) = bytes.get ⟨i, inside⟩ := by
  rw [splice, if_pos (by omega), getD_eq_getElem?_getD, Nat.add_sub_cancel_left, List.getElem?_eq_getElem inside]
  rfl

@[simp] theorem splice_nil : splice block off [] = block := by
  funext i
  exact splice_apart (by simp; omega)

theorem splice_splice {more : List UInt8} :
    splice (splice block off bytes) (off + bytes.length) more = splice block off (bytes ++ more) := by
  funext i
  by_cases before : i < off
  · rw [splice_before (by omega), splice_before before, splice_before before]
  · by_cases first : i < off + bytes.length
    · obtain ⟨k, rfl⟩ := Nat.exists_eq_add_of_le (Nat.le_of_not_lt before)
      have inside : k < bytes.length := by omega
      rw [splice_before first, splice_inside inside, splice_inside (by simp; omega)]
      simp [getElem_append_left inside]
    · have low : off ≤ i := Nat.le_of_not_lt before
      have high : off + bytes.length ≤ i := Nat.le_of_not_lt first
      have past : bytes.length ≤ i - off := by omega
      simp only [splice, getD_eq_getElem?_getD, if_pos low, if_pos high]
      rw [List.getElem?_append_right past, List.getElem?_eq_none past, Nat.sub_add_eq]
      rfl

theorem slice_splice (inside : m + n ≤ bytes.length) : slice (splice block off bytes) (off + m) n = (bytes.drop m).take n := by
  apply ext_getElem?
  intro i
  by_cases short : i < n
  · rw [getElem?_slice short, Nat.add_assoc, splice_inside (by omega), List.getElem?_take, if_pos short,
      List.getElem?_drop, List.getElem?_eq_getElem (by omega)]
    rfl
  · rw [List.getElem?_eq_none (by simpa using short), List.getElem?_eq_none]
    simp
    omega

theorem slice_splice_self : slice (splice block off bytes) off bytes.length = bytes := by
  have whole : slice (splice block off bytes) (off + 0) bytes.length = _ := slice_splice (by omega)
  simpa using whole

theorem slice_splice_apart (apart : at' + n ≤ off ∨ off + bytes.length ≤ at') :
    slice (splice block off bytes) at' n = slice block at' n :=
  slice_congr fun i low high => splice_apart (by omega)

theorem take_drop_slice : ((slice block 0 size).drop off).take n = slice block off (min n (size - off)) := by
  apply ext_getElem?
  intro i
  by_cases inside : i < min n (size - off)
  · rw [List.getElem?_take, if_pos (by omega), List.getElem?_drop, getElem?_slice (by omega), getElem?_slice inside, Nat.zero_add]
  · rw [List.getElem?_eq_none (by simp; omega), List.getElem?_eq_none (by simp; omega)]

theorem slice_overwrite (inside : at' ≤ size) (before : ∀ i, i < at' → other i = block i)
    (written : ∀ i (low : i < bytes.length), other (at' + i) = bytes.get ⟨i, low⟩)
    (after : ∀ i, at' + bytes.length ≤ i → i < size → other i = block i) : slice other 0 (max size (at' + bytes.length)) =
      (slice block 0 size).take at' ++ (bytes ++ (slice block 0 size).drop (at' + bytes.length)) := by
  apply ext_getElem?
  intro i
  by_cases low : i < at'
  · rw [List.getElem?_append_left (by simp; omega), List.getElem?_take, if_pos low, getElem?_slice (by omega),
      getElem?_slice (by omega), Nat.zero_add, before i low]
  · rw [List.getElem?_append_right (by simp; omega)]
    have skipped : i - ((slice block 0 size).take at').length = i - at' := by simp [inside]
    rw [skipped]
    by_cases middle : i - at' < bytes.length
    · have place : at' + (i - at') = i := by omega
      have value := written (i - at') middle
      rw [List.getElem?_append_left middle, getElem?_slice (by omega), List.getElem?_eq_getElem middle, Nat.zero_add]
      rw [place] at value
      rw [value]
      rfl
    · rw [List.getElem?_append_right (by omega), List.getElem?_drop]
      have place : at' + bytes.length + (i - at' - bytes.length) = i := by omega
      rw [place]
      by_cases high : i < size
      · rw [getElem?_slice (by omega), getElem?_slice high, Nat.zero_add, after i (by omega) high]
      · rw [List.getElem?_eq_none (by simp; omega), List.getElem?_eq_none (by simp; omega)]

end

/-! ## Words -/

/-- The `n` bytes of a word, least significant first. -/
def word : Nat → Nat → List UInt8
  | 0, _ => []
  | n + 1, v => UInt8.ofNat v :: word n (v / 256)

def value : List UInt8 → Nat
  | [] => 0
  | byte :: rest => byte.toNat + 256 * value rest

@[simp] theorem length_word (n v : Nat) : (word n v).length = n := by
  induction n generalizing v with
  | zero => rfl
  | succ _ ih => simp [word, ih]

theorem value_word {n v : Nat} (fits : v < 256 ^ n) : value (word n v) = v := by
  induction n generalizing v with
  | zero => simpa [word, value, eq_comm] using fits
  | succ n ih =>
    have rest : v / 256 < 256 ^ n := by
      rw [Nat.div_lt_iff_lt_mul (by omega)]
      rwa [Nat.pow_succ] at fits
    rw [word, value, ih rest, UInt8.toNat_ofNat']
    omega

/-! ## Bits -/

/-- Whether `block[i/8] & (1 << (i%8))` is not 0. -/
def bit (block : Bytes) (i : Nat) : Bool := (block (i / 8)).toBitVec.getLsbD (i % 8)

/-- `block[i/8] |= 1 << (i%8)`. -/
def setBit (block : Bytes) (i : Nat) : Bytes := update block (i / 8) ⟨(block (i / 8)).toBitVec ||| BitVec.twoPow 8 (i % 8)⟩

/-- `block[i/8] &= ~(1 << (i%8))`. -/
def clearBit (block : Bytes) (i : Nat) : Bytes := update block (i / 8) ⟨(block (i / 8)).toBitVec &&& ~~~BitVec.twoPow 8 (i % 8)⟩

variable (block : Bytes) (i j : Nat)

theorem bit_setBit : bit (setBit block i) j = (decide (j = i) || bit block j) := by
  unfold bit setBit
  by_cases same : j / 8 = i / 8
  · rw [same, update_self, getLsbD_or, getLsbD_twoPow, Bool.or_comm]
    have place : i % 8 = j % 8 ↔ j = i := by omega
    rw [decide_eq_true (show i % 8 < 8 by omega), Bool.true_and, decide_eq_decide.mpr place]
  · have differs : j ≠ i := fun equal => same (by rw [equal])
    rw [update_of_ne same]
    simp [differs]

theorem bit_clearBit : bit (clearBit block i) j = (!decide (j = i) && bit block j) := by
  unfold bit clearBit
  by_cases same : j / 8 = i / 8
  · have place : i % 8 = j % 8 ↔ j = i := by omega
    have inside : j % 8 < 8 := by omega
    rw [same, update_self, getLsbD_and, getLsbD_not, getLsbD_twoPow, Bool.and_comm]
    rw [decide_eq_true inside, Bool.true_and, decide_eq_true (show i % 8 < 8 by omega), Bool.true_and, decide_eq_decide.mpr place]
  · have differs : j ≠ i := fun equal => same (by rw [equal])
    rw [update_of_ne same]
    simp [differs]

end Xv6.Data
