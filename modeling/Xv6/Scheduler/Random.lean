import Mathlib.Tactic.Common

namespace Xv6.Scheduler

open BitVec Int Int32

/-- The four static words of `random`. -/
structure Rng where
  z1 : Int32 := 12345
  z2 : Int32 := 12345
  z3 : Int32 := 12345
  z4 : Int32 := 12345
deriving DecidableEq, Repr

/-- One component update, `b = ((z << left) ^ z) >> right; z = ((z & mask) << shift) ^ b`.
The masks do not fit in an `int`, so C computes the second line in 64 bits and
truncates on assignment. -/
def lfsr (left right : Int32) (mask shift : Int64) (z : Int32) : Int32 :=
  let b := ((z <<< left) ^^^ z) >>> right
  (((z.toInt64 &&& mask) <<< shift) ^^^ b.toInt64).toInt32

def random (rng : Rng) (max : Int32) : Int32 × Rng :=
  if max ≤ 0 then (1, rng)
  else
    let rng := {
      z1 := lfsr 6 13 4294967294 18 rng.z1
      z2 := lfsr 2 27 4294967288 2 rng.z2
      z3 := lfsr 13 21 4294967280 7 rng.z3
      z4 := lfsr 3 12 4294967168 13 rng.z4 }
    let rand := (rng.z1 ^^^ rng.z2 ^^^ rng.z3 ^^^ rng.z4) % max
    (if rand < 0 then rand * -1 else rand, rng)

/-- C's remainder takes the sign of its left operand, so the final negation
brings every remainder into `[0, max)`. -/
theorem remainder_magnitude {value max : Int32} (positive : 0 < max) : let rand := value % max
    let result := if rand < 0 then rand * -1 else rand
    0 ≤ result.toInt ∧ result.toInt < max.toInt := by
  intro rand result
  have maxPos : 0 < max.toInt := by simpa using Int32.lt_iff_toInt_lt.mp positive
  have maxLt := max.toInt_lt
  have above : rand.toInt < max.toInt := by
    rw [Int32.toInt_mod]
    exact Int.tmod_lt_of_pos _ maxPos
  have below : -max.toInt < rand.toInt := by
    rw [Int32.toInt_mod]
    exact Int.lt_tmod_of_pos _ maxPos
  by_cases negative : rand < 0
  · have sign : rand.toInt < 0 := by simpa using Int32.lt_iff_toInt_lt.mp negative
    have magnitude : result.toInt = -rand.toInt := by
      simp only [result, if_pos negative, Int32.toInt_mul]
      rw [Int.bmod_eq_of_le] <;> simp <;> omega
    omega
  · have sign : ¬ rand.toInt < 0 := by
      intro less
      exact negative (Int32.lt_iff_toInt_lt.mpr (by simpa using less))
    simp only [result, if_neg negative]
    omega

theorem random_range (rng : Rng) {max : Int32} (positive : 0 < max) :
    0 ≤ (random rng max).1.toInt ∧ (random rng max).1.toInt < max.toInt := by
  have nonempty : ¬ max ≤ 0 := by simpa using positive
  simp only [random, if_neg nonempty]
  exact remainder_magnitude positive

/-- A component update on bits. -/
def component (a r c : Nat) (mask : BitVec 64) (z : BitVec 32) : BitVec 32 :=
  ((z.signExtend 64 &&& mask) <<< c).signExtend 32 ^^^ (z <<< a ^^^ z).sshiftRight r

/-- The numbers of a component: its masks clear the low `m` bits. -/
structure Component (left right : Int32) (wide shift : Int64) (mask : UInt32) (a r m c : Nat) : Prop where
  bits : ∀ z, (lfsr left right wide shift z).toBitVec = component a r c wide.toBitVec z.toBitVec
  wide : ∀ i < 32, wide.toBitVec.getLsbD i = decide (m ≤ i)
  mask : ∀ i < 32, mask.toBitVec.getLsbD i = decide (m ≤ i)
  shifts : 0 < a ∧ a ≤ r ∧ 0 < c ∧ m + c + r = 32

section

variable {left right : Int32} {wide shift : Int64} {mask : UInt32} {a r m c : Nat} {z z' : Int32}

section

variable (this : Component left right wide shift mask a r m c)
include this

/-- The shifted part takes the places from `m + c` on. The sign of `(z << a) ^ z` is smeared over them, but it
is also the highest bit below. -/
theorem Component.getLsbD {k : Nat} (inside : k < 32) :
    (lfsr left right wide shift z).toBitVec.getLsbD k =
      if k < m + c then z.toBitVec.getLsbD (k + r) ^^ z.toBitVec.getLsbD (k + r - a)
      else z.toBitVec.getLsbD (k - c) ^^ (z.toBitVec.getLsbD 31 ^^ z.toBitVec.getLsbD (31 - a)) := by
  obtain ⟨bits, wide, -, -, _, _, _⟩ := this
  have sign : (z.toBitVec <<< a ^^^ z.toBitVec).msb = (z.toBitVec.getLsbD (31 - a) ^^ z.toBitVec.getLsbD 31) := by
    rw [msb_eq_getLsbD_last, getLsbD_xor, getLsbD_shiftLeft]
    simp [show a ≤ 31 by omega]
  rw [bits, component, getLsbD_xor, getLsbD_signExtend, getLsbD_sshiftRight, if_pos (by omega),
    getLsbD_shiftLeft, getLsbD_and, getLsbD_signExtend, wide _ (by omega), sign]
  by_cases shifted : k < m + c
  · have masked : k < c ∨ ¬ m ≤ k - c := by omega
    rw [if_pos shifted, if_pos (show r + k < 32 by omega), getLsbD_xor, getLsbD_shiftLeft, Nat.add_comm r k,
      Bool.xor_comm (z.toBitVec.getLsbD (k + r))]
    rcases masked with early | early <;>
      simp [early, inside, show k + r < 32 by omega, show ¬ k + r < a by omega]
  · rw [if_neg shifted, if_neg (show ¬ r + k < 32 by omega), Bool.xor_comm (z.toBitVec.getLsbD 31)]
    simp [inside, show k < 64 by omega, show ¬ k < c by omega, show k - c < 64 by omega, show k - c < 32 by omega,
      show m ≤ k - c by omega]

/-- What the mask keeps of the successor determines what it keeps of the word. -/
theorem Component.kept
    (same : ∀ k < 32, m ≤ k → (lfsr left right wide shift z).toBitVec.getLsbD k = (lfsr left right wide shift z').toBitVec.getLsbD k)
    (j : Nat) (high : m ≤ j) : z.toBitVec.getLsbD j = z'.toBitVec.getLsbD j := by
  obtain ⟨_, _, _, _⟩ := this.shifts
  induction j using Nat.strongRecOn with
  | _ j ih =>
    by_cases inside : j < 32
    · have sign := same (m + c - 1) (by omega) (by omega)
      simp only [this.getLsbD (show m + c - 1 < 32 by omega), if_pos (show m + c - 1 < m + c by omega),
        show m + c - 1 + r = 31 by omega] at sign
      by_cases shifted : j + c < 32
      · have bit := same (j + c) shifted (by omega)
        simp only [this.getLsbD shifted, if_neg (show ¬ j + c < m + c by omega), Nat.add_sub_cancel, sign] at bit
        exact (Bool.xor_left_inj).mp bit
      · -- the bits that are shifted out are found below, mixed with bits known already
        have bit := same (j - r) (by omega) (by omega)
        simp only [this.getLsbD (show j - r < 32 by omega), if_pos (show j - r < m + c by omega), Nat.sub_add_cancel (show r ≤ j by omega),
          ih (j - a) (by omega) (by omega)] at bit
        exact (Bool.xor_left_inj).mp bit
    · rw [getLsbD_of_ge _ _ (by omega), getLsbD_of_ge _ _ (by omega)]

theorem Component.masked_eq :
    z.toUInt32 &&& mask = z'.toUInt32 &&& mask ↔ ∀ k < 32, m ≤ k → z.toBitVec.getLsbD k = z'.toBitVec.getLsbD k := by
  rw [← UInt32.toBitVec_inj, eq_of_getLsbD_eq_iff]
  refine forall₂_congr fun k inside => ?_
  by_cases high : m ≤ k <;> simp [this.mask k inside, high]

theorem Component.injective (same : lfsr left right wide shift z = lfsr left right wide shift z') :
    z.toUInt32 &&& mask = z'.toUInt32 &&& mask :=
  this.masked_eq.mpr fun k _ => this.kept (fun _ _ _ => by rw [same]) k

theorem Component.ne_zero (alive : z.toUInt32 &&& mask ≠ 0) :
    (lfsr left right wide shift z).toUInt32 &&& mask ≠ 0 := by
  intro zero
  have fixed : lfsr left right wide shift 0 = 0 := by
    rw [← toBitVec_inj, this.bits]
    simp [component]
  have same : (lfsr left right wide shift z).toUInt32 &&& mask = (lfsr left right wide shift 0).toUInt32 &&& mask := by
    rw [zero, fixed]
    exact UInt32.zero_and.symm
  refine alive (.trans (this.masked_eq.mpr fun k _ => this.kept (this.masked_eq.mp same) k) UInt32.zero_and)

end

end

theorem component1 : Component 6 13 4294967294 18 0xFFFFFFFE 6 13 1 18 :=
  ⟨fun z => by simp [lfsr, component], by decide, by decide, by decide⟩

theorem component2 : Component 2 27 4294967288 2 0xFFFFFFF8 2 27 3 2 :=
  ⟨fun z => by simp [lfsr, component], by decide, by decide, by decide⟩

theorem component3 : Component 13 21 4294967280 7 0xFFFFFFF0 13 21 4 7 :=
  ⟨fun z => by simp [lfsr, component], by decide, by decide, by decide⟩

theorem component4 : Component 3 12 4294967168 13 0xFFFFFF80 3 12 7 13 :=
  ⟨fun z => by simp [lfsr, component], by decide, by decide, by decide⟩

/-- No component is stuck at zero. -/
def Rng.Alive (rng : Rng) : Prop :=
  rng.z1.toUInt32 &&& 0xFFFFFFFE ≠ 0 ∧ rng.z2.toUInt32 &&& 0xFFFFFFF8 ≠ 0 ∧
    rng.z3.toUInt32 &&& 0xFFFFFFF0 ≠ 0 ∧ rng.z4.toUInt32 &&& 0xFFFFFF80 ≠ 0

theorem Rng.Alive.random {rng : Rng} (alive : rng.Alive) (max : Int32) : (random rng max).2.Alive := by
  unfold Scheduler.random
  split
  · exact alive
  · exact ⟨component1.ne_zero alive.1, component2.ne_zero alive.2.1, component3.ne_zero alive.2.2.1,
      component4.ne_zero alive.2.2.2⟩

theorem Rng.Alive.calls {rng : Rng} (alive : rng.Alive) (calls : List Int32) :
    (calls.foldl (fun rng max => (Scheduler.random rng max).2) rng).Alive := by
  induction calls generalizing rng with
  | nil => exact alive
  | cons max rest ih => exact ih (alive.random max)

theorem random_words (rng : Rng) {max : Int32} (positive : 0 < max) : (random rng max).2 = {
    z1 := lfsr 6 13 4294967294 18 rng.z1
    z2 := lfsr 2 27 4294967288 2 rng.z2
    z3 := lfsr 13 21 4294967280 7 rng.z3
    z4 := lfsr 3 12 4294967168 13 rng.z4 } := by
  have nonempty : ¬ max ≤ 0 := by simpa using positive
  rw [random, if_neg nonempty]

/-- The range of random, what its words keep of the words before, and every state that calls lead to. -/
theorem random_never_degenerates :
    (∀ (rng : Rng) (max : Int32), 0 < max →
      0 ≤ (random rng max).1.toInt ∧ (random rng max).1.toInt < max.toInt) ∧
    (∀ (rng rng' : Rng) (max max' : Int32), 0 < max → 0 < max' →
      ((random rng max).2.z1 = (random rng' max').2.z1 →
        rng.z1.toUInt32 &&& 0xFFFFFFFE = rng'.z1.toUInt32 &&& 0xFFFFFFFE) ∧
      ((random rng max).2.z2 = (random rng' max').2.z2 →
        rng.z2.toUInt32 &&& 0xFFFFFFF8 = rng'.z2.toUInt32 &&& 0xFFFFFFF8) ∧
      ((random rng max).2.z3 = (random rng' max').2.z3 →
        rng.z3.toUInt32 &&& 0xFFFFFFF0 = rng'.z3.toUInt32 &&& 0xFFFFFFF0) ∧
      ((random rng max).2.z4 = (random rng' max').2.z4 →
        rng.z4.toUInt32 &&& 0xFFFFFF80 = rng'.z4.toUInt32 &&& 0xFFFFFF80)) ∧
    (∀ calls : List Int32, (calls.foldl (fun rng max => (random rng max).2) {}).Alive) ∧
    ∀ (rng : Rng) (max : Int32), max ≤ 0 → random rng max = (1, rng) := by
  refine ⟨fun rng _ => random_range rng, fun rng rng' max max' positive positive' => ?_,
    fun calls => Rng.Alive.calls (by unfold Rng.Alive; decide) calls, fun _ _ small => if_pos small⟩
  rw [random_words rng positive, random_words rng' positive']
  exact ⟨component1.injective, component2.injective, component3.injective, component4.injective⟩

end Xv6.Scheduler
