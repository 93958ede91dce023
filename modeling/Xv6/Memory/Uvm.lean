import Mathlib.Data.List.Basic
import Mathlib.Logic.Function.Basic

namespace Xv6.Memory

open Function Bool List Nat UInt32

/-! The user part of a page directory, as far as it decides which pages are
present: allocuvm, deallocuvm, copyuvm and growproc. Page tables are not kept
apart, so where deallocuvm skips a missing one it passes over absent pages. -/

def PGSIZE : UInt32 := 4096

def KERNBASE : UInt32 := 0x80000000

/-- The macro's `& ~(PGSIZE-1)` is the division with its remainder dropped. -/
def PGROUNDUP (sz : UInt32) : UInt32 := (sz + (PGSIZE - 1)) / PGSIZE * PGSIZE

/-- The virtual page numbers that are present. -/
abbrev Pages := Nat → Bool

/-- The pages that `for(; a < limit; a += PGSIZE)` visits. -/
def visited (a limit : UInt32) : List Nat :=
  List.range' (a.toNat / PGSIZE.toNat) ((limit.toNat - a.toNat + (PGSIZE.toNat - 1)) / PGSIZE.toNat)

def clearLoop (order : List Nat) (pages : Pages) : Pages :=
  order.foldl (fun pages v => update pages v false) pages

def deallocuvm (pages : Pages) (oldsz newsz : UInt32) : UInt32 × Pages :=
  if newsz ≥ oldsz then (oldsz, pages) else (newsz, clearLoop (visited (PGROUNDUP newsz) oldsz) pages)

inductive Outcome where
  | done | nomem | remap
deriving DecidableEq, Repr

/-- The loop of allocuvm with memory for so many pages. mappages panics on a page that is present. -/
def allocLoop : Nat → List Nat → Pages → Outcome × Pages
  | _, [], pages => (.done, pages)
  | 0, _ :: _, pages => (.nomem, pages)
  | memory + 1, v :: rest, pages =>
    if pages v = true then (.remap, pages) else allocLoop memory rest (update pages v true)

/-- None is the panic "remap". -/
def allocuvm (memory : Nat) (pages : Pages) (oldsz newsz : UInt32) : Option (UInt32 × Pages) :=
  if newsz ≥ KERNBASE then some (0, pages)
  else if newsz < oldsz then some (oldsz, pages)
  else
    match allocLoop memory (visited (PGROUNDUP oldsz) newsz) pages with
    | (.done, pages) => some (newsz, pages)
    | (.nomem, pages) => some (0, (deallocuvm pages newsz oldsz).2)
    | (.remap, _) => none

/-- The pages of the copy; none is one of the panics for a page that is not present. -/
def copyuvm (pages : Pages) (sz : UInt32) : Option Pages :=
  if ∀ v ∈ visited 0 sz, pages v = true then some fun v => decide (v ∈ visited 0 sz) else none

/-- The result, the size and the pages after growproc(n). -/
def growproc (memory : Nat) (pages : Pages) (sz : UInt32) (n : Int32) : Option (Int32 × UInt32 × Pages) :=
  if n > 0 then
    match allocuvm memory pages sz (sz + n.toUInt32) with
    | none => none
    | some (new, pages) => if new = 0 then some (-1, sz, pages) else some (0, new, pages)
  else if n < 0 then
    let (new, pages) := deallocuvm pages sz (sz + n.toUInt32)
    if new = 0 then some (-1, sz, pages) else some (0, new, pages)
  else some (0, sz, pages)

/-- No page is present at or above the size. -/
def Below (pages : Pages) (sz : UInt32) : Prop := ∀ v, pages v = true → v * 4096 < sz.toNat

section

variable {sz a limit : UInt32} {v : Nat}

theorem toNat_PGSIZE : PGSIZE.toNat = 4096 := rfl

theorem toNat_PGROUNDUP (sz : UInt32) : (PGROUNDUP sz).toNat = (sz + (PGSIZE - 1)).toNat / 4096 * 4096 := by
  have bound : (sz + (PGSIZE - 1)).toNat < 2 ^ 32 := UInt32.toNat_lt _
  unfold PGROUNDUP
  rw [UInt32.toNat_mul, UInt32.toNat_div, toNat_PGSIZE]
  exact mod_eq_of_lt (by omega)

theorem PGROUNDUP_mod (sz : UInt32) : (PGROUNDUP sz).toNat % 4096 = 0 := by
  rw [toNat_PGROUNDUP]
  exact mul_mod_left _ _

/-- Rounding up adds less than a page; close to the end of memory it wraps around to 0. -/
theorem PGROUNDUP_lt (sz : UInt32) : (PGROUNDUP sz).toNat < sz.toNat + 4096 := by
  have sum : (sz + (PGSIZE - 1)).toNat ≤ sz.toNat + 4095 := by
    rw [UInt32.toNat_add]
    exact mod_le _ _
  rw [toNat_PGROUNDUP]
  omega

theorem le_PGROUNDUP (low : sz ≤ KERNBASE) : sz.toNat ≤ (PGROUNDUP sz).toNat ∧ (PGROUNDUP sz).toNat ≤ KERNBASE.toNat := by
  have small : sz.toNat ≤ 0x80000000 := UInt32.le_iff_toNat_le.mp low
  have sum : (sz + (PGSIZE - 1)).toNat = sz.toNat + 4095 := by
    rw [UInt32.toNat_add]
    exact mod_eq_of_lt (by change sz.toNat + 4095 < 2 ^ 32; omega)
  rw [toNat_PGROUNDUP, sum]
  change sz.toNat ≤ (sz.toNat + 4095) / 4096 * 4096 ∧ (sz.toNat + 4095) / 4096 * 4096 ≤ 0x80000000
  omega

theorem mem_visited (aligned : a.toNat % 4096 = 0) : v ∈ visited a limit ↔ a.toNat ≤ v * 4096 ∧ v * 4096 < limit.toNat := by
  unfold visited
  rw [toNat_PGSIZE, mem_range'_1]
  omega

end

variable {pages : Pages} {sz oldsz : UInt32}

theorem clearLoop_apply (order : List Nat) (pages : Pages) (v : Nat) :
    clearLoop order pages v = (pages v && !decide (v ∈ order)) := by
  induction order generalizing pages with
  | nil => simp [clearLoop]
  | cons w rest ih =>
    change clearLoop rest (update pages w false) v = _
    rw [ih]
    by_cases same : v = w
    · subst same
      simp
    · simp [same]

theorem deallocuvm_below (newsz : UInt32) (below : Below pages oldsz) :
    Below (deallocuvm pages oldsz newsz).2 (deallocuvm pages oldsz newsz).1 := by
  unfold deallocuvm
  split
  · exact below
  · intro v present
    simp only [clearLoop_apply, and_eq_true, not_eq_true', decide_eq_false_iff_not, mem_visited (PGROUNDUP_mod newsz)] at present
    have old := below v present.1
    have rounded := PGROUNDUP_lt newsz
    have aligned := PGROUNDUP_mod newsz
    dsimp only
    omega

theorem allocLoop_fresh (memory : Nat) (order : List Nat) (pages : Pages) (distinct : order.Nodup)
    (absent : ∀ v ∈ order, pages v = false) : (allocLoop memory order pages).1 ≠ .remap ∧
      ∀ v, (allocLoop memory order pages).2 v = true → pages v = true ∨ v ∈ order := by
  induction order generalizing memory pages with
  | nil => exact ⟨by simp [allocLoop], fun v present => .inl (by simpa [allocLoop] using present)⟩
  | cons w rest ih =>
    cases memory with
    | zero => exact ⟨by simp [allocLoop], fun v present => .inl (by simpa [allocLoop] using present)⟩
    | succ memory =>
      have missing : pages w = false := absent w mem_cons_self
      obtain ⟨fresh, others⟩ := List.nodup_cons.mp distinct
      have later : ∀ v ∈ rest, update pages w true v = false := by
        intro v member
        have other : v ≠ w := by
          rintro rfl
          exact fresh member
        rw [update_of_ne other]
        exact absent v (mem_cons_of_mem w member)
      obtain ⟨sound, pages'⟩ := ih memory (update pages w true) others later
      simp only [allocLoop, missing, false_eq_true, if_false]
      refine ⟨sound, fun v present => ?_⟩
      rcases pages' v present with before | member
      · by_cases same : v = w
        · exact .inr (by rw [same]; exact mem_cons_self)
        · rw [update_of_ne same] at before
          exact .inl before
      · exact .inr (mem_cons_of_mem w member)

/-- allocuvm does not panic on a process without pages above its size, and if it
returns a size then no page is above that; if it fails it has taken its pages back. -/
theorem allocuvm_below (memory : Nat) (newsz : UInt32) (below : Below pages oldsz) :
    ∃ size after, allocuvm memory pages oldsz newsz = some (size, after) ∧ (size = 0 ∧ Below after oldsz ∨ Below after size) := by
  unfold allocuvm
  by_cases high : newsz ≥ KERNBASE
  · exact ⟨0, pages, by rw [if_pos high], .inl ⟨rfl, below⟩⟩
  · by_cases smaller : newsz < oldsz
    · exact ⟨oldsz, pages, by rw [if_neg high, if_pos smaller], .inr below⟩
    · rw [if_neg high, if_neg smaller]
      have order : oldsz.toNat ≤ newsz.toNat := by
        rw [lt_iff_toNat_lt] at smaller
        omega
      have top : newsz.toNat < 0x80000000 := by
        rw [ge_iff_le, le_iff_toNat_le] at high
        exact Nat.lt_of_not_le high
      have old : oldsz ≤ KERNBASE := UInt32.le_iff_toNat_le.mpr (Nat.le_of_lt (Nat.lt_of_le_of_lt order top))
      have up := (le_PGROUNDUP old).1
      have aligned := PGROUNDUP_mod oldsz
      have absent : ∀ v ∈ visited (PGROUNDUP oldsz) newsz, pages v = false := by
        intro v member
        rw [mem_visited aligned] at member
        by_contra present
        have := below v (by simpa using present)
        omega
      obtain ⟨sound, grown⟩ := allocLoop_fresh memory (visited (PGROUNDUP oldsz) newsz) pages nodup_range' absent
      cases outcome : allocLoop memory (visited (PGROUNDUP oldsz) newsz) pages with
      | mk result after =>
        rw [outcome] at sound grown
        have within : Below after newsz := by
          intro v present
          rcases grown v present with before | member
          · exact Nat.lt_of_lt_of_le (below v before) order
          · exact ((mem_visited aligned).mp member).2
        cases result with
        | done => exact ⟨newsz, after, rfl, .inr within⟩
        | remap => exact absurd rfl sound
        | nomem =>
          refine ⟨0, _, rfl, .inl ⟨rfl, ?_⟩⟩
          -- with nothing to take back the sizes are equal
          by_cases equal : oldsz ≥ newsz
          · have same : oldsz = newsz := UInt32.toNat_inj.mp (by
              rw [ge_iff_le, le_iff_toNat_le] at equal
              omega)
            simp only [deallocuvm, if_pos equal]
            rw [same]
            exact within
          · have cleared := deallocuvm_below oldsz within
            simp only [deallocuvm, if_neg equal] at cleared ⊢
            exact cleared

theorem allocuvm_le {memory : Nat} {newsz size : UInt32} {after : Pages} (low : oldsz ≤ KERNBASE)
    (grown : allocuvm memory pages oldsz newsz = some (size, after)) : size ≤ KERNBASE := by
  unfold allocuvm at grown
  split at grown
  · cases grown
    exact UInt32.le_iff_toNat_le.mpr (Nat.zero_le _)
  · rename_i high
    split at grown
    · cases grown
      exact low
    · split at grown
      · cases grown
        exact UInt32.le_of_lt (UInt32.not_le.mp high)
      · cases grown
        exact UInt32.le_iff_toNat_le.mpr (Nat.zero_le _)
      · contradiction

theorem Below.round (below : Below pages sz) (low : sz ≤ KERNBASE) : Below pages (PGROUNDUP sz) :=
  fun v present => Nat.lt_of_lt_of_le (below v present) (le_PGROUNDUP low).1

theorem growproc_zero (memory : Nat) (pages : Pages) (sz : UInt32) : growproc memory pages sz 0 = some (0, sz, pages) := rfl

theorem growproc_below (memory : Nat) (n : Int32) (below : Below pages sz) :
    ∃ result size after, growproc memory pages sz n = some (result, size, after) ∧ Below after size := by
  unfold growproc
  by_cases more : n > 0
  · obtain ⟨size, after, grown, cases⟩ := allocuvm_below memory (sz + n.toUInt32) below
    rw [if_pos more, grown]
    by_cases failed : size = 0
    · refine ⟨-1, sz, after, by simp [failed], ?_⟩
      rcases cases with ⟨-, old⟩ | none
      · exact old
      · intro v present
        have := none v present
        rw [failed] at this
        exact absurd this (by simp)
    · refine ⟨0, size, after, by simp [failed], ?_⟩
      exact cases.resolve_left fun zero => failed zero.1
  · by_cases less : n < 0
    · rw [if_neg more, if_pos less]
      have shrunk := deallocuvm_below (sz + n.toUInt32) below
      by_cases failed : (deallocuvm pages sz (sz + n.toUInt32)).1 = 0
      · refine ⟨-1, sz, (deallocuvm pages sz (sz + n.toUInt32)).2, by simp [failed], ?_⟩
        intro v present
        have := shrunk v present
        rw [failed] at this
        exact absurd this (by simp)
      · exact ⟨0, _, _, by simp [failed], shrunk⟩
    · exact ⟨0, sz, pages, by rw [if_neg more, if_neg less], below⟩

theorem copyuvm_below {copy : Pages} (copied : copyuvm pages sz = some copy) : Below copy sz := by
  simp only [copyuvm, Option.ite_none_right_eq_some, Option.some.injEq] at copied
  obtain ⟨-, rfl⟩ := copied
  intro v present
  simp only [decide_eq_true_eq] at present
  exact ((mem_visited rfl).mp present).2

end Xv6.Memory
