import Xv6.Syscall.Arguments

namespace Xv6.Syscall

open List Option

/-! Which arguments are accepted, and which bytes of the caller are read for that. -/

namespace User

variable (u : User)

/-- The bytes of `*(int*)addr`, after the test of fetchint. -/
def fetchintReads (addr : UInt32) : List UInt32 :=
  if addr ≥ u.sz ∨ addr + 4 > u.sz then [] else [addr, addr + 1, addr + 2, addr + 3]

/-- The loop of fetchstr, over the addresses up to `ep`. -/
def readsTo : List UInt32 → List UInt32
  | [] => []
  | s :: rest => s :: if u.memory s = 0 then [] else readsTo rest

def fetchstrReads (addr : UInt32) : List UInt32 :=
  if addr ≥ u.sz then [] else u.readsTo ((List.range (u.sz.toNat - addr.toNat)).map fun i => addr + .ofNat i)

/-- Where argint finds argument `n`. -/
def argument (n : Nat) : UInt32 := u.esp + 4 + 4 * .ofNat n

def argstrReads (n : Nat) : List UInt32 :=
  u.fetchintReads (u.argument n) ++
    match u.argint n with
    | some addr => u.fetchstrReads addr.toUInt32
    | none => []

/-- `fetch` reads these bytes and no others, and they belong to the process. -/
structure Confined {α : Type} (fetch : User → α) (reads : List UInt32) : Prop where
  inside : ∀ addr ∈ reads, addr.toNat < u.sz.toNat
  only : ∀ memory, (∀ addr ∈ reads, memory addr = u.memory addr) → fetch { u with memory } = fetch u

/-- Exactly the arguments inside the process are accepted. -/
structure FetchesExactly : Prop where
  int : ∀ addr, (∃ ip, u.fetchint addr = some ip) ↔ addr.toNat + 4 ≤ u.sz.toNat
  ptr : ∀ n size p, u.argptr n size = some p ↔ (u.argument n).toNat + 4 ≤ u.sz.toNat ∧
    p = (u.int (u.argument n)).toUInt32 ∧ 0 ≤ size.toInt ∧ p.toNat < u.sz.toNat ∧ p.toNat + size.toInt ≤ u.sz.toNat
  str : ∀ addr k, u.fetchstr addr = some (addr, k) ↔ addr.toNat + k < u.sz.toNat ∧ u.memory (addr + .ofNat k) = 0 ∧
    ∀ j < k, u.memory (addr + .ofNat j) ≠ 0
  missing : ∀ addr, u.fetchstr addr = none ↔ ∀ k, addr.toNat + k < u.sz.toNat → u.memory (addr + .ofNat k) ≠ 0
  intReads : ∀ addr, u.Confined (·.fetchint addr) (u.fetchintReads addr)
  argintReads : ∀ n, u.Confined (·.argint n) (u.fetchintReads (u.argument n))
  ptrReads : ∀ n size, u.Confined (·.argptr n size) (u.fetchintReads (u.argument n))
  strReads : ∀ addr, u.Confined (·.fetchstr addr) (u.fetchstrReads addr)
  argstrReads : ∀ n, u.Confined (·.argstr n) (u.argstrReads n)

end User

section

variable {u : User} (small : u.sz.toNat < KERNBASE) {addr : UInt32}
include small

theorem fetchint_iff : (addr ≥ u.sz ∨ addr + 4 > u.sz) ↔ ¬ addr.toNat + 4 ≤ u.sz.toNat := by
  have four : (4 : UInt32).toNat = 4 := rfl
  rw [ge_iff_le, UInt32.le_iff_toNat_le, gt_iff_lt, UInt32.lt_iff_toNat_lt, UInt32.toNat_add, four]
  unfold KERNBASE at small
  omega

theorem fetchint_eq {ip : Int32} : u.fetchint addr = some ip ↔ addr.toNat + 4 ≤ u.sz.toNat ∧ u.int addr = ip := by
  rw [User.fetchint, ite_none_left_eq_some, fetchint_iff small, not_not, some.injEq]

theorem confined_fetchint (addr : UInt32) : u.Confined (·.fetchint addr) (u.fetchintReads addr) := by
  by_cases outside : addr ≥ u.sz ∨ addr + 4 > u.sz
  · rw [User.fetchintReads, if_pos outside]
    refine ⟨by simp, fun memory _ => ?_⟩
    simp only [User.fetchint, if_pos outside]
  · rw [User.fetchintReads, if_neg outside]
    constructor
    · have room := not_not.mp (outside ∘ (fetchint_iff small).mpr)
      simp only [mem_cons, not_mem_nil, or_false, forall_eq_or_imp, forall_eq, UInt32.toNat_add]
      have one : (1 : UInt32).toNat = 1 := rfl
      have two : (2 : UInt32).toNat = 2 := rfl
      have three : (3 : UInt32).toNat = 3 := rfl
      omega
    · intro memory same
      simp only [mem_cons, not_mem_nil, or_false, forall_eq_or_imp, forall_eq] at same
      simp only [User.fetchint, if_neg outside, User.int, UInt32.add_zero, same]

theorem confined_argint (n : Nat) : u.Confined (·.argint n) (u.fetchintReads (u.argument n)) :=
  ⟨(confined_fetchint small _).inside, (confined_fetchint small _).only⟩

theorem confined_argptr (n : Nat) (size : Int32) : u.Confined (·.argptr n size) (u.fetchintReads (u.argument n)) := by
  obtain ⟨inside, only⟩ := confined_argint small n
  refine ⟨inside, fun memory same => ?_⟩
  simp only [User.argptr, only memory same]

theorem argptr_eq {n : Nat} {size : Int32} {p : UInt32} :
    u.argptr n size = some p ↔ (u.argument n).toNat + 4 ≤ u.sz.toNat ∧ p = (u.int (u.argument n)).toUInt32 ∧ 0 ≤ size.toInt ∧
      p.toNat < u.sz.toNat ∧ p.toNat + size.toInt ≤ u.sz.toNat := by
  constructor
  · intro fetched
    have room := argptr_room small fetched
    simp only [User.argptr, bind_eq_bind, bind_eq_some_iff, ite_none_left_eq_some, some.injEq, not_or] at fetched
    obtain ⟨i, word, ⟨-, below, -⟩, rfl⟩ := fetched
    obtain ⟨inside, rfl⟩ := (fetchint_eq small).mp word
    exact ⟨inside, rfl, room.1, UInt32.lt_iff_toNat_lt.mp (UInt32.not_le.mp below), by omega⟩
  · rintro ⟨inside, rfl, nonneg, _, _⟩
    have word : u.argint n = some (u.int (u.argument n)) := (fetchint_eq small).mpr ⟨inside, rfl⟩
    have fits : ¬ (size < 0 ∨ (u.int (u.argument n)).toUInt32 ≥ u.sz ∨ (u.int (u.argument n)).toUInt32 + size.toUInt32 > u.sz) := by
      have zero : (0 : Int32).toInt = 0 := rfl
      have same := toUInt32_toNat nonneg
      rw [Int32.lt_iff_toInt_lt, zero, ge_iff_le, UInt32.le_iff_toNat_le, gt_iff_lt, UInt32.lt_iff_toNat_lt, UInt32.toNat_add, same]
      omega
    simp only [User.argptr, word, bind_eq_bind, bind_some, if_neg fits]

omit small in
theorem fetchstr_eq {k : Nat} : u.fetchstr addr = some (addr, k) ↔
    addr.toNat + k < u.sz.toNat ∧ u.memory (addr + .ofNat k) = 0 ∧ ∀ j < k, u.memory (addr + .ofNat j) ≠ 0 := by
  simp only [User.fetchstr, ite_none_left_eq_some, map_eq_some_iff, Prod.mk.injEq, true_and, exists_eq_right,
    List.find?_range_eq_some, ge_iff_le, UInt32.le_iff_toNat_le, beq_iff_eq, Bool.not_eq_true', beq_eq_false_iff_ne,
    mem_range]
  constructor
  · rintro ⟨_, null, inside, first⟩
    exact ⟨by omega, null, first⟩
  · rintro ⟨_, null, first⟩
    exact ⟨by omega, null, by omega, first⟩

omit small in
theorem fetchstr_none :
    u.fetchstr addr = none ↔ ∀ k, addr.toNat + k < u.sz.toNat → u.memory (addr + .ofNat k) ≠ 0 := by
  rw [User.fetchstr, ite_eq_left_iff, Option.map_eq_none_iff, List.find?_eq_none, ge_iff_le, UInt32.le_iff_toNat_le]
  simp only [mem_range, beq_iff_eq]
  constructor
  · exact fun missing k inside => missing (by omega) k (by omega)
  · exact fun missing _ k inside => missing k (by omega)

omit small in
theorem mem_readsTo {addrs : List UInt32} (read : addr ∈ u.readsTo addrs) : addr ∈ addrs := by
  induction addrs with
  | nil => exact read
  | cons s rest ih =>
    rw [User.readsTo, mem_cons] at read
    refine List.mem_cons.mpr (read.imp_right fun later => ?_)
    split at later
    · contradiction
    · exact ih later

omit small in
theorem find?_readsTo {memory : UInt32 → UInt8} (address : Nat → UInt32) (offsets : List Nat)
    (same : ∀ addr ∈ u.readsTo (offsets.map address), memory addr = u.memory addr) :
    offsets.find? (fun i => memory (address i) == 0) = offsets.find? fun i => u.memory (address i) == 0 := by
  induction offsets with
  | nil => rfl
  | cons i rest ih =>
    simp only [map_cons, User.readsTo, mem_cons, forall_eq_or_imp] at same
    rw [List.find?_cons, List.find?_cons, same.1]
    split
    · rfl
    · rename_i later
      rw [if_neg (by simpa using later)] at same
      exact ih same.2

omit small in
theorem confined_fetchstr (addr : UInt32) : u.Confined (·.fetchstr addr) (u.fetchstrReads addr) := by
  by_cases outside : addr ≥ u.sz
  · rw [User.fetchstrReads, if_pos outside]
    refine ⟨by simp, fun memory _ => ?_⟩
    simp only [User.fetchstr, if_pos outside]
  · rw [User.fetchstrReads, if_neg outside]
    constructor
    · intro s read
      obtain ⟨i, inside, rfl⟩ := List.mem_map.mp (mem_readsTo read)
      rw [mem_range] at inside
      rw [UInt32.toNat_add, UInt32.toNat_ofNat']
      have := u.sz.toNat_lt
      exact (Nat.mod_le _ _).trans_lt (by omega)
    · intro memory same
      simp only [User.fetchstr, if_neg outside, find?_readsTo (addr + .ofNat ·) _ same]

theorem confined_argstr (n : Nat) : u.Confined (·.argstr n) (u.argstrReads n) := by
  obtain ⟨inside, only⟩ := confined_argint small n
  have word {memory : UInt32 → UInt8} (same : ∀ addr ∈ u.argstrReads n, memory addr = u.memory addr) :
      User.argint { u with memory } n = u.argint n := only memory fun addr read => same addr (mem_append_left _ read)
  cases found : u.argint n with
  | none =>
    refine ⟨by simpa [User.argstrReads, found] using inside, fun memory same => ?_⟩
    simp only [User.argstr, word same, found, bind_eq_bind, bind_none]
  | some addr =>
    obtain ⟨inside', only'⟩ := confined_fetchstr (u := u) addr.toUInt32
    constructor
    · intro s read
      simp only [User.argstrReads, found, mem_append] at read
      exact read.elim (inside s) (inside' s)
    · intro memory same
      simp only [User.argstr, word same, found, bind_eq_bind, bind_some]
      refine only' memory fun s read => same s ?_
      simp only [User.argstrReads, found, mem_append]
      exact .inr read

/-- For every process below the kernel, whatever its stack pointer and its memory. -/
theorem fetches_exactly : u.FetchesExactly where
  int _ := by simp only [fetchint_eq small, exists_and_left, exists_eq', and_true]
  ptr _ _ _ := argptr_eq small
  str _ _ := fetchstr_eq
  missing _ := fetchstr_none
  intReads := confined_fetchint small
  argintReads := confined_argint small
  ptrReads := confined_argptr small
  strReads := confined_fetchstr
  argstrReads := confined_argstr small

end

/-- The stack pointer wraps around to the first word, which points to the last byte. -/
theorem fetches_exactly_wrapped : User.argptr ⟨8, 0xFFFFFFFC, fun addr => if addr = 0 then 7 else 0⟩ 0 1 = some 7 ∧
      User.FetchesExactly ⟨8, 0xFFFFFFFC, fun addr => if addr = 0 then 7 else 0⟩ :=
  ⟨by decide, fetches_exactly (by decide)⟩

end Xv6.Syscall
