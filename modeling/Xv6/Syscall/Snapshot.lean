import Xv6.Data.Bytes
import Xv6.Syscall.Arguments

namespace Xv6.Syscall.Snapshot

open Process Data List Option

/-! What getptable leaves in the buffer of its caller. -/

structure ProcUs where
  sz : UInt32
  state : ProcState
  pid : Int32
  ppid : Int32
  priority : Int32
  name : List UInt8
  ctime : UInt32
  stime : Int32
  retime : Int32
  rutime : Int32
deriving DecidableEq, Repr

/-- The values of `enum procstate`. -/
def stateValue : ProcState → Nat
  | .unused => 0
  | .embryo => 1
  | .sleeping => 2
  | .runnable => 3
  | .running => 4
  | .zombie => 5

/-- An array `char name[16]`. -/
def nameBytes (name : List UInt8) : List UInt8 := (List.range 16).map fun i => name.getD i 0

def ProcUs.bytes (us : ProcUs) : List UInt8 :=
  word 4 us.sz.toNat ++ word 4 (stateValue us.state) ++ word 4 us.pid.toUInt32.toNat ++ word 4 us.ppid.toUInt32.toNat ++
    word 4 us.priority.toUInt32.toNat ++ nameBytes us.name ++ word 4 us.ctime.toNat ++ word 4 us.stime.toUInt32.toNat ++
    word 4 us.retime.toUInt32.toNat ++ word 4 us.rutime.toUInt32.toNat

/-- The body of getptable's loop. -/
def record (table : Table) (p : Slot) : ProcUs where
  sz := (table p).sz
  state := (table p).state
  pid := (table p).pid
  ppid := match (table p).parent with
    | some parent => (table parent).pid
    | none => -1
  priority := (table p).priority
  name := (table p).name
  ctime := (table p).ctime
  stime := (table p).stime
  retime := (table p).retime
  rutime := (table p).rutime

/-- The loop of getptable; `i` counts the records written, and `p_dst` is `buffer + i`. -/
def fillLoop (table : Table) (nproc size : Int32) (buffer : UInt32) : List Slot → Nat → Bytes → Bytes
  | [], _, memory => memory
  | p :: rest, i, memory =>
    if i < nproc.toInt ∧ ((i + 1) * procUsSize.toNat : Int) < size.toInt then
      if (table p).state = .unused then fillLoop table nproc size buffer rest i memory
      else fillLoop table nproc size buffer rest (i + 1)
        (splice memory (buffer.toNat + i * procUsSize.toNat) (record table p).bytes)
    else memory

/-- The result and the caller's memory. -/
def getptable (table : Table) (nproc size : Int32) (buffer : UInt32) (memory : Bytes) : Int32 × Bytes :=
  if buffer = 0 then (-1, memory) else (0, fillLoop table nproc size buffer slots 0 memory)

/-- The slots in use, in the order of the table. -/
def live (table : Table) : List Slot := slots.filter fun p => (table p).state ≠ .unused

/-- getptable returns 0, stores the first records, as many as there are and as were
asked for, from the start of the buffer, and nothing else. -/
def Complete (table : Table) (nproc size : Int32) (buffer : UInt32) : Prop :=
  ∀ memory, getptable table nproc size buffer memory =
    (0, splice memory buffer.toNat (((live table).take nproc.toInt.toNat).flatMap fun p => (record table p).bytes))

section

variable {table : Table} {nproc size : Int32} {buffer : UInt32}

@[simp] theorem ProcUs.length_bytes (us : ProcUs) : us.bytes.length = 52 := by
  simp [ProcUs.bytes, nameBytes]

theorem length_flatMap_bytes (ps : List Slot) : (ps.flatMap fun p => (record table p).bytes).length = 52 * ps.length := by
  induction ps with
  | nil => rfl
  | cons _ _ ih =>
    rw [flatMap_cons, length_append, ih, ProcUs.length_bytes, length_cons]
    omega

theorem fillLoop_eq (exact : size.toInt = nproc.toInt * 52) (order : List Slot) (i : Nat) (memory : Bytes) :
    fillLoop table nproc size buffer order i memory = splice memory (buffer.toNat + i * 52)
      (((order.filter fun p => (table p).state ≠ .unused).take ((nproc.toInt - 1).toNat - i)).flatMap
        fun p => (record table p).bytes) := by
  have width : procUsSize.toNat = 52 := rfl
  induction order generalizing i memory with
  | nil => simp [fillLoop, splice_nil]
  | cons p _ ih =>
    unfold fillLoop
    rw [width]
    by_cases room : i < nproc.toInt ∧ ((i + 1) * (52 : Nat) : Int) < size.toInt
    · rw [if_pos room]
      by_cases unused : (table p).state = .unused
      · rw [if_pos unused, ih]
        simp [unused]
      · have count : (nproc.toInt - 1).toNat - i = ((nproc.toInt - 1).toNat - (i + 1)) + 1 := by omega
        rw [if_neg unused, ih, count]
        simp only [filter_cons, unused, ne_eq, not_false_eq_true, decide_true, if_true, take_succ_cons, flatMap_cons]
        rw [← splice_splice, ProcUs.length_bytes, Nat.add_assoc, Nat.succ_mul]
    · have none : (nproc.toInt - 1).toNat - i = 0 := by omega
      rw [if_neg room, none]
      simp [splice_nil]

theorem getptable_eq (exact : size.toInt = nproc.toInt * 52) (memory : Bytes) (mapped : buffer ≠ 0) :
    getptable table nproc size buffer memory =
      (0, splice memory buffer.toNat (((live table).take (nproc.toInt - 1).toNat).flatMap fun p => (record table p).bytes)) := by
  rw [getptable, if_neg mapped, fillLoop_eq exact]
  simp [live]

theorem nproc_nonneg {u : User} (accepted : sysGetptable u = some (.getptable nproc size buffer))
    (exact : size.toInt = nproc.toInt * 52) : 0 ≤ nproc.toInt := by
  simp only [sysGetptable, User.argptr, bind_eq_bind, bind_eq_some_iff, ite_none_left_eq_some,
    some.injEq, Call.getptable.injEq, not_or] at accepted
  obtain ⟨_, -, _, -, _, ⟨_, -, ⟨nonneg, -⟩, -⟩, -, -, rfl, -⟩ := accepted
  rw [Int32.lt_iff_toInt_lt] at nonneg
  change ¬ _ < (0 : Int) at nonneg
  omega

theorem min_length_le_of_splice_eq (table : Table) (buffer : UInt32) {n m : Nat} {ps : List Slot}
    (same : ∀ memory, splice memory buffer.toNat ((ps.take n).flatMap fun p => (record table p).bytes) =
      splice memory buffer.toNat ((ps.take m).flatMap fun p => (record table p).bytes)) : min m ps.length ≤ n := by
  by_contra more
  have inside : n * 52 < ((ps.take m).flatMap fun p => (record table p).bytes).length := by
    rw [length_flatMap_bytes, length_take]
    omega
  obtain ⟨byte, other⟩ : ∃ byte : UInt8,
      byte ≠ ((ps.take m).flatMap fun p => (record table p).bytes).get ⟨n * 52, inside⟩ :=
    (Ne.ne_or_ne _ (by decide : (0 : UInt8) ≠ 1)).elim (fun zero => ⟨0, zero⟩) fun one => ⟨1, one⟩
  have clash := congrFun (same fun _ => byte) (buffer.toNat + n * 52)
  rw [splice_inside inside, splice_after] at clash
  · exact other clash
  · rw [length_flatMap_bytes, length_take]
    omega

end

/-- Whatever nproc and size sys_getptable accepts: the last record that fits is never written. -/
theorem getptable_complete_iff (u : User) (table : Table) (nproc size : Int32) (buffer : UInt32)
    (accepted : sysGetptable u = some (.getptable nproc size buffer)) (exact : size.toInt = nproc.toInt * 52) :
    Complete table nproc size buffer ↔ buffer ≠ 0 ∧ ((live table).length < nproc.toInt ∨ nproc.toInt = 0) := by
  have nonneg := nproc_nonneg accepted exact
  constructor
  · intro complete
    have mapped : buffer ≠ 0 := by
      intro null
      have result := congrArg Prod.fst (complete fun _ => 0)
      rw [getptable, if_pos null] at result
      exact absurd (show (-1 : Int32) = 0 from result) (by decide)
    refine ⟨mapped, ?_⟩
    have bound : min nproc.toInt.toNat (live table).length ≤ (nproc.toInt - 1).toNat := by
      refine min_length_le_of_splice_eq table buffer fun memory => ?_
      have written := complete memory
      rw [getptable_eq exact memory mapped] at written
      exact congrArg Prod.snd written
    omega
  · rintro ⟨mapped, room⟩ memory
    rw [getptable_eq exact memory mapped]
    have same : (live table).take (nproc.toInt - 1).toNat = (live table).take nproc.toInt.toNat := by
      rcases room with few | zero
      · rw [take_of_length_le (by omega), take_of_length_le (by omega)]
      · rw [zero]
        rfl
    rw [same]

/-- `getptable(nproc, 52 * nproc, 4096)`. -/
def caller (nproc : UInt8) : User where
  sz := 8192
  esp := 0
  memory a :=
    if a = 4 then nproc else if a = 8 then (nproc.toNat * 52 % 256).toUInt8 else if a = 9 then (nproc.toNat * 52 / 256).toUInt8
    else if a = 13 then 16 else 0

/-- With every slot in use the last process is missing from a buffer for NPROC of them. -/
theorem full_table_incomplete : sysGetptable (caller 64) = some (.getptable 64 3328 4096) ∧
      ¬ Complete (fun _ => { state := .running }) 64 3328 4096 := by
  refine ⟨by decide +kernel, fun complete => ?_⟩
  have last := congrArg (fun result => result.2 (4096 + 63 * 52 + 4)) (complete fun _ => 255)
  revert last
  decide +kernel

theorem getptable_complete_iff_oneProcess : sysGetptable (caller 2) = some (.getptable 2 104 4096) ∧
      Complete (fun p => if p = 3 then { state := .running, pid := 7 } else {}) 2 104 4096 := by
  refine ⟨by decide +kernel, ?_⟩
  exact (getptable_complete_iff (caller 2) _ 2 104 4096 (by decide +kernel) (by decide)).mpr ⟨by decide, .inl (by decide +kernel)⟩

end Xv6.Syscall.Snapshot
