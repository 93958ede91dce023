import Xv6.Process.Table

namespace Xv6.Process

open Function

/-! The sections of proc.c that run under `ptable.lock`, as functions of the table. -/

/-- allocproc up to its release of the lock, with the new value of `nextpid`. -/
def allocproc (table : Table) (nextpid : Int32) (ticks : UInt32) : Option (Slot × Table × Int32) :=
  match table.first fun proc => proc.state == .unused with
  | none => none
  | some p =>
    some (p, update table p { table p with
      state := .embryo, priority := 10, pid := nextpid, ctime := ticks, retime := 0, rutime := 0, stime := 0 },
      nextpid + 1)

/-- exit's loop over the children of `p`. -/
def passChildren (initproc p : Slot) : List Slot → Table → Table
  | [], table => table
  | q :: rest, table =>
    if (table q).parent = some p then
      let table := update table q { table q with parent := some initproc }
      passChildren initproc p rest
        (if (table q).state = .zombie then wakeup1 table (.proc initproc) else table)
    else passChildren initproc p rest table

/-- exit from its acquisition of the lock to `sched()`. -/
def exitTable (table : Table) (initproc p : Slot) : Table :=
  let table := match (table p).parent with
    | some parent => wakeup1 table (.proc parent)
    | none => table
  let table := passChildren initproc p slots table
  update table p { table p with state := .zombie }

inductive Reaper where
  | wait | wait2 | join
deriving DecidableEq, Repr

/-- The children a reaper looks at: join skips those that are not threads. -/
def Reaper.child (kind : Reaper) (p : Slot) (proc : Proc) : Bool := proc.parent == some p && (kind != .join || proc.isthread)

/-- What a reaper resets in the slot of the zombie. -/
def Reaper.clear (kind : Reaper) (proc : Proc) : Proc :=
  let proc := { proc with kstack := 0, pid := 0, parent := none, name := [], killed := false, state := .unused }
  match kind with
  | .wait | .join => proc
  | .wait2 => { proc with ctime := 0, retime := 0, rutime := 0, stime := 0, priority := 0 }

def Reaper.freesSpace : Reaper → Bool
  | .wait | .wait2 => true
  | .join => false

inductive Scan where
  | reap (q : Slot)
  | fail
  | block
deriving DecidableEq, Repr

/-- One pass of a reaper's loop over the table. -/
def Reaper.scan (kind : Reaper) (table : Table) (p : Slot) : Scan :=
  match table.first fun proc => kind.child p proc && proc.state == .zombie with
  | some q => .reap q
  | none => if table.first (kind.child p) = none ∨ (table p).killed = true then .fail else .block

/-- fork's copy of its caller, after copyuvm. -/
def forkProc (np curproc : Proc) (parent : Slot) (pgdir : Page) : Proc :=
  { np with pgdir := pgdir, sz := curproc.sz, parent := some parent, name := curproc.name }

/-- clone stores `pgdir` and `sz` one after the other; here the two stores are one step. -/
def cloneProc (np curproc : Proc) (parent : Slot) (stack : UInt32) : Proc :=
  { np with pgdir := curproc.pgdir, sz := curproc.sz, parent := some parent, stack := stack,
            isthread := true, name := curproc.name }

def updateStatistics (table : Table) : Table := fun p =>
  match (table p).state with
  | .sleeping => { table p with stime := (table p).stime + 1 }
  | .runnable => { table p with retime := (table p).retime + 1 }
  | .running => { table p with rutime := (table p).rutime + 1 }
  | _ => table p

/-- What wakeups and reparenting can do to a slot. -/
structure Stirred (before after : Proc) : Prop where
  fields : after = { before with state := after.state, parent := after.parent }
  state : after.state = before.state ∨ before.state = .sleeping ∧ after.state = .runnable

theorem Stirred.refl (proc : Proc) : Stirred proc proc := ⟨rfl, .inl rfl⟩

theorem Stirred.trans {first second third : Proc} (before : Stirred first second) (after : Stirred second third) :
    Stirred first third := by
  refine ⟨?_, ?_⟩
  · have inner := after.fields
    rw [before.fields] at inner
    exact inner
  · cases before.state with
    | inl same =>
      rw [← same]
      exact after.state
    | inr woken =>
      cases after.state with
      | inl same => exact .inr ⟨woken.1, same.trans woken.2⟩
      | inr again => exact absurd (woken.2.symm.trans again.1) (by simp)

theorem Stirred.unused {before after : Proc} (stirred : Stirred before after) (unused : after.state = .unused) :
    before.state = .unused := by
  cases stirred.state with
  | inl same => exact same.symm.trans unused
  | inr woken => exact absurd (unused.symm.trans woken.2) (by simp)

theorem wakeup1_stirred (table : Table) (chan : Chan) (q : Slot) : Stirred (table q) (wakeup1 table chan q) := by
  unfold wakeup1
  split
  · rename_i asleep
    exact ⟨rfl, .inr ⟨asleep.1, rfl⟩⟩
  · exact .refl _

theorem passChildren_stirred (initproc p : Slot) (order : List Slot) (table : Table) (q : Slot) :
    Stirred (table q) (passChildren initproc p order table q) := by
  induction order generalizing table with
  | nil => exact .refl _
  | cons child _ ih =>
    unfold passChildren
    split
    · have adopted : Stirred (table q)
          (update table child { table child with parent := some initproc } q) := by
        by_cases same : q = child
        · subst same
          rw [update_self]
          exact ⟨rfl, .inl rfl⟩
        · rw [update_of_ne same]
          exact .refl _
      dsimp only
      split
      · exact (adopted.trans (wakeup1_stirred _ _ q)).trans (ih _)
      · exact adopted.trans (ih _)
    · exact ih table

theorem exitTable_other (table : Table) (initproc : Slot) {p q : Slot} (other : q ≠ p) :
    Stirred (table q) (exitTable table initproc p q) := by
  unfold exitTable
  rw [update_of_ne other]
  cases parent : (table p).parent with
  | none => exact passChildren_stirred initproc p slots table q
  | some => exact (wakeup1_stirred _ _ q).trans (passChildren_stirred initproc p slots _ q)

theorem exitTable_self (table : Table) (initproc p : Slot) : (exitTable table initproc p p).state = .zombie ∧
      exitTable table initproc p p = { table p with state := .zombie, parent := (exitTable table initproc p p).parent } := by
  have stirred : Stirred (table p) (passChildren initproc p slots (match (table p).parent with
      | some parent => wakeup1 table (.proc parent)
      | none => table) p) := by
    cases parent : (table p).parent with
    | none => exact passChildren_stirred initproc p slots table p
    | some => exact (wakeup1_stirred _ _ p).trans (passChildren_stirred initproc p slots _ p)
  unfold exitTable
  rw [update_self]
  refine ⟨rfl, ?_⟩
  rw [stirred.fields]

theorem wakeup1_parent (table : Table) (chan : Chan) (q : Slot) : (wakeup1 table chan q).parent = (table q).parent := by
  unfold wakeup1
  split <;> rfl

theorem wakeup1_zombie (table : Table) (chan : Chan) (q : Slot) :
    (wakeup1 table chan q).state = .zombie ↔ (table q).state = .zombie := by
  cases (wakeup1_stirred table chan q).state with
  | inl same => rw [same]
  | inr woken => simp [woken.1, woken.2]

theorem passChildren_parent (initproc p : Slot) (order : List Slot) (table : Table) (q : Slot) :
    (passChildren initproc p order table q).parent =
      if q ∈ order ∧ (table q).parent = some p then some initproc else (table q).parent := by
  induction order generalizing table with
  | nil => simp [passChildren]
  | cons child rest ih =>
    unfold passChildren
    split
    · rename_i mine
      have woken (after : Table) (same : ∀ q, (after q).parent =
          (update table child { table child with parent := some initproc } q).parent) :
          (passChildren initproc p rest after q).parent =
            if q ∈ child :: rest ∧ (table q).parent = some p then some initproc else (table q).parent := by
        rw [ih, same]
        by_cases here : q = child
        · subst here
          simp [mine]
        · simp [here]
      dsimp only
      split
      · exact woken _ (wakeup1_parent _ _)
      · exact woken _ fun _ => rfl
    · rename_i other
      rw [ih]
      by_cases here : q = child
      · subst here
        simp [other]
      · simp [here]

theorem exitTable_parent (table : Table) (initproc p q : Slot) : (exitTable table initproc p q).parent =
      if (table q).parent = some p then some initproc else (table q).parent := by
  have kept (start : Table) : (update (passChildren initproc p slots start) p
      { passChildren initproc p slots start p with state := .zombie } q).parent =
        if (start q).parent = some p then some initproc else (start q).parent := by
    have passed := passChildren_parent initproc p slots start q
    simp only [mem_slots, true_and] at passed
    rw [← passed]
    by_cases same : q = p
    · subst same
      rw [update_self]
    · rw [update_of_ne same]
  unfold exitTable
  cases parent : (table p).parent with
  | none => exact kept table
  | some =>
    rw [kept, wakeup1_parent]

/-- Who sleeps through exit's loop: not initproc waiting for a zombie it is given. -/
theorem passChildren_asleep {initproc p : Slot} {order : List Slot} {table : Table} {r : Slot}
    (asleep : (passChildren initproc p order table r).state = .sleeping) :
    (table r).state = .sleeping ∧ ((table r).chan = some (.proc initproc) →
      ∀ q ∈ order, (table q).parent = some p → (table q).state ≠ .zombie) := by
  induction order generalizing table with
  | nil => exact ⟨asleep, by simp⟩
  | cons child rest ih =>
    unfold passChildren at asleep
    split at asleep
    · have adopted : (update table child { table child with parent := some initproc } r).state =
          (table r).state ∧ (update table child { table child with parent := some initproc } r).chan =
            (table r).chan := by
        by_cases same : r = child
        · subst same
          simp
        · simp [update_of_ne same]
      dsimp only at asleep
      split at asleep
      · obtain ⟨slept, missed⟩ := wakeup1_sleeping (ih asleep).1
        rw [adopted.1] at slept
        rw [adopted.2] at missed
        exact ⟨slept, fun waits => absurd waits missed⟩
      · rename_i mine alive
        rw [update_self] at alive
        obtain ⟨slept, later⟩ := ih asleep
        rw [adopted.1] at slept
        rw [adopted.2] at later
        refine ⟨slept, fun waits q listed passed => ?_⟩
        by_cases same : q = child
        · rw [same]
          exact alive
        · have inRest : q ∈ rest := (List.mem_cons.mp listed).resolve_left same
          have sure := later waits q inRest
          rw [update_of_ne same] at sure
          exact sure passed
    · rename_i other
      obtain ⟨slept, later⟩ := ih asleep
      refine ⟨slept, fun waits q listed passed => ?_⟩
      have inRest : q ∈ rest := by
        refine (List.mem_cons.mp listed).resolve_left fun same => other ?_
        rw [← same]
        exact passed
      exact later waits q inRest passed

/-- Who sleeps through exit: neither a parent waiting for `p` nor initproc
waiting for a zombie that `p` leaves behind. -/
theorem exitTable_asleep {table : Table} {initproc p r : Slot} (asleep : (exitTable table initproc p r).state = .sleeping) :
    (table r).state = .sleeping ∧ ((table r).chan = some (.proc r) → (table p).parent ≠ some r) ∧
      ((table r).chan = some (.proc initproc) → ∀ q, (table q).parent = some p → (table q).state ≠ .zombie) := by
  have other : r ≠ p := by
    rintro rfl
    exact absurd (asleep.symm.trans (exitTable_self table initproc r).1) (by simp)
  unfold exitTable at asleep
  rw [update_of_ne other] at asleep
  cases parent : (table p).parent with
  | none =>
    simp only [parent] at asleep
    obtain ⟨slept, left⟩ := passChildren_asleep asleep
    exact ⟨slept, by simp, fun waits q => left waits q (mem_slots q)⟩
  | some parent =>
    simp only [parent] at asleep
    obtain ⟨slept, left⟩ := passChildren_asleep asleep
    obtain ⟨before, missed⟩ := wakeup1_sleeping slept
    refine ⟨before, fun waits same => ?_, fun waits q passed dead => ?_⟩
    · rw [Option.some.injEq] at same
      exact missed (same ▸ waits)
    · rw [wakeup1_chan] at left
      refine left waits q (mem_slots q) ?_ ((wakeup1_zombie table _ q).mpr dead)
      rw [wakeup1_parent]
      exact passed

theorem updateStatistics_fields (table : Table) (q : Slot) : updateStatistics table q = { table q with
      stime := (updateStatistics table q).stime, retime := (updateStatistics table q).retime,
      rutime := (updateStatistics table q).rutime } := by
  unfold updateStatistics
  split <;> rfl

theorem updateStatistics_state (table : Table) (q : Slot) : (updateStatistics table q).state = (table q).state := by
  rw [updateStatistics_fields]

end Xv6.Process
