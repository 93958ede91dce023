import Xv6.Kernel.Memory

namespace Xv6.Kernel

open Process Function Machine Kernel.Task

/-! Kernel stacks. Every process has one of its own, so freeing the stack of a
zombie frees nothing else. -/

def Born (state : ProcState) : Prop := state ≠ .unused ∧ state ≠ .embryo

structure Stacks (pages : Page → PageUse) (kstack : Slot → Page) : Prop where
  null : pages 0 = .other
  role : ∀ q, kstack q ≠ 0 → pages (kstack q) = .kstack
  single : ∀ q r, kstack q ≠ 0 → kstack q = kstack r → q = r

/-- Who is sure to have a kernel stack. -/
structure Based (kstack : Slot → Page) (state : Slot → ProcState) (task : Slot → Task) : Prop where
  born : ∀ q, Born (state q) → kstack q ≠ 0
  child : ∀ p np, (task p).child = some np → (task p).hasStack = true → kstack np ≠ 0

namespace Stacks

variable {pages : Page → PageUse} {kstack : Slot → Page} {page : Page} {np : Slot}

section

variable (owned : Stacks pages kstack)
include owned

theorem valid (used : pages page ≠ .other) : page ≠ 0 := by
  rintro rfl
  exact used owned.null

theorem repage {use : PageUse} (plain : pages page ≠ .kstack) (valid : page ≠ 0) :
    Stacks (update pages page use) kstack where
  null := by
    rw [update_of_ne valid.symm]
    exact owned.null
  role := by
    intro q given
    have role := owned.role q given
    have other : kstack q ≠ page := fun same => plain (same ▸ role)
    rwa [update_of_ne other]
  single := owned.single

theorem grant (fresh : pages page = .free) :
    Stacks (update pages page .kstack) (update kstack np page) := by
  have valid : page ≠ 0 := owned.valid (by simp [fresh])
  have moved : Stacks (update pages page .kstack) kstack := owned.repage (by simp [fresh]) valid
  have unused (q : Slot) : kstack q ≠ page := by
    intro same
    exact absurd (fresh.symm.trans (same ▸ owned.role q (same ▸ valid))) (by simp)
  refine ⟨moved.null, fun q given => ?_, fun q r given same => ?_⟩
  · by_cases mine : q = np
    · subst mine
      simp
    · rw [update_of_ne mine] at given ⊢
      exact moved.role q given
  · exact Data.single_update (fun stack => stack = update kstack np page q ∧ stack ≠ 0)
      (fun first second mine theirs => owned.single first second mine.2 (mine.1.trans theirs.1.symm))
      (fun mine other _ theirs => unused other (theirs.1.trans mine.1.symm)) q r ⟨rfl, given⟩ ⟨same.symm, same ▸ given⟩

theorem clear (z : Slot) : Stacks pages (update kstack z 0) := by
  have others {q : Slot} (given : update kstack z 0 q ≠ 0) : q ≠ z := by
    rintro rfl
    simp at given
  refine ⟨owned.null, fun q given => ?_, fun q r given same => ?_⟩
  · have left := others given
    rw [update_of_ne left] at given ⊢
    exact owned.role q given
  · have left := others given
    have right : r ≠ z := others (same ▸ given)
    rw [update_of_ne left] at given same
    rw [update_of_ne right] at same
    exact owned.single q r given same

theorem release {z : Slot} (given : kstack z ≠ 0) :
    Stacks (update pages (kstack z) .free) (update kstack z 0) := by
  have cleared := owned.clear z
  refine ⟨?_, fun q other => ?_, cleared.single⟩
  · rw [update_of_ne given.symm]
    exact owned.null
  · have different : kstack z ≠ update kstack z 0 q := by
      by_cases same : q = z
      · subst same
        simp at other
      · rw [update_of_ne same]
        exact fun equal => same (owned.single z q given equal).symm
    rw [update_of_ne different.symm]
    exact cleared.role q other

end

end Stacks

namespace Based

variable {kstack : Slot → Page} {state : Slot → ProcState} {task : Slot → Task} {p np : Slot} {now : Task}
    {new : ProcState}

section

variable (based : Based kstack state task)
include based

theorem revise {stack : Page} (born : Born new → stack ≠ 0)
    (others : ∀ q, q ≠ p → (task q).child = some np → (task q).hasStack = true → stack ≠ 0)
    (mine : ∀ c, now.child = some c → now.hasStack = true → update kstack np stack c ≠ 0) :
    Based (update kstack np stack) (update state np new) (update task p now) := by
  constructor
  · intro q alive
    by_cases same : q = np
    · subst same
      rw [update_self] at alive ⊢
      exact born alive
    · rw [update_of_ne same] at alive ⊢
      exact based.born q alive
  · intro q c child has
    by_cases own : q = p
    · subst own
      rw [update_self] at child has
      exact mine c child has
    · rw [update_of_ne own] at child has
      by_cases same : c = np
      · subst same
        rw [update_self]
        exact others q own child has
      · rw [update_of_ne same]
        exact based.child q c child has

theorem restate (born : Born new → kstack np ≠ 0) (mine : ∀ c, now.child = some c → now.hasStack = true → kstack c ≠ 0) :
    Based kstack (update state np new) (update task p now) := by
  have updated : Based (update kstack np (kstack np)) (update state np new)
      (update task p now) :=
    based.revise born (fun q _ child has => based.child q np child has) (by rwa [update_eq_self])
  rwa [update_eq_self] at updated

theorem retask (mine : ∀ c, now.child = some c → now.hasStack = true → kstack c ≠ 0) : Based kstack state
    (update task p now) := by
  have updated : Based kstack (update state p (state p)) (update task p now) :=
    based.restate (based.born p) mine
  rwa [update_eq_self] at updated

end

end Based

variable {Cpu : Type}

structure Stacked (m : Machine Cpu) : Prop where
  owned : Stacks m.pages m.kstacks
  based : Based m.kstacks m.states m.task

namespace Stacked

variable {m next : Machine Cpu} {op : Option SpaceOp}

section

variable (stacked : Stacked m)
include stacked

theorem quiet (quiet : Quiet m next) : Stacked next := by
  have same : next.kstacks = m.kstacks := funext quiet.kstack
  refine ⟨?_, ?_, ?_⟩
  · rw [quiet.pages, same]
    exact stacked.owned
  · intro q born
    rw [same]
    exact stacked.based.born q ⟨mt (quiet.unused q).mpr born.1, mt (quiet.embryo q).mpr born.2⟩
  · intro p np child has
    obtain ⟨children, -, stack, -⟩ := quiet.tasks p
    rw [same]
    exact stacked.based.child p np (children ▸ child) (stack ▸ has)

/-- As long as freevm gets page directories, a step frees no stack but that of the slot it clears. -/
theorem owned_change (change : SpaceChange m op next)
    (dirs : ∀ taken, op = some taken → ∀ who page, m.freevm taken = some (who, page) → m.pages page = .dir) :
    Stacks next.pages next.kstacks := by
  have owned := stacked.owned
  cases change with
  | same => exact owned
  | page _ _ plain =>
    obtain ⟨before, -⟩ | ⟨before, valid, -⟩ := plain
    · exact owned.repage (by simp [before]) (owned.valid (by simp [before]))
    · exact owned.repage (by simp [before]) valid
  | allocate _ np | ready _ np =>
    rw [kstacks_setTask, kstacks_setProc_same m np rfl]
    exact owned
  | noStack _ np =>
    rw [kstacks_setTask, kstacks_setProc]
    exact owned.clear np
  | stack _ _ _ _ _ _ fresh =>
    rw [kstacks_setTask, kstacks_setProc]
    exact owned.grant fresh
  | noCopy p np task =>
    have given := stacked.based.child p np (by rw [task]; rfl) (by rw [task]; rfl)
    rw [kstacks_setTask, kstacks_setProc]
    exact owned.release given
  | fork _ _ _ _ _ _ fresh =>
    rw [kstacks_setTask, kstacks_setProc_same _ _ rfl]
    exact owned.repage (by simp [fresh]) (owned.valid (by simp [fresh]))
  | clone =>
    rw [kstacks_setTask, kstacks_setProc_same _ _ rfl]
    exact owned
  | exit p =>
    rw [kstacks_setProc_same m p rfl]
    exact owned
  | reap kind z zombie =>
    have given := stacked.based.born z (by simp [Born, zombie])
    have freed := owned.release given
    rw [kstacks_reap]
    change Stacks (m.freeZombie kind z).pages _
    rw [freeZombie_pages]
    split
    · rename_i frees
      have dir := dirs _ rfl (some z) (m.pgdirs z) (by simp [Machine.freevm, frees])
      -- The page directory is no stack, so freeing it comes after freeing the stack.
      have other : m.pgdirs z ≠ m.kstacks z := fun same =>
        absurd (dir.symm.trans (same ▸ owned.role z given)) (by simp)
      refine freed.repage ?_ (owned.valid (by simp [dir]))
      rw [update_of_ne other, dir]
      simp
    · exact freed
  | load _ _ _ fresh => exact owned.repage (by simp [fresh]) (owned.valid (by simp [fresh]))
  | unload _ dir task =>
    have dir := dirs _ rfl none dir (by simp [Machine.freevm, task, image])
    exact owned.repage (by simp [dir]) (owned.valid (by simp [dir]))
  | switch p =>
    have old := dirs _ rfl (some p) (m.pgdirs p) rfl
    rw [kstacks_setTask, kstacks_setProc_same _ _ rfl]
    exact owned.repage (by simp [old]) (owned.valid (by simp [old]))

theorem based_change (change : SpaceChange m op next) : Based next.kstacks next.states next.task := by
  have based := stacked.based
  cases change with
  | same | page => exact based
  | allocate _ np =>
    rw [kstacks_setTask, kstacks_setProc_same m np rfl, states_setTask, states_setProc]
    exact based.restate (fun born => absurd rfl born.2) (by simp [hasStack])
  | noStack _ _ _ _ _ only | noCopy _ _ _ _ only =>
    rw [kstacks_setTask, kstacks_setProc, states_setTask, states_setProc]
    exact based.revise (fun born => absurd rfl born.1) (fun q other child => absurd (only q child) other) (by simp [hasStack])
  | stack p np kind page task _ fresh =>
    have valid : page ≠ 0 := stacked.owned.valid (by simp [fresh])
    have moved : Based (update m.kstacks np page) (update m.states np (m.states np))
        (update m.task p (.stacked kind np)) := by
      refine based.revise (fun _ => valid) (fun _ _ _ _ => valid) fun c child _ => ?_
      cases child
      rw [update_self]
      exact valid
    rw [kstacks_setTask, kstacks_setProc, states_setTask, states_setProc_same _ _ rfl]
    rwa [update_eq_self np m.states] at moved
  | fork p np _ task | clone p np _ task =>
    have given := based.child p np (by rw [task]; rfl) (by rw [task]; rfl)
    rw [kstacks_setTask, kstacks_setProc_same _ _ rfl, states_setTask, states_setProc_same _ _ rfl]
    refine based.retask fun c child _ => ?_
    cases child
    exact given
  | ready p np task =>
    have given := based.child p np (by rw [task]; rfl) (by rw [task]; rfl)
    rw [kstacks_setTask, kstacks_setProc_same m np rfl, states_setTask, states_setProc]
    exact based.restate (fun _ => given) (by simp [hasStack])
  | exit p running =>
    have given := based.born p (by simp [Born, running])
    have moved : Based m.kstacks (update m.states p .zombie)
        (update m.task p (m.task p)) := based.restate (fun _ => given) (based.child p)
    rw [kstacks_setProc_same m p rfl, states_setProc]
    rwa [update_eq_self p m.task] at moved
  | reap kind z _ nobody =>
    have moved : Based (update m.kstacks z 0) (update m.states z .unused)
        (update m.task z (m.task z)) := by
      refine based.revise (fun born => absurd rfl born.1) (fun q _ child => absurd child (nobody q))
        fun c child has => ?_
      have other : c ≠ z := fun same => nobody z (same ▸ child)
      rw [update_of_ne other]
      exact based.child z c child has
    rw [kstacks_reap, states_reap]
    change Based _ _ (m.freeZombie kind z).task
    rw [(freeZombie_same m z kind).2]
    rwa [update_eq_self] at moved
  | load | unload => exact based.retask (by simp [hasStack])
  | switch =>
    rw [kstacks_setTask, kstacks_setProc_same _ _ rfl, states_setTask, states_setProc_same _ _ rfl]
    exact based.retask (by simp [hasStack])

end

theorem boot (policy : Scheduler.Policy) : Stacked (boot policy : Machine Cpu) := by
  have others (q : Slot) (other : q ≠ 0) : (Kernel.boot policy : Machine Cpu).kstacks q = 0 := by
    simp [kstacks, Kernel.boot, other]
  have first {q : Slot} (given : (Kernel.boot policy : Machine Cpu).kstacks q ≠ 0) : q = 0 := by
    by_contra other
    exact given (others q other)
  constructor
  · refine ⟨rfl, fun q given => ?_, fun q r given same => ?_⟩
    · rw [first given]
      rfl
    · exact (first given).trans (first (same ▸ given)).symm
  · refine ⟨fun q born => ?_, by simp [Kernel.boot, Task.child]⟩
    by_cases same : q = 0
    · simp [kstacks, Kernel.boot, same]
    · exact absurd (by simp [states, Kernel.boot, same]) born.1

end Stacked

end Xv6.Kernel
