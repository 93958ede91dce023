import Xv6.Kernel.Exclusivity

namespace Xv6.Kernel

open Process Option
open Function (update update_self update_of_ne update_eq_self update_idem)

/-! What the steps of the machine do to page directories, to kernel stacks and to
the slots that point at them. -/

/-- An operation on address spaces: `load`, `unload` and `switch` are exec's new
page directory, its failure and its success. -/
inductive SpaceOp where
  | fork (np : Slot) (dir : Page)
  | clone (p np : Slot)
  | exit (p : Slot)
  | reap (kind : Reaper) (z : Slot)
  | load (p : Slot) (dir : Page)
  | unload (p : Slot)
  | switch (p : Slot)
deriving DecidableEq, Repr

/-- The page directory an exec in progress is building. -/
def Task.image : Task → Option Page
  | .exec dir => some dir
  | _ => none

/-- Whether the slot that is being set up has its kernel stack. -/
def Task.hasStack : Task → Bool
  | .stacked _ _ | .filled _ => true
  | _ => false

/-- Whether the slot that is being set up has its page directory. -/
def Task.hasSpace : Task → Bool
  | .filled _ => true
  | _ => false

def Task.Idle : Task → Prop
  | .user | .waiting _ => True
  | _ => False

def reapOp (kind : Reaper) : Scan → Option SpaceOp
  | .reap z => some (.reap kind z)
  | _ => none

variable {Cpu : Type}

namespace Machine

variable (m : Machine Cpu)

def actOp (p : Slot) : Action → Option SpaceOp
  | .copyuvm (some dir) => (m.task p).child.map fun np => .fork np dir
  | .shareuvm => (m.task p).child.map fun np => .clone p np
  | .exit => some (.exit p)
  | .wait kind => reapOp kind (kind.scan m.proc p)
  | .execAlloc (some dir) => some (.load p dir)
  | .execBad => some (.unload p)
  | .execCommit _ _ => some (.switch p)
  | _ => none

/-- The operation that a step of the machine is. -/
def spaceOp : Event Cpu → Option SpaceOp
  | .act c action => (m.running c).bind fun p => m.actOp p action
  | .resume c =>
    match m.cpus c with
    | ⟨some p, .resuming⟩ =>
      match (m.proc p).context, m.task p with
      | .sleep, .waiting kind =>
        reapOp kind (kind.scan (m.setProc p fun proc => { proc with chan := none }).proc p)
      | _, _ => none
    | _ => none
  | _ => none

def pgdirs (q : Slot) : Page := (m.proc q).pgdir

def kstacks (q : Slot) : Page := (m.proc q).kstack

/-- The page directory that an operation passes to freevm, and the slot that may still hold it. -/
def freevm : SpaceOp → Option (Option Slot × Page)
  | .reap kind z => if kind.freesSpace then some (some z, m.pgdirs z) else none
  | .unload p => (m.task p).image.map fun dir => (none, dir)
  | .switch p => some (some p, m.pgdirs p)
  | _ => none

end Machine

section

variable (m : Machine Cpu) (p : Slot) {change : Proc → Proc}

@[simp] theorem pgdirs_setTask (task : Task) : (m.setTask p task).pgdirs = m.pgdirs := rfl

theorem pgdirs_setProc (change : Proc → Proc) : (m.setProc p change).pgdirs = update m.pgdirs p (change (m.proc p)).pgdir := by
  funext q
  by_cases same : q = p
  · subst same
    simp [Machine.pgdirs, Machine.setProc]
  · simp [Machine.pgdirs, Machine.setProc, update_of_ne same]

theorem pgdirs_setProc_same (same : (change (m.proc p)).pgdir = (m.proc p).pgdir) :
    (m.setProc p change).pgdirs = m.pgdirs := by
  rw [pgdirs_setProc, same]
  exact update_eq_self p m.pgdirs

@[simp] theorem kstacks_setTask (task : Task) : (m.setTask p task).kstacks = m.kstacks := rfl

theorem kstacks_setProc (change : Proc → Proc) :
    (m.setProc p change).kstacks = update m.kstacks p (change (m.proc p)).kstack := by
  funext q
  by_cases same : q = p
  · subst same
    simp [Machine.kstacks, Machine.setProc]
  · simp [Machine.kstacks, Machine.setProc, update_of_ne same]

theorem kstacks_setProc_same (same : (change (m.proc p)).kstack = (m.proc p).kstack) :
    (m.setProc p change).kstacks = m.kstacks := by
  rw [kstacks_setProc, same]
  exact update_eq_self p m.kstacks

section

variable (kind : Reaper)
include kind

theorem freeZombie_same : (m.freeZombie kind p).proc = m.proc ∧ (m.freeZombie kind p).task = m.task := by
  unfold Machine.freeZombie
  split <;> exact ⟨rfl, rfl⟩

theorem freeZombie_pages : (m.freeZombie kind p).pages =
    if kind.freesSpace then update (update m.pages (m.kstacks p) .free) (m.pgdirs p) .free
    else update m.pages (m.kstacks p) .free := by
  unfold Machine.freeZombie
  split <;> rfl

theorem clear_kstack (proc : Proc) : (kind.clear proc).kstack = 0 := by
  cases kind <;> rfl

theorem clear_pgdir (proc : Proc) : (kind.clear proc).pgdir = proc.pgdir := by
  cases kind <;> rfl

theorem states_reap : ((m.freeZombie kind p).setProc p kind.clear).states = update m.states p .unused := by
  rw [states_setProc, clear_state, states_freeZombie]

theorem kstacks_reap : ((m.freeZombie kind p).setProc p kind.clear).kstacks = update m.kstacks p 0 := by
  rw [kstacks_setProc, clear_kstack]
  change update (fun q => ((m.freeZombie kind p).proc q).kstack) p 0 = _
  rw [(freeZombie_same m p kind).1]
  rfl

theorem pgdirs_reap : ((m.freeZombie kind p).setProc p kind.clear).pgdirs = m.pgdirs := by
  rw [pgdirs_setProc_same _ _ (clear_pgdir kind _)]
  change (fun q => ((m.freeZombie kind p).proc q).pgdir) = _
  rw [(freeZombie_same m p kind).1]
  rfl

end

end

section

variable {α : Type} (field : Proc → α) {table : Table} {p : Slot} {left right : Proc}

theorem field_keep (same : field left = field (table p)) (q : Slot) : field (update table p left q) = field (table q) := by
  refine (Function.forall_update_iff table fun q proc => field proc = field (table q)).mpr ⟨same, ?_⟩ q
  intro q _
  rfl

theorem field_update (same : field left = field right) (q : Slot) :
    field (update table p left q) = field (update table p right q) := by
  have own : field left = field (update table p right p) := by rw [update_self, same]
  have kept := field_keep field own q
  rwa [update_idem] at kept

end

/-- Nothing changes about memory, and processes stay on their side of birth and death. -/
structure Quiet (m next : Machine Cpu) : Prop where
  pages : next.pages = m.pages
  pgdir : ∀ q, next.pgdirs q = m.pgdirs q
  kstack : ∀ q, next.kstacks q = m.kstacks q
  state : ∀ q, next.states q = m.states q ∨ Live (m.states q) ∧ Live (next.states q)
  task : ∀ q, next.task q = m.task q ∨ (m.task q).Idle ∧ (next.task q).Idle

namespace Quiet

variable {m next : Machine Cpu} {new : Proc}

theorem refl (m : Machine Cpu) : Quiet m m :=
  ⟨rfl, fun _ => rfl, fun _ => rfl, fun _ => .inl rfl, fun _ => .inl rfl⟩

section

variable (quiet : Quiet m next)
include quiet

theorem state_eq {q : Slot} {state : ProcState} (dead : ¬ Live state) :
    next.states q = state ↔ m.states q = state := by
  cases quiet.state q with
  | inl same => rw [same]
  | inr live =>
    constructor
    · intro now
      exact absurd (now ▸ live.2) dead
    · intro before
      exact absurd (before ▸ live.1) dead

theorem unused (q : Slot) : next.states q = .unused ↔ m.states q = .unused :=
  quiet.state_eq (by simp [Live])

theorem embryo (q : Slot) : next.states q = .embryo ↔ m.states q = .embryo :=
  quiet.state_eq (by simp [Live])

theorem zombie (q : Slot) : next.states q = .zombie ↔ m.states q = .zombie :=
  quiet.state_eq (by simp [Live])

theorem tasks (q : Slot) :
    (next.task q).child = (m.task q).child ∧ (next.task q).image = (m.task q).image ∧
      (next.task q).hasStack = (m.task q).hasStack ∧ (next.task q).hasSpace = (m.task q).hasSpace := by
  have idle {task : Task} (idle : task.Idle) :
      task.child = none ∧ task.image = none ∧ task.hasStack = false ∧ task.hasSpace = false := by
    cases task with
    | user | waiting => exact ⟨rfl, rfl, rfl, rfl⟩
    | allocated | stacked | filled | exec => exact idle.elim
  cases quiet.task q with
  | inl same => rw [same]; exact ⟨rfl, rfl, rfl, rfl⟩
  | inr both =>
    obtain ⟨child, image, stack, space⟩ := idle both.1
    obtain ⟨child', image', stack', space'⟩ := idle both.2
    exact ⟨child'.trans child.symm, image'.trans image.symm, stack'.trans stack.symm, space'.trans space.symm⟩

end

theorem ofTable (table : Table) (fields : ∀ q, (table q).pgdir = (m.proc q).pgdir ∧ (table q).kstack = (m.proc q).kstack)
    (state : ∀ q, (table q).state = (m.proc q).state ∨ Live (m.proc q).state ∧ Live (table q).state)
    (pages : next.pages = m.pages) (proc : next.proc = table)
    (task : ∀ q, next.task q = m.task q ∨ (m.task q).Idle ∧ (next.task q).Idle) : Quiet m next := by
  subst proc
  exact ⟨pages, fun q => (fields q).1, fun q => (fields q).2, state, task⟩

theorem idle_update {task : Slot → Task} {p : Slot} {new : Task} (before : (task p).Idle) (after : new.Idle) (q : Slot) :
    update task p new q = task q ∨ (task q).Idle ∧ (update task p new q).Idle := by
  refine (Function.forall_update_iff task fun q now => now = task q ∨ (task q).Idle ∧ now.Idle).mpr ⟨.inr ⟨before, after⟩, ?_⟩ q
  intro q _
  exact .inl rfl

theorem state_woken {before after : ProcState} (move : after = before ∨ before = .sleeping ∧ after = .runnable) :
    after = before ∨ Live before ∧ Live after := by
  cases move with
  | inl same => exact .inl same
  | inr woken => exact .inr ⟨.inr (.inr woken.1), .inr (.inl woken.2)⟩

theorem state_update {table : Table} {p : Slot} (before : Live (table p).state) (after : Live new.state) (q : Slot) :
    (update table p new q).state = (table q).state ∨ Live (table q).state ∧ Live (update table p new q).state := by
  refine (Function.forall_update_iff table fun q now => now.state = (table q).state ∨
    Live (table q).state ∧ Live now.state).mpr ⟨.inr ⟨before, after⟩, ?_⟩ q
  intro q _
  exact .inl rfl

theorem ofUpdate {p : Slot} (proc : next.proc = update m.proc p new)
    (pgdir : new.pgdir = (m.proc p).pgdir) (kstack : new.kstack = (m.proc p).kstack)
    (state : new.state = (m.proc p).state ∨ Live (m.proc p).state ∧ Live new.state) (pages : next.pages = m.pages)
    (task : ∀ q, next.task q = m.task q ∨ (m.task q).Idle ∧ (next.task q).Idle) : Quiet m next := by
  refine ofTable (update m.proc p new)
    (fun q => ⟨field_keep (·.pgdir) pgdir q, field_keep (·.kstack) kstack q⟩) (fun q => ?_) pages proc task
  cases state with
  | inl same => exact .inl (field_keep (·.state) same q)
  | inr live => exact state_update live.1 live.2 q

theorem ofSlot {table : Table} {p : Slot} {left right : Proc} (before : m.proc = update table p left)
    (after : next.proc = update table p right) (pgdir : right.pgdir = left.pgdir)
    (kstack : right.kstack = left.kstack) (state : right.state = left.state) (pages : next.pages = m.pages)
    (task : ∀ q, next.task q = m.task q ∨ (m.task q).Idle ∧ (next.task q).Idle) : Quiet m next := by
  refine ofTable (update table p right) (fun q => ?_) (fun q => .inl ?_) pages after task
  · rw [before]
    exact ⟨field_update (·.pgdir) pgdir q, field_update (·.kstack) kstack q⟩
  · rw [before]
    exact field_update (·.state) state q

theorem ofTask (pages : next.pages = m.pages) (proc : next.proc = m.proc)
    (task : ∀ q, next.task q = m.task q ∨ (m.task q).Idle ∧ (next.task q).Idle) : Quiet m next :=
  ofTable m.proc (fun _ => ⟨rfl, rfl⟩) (fun _ => .inl rfl) pages proc task

end Quiet

/-- The changes to memory and to who points at it, each in the plainest machine that has it. -/
inductive SpaceChange (m : Machine Cpu) : Option SpaceOp → Machine Cpu → Prop where
  | same : SpaceChange m none m
  | page (page : Page) (use : PageUse)
      (plain : m.pages page = .free ∧ use = .other ∨ m.pages page = .other ∧ page ≠ 0 ∧ use = .free) :
      SpaceChange m none (m.setPage page use)
  | allocate (p np : Slot) (kind : Creation) (task : m.task p = .user) (unused : m.states np = .unused)
      (nobody : ∀ q, (m.task q).child ≠ some np) :
      SpaceChange m none
        ((m.setProc np fun proc => { proc with state := .embryo }).setTask p (.allocated kind np))
  | noStack (p np : Slot) (kind : Creation) (task : m.task p = .allocated kind np)
      (embryo : m.states np = .embryo) (only : ∀ q, (m.task q).child = some np → q = p) :
      SpaceChange m none
        ((m.setProc np fun proc => { proc with kstack := 0, state := .unused }).setTask p .user)
  | stack (p np : Slot) (kind : Creation) (page : Page) (task : m.task p = .allocated kind np)
      (embryo : m.states np = .embryo) (fresh : m.pages page = .free) :
      SpaceChange m none (((m.setPage page .kstack).setProc np fun proc =>
        { proc with kstack := page }).setTask p (.stacked kind np))
  | noCopy (p np : Slot) (task : m.task p = .stacked .fork np) (embryo : m.states np = .embryo)
      (only : ∀ q, (m.task q).child = some np → q = p) :
      SpaceChange m none (((m.setPage (m.kstacks np) .free).setProc np fun proc =>
        { proc with pgdir := 0, kstack := 0, state := .unused }).setTask p .user)
  | fork (p np : Slot) (dir : Page) (task : m.task p = .stacked .fork np) (embryo : m.states np = .embryo)
      (only : ∀ q, (m.task q).child = some np → q = p) (fresh : m.pages dir = .free) :
      SpaceChange m (some (.fork np dir))
        (((m.setPage dir .dir).setProc np fun proc => { proc with pgdir := dir }).setTask p (.filled np))
  | clone (p np : Slot) (stack : UInt32) (task : m.task p = .stacked (.clone stack) np)
      (embryo : m.states np = .embryo) (only : ∀ q, (m.task q).child = some np → q = p)
      (running : m.states p = .running) :
      SpaceChange m (some (.clone p np))
        ((m.setProc np fun proc => { proc with pgdir := m.pgdirs p }).setTask p (.filled np))
  | ready (p np : Slot) (task : m.task p = .filled np) (embryo : m.states np = .embryo) :
      SpaceChange m none ((m.setProc np fun proc => { proc with state := .runnable }).setTask p .user)
  | exit (p : Slot) (running : m.states p = .running) :
      SpaceChange m (some (.exit p)) (m.setProc p fun proc => { proc with state := .zombie })
  | reap (kind : Reaper) (z : Slot) (zombie : m.states z = .zombie)
      (nobody : ∀ q, (m.task q).child ≠ some z) :
      SpaceChange m (some (.reap kind z)) ((m.freeZombie kind z).setProc z kind.clear)
  | load (p : Slot) (dir : Page) (task : m.task p = .user) (fresh : m.pages dir = .free) :
      SpaceChange m (some (.load p dir)) ((m.setPage dir .dir).setTask p (.exec dir))
  | unload (p : Slot) (dir : Page) (task : m.task p = .exec dir) :
      SpaceChange m (some (.unload p)) ((m.setPage dir .free).setTask p .user)
  | switch (p : Slot) (dir : Page) (task : m.task p = .exec dir) (running : m.states p = .running) :
      SpaceChange m (some (.switch p)) (((m.setPage (m.pgdirs p) .free).setProc p fun proc =>
        { proc with pgdir := dir }).setTask p .user)

/-- A step is a change of memory between steps that change nothing about it. -/
inductive SpaceMove (m : Machine Cpu) (op : Option SpaceOp) (next : Machine Cpu) : Prop where
  | intro (start middle : Machine Cpu) (before : Quiet m start) (change : SpaceChange start op middle)
      (after : Quiet middle next)

namespace SpaceMove

variable {m next : Machine Cpu} {op : Option SpaceOp}

theorem quiet (quiet : Quiet m next) : SpaceMove m none next := ⟨m, m, .refl m, .same, quiet⟩

theorem change {middle : Machine Cpu} (change : SpaceChange m op middle) (after : Quiet middle next) :
    SpaceMove m op next := ⟨m, middle, .refl m, change, after⟩

end SpaceMove

variable {m next : Machine Cpu} {c : Cpu} {p : Slot} [DecidableEq Cpu]

theorem ReapMove.space {kind : Reaper} (tasked : Tasked m.task m.states) (running : m.states p = .running)
    (idle : (m.task p).Idle) (move : ReapMove m c p kind next) :
    ∃ middle, SpaceChange m (reapOp kind (kind.scan m.proc p)) middle ∧ Quiet middle next := by
  cases move with
  | reaped z scan child zombie =>
    rw [scan]
    have nobody (q : Slot) : (m.task q).child ≠ some z := fun mine =>
      absurd (zombie.symm.trans (tasked.embryo q z mine)) (by simp)
    refine ⟨_, .reap kind z zombie nobody, .ofTask rfl rfl (Quiet.idle_update ?_ trivial)⟩
    change ((m.freeZombie kind z).task p).Idle
    rw [(freeZombie_same m z kind).2]
    exact idle
  | failed scan =>
    rw [scan]
    exact ⟨m, .same, .ofTask rfl rfl (Quiet.idle_update idle trivial)⟩
  | blocked scan =>
    rw [scan]
    exact ⟨m, .same, .ofUpdate rfl rfl rfl (.inr ⟨.inl running, .inr (.inr rfl)⟩) rfl (Quiet.idle_update idle trivial)⟩

theorem ActMove.space {action : Action} (orderly : Orderly m) (here : m.cpus c = ⟨some p, .process⟩)
    (move : ActMove m c p action next) : SpaceMove m (m.actOp p action) next := by
  have tasked := orderly.tasked
  have running : m.states p = .running := orderly.placed.running c p (by rw [here]) (by simp [here])
  have live : Live (m.states p) := .inl running
  have embryo {np : Slot} (child : (m.task p).child = some np) : m.states np = .embryo := tasked.embryo p np child
  have only {np : Slot} (child : (m.task p).child = some np) (q : Slot) (also : (m.task q).child = some np) :
      q = p := tasked.single q p np also child
  have still (q : Slot) : m.task q = m.task q ∨ (m.task q).Idle ∧ (m.task q).Idle := .inl rfl
  have returns (task : m.task p = .user) (q : Slot) : update m.task p .user q = m.task q ∨
      (m.task q).Idle ∧ (update m.task p .user q).Idle :=
    Quiet.idle_update (by rw [task]; trivial) (by trivial) q
  cases move with
  | yield => exact .quiet (.ofUpdate rfl rfl rfl (.inr ⟨live, .inr (.inl rfl)⟩) rfl still)
  | sleep => exact .quiet (.ofUpdate rfl rfl rfl (.inr ⟨live, .inr (.inr rfl)⟩) rfl still)
  | kill pid _ task =>
    refine .quiet (.ofTable _ (fun q => ?_) (fun q => Quiet.state_woken (states_kill m pid q)) rfl rfl (returns task))
    rw [killTable_fields]
    exact ⟨rfl, rfl⟩
  | full _ task _ creates =>
    obtain rfl | ⟨stack, rfl⟩ := creates
    · exact .quiet (.ofTask rfl rfl (returns task))
    · exact .quiet (.ofTask rfl rfl (returns task))
  | create _ kind np _ task unused creates =>
    have none : m.actOp p action = none := by
      obtain ⟨rfl, _⟩ | ⟨stack, rfl, _⟩ := creates
      · rfl
      · rfl
    have nobody (q : Slot) : (m.task q).child ≠ some np := fun mine =>
      absurd (unused.symm.trans (tasked.embryo q np mine)) (by simp)
    rw [none]
    exact .change (.allocate p np kind task unused nobody) (.ofSlot rfl rfl rfl rfl rfl rfl fun _ => .inl rfl)
  | noStack kind np task =>
    have child : (m.task p).child = some np := by rw [task]; rfl
    exact .change (.noStack p np kind task (embryo child) (only child)) (.ofTask rfl rfl fun _ => .inl rfl)
  | kstack kind np page task fresh =>
    have child : (m.task p).child = some np := by rw [task]; rfl
    exact .change (.stack p np kind page task (embryo child) fresh) (.ofSlot rfl rfl rfl rfl rfl rfl fun _ => .inl rfl)
  | noCopy np task =>
    have child : (m.task p).child = some np := by rw [task]; rfl
    exact .change (.noCopy p np task (embryo child) (only child)) (.ofTask rfl rfl fun _ => .inl rfl)
  | copyuvm np dir task fresh =>
    have child : (m.task p).child = some np := by rw [task]; rfl
    simp only [Machine.actOp, child, map_some]
    exact .change (.fork p np dir task (embryo child) (only child) fresh) (.ofSlot rfl rfl rfl rfl rfl rfl fun _ => .inl rfl)
  | shareuvm np stack task =>
    have child : (m.task p).child = some np := by rw [task]; rfl
    simp only [Machine.actOp, child, map_some]
    exact .change (.clone p np stack task (embryo child) (only child) running) (.ofSlot rfl rfl rfl rfl rfl rfl fun _ => .inl rfl)
  | ready np task =>
    have child : (m.task p).child = some np := by rw [task]; rfl
    exact .change (.ready p np task (embryo child)) (.ofTask rfl rfl fun _ => .inl rfl)
  | exit =>
    -- To the other slots exit is wakeups and new parents only.
    refine .change (.exit p running) (.ofTable (exitTable m.proc m.initproc p) (fun q => ?_) (fun q => ?_) rfl
      rfl still)
    · by_cases same : q = p
      · subst same
        rw [(exitTable_self m.proc m.initproc q).2]
        simp [Machine.setProc]
      · rw [(exitTable_other m.proc m.initproc same).fields]
        simp [Machine.setProc, update_of_ne same]
    · by_cases same : q = p
      · subst same
        exact .inl ((exitTable_self m.proc m.initproc q).1.trans (by simp [Machine.setProc]))
      · rw [show (m.setProc p fun proc => { proc with state := .zombie }).proc q = m.proc q from
          update_of_ne same _ _]
        exact Quiet.state_woken (exitTable_other m.proc m.initproc same).state
  | wait _ _ _ task reap =>
    obtain ⟨_, change, after⟩ := reap.space tasked running (by rw [task]; trivial)
    exact .change change after
  | noImage task | badScheduler _ task | setscheduler _ task => exact .quiet (.ofTask rfl rfl (returns task))
  | execAlloc dir task fresh => exact .change (.load p dir task fresh) (.refl _)
  | execBad dir task => exact .change (.unload p dir task) (.ofTask rfl rfl fun _ => .inl rfl)
  | execCommit dir _ _ task =>
    exact .change (.switch p dir task running) (.ofSlot rfl rfl rfl rfl rfl rfl fun _ => .inl rfl)

omit [DecidableEq Cpu] in
theorem Orderly.rescan {kind : Reaper} (orderly : Orderly m) (here : m.cpus c = ⟨some p, .resuming⟩) (task : m.task p = .waiting kind) :
    Tasked m.task (m.setProc p fun proc => { proc with chan := none }).states ∧
      (m.setProc p fun proc => { proc with chan := none }).states p = .running ∧ (m.task p).Idle := by
  rw [states_setProc_same m p rfl, task]
  exact ⟨orderly.tasked, orderly.placed.running c p (by rw [here]) (by simp [here]), trivial⟩

theorem Move.space {event : Event Cpu} (orderly : Orderly m) (move : Move m event next) : SpaceMove m (m.spaceOp event) next := by
  have still (q : Slot) : m.task q = m.task q ∨ (m.task q).Idle ∧ (m.task q).Idle := .inl rfl
  cases move with
  | idle | retire | tick => exact .quiet (.ofTask rfl rfl still)
  | dispatch _ _ _ p _ _ choice =>
    have ready : Live (m.states p) := .inr (.inl ((orderly.choice choice).2 p rfl))
    exact .quiet (.ofUpdate rfl rfl rfl (.inr ⟨ready, .inl rfl⟩) rfl still)
  | resume c _ here context =>
    have none : m.spaceOp (.resume c) = none := by
      simp only [Machine.spaceOp, here]
      split
      · rename_i asleep waiting
        exact absurd asleep context
      · rfl
    rw [none]
    exact .quiet (.ofTask rfl rfl still)
  | awake c _ here _ task =>
    have none : m.spaceOp (.resume c) = none := by
      simp only [Machine.spaceOp, here]
      split
      · rename_i kind asleep waiting
        exact absurd waiting (task kind)
      · rfl
    rw [none]
    exact .quiet (.ofUpdate rfl rfl rfl (.inl rfl) rfl still)
  | rescan c p _ _ here context task reap =>
    obtain ⟨tasked, running, idle⟩ := orderly.rescan here task
    have cleared : Quiet m (m.setProc p fun proc => { proc with chan := none }) := .ofUpdate rfl rfl rfl (.inl rfl) rfl still
    obtain ⟨middle, change, after⟩ := reap.space tasked running idle
    simp only [Machine.spaceOp, here, context, task]
    exact ⟨_, middle, cleared, change, after⟩
  | act c p _ _ here act =>
    have on : m.running c = some p := by simp [Machine.running, here]
    simp only [Machine.spaceOp, on, bind_some]
    exact act.space orderly here
  | wakeup chan =>
    refine .quiet (.ofTable _ (fun q => ?_) (fun q => Quiet.state_woken (wakeup1_stirred m.proc chan q).state)
      rfl rfl still)
    rw [(wakeup1_stirred m.proc chan q).fields]
    exact ⟨rfl, rfl⟩
  | updateStatistics =>
    refine .quiet (.ofTable _ (fun q => ?_) (fun q => .inl (updateStatistics_state m.proc q)) rfl rfl still)
    rw [updateStatistics_fields]
    exact ⟨rfl, rfl⟩
  | kalloc page fresh => exact .change (.page page .other (.inl ⟨fresh, rfl⟩)) (.refl _)
  | kfree page used valid => exact .change (.page page .free (.inr ⟨used, valid, rfl⟩)) (.refl _)

end Xv6.Kernel
