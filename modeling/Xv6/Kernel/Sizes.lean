import Xv6.Kernel.Life
import Xv6.Memory.Uvm

namespace Xv6.Kernel

open Process Data Memory Option
open Function (update update_self update_of_ne update_eq_self)
open Machine (freevm spaceOp)

/-! The sizes that slots record for their address spaces. clone copies `sz` with
the page directory, and growproc then changes the `sz` of its caller only. -/

/-- The machine with what page directories map below KERNBASE and exec's local
`sz`. `remap` is set by the panic of mappages. -/
structure Spaces (Cpu : Type) where
  machine : Machine Cpu
  user : Page → Pages
  image : Slot → UInt32 := fun _ => 0
  remap : Bool := false

/-- `memory` is the number of pages that kalloc has for the call. `execLoad` and
`execStack` are exec's two uses of allocuvm. -/
inductive SpaceEvent (Cpu : Type) where
  | kernel (event : Event Cpu)
  | sbrk (c : Cpu) (n : Int32) (memory : Nat)
  | execLoad (c : Cpu) (newsz : UInt32) (memory : Nat)
  | execStack (c : Cpu) (memory : Nat)
deriving DecidableEq, Repr

/-- kfree fills a page with ones, and such an entry reads as present. -/
def junk : Pages := fun _ => true

variable {Cpu : Type}

def Machine.caller (m : Machine Cpu) : Event Cpu → Option Slot
  | .act c _ => m.running c
  | _ => none

namespace Spaces

variable [DecidableEq Cpu] (t : Spaces Cpu) (p : Slot)

/-- The page directories after a step of the machine; none is a panic of copyuvm. -/
def userAfter (event : Event Cpu) : Option (Page → Pages) :=
  match t.machine.spaceOp event with
  | some (.fork _ dir) => (t.machine.caller event).bind fun p =>
    (copyuvm (t.user (t.machine.pgdirs p)) (t.machine.proc p).sz).map (update t.user dir)
  | some (.load _ dir) => some (update t.user dir fun _ => false)
  | some op =>
    match t.machine.freevm op with
    | some (_, page) => some (update t.user page junk)
    | none => some t.user
  | none => some t.user

def imageAfter (event : Event Cpu) : Slot → UInt32 :=
  match t.machine.spaceOp event with
  | some (.load p _) => update t.image p 0
  | _ => t.image

/-- exec commits to the size it has reached. -/
def commits : Event Cpu → Bool
  | .act c (.execCommit sz _) => (t.machine.running c).all fun p => sz == t.image p
  | _ => true

def kernel (event : Event Cpu) : Option (Spaces Cpu) :=
  if t.commits event = true then
    match t.userAfter event, t.machine.step event with
    | some user, some machine => some { t with machine, user, image := t.imageAfter event }
    | _, _ => none
  else none

/-- sys_sbrk: growproc, and the size before it as the result. -/
def sbrk (n : Int32) (memory : Nat) : Option (Spaces Cpu) :=
  if t.machine.task p = .user then
    match growproc memory (t.user (t.machine.pgdirs p)) (t.machine.proc p).sz n with
    | none => some { t with remap := true }
    | some (result, sz, pages) => some { t with
        machine := (t.machine.setProc p fun proc => { proc with sz := sz }).finish p
          (if result < 0 then -1 else (t.machine.proc p).sz.toInt32)
        user := update t.user (t.machine.pgdirs p) pages }
  else none

/-- allocuvm in exec, with the way to `bad` when it returns 0. -/
def execGrow (oldsz newsz : UInt32) (memory : Nat) : Option (Spaces Cpu) :=
  match t.machine.task p with
  | .exec dir =>
    match allocuvm memory (t.user dir) oldsz newsz with
    | none => some { t with remap := true }
    | some (size, pages) =>
      if size = 0 then t.machine.execBad p |>.map fun machine =>
        { t with machine, user := update t.user dir junk }
      else some { t with user := update t.user dir pages, image := update t.image p size }
  | _ => none

def step (event : SpaceEvent Cpu) : Option (Spaces Cpu) :=
  if t.remap = true then none
  else
    match event with
    | .kernel event => t.kernel event
    | .sbrk c n memory => (t.machine.running c).bind fun p => t.sbrk p n memory
    | .execLoad c newsz memory => (t.machine.running c).bind fun p => t.execGrow p (t.image p) newsz memory
    | .execStack c memory => (t.machine.running c).bind fun p =>
      t.execGrow p (PGROUNDUP (t.image p)) (PGROUNDUP (t.image p) + 2 * PGSIZE) memory

def boot (policy : Scheduler.Policy) : Spaces Cpu where
  machine := Kernel.boot policy
  user := fun page v => page == 1 && v == 0

end Spaces

def InUse (state : ProcState) : Prop := state ≠ .unused ∧ state ≠ .zombie

instance (state : ProcState) : Decidable (InUse state) := inferInstanceAs (Decidable (_ ∧ _))

def LifeOp.allocated : LifeOp → Option Slot
  | .allocate _ np _ => some np
  | _ => none

namespace Machine

variable (m : Machine Cpu)

/-- No slot in use but `who` points at the page directory, and no exec is building it. -/
def Unshared (who : Option Slot) (page : Page) : Prop :=
  ∀ q, who ≠ some q → (InUse (m.proc q).state → m.pgdirs q ≠ page) ∧ m.task q ≠ .exec page

instance (who : Option Slot) (page : Page) : Decidable (m.Unshared who page) := inferInstanceAs (Decidable (∀ _, _ → _))

/-- The page directories an operation writes or frees, with the slot that may point at them. -/
def touches : SpaceOp → List (Option Slot × Page)
  | .fork np dir => [(some np, dir)]
  | .load _ dir => [(none, dir)]
  | .reap kind z => if kind.freesSpace then [(some z, m.pgdirs z)] else []
  | .switch p => (some p, m.pgdirs p) :: (m.task p).image.toList.map fun dir => (some p, dir)
  | .clone _ _ | .exit _ | .unload _ => []

end Machine

/-- sbrk changes the size only of an address space with one slot; a page directory
is filled or freed only when nobody else points at it; and the slot that allocproc
finds does not point, from its last life, at one in use with another size. -/
def SizesKept (t : Spaces Cpu) (event : SpaceEvent Cpu) (next : Spaces Cpu) : Prop :=
  match event with
  | .kernel event => KnownPolicy t.machine event next.machine ∧
      (∀ np ∈ (t.machine.lifeOp event).bind LifeOp.allocated, ∀ q, InUse (t.machine.proc q).state →
        t.machine.pgdirs q = t.machine.pgdirs np → (t.machine.proc q).sz = (t.machine.proc np).sz) ∧
      ∀ op ∈ t.machine.spaceOp event, ∀ touch ∈ t.machine.touches op, t.machine.Unshared touch.1 touch.2
  | .sbrk c n _ => n ≠ 0 → ∀ p ∈ t.machine.running c, t.machine.Unshared (some p) (t.machine.pgdirs p)
  | .execLoad _ _ _ | .execStack _ _ => True

/-- Slots in use with one page directory record one size, mappages has not
panicked, and no process has pages above its size. -/
structure SizesAgree (_ : Spaces Cpu) (_ : SpaceEvent Cpu) (next : Spaces Cpu) : Prop where
  agree : ∀ q r, InUse (next.machine.proc q).state → InUse (next.machine.proc r).state →
    (next.machine.proc q).pgdir = (next.machine.proc r).pgdir →
    (next.machine.proc q).sz = (next.machine.proc r).sz
  remap : next.remap = false
  below : ∀ q, Live (next.machine.proc q).state → Below (next.user (next.machine.proc q).pgdir) (next.machine.proc q).sz

/-- The slot has its own page directory: it is not one that fork or clone is still setting up. -/
def Machine.Filled (m : Machine Cpu) (q : Slot) : Prop := ∀ p, (m.task p).child = some q → (m.task p).hasSpace = true

def SameSpace (before after : Proc) : Prop :=
  InUse after.state → InUse before.state ∧ after.pgdir = before.pgdir ∧ after.sz = before.sz

namespace SameSpace

variable {before after : Proc} {table : Table} {p : Slot}

theorem refl (proc : Proc) : SameSpace proc proc := fun used => ⟨used, rfl, rfl⟩

theorem update {new : Proc} (same : SameSpace (table p) new) (q : Slot) :
    SameSpace (table q) (Function.update table p new q) := by
  refine (Function.forall_update_iff table fun q now => SameSpace (table q) now).mpr ⟨same, ?_⟩ q
  intro q _
  exact .refl _

theorem woken (state : after.state = before.state ∨ before.state = .sleeping ∧ after.state = .runnable)
    (pgdir : after.pgdir = before.pgdir) (sz : after.sz = before.sz) : SameSpace before after := by
  intro used
  refine ⟨?_, pgdir, sz⟩
  rcases state with same | ⟨asleep, -⟩
  · rwa [same] at used
  · simp [InUse, asleep]

theorem trans {middle : Proc} (first : SameSpace before middle) (second : SameSpace middle after) : SameSpace before after := by
  intro used
  obtain ⟨between, dir, size⟩ := second used
  obtain ⟨start, pgdir, sz⟩ := first between
  exact ⟨start, dir.trans pgdir, size.trans sz⟩

theorem stirred (stirred : Stirred before after) : SameSpace before after := by
  have fields := stirred.fields
  exact woken stirred.state (by rw [fields]) (by rw [fields])

end SameSpace

/-- No slot that is in use changes its page directory or its size, and none comes into use. -/
structure SizeCalm (m next : Machine Cpu) : Prop where
  slot : ∀ q, SameSpace (m.proc q) (next.proc q)
  filled : ∀ q, InUse (next.proc q).state → next.Filled q → m.Filled q
  image : ∀ p dir, next.task p = .exec dir → m.task p = .exec dir

namespace SizeCalm

variable {m next : Machine Cpu}

theorem ofTable (slot : ∀ q, SameSpace (m.proc q) (next.proc q)) (task : next.task = m.task) : SizeCalm m next where
  slot := slot
  filled := by
    intro q _ filled
    unfold Machine.Filled at filled ⊢
    rwa [task] at filled
  image := by
    intro p dir
    rw [task]
    exact id

theorem ofTask (p : Slot) (new : Task) (slot : ∀ q, SameSpace (m.proc q) (next.proc q))
    (task : next.task = update m.task p new) (image : ∀ dir, new ≠ .exec dir)
    (child : ∀ np, (m.task p).child = some np → (m.task p).hasSpace = false → InUse (next.proc np).state →
      new.child = some np ∧ new.hasSpace = false) : SizeCalm m next where
  slot := slot
  filled := by
    intro q used filled r mine
    by_cases same : r = p
    · subst same
      by_contra space
      obtain ⟨still, none⟩ := child q mine (by simpa using space) used
      have now := filled r
      rw [task, update_self, none] at now
      exact absurd (now still) (by simp)
    · have now := filled r
      rw [task, update_of_ne same] at now
      exact now mine
  image := by
    intro r dir building
    rw [task] at building
    by_cases same : r = p
    · subst same
      rw [update_self] at building
      exact absurd building (image dir)
    · rwa [update_of_ne same] at building

theorem ofIdle (p : Slot) (new : Task) (slot : ∀ q, SameSpace (m.proc q) (next.proc q))
    (task : next.task = update m.task p new) (image : ∀ dir, new ≠ .exec dir) (idle : (m.task p).child = none) : SizeCalm m next :=
  ofTask p new slot task image fun np mine => absurd (idle.symm.trans mine) (by simp)

end SizeCalm

def SpaceOp.Tame : Option SpaceOp → Prop
  | none | some (.exit _) | some (.reap _ _) | some (.unload _) => True
  | _ => False

/-- The steps by what they do to page directories and sizes of slots in use. -/
inductive SizeMove (m : Machine Cpu) : Event Cpu → Machine Cpu → Prop where
  | calm (event : Event Cpu) (next : Machine Cpu) (tame : SpaceOp.Tame (m.spaceOp event)) (calm : SizeCalm m next) :
      SizeMove m event next
  | allocate (event : Event Cpu) (next : Machine Cpu) (p np : Slot) (kind : Creation) (new : Proc)
      (quiet : m.spaceOp event = none) (named : m.lifeOp event = some (.allocate p np kind))
      (user : m.task p = .user) (unused : (m.proc np).state = .unused)
      (pgdir : new.pgdir = (m.proc np).pgdir) (sz : new.sz = (m.proc np).sz)
      (proc : next.proc = update m.proc np new)
      (task : next.task = update m.task p (.allocated kind np)) : SizeMove m event next
  | fork (c : Cpu) (next : Machine Cpu) (p np : Slot) (dir : Page) (here : m.running c = some p)
      (running : (m.proc p).state = .running) (busy : m.task p = .stacked .fork np)
      (proc : next.proc = update m.proc np (forkProc (m.proc np) (m.proc p) p dir))
      (task : next.task = update m.task p (.filled np)) :
      SizeMove m (.act c (.copyuvm (some dir))) next
  | clone (c : Cpu) (next : Machine Cpu) (p np : Slot) (stack : UInt32) (here : m.running c = some p)
      (running : (m.proc p).state = .running) (busy : m.task p = .stacked (.clone stack) np)
      (proc : next.proc = update m.proc np (cloneProc (m.proc np) (m.proc p) p stack))
      (task : next.task = update m.task p (.filled np)) : SizeMove m (.act c .shareuvm) next
  | load (c : Cpu) (next : Machine Cpu) (p : Slot) (dir : Page) (here : m.running c = some p)
      (user : m.task p = .user) (proc : next.proc = m.proc)
      (task : next.task = update m.task p (.exec dir)) : SizeMove m (.act c (.execAlloc (some dir))) next
  | switch (c : Cpu) (next : Machine Cpu) (p : Slot) (dir : Page) (sz : UInt32) (name : List UInt8)
      (here : m.running c = some p) (running : (m.proc p).state = .running) (building : m.task p = .exec dir)
      (proc : next.proc = update m.proc p { m.proc p with pgdir := dir, sz := sz, name := name })
      (task : next.task = update m.task p .user) : SizeMove m (.act c (.execCommit sz name)) next

section

variable {m next : Machine Cpu} {c : Cpu} {p : Slot} [DecidableEq Cpu]

theorem clear_sameSpace (kind : Reaper) (proc : Proc) : SameSpace proc (kind.clear proc) := by
  intro used
  exact absurd (clear_state kind proc) used.1

theorem ReapMove.sizes {kind : Reaper} (running : (m.proc p).state = .running) (idle : (m.task p).child = none)
    (move : ReapMove m c p kind next) : SizeCalm m next ∧ SpaceOp.Tame (reapOp kind (kind.scan m.proc p)) := by
  cases move with
  | reaped z scan =>
    obtain ⟨proc, task⟩ := freeZombie_same m z kind
    refine ⟨.ofIdle p .user ?_ ?_ (by simp) idle, by rw [scan]; trivial⟩
    · intro q
      change SameSpace (m.proc q) (update (m.freeZombie kind z).proc z
        (kind.clear ((m.freeZombie kind z).proc z)) q)
      rw [proc]
      exact .update (clear_sameSpace kind _) q
    · change update (m.freeZombie kind z).task p .user = _
      rw [task]
  | failed scan =>
    exact ⟨.ofIdle p .user (fun q => .refl _) rfl (by simp) idle, by rw [scan]; trivial⟩
  | blocked scan _ some =>
    have asleep : SameSpace (m.proc p)
        { m.proc p with chan := Option.some (.proc p), state := .sleeping, context := .sleep } :=
      fun _ => ⟨by simp [InUse, running], rfl, rfl⟩
    exact ⟨.ofIdle p (.waiting kind) asleep.update rfl (by simp) idle, by rw [scan]; trivial⟩

theorem act_sizes {action : Action} (orderly : Orderly m) (here : m.cpus c = ⟨some p, .process⟩)
    (moved : m.act c p action = some next) : SizeMove m (.act c action) next := by
  have on : m.running c = some p := by simp [Machine.running, here]
  have running : (m.proc p).state = .running := orderly.placed.running c p (by rw [here]) (by simp [here])
  have op : m.spaceOp (.act c action) = m.actOp p action := by simp [spaceOp, on]
  have stays {new : Proc} (pgdir : new.pgdir = (m.proc p).pgdir) (sz : new.sz = (m.proc p).sz) (q : Slot) :
      SameSpace (m.proc q) (update m.proc p new q) :=
    .update (fun _ => ⟨by simp [InUse, running], pgdir, sz⟩) q
  have dies {np : Slot} {new : Proc} (unused : new.state = .unused) (q : Slot) :
      SameSpace (m.proc q) (update m.proc np new q) := .update (fun used => absurd unused used.1) q
  have returns (user : m.task p = .user) (after : Machine Cpu)
      (slot : ∀ q, SameSpace (m.proc q) (after.proc q)) (task : after.task = update m.task p .user) :
      SizeCalm m after := .ofIdle p .user slot task (by simp) (by rw [user]; rfl)
  cases act_move moved (c := c) with
  | yield | sleep => exact .calm _ _ (by rw [op]; trivial) (.ofTable (stays rfl rfl) rfl)
  | kill pid _ task =>
    refine .calm _ _ (by rw [op]; trivial) (returns task _ (fun q => ?_) rfl)
    refine .woken (states_kill m pid q) ?_ ?_
    · change ((killTable m.proc pid).1 q).pgdir = _
      rw [killTable_fields]
    · change ((killTable m.proc pid).1 q).sz = _
      rw [killTable_fields]
  | full _ task _ creates =>
    refine .calm _ _ ?_ (returns task _ (fun q => .refl _) rfl)
    rw [op]
    obtain rfl | ⟨stack, rfl⟩ := creates
    · trivial
    · trivial
  | create _ kind np _ task unused creates =>
    have named : m.actLife p action = some (.allocate p np kind) := by
      obtain ⟨rfl, rfl⟩ | ⟨stack, rfl, rfl⟩ := creates
      · exact create_life moved (update_self ..)
      · exact create_life moved (update_self ..)
    have quiet : m.actOp p action = none := by
      obtain ⟨rfl, _⟩ | ⟨stack, rfl, _⟩ := creates
      · rfl
      · rfl
    exact .allocate _ _ p np kind _ (op.trans quiet) (by simp [Machine.lifeOp, on, named]) task unused (by rfl) (by rfl) rfl rfl
  | noStack _ np task =>
    refine .calm _ _ (by rw [op]; trivial) (.ofTask p .user (dies rfl) rfl (by simp) ?_)
    intro other child _ used
    have mine : np = other := by simpa [task, Task.child] using child
    subst mine
    exact absurd (by simp [Machine.setProc, Machine.finish]) used.1
  | kstack kind np page task =>
    have same : SameSpace (m.proc np) { m.proc np with kstack := page, context := .forkret } :=
      fun used => ⟨used, rfl, rfl⟩
    refine .calm _ _ (by rw [op]; trivial) (.ofTask p (.stacked kind np) same.update rfl (by simp) ?_)
    intro other child _ _
    rw [task] at child
    exact ⟨child, rfl⟩
  | noCopy np task =>
    refine .calm _ _ (by rw [op]; trivial) (.ofTask p .user (dies rfl) rfl (by simp) ?_)
    intro other child _ used
    have mine : np = other := by simpa [task, Task.child] using child
    subst mine
    exact absurd (by simp [Machine.setProc, Machine.finish, Machine.setPage]) used.1
  | copyuvm np dir task => exact .fork c _ p np dir on running task rfl rfl
  | shareuvm np stack task => exact .clone c _ p np stack on running task rfl rfl
  | ready np task =>
    have embryo : (m.proc np).state = .embryo := orderly.tasked.embryo p np (show (m.task p).child = some np by rw [task]; rfl)
    have same : SameSpace (m.proc np) { m.proc np with state := .runnable } :=
      fun _ => ⟨by simp [InUse, embryo], rfl, rfl⟩
    refine .calm _ _ (by rw [op]; trivial) (.ofTask p .user same.update rfl (by simp) ?_)
    intro other _ space
    rw [task] at space
    contradiction
  | exit =>
    refine .calm _ _ (by rw [op]; trivial) (.ofTable (fun q => ?_) rfl)
    by_cases same : q = p
    · subst same
      intro used
      exact absurd (exitTable_self m.proc m.initproc q).1 used.2
    · exact .stirred (exitTable_other m.proc m.initproc same)
  | wait _ _ _ task reap =>
    obtain ⟨calm, tame⟩ := reap.sizes running (by rw [task]; rfl)
    exact .calm _ _ (by rw [op]; exact tame) calm
  | noImage task | badScheduler _ task | setscheduler _ task =>
    exact .calm _ _ (by rw [op]; trivial) (returns task _ (fun q => .refl _) rfl)
  | execAlloc dir task => exact .load c _ p dir on task rfl rfl
  | execBad _ task =>
    exact .calm _ _ (by rw [op]; trivial) (.ofIdle p .user (fun q => .refl _) rfl (by simp) (by rw [task]; rfl))
  | execCommit dir sz name task => exact .switch c _ p dir sz name on running task rfl rfl

theorem step_sizes {event : Event Cpu} (orderly : Orderly m) (stepped : m.step event = some next) : SizeMove m event next := by
  have still (q : Slot) : SameSpace (m.proc q) (m.proc q) := .refl _
  cases step_move stepped with
  | idle | retire | tick | kalloc | kfree => exact .calm _ _ trivial (.ofTable still rfl)
  | dispatch _ _ _ p _ _ choice =>
    have ready : (m.proc p).state = .runnable := (orderly.choice choice).2 p rfl
    have same : SameSpace (m.proc p) { m.proc p with state := .running } :=
      fun _ => ⟨by simp [InUse, ready], rfl, rfl⟩
    exact .calm _ _ trivial (.ofTable same.update rfl)
  | resume _ _ here context =>
    refine .calm _ _ ?_ (.ofTable still rfl)
    simp only [spaceOp, here]
    split
    · rename_i asleep waiting
      exact absurd asleep context
    · trivial
  | awake _ p here _ task =>
    have same : SameSpace (m.proc p) { m.proc p with chan := none } := fun used => ⟨used, rfl, rfl⟩
    refine .calm _ _ ?_ (.ofTable same.update rfl)
    simp only [spaceOp, here]
    split
    · rename_i kind asleep waiting
      exact absurd waiting (task kind)
    · trivial
  | rescan c p _ _ here context task reap =>
    have running : (m.proc p).state = .running := orderly.placed.running c p (by rw [here]) (by simp [here])
    have woken : ((m.setProc p fun proc => { proc with chan := none }).proc p).state = .running := by
      simpa [Machine.setProc] using running
    have idle : ((m.setProc p fun proc => { proc with chan := none }).task p).child = none := by
      change (m.task p).child = none
      rw [task]
      rfl
    obtain ⟨calm, tame⟩ := reap.sizes woken idle
    refine .calm _ _ (by simpa only [spaceOp, here, context, task] using tame) ?_
    have same : SameSpace (m.proc p) { m.proc p with chan := none } := fun used => ⟨used, rfl, rfl⟩
    exact ⟨fun q => (same.update q).trans (calm.slot q), calm.filled, calm.image⟩
  | act c p _ _ here =>
    have on : m.running c = some p := by simp [Machine.running, here]
    simp only [Machine.step, on] at stepped
    exact act_sizes orderly here stepped
  | wakeup chan => exact .calm _ _ trivial (.ofTable (fun q => .stirred (wakeup1_stirred m.proc chan q)) rfl)
  | updateStatistics =>
    refine .calm _ _ trivial (.ofTable (fun q => ?_) rfl)
    refine .woken (.inl (updateStatistics_state m.proc q)) ?_ ?_
    · change (updateStatistics m.proc q).pgdir = _
      rw [updateStatistics_fields]
    · change (updateStatistics m.proc q).sz = _
      rw [updateStatistics_fields]

end

/-- The sizes of slots in use and of the images exec is building, against what is mapped. -/
structure Sized (t : Spaces Cpu) : Prop where
  orderly : Orderly t.machine
  agree : ∀ q r, InUse (t.machine.proc q).state → InUse (t.machine.proc r).state →
    t.machine.pgdirs q = t.machine.pgdirs r → (t.machine.proc q).sz = (t.machine.proc r).sz
  below : ∀ q, InUse (t.machine.proc q).state → t.machine.Filled q → Below (t.user (t.machine.pgdirs q)) (t.machine.proc q).sz
  image : ∀ p dir, t.machine.task p = .exec dir → Below (t.user dir) (t.image p) ∧ t.image p ≤ KERNBASE
  apart : ∀ p q dir, t.machine.task p = .exec dir → InUse (t.machine.proc q).state → t.machine.Filled q → t.machine.pgdirs q ≠ dir
  distinct : ∀ p q dir, t.machine.task p = .exec dir → t.machine.task q = .exec dir → p = q
  remap : t.remap = false

namespace Sized

variable {t : Spaces Cpu} {next : Machine Cpu} {p np : Slot} {dir : Page} {user : Page → Pages}
    {event : SpaceEvent Cpu} {memory : Nat} {new : Proc}

section

variable (sized : Sized t)
include sized

theorem filled_of_live (live : Live (t.machine.proc p).state) : t.machine.Filled p := by
  intro q child
  have embryo : (t.machine.proc p).state = .embryo := sized.orderly.tasked.embryo q p child
  rw [embryo] at live
  simp [Live] at live

section

variable (orderly : Orderly next)
include orderly

theorem calm (calm : SizeCalm t.machine next)
    (slots : ∀ q, InUse (t.machine.proc q).state → t.machine.Filled q → InUse (next.proc q).state →
      user (t.machine.pgdirs q) = t.user (t.machine.pgdirs q))
    (images : ∀ p dir, next.task p = .exec dir → user dir = t.user dir) : Sized { t with machine := next, user := user } where
  orderly := orderly
  agree := by
    intro q r left right same
    obtain ⟨before, dir, size⟩ := calm.slot q left
    obtain ⟨before', dir', size'⟩ := calm.slot r right
    rw [size, size']
    exact sized.agree q r before before' (dir.symm.trans (same.trans dir'))
  below := by
    intro q used filled
    obtain ⟨before, dir, size⟩ := calm.slot q used
    have old := calm.filled q used filled
    change Below (user (next.proc q).pgdir) (next.proc q).sz
    rw [dir, size]
    have same : user (t.machine.proc q).pgdir = t.user (t.machine.proc q).pgdir := slots q before old used
    rw [same]
    exact sized.below q before old
  image := by
    intro p dir building
    have old := sized.image p dir (calm.image p dir building)
    change Below (user dir) (t.image p) ∧ _
    rw [images p dir building]
    exact old
  apart := by
    intro p q dir building used filled
    obtain ⟨before, same, -⟩ := calm.slot q used
    change (next.proc q).pgdir ≠ dir
    rw [same]
    exact sized.apart p q dir (calm.image p dir building) before (calm.filled q used filled)
  distinct := fun p q dir left right => sized.distinct p q dir (calm.image p dir left) (calm.image q dir right)
  remap := sized.remap

theorem change {s : Slot} {now : Task}
    (proc : next.proc = update t.machine.proc s new)
    (task : next.task = update t.machine.task p now) (plain : ∀ dir, now ≠ .exec dir)
    (child : ∀ q, (t.machine.task p).child = some q → q = s)
    (agree : ∀ q, q ≠ s → InUse (t.machine.proc q).state → t.machine.pgdirs q = new.pgdir → (t.machine.proc q).sz = new.sz)
    (slots : ∀ q, q ≠ s → InUse (t.machine.proc q).state → t.machine.Filled q →
      user (t.machine.pgdirs q) = t.user (t.machine.pgdirs q))
    (images : ∀ q dir, q ≠ p → t.machine.task q = .exec dir → user dir = t.user dir)
    (mine : next.Filled s → Below (user new.pgdir) new.sz ∧ ∀ q dir, q ≠ p → t.machine.task q = .exec dir → new.pgdir ≠ dir) :
    Sized { t with machine := next, user := user } := by
  have self : next.proc s = new := by rw [proc, update_self]
  have other (q : Slot) (different : q ≠ s) : next.proc q = t.machine.proc q := by
    rw [proc, update_of_ne different]
  have filled (q : Slot) (different : q ≠ s) (now : next.Filled q) : t.machine.Filled q := by
    intro r making
    have caller : r ≠ p := by
      rintro rfl
      exact different (child q making)
    have later := now r
    rw [task, update_of_ne caller] at later
    exact later making
  have building (q : Slot) (dir : Page) (exec : next.task q = .exec dir) :
      q ≠ p ∧ t.machine.task q = .exec dir := by
    rw [task] at exec
    by_cases same : q = p
    · subst same
      rw [update_self] at exec
      exact absurd exec (plain dir)
    · rw [update_of_ne same] at exec
      exact ⟨same, exec⟩
  refine ⟨orderly, fun q r left right same => ?_, fun q used full => ?_, fun q dir exec => ?_,
    fun r q dir exec used full => ?_, fun q r dir left right => ?_, sized.remap⟩
  · dsimp only [Machine.pgdirs] at left right same ⊢
    by_cases first : q = s
    · by_cases second : r = s
      · rw [first, second]
      · rw [first, self] at same ⊢
        rw [other r second] at right same ⊢
        exact (agree r second right same.symm).symm
    · by_cases second : r = s
      · rw [second, self] at same ⊢
        rw [other q first] at left same ⊢
        exact agree q first left same
      · rw [other q first] at left same ⊢
        rw [other r second] at right same ⊢
        exact sized.agree q r left right same
  · dsimp only [Machine.pgdirs] at used full ⊢
    by_cases same : q = s
    · subst same
      rw [self]
      exact (mine full).1
    · rw [other q same] at used ⊢
      have old := filled q same full
      have kept : user (t.machine.proc q).pgdir = t.user (t.machine.proc q).pgdir := slots q same used old
      rw [kept]
      exact sized.below q used old
  · obtain ⟨caller, before⟩ := building q dir exec
    dsimp only
    rw [images q dir caller before]
    exact sized.image q dir before
  · obtain ⟨caller, before⟩ := building r dir exec
    dsimp only [Machine.pgdirs] at used full ⊢
    by_cases same : q = s
    · subst same
      rw [self]
      exact (mine full).2 r dir caller before
    · rw [other q same] at used ⊢
      exact sized.apart r q dir before used (filled q same full)
  · exact sized.distinct q r dir (building q dir left).2 (building r dir right).2

theorem build (proc : next.proc = t.machine.proc)
    (task : next.task = update t.machine.task p (.exec dir)) (idle : (t.machine.task p).child = none)
    (fresh : ∀ q, InUse (t.machine.proc q).state → t.machine.Filled q → t.machine.pgdirs q ≠ dir)
    (others : ∀ q, q ≠ p → t.machine.task q ≠ .exec dir) {pages : Pages} {size : UInt32}
    (below : Below pages size) (low : size ≤ KERNBASE) :
    Sized { t with machine := next, user := update t.user dir pages, image := update t.image p size } := by
  have filled (q : Slot) (full : next.Filled q) : t.machine.Filled q := by
    intro r mine
    have caller : r ≠ p := by
      rintro rfl
      exact absurd (idle.symm.trans mine) (by simp)
    have later := full r
    rw [task, update_of_ne caller] at later
    exact later mine
  have building (q : Slot) (page : Page) (exec : next.task q = .exec page) :
      q = p ∧ page = dir ∨ q ≠ p ∧ page ≠ dir ∧ t.machine.task q = .exec page := by
    rw [task] at exec
    by_cases same : q = p
    · subst same
      rw [update_self] at exec
      cases exec
      exact .inl ⟨rfl, rfl⟩
    · rw [update_of_ne same] at exec
      refine .inr ⟨same, ?_, exec⟩
      rintro rfl
      exact others q same exec
  refine ⟨orderly, fun q r left right same => ?_, fun q used full => ?_, fun q page exec => ?_,
    fun r q page exec used full => ?_, fun q r page left right => ?_, sized.remap⟩
  · dsimp only [Machine.pgdirs] at left right same ⊢
    rw [proc] at left right same ⊢
    exact sized.agree q r left right same
  · dsimp only [Machine.pgdirs] at used full ⊢
    rw [proc] at used ⊢
    have elsewhere : (t.machine.proc q).pgdir ≠ dir := fresh q used (filled q full)
    rw [update_of_ne elsewhere]
    exact sized.below q used (filled q full)
  · dsimp only
    rcases building q page exec with ⟨rfl, rfl⟩ | ⟨caller, elsewhere, before⟩
    · rw [update_self, update_self]
      exact ⟨below, low⟩
    · rw [update_of_ne elsewhere, update_of_ne caller]
      exact sized.image q page before
  · dsimp only [Machine.pgdirs] at used full ⊢
    rw [proc] at used ⊢
    rcases building r page exec with ⟨-, rfl⟩ | ⟨-, -, before⟩
    · exact fresh q used (filled q full)
    · exact sized.apart r q page before used (filled q full)
  · rcases building q page left with ⟨rfl, rfl⟩ | ⟨-, elsewhere, before⟩
    · rcases building r page right with ⟨rfl, -⟩ | ⟨-, elsewhere, -⟩
      · rfl
      · exact absurd rfl elsewhere
    · rcases building r page right with ⟨-, rfl⟩ | ⟨-, -, after⟩
      · exact absurd rfl elsewhere
      · exact sized.distinct q r page before after

theorem allocate {kind : Creation}
    (idle : t.machine.task p = .user) (pgdir : new.pgdir = t.machine.pgdirs np)
    (sz : new.sz = (t.machine.proc np).sz) (proc : next.proc = update t.machine.proc np new)
    (task : next.task = update t.machine.task p (.allocated kind np))
    (stale : ∀ q, InUse (t.machine.proc q).state → t.machine.pgdirs q = t.machine.pgdirs np →
      (t.machine.proc q).sz = (t.machine.proc np).sz) : Sized { t with machine := next } := by
  refine sized.change orderly proc task (by simp) ?_ ?_ (fun _ _ _ _ => rfl) (fun _ _ _ _ => rfl) ?_
  · intro q child
    rw [idle] at child
    contradiction
  · intro q _ used same
    rw [sz]
    exact stale q used (same.trans pgdir)
  · intro filled
    have making := filled p
    rw [task, update_self] at making
    exact absurd (making rfl) (by simp [Task.hasSpace])

theorem fork {copy : Pages} (busy : t.machine.task p = .stacked .fork np)
    (proc : next.proc = update t.machine.proc np (forkProc (t.machine.proc np) (t.machine.proc p) p dir))
    (task : next.task = update t.machine.task p (.filled np))
    (copied : copyuvm (t.user (t.machine.pgdirs p)) (t.machine.proc p).sz = some copy)
    (alone : t.machine.Unshared (some np) dir) : Sized { t with machine := next, user := update t.user dir copy } := by
  have tasked := sized.orderly.tasked
  have unbuilt (q : Slot) (page : Page) (building : t.machine.task q = .exec page) : page ≠ dir := by
    rintro rfl
    refine (alone q ?_).2 building
    rintro ⟨rfl⟩
    have live := tasked.busy np (by simp [building])
    rw [tasked.embryo p np (by rw [busy]; rfl)] at live
    simp [Live] at live
  refine sized.change orderly proc task (by simp) ?_ ?_ ?_ ?_ ?_
  · intro q child
    rw [busy] at child
    exact (some.inj child).symm
  · intro q other used same
    exact absurd same ((alone q (by simpa using other.symm)).1 used)
  · intro q other used _
    exact update_of_ne ((alone q (by simpa using other.symm)).1 used) _ _
  · intro q page _ building
    exact update_of_ne (unbuilt q page building) _ _
  · intro _
    refine ⟨?_, fun q page _ building => (unbuilt q page building).symm⟩
    change Below (update t.user dir copy dir) (t.machine.proc p).sz
    rw [update_self]
    exact copyuvm_below copied

theorem clone {stack : UInt32}
    (running : (t.machine.proc p).state = .running) (busy : t.machine.task p = .stacked (.clone stack) np) (proc : next.proc =
      update t.machine.proc np (cloneProc (t.machine.proc np) (t.machine.proc p) p stack))
    (task : next.task = update t.machine.task p (.filled np)) : Sized { t with machine := next } := by
  have used : InUse (t.machine.proc p).state := by simp [InUse, running]
  have filled := sized.filled_of_live (p := p) (.inl running)
  refine sized.change orderly proc task (by simp) ?_ ?_ (fun _ _ _ _ => rfl) (fun _ _ _ _ => rfl) ?_
  · intro q child
    rw [busy] at child
    exact (some.inj child).symm
  · intro q _ other same
    exact sized.agree q p other used same
  · intro _
    exact ⟨sized.below p used filled, fun q page _ building => sized.apart q p page building used filled⟩

theorem switch {name : List UInt8}
    (running : (t.machine.proc p).state = .running) (building : t.machine.task p = .exec dir)
    (proc : next.proc = update t.machine.proc p { t.machine.proc p with pgdir := dir, sz := t.image p, name := name })
    (task : next.task = update t.machine.task p .user)
    (old : t.machine.Unshared (some p) (t.machine.pgdirs p)) (new : t.machine.Unshared (some p) dir) :
    Sized { t with machine := next, user := update t.user (t.machine.pgdirs p) junk } := by
  have used : InUse (t.machine.proc p).state := by simp [InUse, running]
  have filled := sized.filled_of_live (p := p) (.inl running)
  have moved := sized.apart p p dir building used filled
  refine sized.change orderly proc task (by simp) ?_ ?_ ?_ ?_ ?_
  · intro q child
    rw [building] at child
    contradiction
  · intro q other inUse same
    exact absurd same ((new q (by simpa using other.symm)).1 inUse)
  · intro q other inUse _
    exact update_of_ne ((old q (by simpa using other.symm)).1 inUse) _ _
  · intro q page _ exec
    exact update_of_ne (sized.apart q p page exec used filled).symm _ _
  · intro _
    refine ⟨?_, fun q page other exec => ?_⟩
    · rw [update_of_ne moved.symm]
      exact (sized.image p dir building).1
    · rintro rfl
      exact other (sized.distinct q p dir exec building)

end

theorem sbrk {after : Spaces Cpu} {n : Int32} (running : (t.machine.proc p).state = .running)
    (alone : n ≠ 0 → t.machine.Unshared (some p) (t.machine.pgdirs p)) (stepped : t.sbrk p n memory = some after) : Sized after := by
  simp only [Spaces.sbrk, ite_none_right_eq_some] at stepped
  obtain ⟨idle, stepped⟩ := stepped
  have used : InUse (t.machine.proc p).state := by simp [InUse, running]
  have filled := sized.filled_of_live (p := p) (.inl running)
  obtain ⟨result, sz, pages, grown, below⟩ := growproc_below memory n (sized.below p used filled)
  simp only [grown, some.injEq] at stepped
  subst after
  have unchanged (q : Slot) (other : q ≠ p) (inUse : InUse (t.machine.proc q).state)
      (same : t.machine.pgdirs q = t.machine.pgdirs p) :
      sz = (t.machine.proc p).sz ∧ pages = t.user (t.machine.pgdirs p) := by
    by_cases zero : n = 0
    · subst zero
      cases (growproc_zero memory _ _).symm.trans grown
      exact ⟨rfl, rfl⟩
    · exact absurd same ((alone zero q (by simpa using other.symm)).1 inUse)
  have orderly : Orderly ((t.machine.setProc p fun proc => { proc with sz := sz }).finish p
      (if result < 0 then -1 else (t.machine.proc p).sz.toInt32)) := by
    have states : (t.machine.setProc p fun proc => { proc with sz := sz }).states = t.machine.states :=
      states_setProc_same t.machine p rfl
    have task : update t.machine.task p .user = t.machine.task := by
      rw [← idle, update_eq_self]
    refine ⟨?_, ?_, sized.orderly.policy, sized.orderly.index⟩
    · rw [states_finish, states]
      exact sized.orderly.placed
    · change Tasked (update t.machine.task p .user) _
      rw [states_finish, states, task]
      exact sized.orderly.tasked
  refine sized.change orderly (s := p) rfl rfl (by simp) ?_ ?_ ?_ ?_ ?_
  · intro q child
    rw [idle] at child
    contradiction
  · intro q other inUse same
    rw [(unchanged q other inUse same).1]
    exact sized.agree q p inUse used same
  · intro q other inUse _
    by_cases same : t.machine.pgdirs q = t.machine.pgdirs p
    · rw [same, update_self, (unchanged q other inUse same).2]
    · exact update_of_ne same _ _
  · intro q dir _ building
    exact update_of_ne (sized.apart q p dir building used filled).symm _ _
  · intro _
    refine ⟨?_, fun q dir _ building => sized.apart q p dir building used filled⟩
    change Below (update t.user (t.machine.pgdirs p) pages (t.machine.pgdirs p)) sz
    rw [update_self]
    exact below

theorem agrees {before : Spaces Cpu} : SizesAgree before event t where
  agree := sized.agree
  remap := sized.remap
  below := by
    intro q live
    refine sized.below q ?_ (sized.filled_of_live live)
    constructor
    · rintro dead
      rw [dead] at live
      simp [Live] at live
    · rintro dead
      rw [dead] at live
      simp [Live] at live

end

theorem boot (policy : Scheduler.Policy) : Sized (.boot policy : Spaces Cpu) := by
  have only (q : Slot) (used : InUse ((Kernel.boot policy : Machine Cpu).proc q).state) : q = 0 := by
    by_contra other
    simp [Kernel.boot, other, InUse] at used
  constructor
  · exact .boot policy
  · intro q r left right _
    rw [only q left, only r right]
  · intro q used _ v present
    rw [only q used] at present ⊢
    have zero : v = 0 := by simpa [Spaces.boot, Kernel.boot, Machine.pgdirs] using present
    simp [zero, Spaces.boot, Kernel.boot]
  · intro p dir building
    simp [Spaces.boot, Kernel.boot] at building
  · intro p q dir building
    simp [Spaces.boot, Kernel.boot] at building
  · intro p q dir building
    simp [Spaces.boot, Kernel.boot] at building
  · rfl

variable [DecidableEq Cpu]

theorem tame (sized : Sized t) {event : Event Cpu} (orderly : Orderly next)
    (moved : t.machine.step event = some next) (tame : SpaceOp.Tame (t.machine.spaceOp event))
    (calm : SizeCalm t.machine next) (freed : t.userAfter event = some user)
    (unshared : ∀ op ∈ t.machine.spaceOp event, ∀ touch ∈ t.machine.touches op,
      t.machine.Unshared touch.1 touch.2) : Sized { t with machine := next, user := user } := by
  have same (kept : user = t.user) : Sized { t with machine := next, user := user } := by
    rw [kept]
    exact sized.calm orderly calm (fun _ _ _ _ => rfl) fun _ _ _ => rfl
  cases (step_move moved).space sized.orderly with
  | intro _ _ prior change last =>
    unfold Spaces.userAfter at freed
    cases op : t.machine.spaceOp event with
    | none =>
      simp only [op, some.injEq] at freed
      exact same freed.symm
    | some op' =>
      rw [op] at change tame freed unshared
      cases op' with
      | fork | clone | load | switch => exact tame.elim
      | exit =>
        simp only [freevm, some.injEq] at freed
        exact same freed.symm
      | reap kind z =>
        cases frees : kind.freesSpace with
        | false =>
          simp only [freevm, frees, Bool.false_eq_true, if_false, some.injEq] at freed
          exact same freed.symm
        | true =>
          simp only [freevm, frees, if_true, some.injEq] at freed
          subst user
          have alone := unshared _ rfl (some z, t.machine.pgdirs z) (by simp [Machine.touches, frees])
          have zombie : t.machine.states z = .zombie := by
            cases change with
            | reap _ _ zombie => exact (prior.zombie z).mp zombie
          refine sized.calm orderly calm (fun q used _ _ => ?_) fun q dir building => ?_
          · have other : z ≠ q := by
              rintro rfl
              exact used.2 zombie
            exact update_of_ne ((alone q (by simpa using other)).1 used) _ _
          · have before := calm.image q dir building
            have other : z ≠ q := by
              rintro rfl
              have live := sized.orderly.tasked.busy z (by simp [before])
              rw [zombie] at live
              simp [Live] at live
            refine update_of_ne ?_ _ _
            rintro rfl
            exact (alone q (by simpa using other)).2 before
      | unload p =>
        have ended : (next.task p).image = none := by
          rw [(last.tasks p).2.1]
          cases change with
          | unload => simp [Machine.setTask, Task.image]
        cases building : t.machine.task p with
        | exec dir =>
          simp only [freevm, building, Task.image, map_some, some.injEq] at freed
          subst user
          refine sized.calm orderly calm (fun q used filled _ => ?_) fun q page exec => ?_
          · exact update_of_ne (sized.apart p q dir building used filled) _ _
          · refine update_of_ne ?_ _ _
            rintro rfl
            have own := sized.distinct q p page (calm.image q page exec) building
            subst own
            rw [exec] at ended
            contradiction
        | _ =>
          simp only [freevm, building, Task.image, map_none, some.injEq] at freed
          exact same freed.symm

theorem kernel {after : Spaces Cpu} {event : Event Cpu} (sized : Sized t)
    (kept : SizesKept t (.kernel event) after) (stepped : t.kernel event = some after) : Sized after := by
  obtain ⟨known, stale, unshared⟩ := kept
  simp only [Spaces.kernel, ite_none_right_eq_some] at stepped
  obtain ⟨commits, stepped⟩ := stepped
  cases changed : t.userAfter event with
  | none => simp [changed] at stepped
  | some user =>
    cases moved : t.machine.step event with
    | none => simp [changed, moved] at stepped
    | some machine =>
      simp only [changed, moved, some.injEq] at stepped
      subst after
      have orderly := sized.orderly.step known moved
      cases step_sizes sized.orderly moved with
      | calm _ _ tame calm =>
        have image : t.imageAfter event = t.image := by
          unfold Spaces.imageAfter
          split
          · rename_i load
            rw [load] at tame
            exact tame.elim
          · rfl
        rw [image]
        exact sized.tame orderly moved tame calm changed unshared
      | allocate _ _ _ np _ _ quiet named idle _ pgdir sz proc task =>
        simp only [Spaces.userAfter, quiet, some.injEq] at changed
        subst user
        simp only [Spaces.imageAfter, quiet]
        exact sized.allocate orderly idle pgdir sz proc task (stale np (by simp [named, LifeOp.allocated]))
      | fork c _ _ np dir here _ busy proc task =>
        have op : t.machine.spaceOp (.act c (.copyuvm (some dir))) = some (.fork np dir) := by
          simp [spaceOp, here, Machine.actOp, busy, Task.child]
        simp only [Spaces.userAfter, op, Machine.caller, here, bind_some, map_eq_some_iff] at changed
        obtain ⟨_, copied, rfl⟩ := changed
        simp only [Spaces.imageAfter, op]
        exact sized.fork orderly busy proc task copied (unshared _ op (some np, dir) (by simp [Machine.touches]))
      | clone c _ p np _ here running busy proc task =>
        have op : t.machine.spaceOp (.act c .shareuvm) = some (.clone p np) := by
          simp [spaceOp, here, Machine.actOp, busy, Task.child]
        simp only [Spaces.userAfter, op, freevm, some.injEq] at changed
        subst user
        simp only [Spaces.imageAfter, op]
        exact sized.clone orderly running busy proc task
      | load c _ p dir here idle proc task =>
        have op : t.machine.spaceOp (.act c (.execAlloc (some dir))) = some (.load p dir) := by
          simp [spaceOp, here, Machine.actOp]
        simp only [Spaces.userAfter, op, some.injEq] at changed
        subst user
        simp only [Spaces.imageAfter, op]
        have alone := unshared _ op (none, dir) (by simp [Machine.touches])
        refine sized.build orderly proc task (by rw [idle]; rfl) ?_ ?_ ?_ (by decide)
        · intro q used _
          exact (alone q (by simp)).1 used
        · intro q _
          exact (alone q (by simp)).2
        · intro v present
          contradiction
      | switch c _ p dir sz name here running building proc task =>
        have op : t.machine.spaceOp (.act c (.execCommit sz name)) = some (.switch p) := by
          simp [spaceOp, here, Machine.actOp]
        simp only [Spaces.userAfter, op, freevm, some.injEq] at changed
        subst user
        simp only [Spaces.imageAfter, op]
        have size : sz = t.image p := by simpa [Spaces.commits, here] using commits
        subst size
        exact sized.switch orderly running building proc task
          (unshared _ op (some p, t.machine.pgdirs p) (by simp [Machine.touches]))
          (unshared _ op (some p, dir) (by simp [Machine.touches, building, Task.image]))

theorem execGrow {after : Spaces Cpu} {c : Cpu} {oldsz newsz : UInt32} (sized : Sized t)
    (here : t.machine.running c = some p)
    (old : ∀ dir, t.machine.task p = .exec dir → Below (t.user dir) oldsz ∧ oldsz ≤ KERNBASE)
    (stepped : t.execGrow p oldsz newsz memory = some after) : Sized after := by
  unfold Spaces.execGrow at stepped
  split at stepped
  · rename_i dir building
    obtain ⟨below, low⟩ := old dir building
    obtain ⟨size, _, grown, within⟩ := allocuvm_below memory newsz below
    simp only [grown] at stepped
    by_cases failed : size = 0
    · rw [if_pos failed] at stepped
      obtain ⟨machine, bad, rfl⟩ := Option.map_eq_some_iff.mp stepped
      have op : t.machine.spaceOp (.act c .execBad) = some (.unload p) := by
        simp [spaceOp, here, Machine.actOp]
      have step : t.kernel (.act c .execBad) =
          some { t with machine, user := update t.user dir junk } := by
        simp [Spaces.kernel, Spaces.commits, Spaces.userAfter, Spaces.imageAfter, op, freevm, building,
          Task.image, Machine.step, here, Machine.act, bad]
      have life : t.machine.lifeOp (.act c .execBad) = none := by
        rw [Machine.lifeOp, here]
        rfl
      have kept (after : Spaces Cpu) : SizesKept t (.kernel (.act c .execBad)) after :=
        ⟨trivial, by simp [life], by simp [op, Machine.touches]⟩
      exact sized.kernel (kept _) step
    · rw [if_neg failed] at stepped
      cases stepped
      refine sized.build sized.orderly rfl ?_ (by rw [building]; rfl) ?_ ?_
        (within.resolve_left fun zero => failed zero.1) (allocuvm_le low grown)
      · rw [← building, update_eq_self]
      · exact fun q used filled => sized.apart p q dir building used filled
      · exact fun q other exec => other (sized.distinct q p dir exec building)
  · contradiction

theorem step {after : Spaces Cpu} (sized : Sized t) (kept : SizesKept t event after)
    (stepped : t.step event = some after) : Sized after := by
  unfold Spaces.step at stepped
  rw [if_neg (by simp [sized.remap])] at stepped
  have on {c : Cpu} {p : Slot} (here : t.machine.running c = some p) : (t.machine.proc p).state = .running := by
    simp only [Machine.running, ite_none_right_eq_some] at here
    exact sized.orderly.placed.running c p here.2 (by simp [here.1])
  cases event with
  | kernel => exact sized.kernel kept stepped
  | sbrk =>
    obtain ⟨p, here, called⟩ := Option.bind_eq_some_iff.mp stepped
    exact sized.sbrk (on here) (fun grows => kept grows p here) called
  | execLoad =>
    obtain ⟨p, here, called⟩ := Option.bind_eq_some_iff.mp stepped
    exact sized.execGrow here (sized.image p) called
  | execStack =>
    obtain ⟨p, here, called⟩ := Option.bind_eq_some_iff.mp stepped
    refine sized.execGrow here (fun dir building => ?_) called
    obtain ⟨below, low⟩ := sized.image p dir building
    exact ⟨below.round low, UInt32.le_iff_toNat_le.mpr (le_PGROUNDUP low).2⟩

end Sized

variable [DecidableEq Cpu]

/-- In every run in which the size of an address space changes only while one
slot has it, and page directories are filled and freed only when nobody else
points at them, the slots that share a page directory agree on its size, and
growproc and exec never find a page above the size they start from. -/
theorem sizes_agree {policy : Scheduler.Policy} {events : List (SpaceEvent Cpu)}
    (kept : EveryStep Spaces.step SizesKept (.boot policy) events) : EveryStep Spaces.step SizesAgree (.boot policy) events := by
  exact (runs_along Sized (.boot policy) kept
    (fun _ _ _ sized kept stepped => ⟨sized.step kept stepped, (sized.step kept stepped).agrees⟩)).1

instance (t next : Spaces Cpu) (event : SpaceEvent Cpu) : Decidable (SizesKept t event next) :=
  match event with
  | .kernel _ => inferInstanceAs (Decidable (_ ∧ _ ∧ _))
  | .sbrk _ n _ => inferInstanceAs (Decidable (n ≠ 0 → _))
  | .execLoad _ _ _ | .execStack _ _ => .isTrue trivial

/-- init grows and forks a child that calls exec on the other CPU and gives back a page. -/
def growAndExec : List (SpaceEvent Bool) :=
  [.kernel (.dispatch false none), .kernel (.resume false), .sbrk false 4096 1, .kernel (.act false .fork),
    .kernel (.act false (.kstack (some 3))), .kernel (.act false (.copyuvm (some 4))), .kernel (.act false .ready),
    .kernel (.dispatch true none), .kernel (.resume true), .kernel (.act true (.execAlloc (some 5))),
    .execLoad true 100 8, .execStack true 8, .kernel (.act true (.execCommit 12288 [115, 104])),
    .sbrk true (-4096) 0]

theorem sizes_agree_exec : EveryStep Spaces.step SizesKept (.boot .default) growAndExec ∧
    (run Spaces.step (.boot .default) growAndExec).map (fun t =>
      ((t.machine.proc 0).pgdir, (t.machine.proc 0).sz, (t.machine.proc 1).pgdir, (t.machine.proc 1).sz)) =
        some (1, 8192, 5, 8192) ∧ EveryStep Spaces.step SizesAgree (.boot .default) growAndExec := by
  have kept : EveryStep Spaces.step SizesKept (.boot .default) growAndExec := by
    decide +kernel
  exact ⟨kept, by decide +kernel, sizes_agree kept⟩

/-- init clones a thread and grows by a page, and the thread is put on the other CPU. -/
def growInThread : List (SpaceEvent Bool) :=
  [.kernel (.dispatch false none), .kernel (.resume false), .kernel (.act false (.clone 8192)),
    .kernel (.act false (.kstack (some 3))), .kernel (.act false .shareuvm), .kernel (.act false .ready),
    .sbrk false 4096 1, .kernel (.dispatch true none), .kernel (.resume true)]

/-- init and its thread run on one page directory with different sizes and a page
is mapped above that of the thread, whose own sbrk then panics. -/
theorem thread_sizes_differ : (run Spaces.step (.boot .default) growInThread).map (fun t =>
      ((t.machine.proc 0).state, (t.machine.proc 0).pgdir, (t.machine.proc 0).sz)) = some (.running, 1, 8192) ∧
    (run Spaces.step (.boot .default) growInThread).map (fun t =>
      ((t.machine.proc 1).state, (t.machine.proc 1).pgdir, (t.machine.proc 1).sz)) = some (.running, 1, 4096) ∧
    (run Spaces.step (.boot .default) growInThread).map (fun t => (t.user 1 1, t.remap)) = some (true, false) ∧
    (run Spaces.step (.boot .default) (growInThread ++ [.sbrk true 4096 1])).map Spaces.remap = some true := by
  decide +kernel

end Xv6.Kernel
