import Xv6.Kernel.Stacks

namespace Xv6.Kernel

open Process Option
open Function (update update_self update_of_ne)

/-! What the steps of the machine do to processes: who is made, exits, is reaped
and by whom. CPUs, pages and the lock are left out. -/

inductive LifeOp where
  | allocate (p np : Slot) (kind : Creation)
  | fill (p np : Slot)
  | publish (p np : Slot)
  | exit (p : Slot)
  | reap (kind : Reaper) (p z : Slot)
  | fail (kind : Reaper) (p : Slot)
  | statistics
deriving DecidableEq, Repr

/-- How the slot of a call that has not filled it yet came to be allocated. -/
def Task.maker : Task → Option (Creation × Slot)
  | .allocated kind np | .stacked kind np => some (kind, np)
  | _ => none

def scanLife (kind : Reaper) (p : Slot) : Scan → Option LifeOp
  | .reap z => some (.reap kind p z)
  | .fail => some (.fail kind p)
  | .block => none

structure Procs where
  proc : Table
  task : Slot → Task
  nextpid : Int32
  initproc : Slot

variable {Cpu : Type} {kind : Reaper} {task : Task}

namespace Machine

variable (m : Machine Cpu)

def procs : Procs := ⟨m.proc, m.task, m.nextpid, m.initproc⟩

def allocLife (p : Slot) (kind : Creation) : Option LifeOp :=
  (allocproc m.proc m.nextpid m.ticks).map fun new => .allocate p new.1 kind

def actLife (p : Slot) : Action → Option LifeOp
  | .fork => m.allocLife p .fork
  | .clone stack => m.allocLife p (.clone stack)
  | .copyuvm (some _) | .shareuvm => (m.task p).child.map fun np => .fill p np
  | .ready => (m.task p).child.map fun np => .publish p np
  | .exit => some (.exit p)
  | .wait kind => scanLife kind p (kind.scan m.proc p)
  | _ => none

/-- The event in the life of a process that a step of the machine is. -/
def lifeOp : Event Cpu → Option LifeOp
  | .act c action => (m.running c).bind fun p => m.actLife p action
  | .resume c =>
    match m.cpus c with
    | ⟨some p, .resuming⟩ =>
      match (m.proc p).context, m.task p with
      | .sleep, .waiting kind =>
        scanLife kind p (kind.scan (m.setProc p fun proc => { proc with chan := none }).proc p)
      | _, _ => none
    | _ => none
  | .updateStatistics => some .statistics
  | _ => none

end Machine

/-- The fields that identify a process, its parent and its times stay. -/
structure Kept (before after : Proc) : Prop where
  pid : after.pid = before.pid
  parent : after.parent = before.parent
  isthread : after.isthread = before.isthread
  stime : after.stime = before.stime
  retime : after.retime = before.retime
  rutime : after.rutime = before.rutime

namespace Kept

theorem refl (proc : Proc) : Kept proc proc := ⟨rfl, rfl, rfl, rfl, rfl, rfl⟩

theorem update {table : Table} {p : Slot} {new : Proc} (kept : Kept (table p) new) (q : Slot) :
    Kept (table q) (Function.update table p new q) := by
  refine (Function.forall_update_iff table fun q now => Kept (table q) now).mpr ⟨kept, ?_⟩ q
  intro q _
  exact .refl _

theorem child {before after : Proc} (kept : Kept before after) (kind : Reaper) (p : Slot) :
    kind.child p after = kind.child p before := by
  simp only [Reaper.child, kept.parent, kept.isthread]

theorem stirred {before after : Proc} (stirred : Stirred before after) (parent : after.parent = before.parent) :
    Kept before after := by
  rw [stirred.fields] at parent ⊢
  exact ⟨rfl, parent, rfl, rfl, rfl, rfl⟩

end Kept

/-- Nobody is made, exits or is reaped. A process that is asleep in a reaper was
so before, or has just looked at its children. -/
structure Calm (s next : Procs) : Prop where
  initproc : next.initproc = s.initproc
  nextpid : next.nextpid = s.nextpid
  fields : ∀ q, Kept (s.proc q) (next.proc q)
  state : ∀ q, (next.proc q).state = (s.proc q).state ∨ Live (s.proc q).state ∧ Live (next.proc q).state
  task : ∀ q, (next.task q).child = (s.task q).child ∧ (next.task q).maker = (s.task q).maker
  asleep : ∀ q kind, next.task q = .waiting kind → (next.proc q).state = .sleeping →
    s.task q = .waiting kind ∧ (s.proc q).state = .sleeping ∧ (next.proc q).chan = (s.proc q).chan ∨
      (next.proc q).chan = some (.proc q) ∧ ∀ r, kind.child q (s.proc r) = true → (s.proc r).state ≠ .zombie

namespace Calm

variable {s next : Procs}

theorem refl (s : Procs) : Calm s s where
  initproc := rfl
  nextpid := rfl
  fields := fun _ => .refl _
  state := fun _ => .inl rfl
  task := fun _ => ⟨rfl, rfl⟩
  asleep := fun _ _ task asleep => .inl ⟨task, asleep, rfl⟩

section

variable (calm : Calm s next)
include calm

theorem state_eq {q : Slot} {state : ProcState} (dead : ¬ Live state) :
    (next.proc q).state = state ↔ (s.proc q).state = state := by
  cases calm.state q with
  | inl same => rw [same]
  | inr live =>
    constructor
    · intro now
      exact absurd (now ▸ live.2) dead
    · intro before
      exact absurd (before ▸ live.1) dead

theorem unused (q : Slot) : (next.proc q).state = .unused ↔ (s.proc q).state = .unused :=
  calm.state_eq (by simp [Live])

theorem zombie (q : Slot) : (next.proc q).state = .zombie ↔ (s.proc q).state = .zombie :=
  calm.state_eq (by simp [Live])

theorem born (q : Slot) : Born (next.proc q).state ↔ Born (s.proc q).state := by
  have embryo : (next.proc q).state = .embryo ↔ (s.proc q).state = .embryo := calm.state_eq (by simp [Live])
  simp only [Born, ne_eq, calm.unused q, embryo]

theorem live {q : Slot} (live : Live (s.proc q).state) : Live (next.proc q).state := by
  cases calm.state q with
  | inl same => rwa [same]
  | inr both => exact both.2

end

theorem ofUpdate {p : Slot} {new : Proc} (kept : Kept (s.proc p) new)
    (state : new.state = (s.proc p).state ∨ Live (s.proc p).state ∧ Live new.state)
    (awake : new.state ≠ .sleeping ∨ ∀ kind, s.task p ≠ .waiting kind) : Calm s { s with proc := update s.proc p new } where
  initproc := rfl
  nextpid := rfl
  fields := kept.update
  state := by
    intro q
    cases state with
    | inl same => exact .inl (field_keep (·.state) same q)
    | inr live => exact Quiet.state_update live.1 live.2 q
  task := fun _ => ⟨rfl, rfl⟩
  asleep := by
    intro q kind task asleep
    dsimp only at task asleep ⊢
    by_cases same : q = p
    · subst same
      rw [update_self] at asleep
      exact absurd task (awake.resolve_left (not_not_intro asleep) kind)
    · rw [update_of_ne same] at asleep ⊢
      exact .inl ⟨task, asleep, rfl⟩

theorem ofWoken {table : Table} (kept : ∀ q, Kept (s.proc q) (table q)) (chan : ∀ q, (table q).chan = (s.proc q).chan)
    (state : ∀ q, (table q).state = (s.proc q).state ∨ (s.proc q).state = .sleeping ∧ (table q).state = .runnable) :
    Calm s { s with proc := table } where
  initproc := rfl
  nextpid := rfl
  fields := kept
  state := fun q => Quiet.state_woken (state q)
  task := fun _ => ⟨rfl, rfl⟩
  asleep := by
    intro q kind task asleep
    have before : (s.proc q).state = .sleeping := by
      cases state q with
      | inl same => exact same.symm.trans asleep
      | inr woken => exact absurd (asleep.symm.trans woken.2) (by simp)
    exact .inl ⟨task, before, chan q⟩

theorem retask {p : Slot} {new : Task} (child : new.child = (s.task p).child) (maker : new.maker = (s.task p).maker)
    (other : ∀ kind, new ≠ .waiting kind) : Calm s { s with task := update s.task p new } where
  initproc := rfl
  nextpid := rfl
  fields := fun _ => .refl _
  state := fun _ => .inl rfl
  task := by
    refine (Function.forall_update_iff s.task fun q now =>
      now.child = (s.task q).child ∧ now.maker = (s.task q).maker).mpr ⟨⟨child, maker⟩, ?_⟩
    intro q _
    exact ⟨rfl, rfl⟩
  asleep := by
    intro q kind task asleep
    dsimp only at task asleep ⊢
    by_cases same : q = p
    · subst same
      rw [update_self] at task
      exact absurd task (other kind)
    · rw [update_of_ne same] at task
      exact .inl ⟨task, asleep, rfl⟩

theorem trans {middle : Procs} (first : Calm s middle) (second : Calm middle next) : Calm s next where
  initproc := second.initproc.trans first.initproc
  nextpid := second.nextpid.trans first.nextpid
  fields := fun q => ⟨(second.fields q).pid.trans (first.fields q).pid, (second.fields q).parent.trans (first.fields q).parent,
    (second.fields q).isthread.trans (first.fields q).isthread,
    (second.fields q).stime.trans (first.fields q).stime,
    (second.fields q).retime.trans (first.fields q).retime,
    (second.fields q).rutime.trans (first.fields q).rutime⟩
  state := by
    intro q
    cases second.state q with
    | inl same =>
      rw [same]
      exact first.state q
    | inr later =>
      cases first.state q with
      | inl same => exact .inr ⟨same ▸ later.1, later.2⟩
      | inr earlier => exact .inr ⟨earlier.1, later.2⟩
  task := fun q => ⟨(second.task q).1.trans (first.task q).1, (second.task q).2.trans (first.task q).2⟩
  asleep := by
    intro q kind task asleep
    cases second.asleep q kind task asleep with
    | inl before =>
      obtain ⟨waiting, slept, chan⟩ := before
      rw [chan]
      exact first.asleep q kind waiting slept
    | inr looked =>
      refine .inr ⟨looked.1, fun r child dead => looked.2 r ?_ ((first.zombie r).mpr dead)⟩
      rw [(first.fields r).child]
      exact child

end Calm

/-- The steps on the processes, guards included. -/
inductive LifeStep (s : Procs) : Option LifeOp → Procs → Prop where
  | calm (next : Procs) (calm : Calm s next) : LifeStep s none next
  | allocate (p np : Slot) (kind : Creation) (ticks : UInt32) (running : (s.proc p).state = .running)
      (task : s.task p = .user) (unused : (s.proc np).state = .unused)
      (nobody : ∀ q, (s.task q).child ≠ some np) :
      LifeStep s (some (.allocate p np kind)) { s with
        proc := update s.proc np { s.proc np with
          state := .embryo, priority := 10, pid := s.nextpid, ctime := ticks, retime := 0, rutime := 0, stime := 0 }
        task := update s.task p (.allocated kind np)
        nextpid := s.nextpid + 1 }
  | abandon (p np : Slot) (new : Proc) (child : (s.task p).child = some np)
      (embryo : (s.proc np).state = .embryo) (unused : new.state = .unused)
      (only : ∀ q, (s.task q).child = some np → q = p) :
      LifeStep s none { s with
        proc := update s.proc np new
        task := update s.task p .user }
  | fork (p np : Slot) (dir : Page) (running : (s.proc p).state = .running) (task : s.task p = .stacked .fork np)
      (embryo : (s.proc np).state = .embryo) (only : ∀ q, (s.task q).child = some np → q = p) :
      LifeStep s (some (.fill p np)) { s with
        proc := update s.proc np (forkProc (s.proc np) (s.proc p) p dir)
        task := update s.task p (.filled np) }
  | clone (p np : Slot) (stack : UInt32) (running : (s.proc p).state = .running)
      (task : s.task p = .stacked (.clone stack) np) (embryo : (s.proc np).state = .embryo)
      (only : ∀ q, (s.task q).child = some np → q = p) :
      LifeStep s (some (.fill p np)) { s with
        proc := update s.proc np (cloneProc (s.proc np) (s.proc p) p stack)
        task := update s.task p (.filled np) }
  | publish (p np : Slot) (running : (s.proc p).state = .running) (task : s.task p = .filled np)
      (embryo : (s.proc np).state = .embryo) (only : ∀ q, (s.task q).child = some np → q = p) :
      LifeStep s (some (.publish p np)) { s with
        proc := update s.proc np { s.proc np with state := .runnable }
        task := update s.task p .user }
  | exit (p : Slot) (running : (s.proc p).state = .running) (task : s.task p = .user) (mortal : p ≠ s.initproc) :
      LifeStep s (some (.exit p)) { s with proc := exitTable s.proc s.initproc p }
  | reap (kind : Reaper) (p z : Slot) (running : (s.proc p).state = .running) (idle : (s.task p).Idle)
      (child : kind.child p (s.proc z) = true) (zombie : (s.proc z).state = .zombie)
      (nobody : ∀ q, (s.task q).child ≠ some z) :
      LifeStep s (some (.reap kind p z)) { s with
        proc := update s.proc z (kind.clear (s.proc z))
        task := update s.task p .user }
  | fail (kind : Reaper) (p : Slot) (idle : (s.task p).Idle)
      (reason : (∀ q, kind.child p (s.proc q) = false) ∨ (s.proc p).killed = true) :
      LifeStep s (some (.fail kind p)) { s with task := update s.task p .user }
  | statistics : LifeStep s (some .statistics) { s with proc := updateStatistics s.proc }

theorem LifeStep.reaped {s next : Procs} {p z : Slot} (step : LifeStep s (some (.reap kind p z)) next) :
    (s.proc p).state = .running ∧ kind.child p (s.proc z) = true ∧ (s.proc z).state = .zombie := by
  cases step with
  | reap _ _ _ running _ child zombie => exact ⟨running, child, zombie⟩

theorem LifeStep.failed {s next : Procs} {p : Slot} (step : LifeStep s (some (.fail kind p)) next) :
    (∀ q, kind.child p (s.proc q) = false) ∨ (s.proc p).killed = true := by
  cases step with
  | fail _ _ _ reason => exact reason

theorem Task.Idle.child (idle : task.Idle) : task.child = none := by
  cases task with
  | user | waiting => rfl
  | allocated | stacked | filled | exec => exact idle.elim

theorem Task.Idle.maker (idle : task.Idle) : task.maker = none := by
  cases task with
  | user | waiting => rfl
  | allocated | stacked | filled | exec => exact idle.elim

variable {m next : Machine Cpu} {c : Cpu} {p : Slot} [DecidableEq Cpu] {action : Action}

theorem ReapMove.life {kind : Reaper} (tasked : Tasked m.task m.states) (running : m.states p = .running)
    (idle : (m.task p).Idle) (move : ReapMove m c p kind next) :
    LifeStep m.procs (scanLife kind p (kind.scan m.proc p)) next.procs := by
  cases move with
  | reaped z scan child zombie =>
    rw [scan]
    have nobody (q : Slot) : (m.task q).child ≠ some z := fun mine =>
      absurd (zombie.symm.trans (tasked.embryo q z mine)) (by simp)
    have after : ((((m.freeZombie kind z).setProc z kind.clear).finish p (m.proc z).pid).leave c).procs =
        { m.procs with
          proc := update m.proc z (kind.clear (m.proc z)), task := update m.task p .user } := by
      unfold Machine.freeZombie
      split <;> rfl
    rw [after]
    exact .reap kind p z running idle child zombie nobody
  | failed scan reason =>
    rw [scan]
    exact .fail kind p idle reason
  | blocked scan clear child =>
    rw [scan]
    refine .calm _ ⟨rfl, rfl, ?_, ?_, ?_, ?_⟩
    · exact Kept.update ⟨rfl, rfl, rfl, rfl, rfl, rfl⟩
    · exact Quiet.state_update (.inl running) (.inr (.inr rfl))
    · refine (Function.forall_update_iff m.task fun q now =>
        now.child = (m.task q).child ∧ now.maker = (m.task q).maker).mpr ⟨⟨?_, ?_⟩, fun _ _ => ⟨rfl, rfl⟩⟩
      · exact idle.child.symm
      · exact idle.maker.symm
    · intro q other task asleep
      by_cases same : q = p
      · subst same
        have kinds : Task.waiting kind = .waiting other := (update_self ..).symm.trans task
        cases kinds
        refine .inr ⟨?_, clear⟩
        change (update m.proc q _ q).chan = _
        rw [update_self]
      · have unmoved : (m.sleep c p (.proc p)).proc q = m.proc q := update_of_ne same _ _
        have waits : update m.task p (.waiting kind) q = m.task q := update_of_ne same _ _
        refine .inl ⟨waits.symm.trans task, ?_, congrArg Proc.chan unmoved⟩
        exact (congrArg Proc.state unmoved).symm.trans asleep

omit [DecidableEq Cpu] in
theorem create_life {kind : Creation} {np : Slot} (created : m.create p kind = some next)
    (task : next.task p = .allocated kind np) : m.allocLife p kind = some (.allocate p np kind) := by
  simp only [Machine.create, ite_none_right_eq_some] at created
  obtain ⟨_, created⟩ := created
  cases allocated : allocproc m.proc m.nextpid m.ticks with
  | none =>
    simp only [allocated, some.injEq] at created
    subst next
    exact absurd ((update_self ..).symm.trans task) (by simp)
  | some new =>
    simp only [allocated, some.injEq] at created
    subst next
    have same : Task.allocated kind new.1 = .allocated kind np := (update_self ..).symm.trans task
    cases same
    simp only [Machine.allocLife, allocated, map_some]

omit [DecidableEq Cpu] in
theorem full_life (full : ∀ q, (m.proc q).state ≠ .unused) (creates : action = .fork ∨ ∃ stack, action = .clone stack) :
    m.actLife p action = none := by
  have none : m.proc.first (fun proc => proc.state == .unused) = none := by
    refine List.find?_eq_none.mpr fun q _ => ?_
    simpa using full q
  have alloc (kind : Creation) : m.allocLife p kind = Option.none := by
    simp only [Machine.allocLife, allocproc, none, Option.map_none]
  obtain rfl | ⟨stack, rfl⟩ := creates
  · exact alloc .fork
  · exact alloc (.clone stack)

theorem act_life (orderly : Orderly m) (here : m.cpus c = ⟨some p, .process⟩) (moved : m.act c p action = some next) :
    LifeStep m.procs (m.actLife p action) next.procs := by
  have tasked := orderly.tasked
  have running : m.states p = .running := orderly.placed.running c p (by rw [here]) (by simp [here])
  have embryo {np : Slot} (child : (m.task p).child = some np) : m.states np = .embryo := tasked.embryo p np child
  have only {np : Slot} (child : (m.task p).child = some np) (q : Slot) (also : (m.task q).child = some np) :
      q = p := tasked.single q p np also child
  have returns (idle : (m.task p).Idle) : Calm m.procs { m.procs with task := update m.task p .user } :=
    .retask idle.child.symm idle.maker.symm (by simp)
  have unmade {dir : Page} (task : m.task p = .exec dir) :
      Calm m.procs { m.procs with task := update m.task p .user } := by
    refine .retask ?_ ?_ (by simp)
    · exact (congrArg Task.child task).symm
    · exact (congrArg Task.maker task).symm
  cases act_move moved with
  | yield =>
    exact .calm _ (.ofUpdate ⟨rfl, rfl, rfl, rfl, rfl, rfl⟩ (.inr ⟨.inl running, .inr (.inl rfl)⟩) (by simp))
  | sleep _ _ task =>
    refine .calm _ (.ofUpdate ⟨rfl, rfl, rfl, rfl, rfl, rfl⟩ (.inr ⟨.inl running, .inr (.inr rfl)⟩) (.inr fun kind => ?_))
    change m.task p ≠ _
    obtain user | ⟨dir, exec⟩ := task
    · simp [user]
    · simp [exec]
  | kill pid _ task =>
    have fields (q : Slot) := killTable_fields m.proc pid q
    have woken : Calm m.procs { m.procs with proc := (killTable m.proc pid).1 } := by
      refine .ofWoken (fun q => ?_) (killTable_chan m.proc pid) (killTable_state m.proc pid)
      rw [fields]
      exact ⟨rfl, rfl, rfl, rfl, rfl, rfl⟩
    refine .calm _ (woken.trans (.retask ?_ ?_ (by simp)))
    · exact (congrArg Task.child task).symm
    · exact (congrArg Task.maker task).symm
  | full _ task full creates =>
    rw [full_life full creates]
    exact .calm _ (returns (by rw [task]; trivial))
  | create _ kind np _ task unused creates =>
    have nobody (q : Slot) : (m.task q).child ≠ some np := fun mine =>
      absurd (unused.symm.trans (tasked.embryo q np mine)) (by simp)
    have named : m.actLife p action = some (.allocate p np kind) := by
      obtain ⟨rfl, rfl⟩ | ⟨stack, rfl, rfl⟩ := creates
      · exact create_life moved (update_self ..)
      · exact create_life moved (update_self ..)
    rw [named]
    exact .allocate p np kind m.ticks running task unused nobody
  | noStack _ np task | noCopy np task =>
    have child : (m.task p).child = some np := by rw [task]; rfl
    exact .abandon p np _ child (embryo child) rfl (only child)
  | kstack _ np page task =>
    have based : Calm m.procs { m.procs with proc := update m.proc np { m.proc np with
        kstack := page, context := .forkret } } := by
      refine .ofUpdate ⟨rfl, rfl, rfl, rfl, rfl, rfl⟩ (.inl rfl) (.inl ?_)
      simp [show (m.proc np).state = .embryo from embryo (congrArg Task.child task)]
    refine .calm _ (based.trans (.retask ?_ ?_ (by simp)))
    · exact (congrArg Task.child task).symm
    · exact (congrArg Task.maker task).symm
  | copyuvm np dir task =>
    have child : (m.task p).child = some np := by rw [task]; rfl
    rw [show m.actLife p (.copyuvm (some dir)) = some (.fill p np) from congrArg (Option.map _) child]
    exact .fork p np dir running task (embryo child) (only child)
  | shareuvm np stack task =>
    have child : (m.task p).child = some np := by rw [task]; rfl
    rw [show m.actLife p .shareuvm = some (.fill p np) from congrArg (Option.map _) child]
    exact .clone p np stack running task (embryo child) (only child)
  | ready np task =>
    have child : (m.task p).child = some np := by rw [task]; rfl
    rw [show m.actLife p .ready = some (.publish p np) from congrArg (Option.map _) child]
    exact .publish p np running task (embryo child) (only child)
  | exit _ task mortal => exact .exit p running task mortal
  | wait _ _ _ task reap => exact reap.life tasked running (by rw [task]; trivial)
  | noImage task | badScheduler _ task | setscheduler _ task => exact .calm _ (returns (by rw [task]; trivial))
  | execAlloc _ task =>
    refine .calm _ (.retask ?_ ?_ (by simp))
    · exact (congrArg Task.child task).symm
    · exact (congrArg Task.maker task).symm
  | execBad _ task => exact .calm _ (unmade task)
  | execCommit dir sz name task =>
    have moved : Calm m.procs { m.procs with proc := update m.proc p { m.proc p with
        pgdir := dir, sz := sz, name := name } } :=
      .ofUpdate ⟨rfl, rfl, rfl, rfl, rfl, rfl⟩ (.inl rfl)
        (.inl (by simp [show (m.proc p).state = .running from running]))
    refine .calm _ (moved.trans (.retask ?_ ?_ (by simp)))
    · exact (congrArg Task.child task).symm
    · exact (congrArg Task.maker task).symm

/-- A step is one event in the life of the processes, after the reaper that
resumes has been taken off its channel. -/
theorem step_life {event : Event Cpu} (orderly : Orderly m) (stepped : m.step event = some next) :
    ∃ middle, Calm m.procs middle ∧ (∀ q, middle.proc q = { m.proc q with chan := (middle.proc q).chan }) ∧
      LifeStep middle (m.lifeOp event) next.procs := by
  have direct (step : LifeStep m.procs (m.lifeOp event) next.procs) : ∃ middle, Calm m.procs middle ∧
      (∀ q, middle.proc q = { m.proc q with chan := (middle.proc q).chan }) ∧
      LifeStep middle (m.lifeOp event) next.procs := ⟨m.procs, .refl _, fun _ => rfl, step⟩
  cases step_move stepped with
  | idle | retire | tick | kalloc | kfree => exact direct (.calm _ (.refl _))
  | dispatch _ _ _ p _ _ choice =>
    have ready : Live (m.states p) := .inr (.inl ((orderly.choice choice).2 p rfl))
    exact direct (.calm _ (.ofUpdate ⟨rfl, rfl, rfl, rfl, rfl, rfl⟩ (.inr ⟨ready, .inl rfl⟩) (by simp)))
  | resume c _ here context =>
    have none : m.lifeOp (.resume c) = none := by
      simp only [Machine.lifeOp, here]
      split
      · rename_i asleep waiting
        exact absurd asleep context
      · rfl
    refine direct ?_
    rw [none]
    exact .calm _ (.refl _)
  | awake c _ here _ task =>
    have none : m.lifeOp (.resume c) = none := by
      simp only [Machine.lifeOp, here]
      split
      · rename_i kind asleep waiting
        exact absurd waiting (task kind)
      · rfl
    refine direct ?_
    rw [none]
    exact .calm _ (.ofUpdate ⟨rfl, rfl, rfl, rfl, rfl, rfl⟩ (.inl rfl) (.inr task))
  | rescan c p _ _ here context task reap =>
    obtain ⟨tasked, running, idle⟩ := orderly.rescan here task
    have state : (m.proc p).state = .running := orderly.placed.running c p (by rw [here]) (by simp [here])
    have cleared : Calm m.procs (m.setProc p fun proc => { proc with chan := none }).procs :=
      .ofUpdate ⟨rfl, rfl, rfl, rfl, rfl, rfl⟩ (.inl rfl)
        (.inl (by simp [state]))
    simp only [Machine.lifeOp, here, context, task]
    refine ⟨_, cleared, ?_, reap.life tasked running idle⟩
    exact (Function.forall_update_iff m.proc fun q now => now = { m.proc q with chan := now.chan }).mpr ⟨rfl, fun _ _ => rfl⟩
  | act c p _ _ here =>
    have on : m.running c = some p := by simp [Machine.running, here]
    simp only [Machine.step, on] at stepped
    refine direct ?_
    simp only [Machine.lifeOp, on, Option.bind_some]
    exact act_life orderly here stepped
  | wakeup chan =>
    exact direct (.calm _ (.ofWoken (fun q => .stirred (wakeup1_stirred m.proc chan q) (wakeup1_parent m.proc chan q))
      (wakeup1_chan m.proc chan) fun q => (wakeup1_stirred m.proc chan q).state))
  | updateStatistics => exact direct .statistics

end Xv6.Kernel
