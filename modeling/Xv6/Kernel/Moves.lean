import Xv6.Data.Run
import Xv6.Kernel.Machine

namespace Xv6.Kernel

open Process Scheduler Data Option Machine

/-! Everything a step of the machine can do, guards included. -/

variable {Cpu : Type} [DecidableEq Cpu]

/-- One pass of a reaper's loop by process `p` on CPU `c`. -/
inductive ReapMove (m : Machine Cpu) (c : Cpu) (p : Slot) (kind : Reaper) : Machine Cpu → Prop where
  | reaped (q : Slot) (scan : kind.scan m.proc p = .reap q) (child : kind.child p (m.proc q) = true)
      (zombie : (m.proc q).state = .zombie) (space : kind.freesSpace = true → (m.proc q).pgdir ≠ 0) :
      ReapMove m c p kind ((((m.freeZombie kind q).setProc q kind.clear).finish p (m.proc q).pid).leave c)
  | failed (scan : kind.scan m.proc p = .fail)
      (reason : (∀ q, kind.child p (m.proc q) = false) ∨ (m.proc p).killed = true) :
      ReapMove m c p kind ((m.finish p (-1)).leave c)
  | blocked (scan : kind.scan m.proc p = .block)
      (none : ∀ q, kind.child p (m.proc q) = true → (m.proc q).state ≠ .zombie)
      (some : ∃ q, kind.child p (m.proc q) = true) (alive : (m.proc p).killed = false) :
      ReapMove m c p kind ((m.setTask p (.waiting kind)).sleep c p (.proc p))

theorem reap_move {m next : Machine Cpu} {c : Cpu} {p : Slot} {kind : Reaper} (reaped : m.reap c p kind = some next) :
    ReapMove m c p kind next := by
  unfold reap at reaped
  cases found : m.proc.first (fun proc => kind.child p proc && proc.state == .zombie) with
  | some q =>
    have scan : kind.scan m.proc p = .reap q := by simp only [Reaper.scan, found]
    simp only [scan, ite_none_left_eq_some, some.injEq] at reaped
    obtain ⟨space, rfl⟩ := reaped
    have both := Table.first_some found
    simp only [Bool.and_eq_true, beq_iff_eq] at both
    exact .reaped q scan both.1 both.2 fun frees null => space ⟨frees, null⟩
  | none =>
    have missed (q : Slot) (child : kind.child p (m.proc q) = true) : (m.proc q).state ≠ .zombie := by
      have := Table.first_none found q
      simpa [child] using this
    by_cases reason : m.proc.first (kind.child p) = none ∨ (m.proc p).killed = true
    · have scan : kind.scan m.proc p = .fail := by simp only [Reaper.scan, found, if_pos reason]
      simp only [scan, some.injEq] at reaped
      subst next
      refine .failed scan (reason.imp_left fun absent q => ?_)
      simpa using Table.first_none absent q
    · have scan : kind.scan m.proc p = .block := by simp only [Reaper.scan, found, if_neg reason]
      simp only [scan, some.injEq] at reaped
      subst next
      simp only [not_or] at reason
      obtain ⟨q, child⟩ := Option.ne_none_iff_exists'.mp reason.1
      exact .blocked scan missed ⟨q, Table.first_some child⟩ (by simpa using reason.2)

/-- The steps of the process `p` that CPU `c` runs. -/
inductive ActMove (m : Machine Cpu) (c : Cpu) (p : Slot) : Action → Machine Cpu → Prop where
  | yield (free : m.lock = none) :
      ActMove m c p .yield
        ((m.setProc p fun proc => { proc with state := .runnable, context := .yield }).enterSched c)
  | sleep (chan : Chan) (free : m.lock = none) (task : m.task p = .user ∨ ∃ dir, m.task p = .exec dir) :
      ActMove m c p (.sleep chan) (m.sleep c p chan)
  | kill (pid : Int32) (free : m.lock = none) (task : m.task p = .user) :
      ActMove m c p (.kill pid)
        ({ m with proc := (killTable m.proc pid).1 }.finish p (killTable m.proc pid).2)
  | full (action : Action) (task : m.task p = .user) (full : ∀ q, (m.proc q).state ≠ .unused)
      (creates : action = .fork ∨ ∃ stack, action = .clone stack) :
      ActMove m c p action (m.finish p (-1))
  | create (action : Action) (kind : Creation) (np : Slot) (free : m.lock = none) (task : m.task p = .user)
      (unused : (m.proc np).state = .unused)
      (creates : action = .fork ∧ kind = .fork ∨ ∃ stack, action = .clone stack ∧ kind = .clone stack) :
      ActMove m c p action (({ m with nextpid := m.nextpid + 1 }.setProc np fun proc => { proc with
        state := .embryo, priority := 10, pid := m.nextpid, ctime := m.ticks, retime := 0, rutime := 0,
        stime := 0 }).setTask p (.allocated kind np))
  | noStack (kind : Creation) (np : Slot) (task : m.task p = .allocated kind np) :
      ActMove m c p (.kstack none)
        ((m.setProc np fun proc => { proc with kstack := 0, state := .unused }).finish p (-1))
  | kstack (kind : Creation) (np : Slot) (page : Page) (task : m.task p = .allocated kind np)
      (fresh : m.pages page = .free) :
      ActMove m c p (.kstack (some page)) (((m.setPage page .kstack).setProc np fun proc =>
        { proc with kstack := page, context := .forkret }).setTask p (.stacked kind np))
  | noCopy (np : Slot) (task : m.task p = .stacked .fork np) :
      ActMove m c p (.copyuvm none) (((m.setPage (m.proc np).kstack .free).setProc np fun proc =>
        { proc with pgdir := 0, kstack := 0, state := .unused }).finish p (-1))
  | copyuvm (np : Slot) (dir : Page) (task : m.task p = .stacked .fork np) (fresh : m.pages dir = .free) :
      ActMove m c p (.copyuvm (some dir)) (((m.setPage dir .dir).setProc np fun proc =>
        forkProc proc (m.proc p) p dir).setTask p (.filled np))
  | shareuvm (np : Slot) (stack : UInt32) (task : m.task p = .stacked (.clone stack) np) :
      ActMove m c p .shareuvm
        ((m.setProc np fun proc => cloneProc proc (m.proc p) p stack).setTask p (.filled np))
  | ready (np : Slot) (task : m.task p = .filled np) (free : m.lock = none) :
      ActMove m c p .ready
        ((m.setProc np fun proc => { proc with state := .runnable }).finish p (m.proc np).pid)
  | exit (free : m.lock = none) (task : m.task p = .user) (mortal : p ≠ m.initproc) :
      ActMove m c p .exit ({ m with proc := exitTable m.proc m.initproc p }.enterSched c)
  | wait (kind : Reaper) (next : Machine Cpu) (free : m.lock = none) (task : m.task p = .user)
      (move : ReapMove m c p kind next) : ActMove m c p (.wait kind) next
  | noImage (task : m.task p = .user) : ActMove m c p (.execAlloc none) (m.finish p (-1))
  | execAlloc (dir : Page) (task : m.task p = .user) (fresh : m.pages dir = .free) :
      ActMove m c p (.execAlloc (some dir)) ((m.setPage dir .dir).setTask p (.exec dir))
  | execBad (dir : Page) (task : m.task p = .exec dir) : ActMove m c p .execBad ((m.setPage dir .free).finish p (-1))
  | execCommit (dir : Page) (sz : UInt32) (name : List UInt8) (task : m.task p = .exec dir)
      (space : (m.proc p).pgdir ≠ 0) :
      ActMove m c p (.execCommit sz name) (((m.setPage (m.proc p).pgdir .free).setProc p fun proc =>
        { proc with pgdir := dir, sz := sz, name := name }).finish p 0)
  | badScheduler (sid : Int32) (task : m.task p = .user)
      (refused : sid < 0 ∨ sid > Int32.ofNat schedulerName.length) :
      ActMove m c p (.setscheduler sid) (m.finish p (-1))
  | setscheduler (sid : Int32) (task : m.task p = .user)
      (accepted : ¬ (sid < 0 ∨ sid > Int32.ofNat schedulerName.length)) :
      ActMove m c p (.setscheduler sid) ({ m with
        readyProcess := schedulerFunction[sid.toInt.toNat]?, schedSelected := sid }.finish p sid)

section

variable {m next : Machine Cpu} {c : Cpu} {p : Slot} {action : Action}

theorem create_move {kind : Creation}
    (creates : action = .fork ∧ kind = .fork ∨ ∃ stack, action = .clone stack ∧ kind = .clone stack)
    (created : m.create p kind = some next) : ActMove m c p action next := by
  simp only [Machine.create, ite_none_right_eq_some] at created
  obtain ⟨⟨free, task⟩, created⟩ := created
  unfold allocproc at created
  cases found : m.proc.first (fun proc => proc.state == .unused) with
  | none =>
    simp only [found, some.injEq] at created
    subst next
    refine .full action task (fun q => by simpa using Table.first_none found q) ?_
    exact creates.imp (fun fork => fork.1) fun ⟨stack, clone, _⟩ => ⟨stack, clone⟩
  | some np =>
    simp only [found, some.injEq] at created
    subst next
    exact .create action kind np free task (by simpa using Table.first_some found) creates

theorem kstack_move {page : Option Page} (moved : m.kstack p page = some next) : ActMove m c p (.kstack page) next := by
  cases task : m.task p with
  | allocated kind np =>
    cases page with
    | none =>
      simp only [Machine.kstack, task, some.injEq] at moved
      subst next
      exact .noStack kind np task
    | some page =>
      simp only [Machine.kstack, task, guarded] at moved
      obtain ⟨fresh, rfl⟩ := moved
      exact .kstack kind np page task fresh
  | _ => simp [Machine.kstack, task] at moved

theorem copyuvm_move {dir : Option Page} (moved : m.copyuvm p dir = some next) : ActMove m c p (.copyuvm dir) next := by
  cases task : m.task p with
  | stacked kind np =>
    cases kind with
    | clone => simp [Machine.copyuvm, task] at moved
    | fork =>
      cases dir with
      | none =>
        simp only [Machine.copyuvm, task, some.injEq] at moved
        subst next
        exact .noCopy np task
      | some dir =>
        simp only [Machine.copyuvm, task, guarded] at moved
        obtain ⟨fresh, rfl⟩ := moved
        exact .copyuvm np dir task fresh
  | _ => simp [Machine.copyuvm, task] at moved

theorem shareuvm_move (moved : m.shareuvm p = some next) : ActMove m c p .shareuvm next := by
  cases task : m.task p with
  | stacked kind np =>
    cases kind with
    | fork => simp [Machine.shareuvm, task] at moved
    | clone stack =>
      simp only [Machine.shareuvm, task, some.injEq] at moved
      subst next
      exact .shareuvm np stack task
  | _ => simp [Machine.shareuvm, task] at moved

theorem sleepOn_move {chan : Chan} (moved : m.sleepOn c p chan = some next) : ActMove m c p (.sleep chan) next := by
  unfold sleepOn at moved
  split at moved
  · contradiction
  · rename_i task _
    simp only [guarded] at moved
    obtain ⟨free, rfl⟩ := moved
    exact .sleep _ free (.inl task)
  · rename_i dir task _
    simp only [guarded] at moved
    obtain ⟨free, rfl⟩ := moved
    exact .sleep _ free (.inr ⟨dir, task⟩)
  · contradiction

theorem exec_move (moved : m.act c p action = some next)
    (exec : (∃ dir, action = .execAlloc dir) ∨ action = .execBad ∨ ∃ sz name, action = .execCommit sz name) :
    ActMove m c p action next := by
  obtain ⟨dir, rfl⟩ | rfl | ⟨sz, name, rfl⟩ := exec
  · simp only [Machine.act, Machine.execAlloc, ite_none_right_eq_some] at moved
    obtain ⟨task, moved⟩ := moved
    cases dir with
    | none =>
      cases moved
      exact .noImage task
    | some dir =>
      simp only [guarded] at moved
      obtain ⟨fresh, rfl⟩ := moved
      exact .execAlloc dir task fresh
  · cases task : m.task p with
    | exec dir =>
      simp only [Machine.act, Machine.execBad, task, some.injEq] at moved
      subst next
      exact .execBad dir task
    | _ => simp [Machine.act, Machine.execBad, task] at moved
  · cases task : m.task p with
    | exec dir =>
      simp only [Machine.act, Machine.execCommit, task, ite_none_left_eq_some, some.injEq] at moved
      obtain ⟨space, rfl⟩ := moved
      exact .execCommit dir sz name task space
    | _ => simp [Machine.act, Machine.execCommit, task] at moved

theorem act_move (moved : m.act c p action = some next) : ActMove m c p action next := by
  cases action with
  | yield =>
    simp only [Machine.act, guarded] at moved
    obtain ⟨free, rfl⟩ := moved
    exact .yield free
  | sleep => exact sleepOn_move moved
  | kill pid =>
    simp only [Machine.act, guarded] at moved
    obtain ⟨⟨free, task⟩, rfl⟩ := moved
    exact .kill pid free task
  | fork => exact create_move (.inl ⟨rfl, rfl⟩) moved
  | clone stack => exact create_move (.inr ⟨stack, rfl, rfl⟩) moved
  | kstack => exact kstack_move moved
  | copyuvm => exact copyuvm_move moved
  | shareuvm => exact shareuvm_move moved
  | ready =>
    cases task : m.task p with
    | filled np =>
      simp only [Machine.act, Machine.ready, task, guarded] at moved
      obtain ⟨free, rfl⟩ := moved
      exact .ready np task free
    | _ => simp [Machine.act, Machine.ready, task] at moved
  | exit =>
    simp only [Machine.act, guarded] at moved
    obtain ⟨⟨free, task, mortal⟩, rfl⟩ := moved
    exact .exit free task mortal
  | wait kind =>
    simp only [Machine.act, ite_none_right_eq_some] at moved
    obtain ⟨⟨free, task⟩, reaped⟩ := moved
    exact .wait kind next free task (reap_move reaped)
  | execAlloc dir => exact exec_move moved (.inl ⟨dir, rfl⟩)
  | execBad => exact exec_move moved (.inr (.inl rfl))
  | execCommit sz name => exact exec_move moved (.inr (.inr ⟨sz, name, rfl⟩))
  | setscheduler sid =>
    simp only [Machine.act, Machine.setscheduler, ite_none_right_eq_some] at moved
    obtain ⟨task, moved⟩ := moved
    split at moved
    · rename_i refused
      cases moved
      exact .badScheduler sid task refused
    · rename_i accepted
      cases moved
      exact .setscheduler sid task accepted

end

inductive Move (m : Machine Cpu) : Event Cpu → Machine Cpu → Prop where
  | idle (c : Cpu) (stray : Option Slot) (sched : SchedState) (mode : (m.cpus c).mode = .scheduler)
      (free : m.lock = none) (choice : m.readyChoice stray = some (none, sched)) :
      Move m (.dispatch c stray) { m with sched }
  | dispatch (c : Cpu) (stray : Option Slot) (sched : SchedState) (p : Slot)
      (mode : (m.cpus c).mode = .scheduler) (free : m.lock = none)
      (choice : m.readyChoice stray = some (some p, sched)) :
      Move m (.dispatch c stray)
        (({ m with sched, lock := some c }.setCpu c ⟨some p, .resuming⟩).setProc p fun proc =>
          { proc with state := .running })
  | resume (c : Cpu) (p : Slot) (here : m.cpus c = ⟨some p, .resuming⟩)
      (context : (m.proc p).context ≠ .sleep) : Move m (.resume c) (m.leave c)
  | awake (c : Cpu) (p : Slot) (here : m.cpus c = ⟨some p, .resuming⟩)
      (context : (m.proc p).context = .sleep) (task : ∀ kind, m.task p ≠ .waiting kind) :
      Move m (.resume c) ((m.setProc p fun proc => { proc with chan := none }).leave c)
  | rescan (c : Cpu) (p : Slot) (kind : Reaper) (next : Machine Cpu) (here : m.cpus c = ⟨some p, .resuming⟩)
      (context : (m.proc p).context = .sleep) (task : m.task p = .waiting kind)
      (move : ReapMove (m.setProc p fun proc => { proc with chan := none }) c p kind next) :
      Move m (.resume c) next
  | retire (c : Cpu) (mode : (m.cpus c).mode = .switched) :
      Move m (.retire c) ({ m with lock := none }.setCpu c ⟨none, .scheduler⟩)
  | act (c : Cpu) (p : Slot) (action : Action) (next : Machine Cpu) (here : m.cpus c = ⟨some p, .process⟩)
      (move : ActMove m c p action next) : Move m (.act c action) next
  | wakeup (chan : Chan) (free : m.lock = none) :
      Move m (.wakeup chan) { m with proc := wakeup1 m.proc chan }
  | tick : Move m .tick { m with ticks := m.ticks + 1 }
  | updateStatistics (free : m.lock = none) :
      Move m .updateStatistics { m with proc := updateStatistics m.proc }
  | kalloc (page : Page) (fresh : m.pages page = .free) : Move m (.kalloc page) (m.setPage page .other)
  | kfree (page : Page) (used : m.pages page = .other) (valid : page ≠ 0) : Move m (.kfree page) (m.setPage page .free)

theorem step_move {m next : Machine Cpu} {event : Event Cpu} (stepped : m.step event = some next) : Move m event next := by
  cases event with
  | dispatch c stray =>
    simp only [step, Machine.dispatch, ite_none_right_eq_some] at stepped
    obtain ⟨⟨mode, free⟩, stepped⟩ := stepped
    split at stepped
    · contradiction
    · rename_i sched choice
      cases stepped
      exact .idle c stray sched mode free choice
    · rename_i p sched choice
      cases stepped
      exact .dispatch c stray sched p mode free choice
  | resume c =>
    simp only [step, Machine.resume] at stepped
    split at stepped
    · rename_i p here
      split at stepped
      · rename_i context
        cases stepped
        exact .resume c p here (by simp [context])
      · rename_i context
        cases stepped
        exact .resume c p here (by simp [context])
      · rename_i context
        split at stepped
        · rename_i kind task
          exact .rescan c p kind next here context task (reap_move stepped)
        · rename_i task
          cases stepped
          exact .awake c p here context fun kind waiting => task kind waiting
    · contradiction
  | retire c =>
    simp only [step, guarded] at stepped
    obtain ⟨mode, rfl⟩ := stepped
    exact .retire c mode
  | act c action =>
    simp only [step, running] at stepped
    split at stepped
    · rename_i p here
      split at here
      · rename_i mode
        refine .act c p action next ?_ (act_move stepped)
        rw [← here, ← mode]
      · contradiction
    · contradiction
  | wakeup chan =>
    simp only [step, guarded] at stepped
    obtain ⟨free, rfl⟩ := stepped
    exact .wakeup chan free
  | tick =>
    cases stepped
    exact .tick
  | updateStatistics =>
    simp only [step, guarded] at stepped
    obtain ⟨free, rfl⟩ := stepped
    exact .updateStatistics free
  | kalloc page =>
    simp only [step, guarded] at stepped
    obtain ⟨fresh, rfl⟩ := stepped
    exact .kalloc page fresh
  | kfree page =>
    simp only [step, guarded] at stepped
    obtain ⟨⟨used, valid⟩, rfl⟩ := stepped
    exact .kfree page used valid

end Xv6.Kernel
