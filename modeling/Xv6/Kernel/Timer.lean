import Xv6.Kernel.Selection

namespace Xv6.Kernel

open Process Scheduler Data Option Machine
open Function (update update_self update_of_ne)

/-! Timer interrupts. The handler runs on the kernel stack of the process it
interrupted, with interrupts off, and goes with that process when it yields. An
interrupt that finds its CPU in scheduler() only counts the tick. -/

def NON_PREEMPTIVE_SCHED : List Int32 := [2]

/-- What trap() does next for a timer interrupt; `scan` is its loop over NON_PREEMPTIVE_SCHED. -/
inductive TrapPoint where
  | ticks | statistics | wakeup | killed | running
  | scan (rest : List Int32)
  | yield | again
deriving DecidableEq, Repr

structure Trap where
  point : TrapPoint
  /-- `(tf->cs & 3) == DPL_USER`. -/
  user : Bool
deriving DecidableEq, Repr

structure Traps (Cpu : Type) where
  machine : Machine Cpu
  trap : Slot → Option Trap := fun _ => none

inductive TimerEvent (Cpu : Type) where
  | kernel (event : Event Cpu)
  | timer (c : Cpu) (user : Bool)
  | handler (c : Cpu)
deriving DecidableEq, Repr

variable {Cpu : Type} [DecidableEq Cpu]

/-- The step of the machine that the handler takes from a point, and where it
goes on; none is the return from the trap. -/
def Machine.trapPlan (m : Machine Cpu) (c : Cpu) (p : Slot) (trap : Trap) : Option (Event Cpu) × Option TrapPoint :=
  match trap.point with
  | .ticks => (some .tick, some .statistics)
  | .statistics => (some .updateStatistics, some .wakeup)
  | .wakeup => (some (.wakeup .ticks), some .killed)
  | .killed =>
    if (m.proc p).killed = true ∧ trap.user = true then (some (.act c .exit), none) else (none, some .running)
  | .running =>
    if (m.proc p).state = .running then (none, some (.scan NON_PREEMPTIVE_SCHED)) else (none, some .again)
  | .scan [] => (none, some .yield)
  | .scan (i :: rest) => if m.getscheduler = i then (none, some .again) else (none, some (.scan rest))
  | .yield => (some (.act c .yield), some .again)
  | .again => if (m.proc p).killed = true ∧ trap.user = true then (some (.act c .exit), none) else (none, none)

namespace Traps

variable (cpu0 : Cpu) (t : Traps Cpu)

/-- A process in the handler does nothing else, and outside of it yield() is only called by sys_yield. -/
def Outside (t : Traps Cpu) : Event Cpu → Prop
  | .act c action => ∀ p ∈ t.machine.running c, t.trap p = none ∧ (action = .yield → t.machine.task p = .user)
  | _ => True

instance (event : Event Cpu) : Decidable (t.Outside event) :=
  match event with
  | .act c action =>
    inferInstanceAs (Decidable (∀ p ∈ t.machine.running c, t.trap p = none ∧ (action = .yield → t.machine.task p = .user)))
  | .dispatch _ _ | .resume _ | .retire _ | .wakeup _ | .tick | .updateStatistics | .kalloc _ | .kfree _ =>
    .isTrue trivial

/-- `cpuid() == 0` is the first test of the handler. -/
def arrive (c : Cpu) (p : Slot) (user : Bool) : Option (Traps Cpu) :=
  if t.trap p = none ∧ (user = true → t.machine.task p = .user) then
    some { t with trap := update t.trap p (some ⟨if c = cpu0 then .ticks else .killed, user⟩) }
  else none

def handle (c : Cpu) (p : Slot) (trap : Trap) : Option (Traps Cpu) :=
  let (event, point) := t.machine.trapPlan c p trap
  let frames := update t.trap p (point.map fun point => { trap with point })
  match event with
  | none => some { t with trap := frames }
  | some event => (t.machine.step event).map fun machine => ⟨machine, frames⟩

def step : TimerEvent Cpu → Option (Traps Cpu)
  | .kernel event =>
    if t.Outside event then (t.machine.step event).map fun machine => { t with machine } else none
  | .timer c user => (t.machine.running c).bind fun p => t.arrive cpu0 c p user
  | .handler c => (t.machine.running c).bind fun p => (t.trap p).bind fun trap => t.handle c p trap

end Traps

open Traps (step)

/-- Everything a step can do, seen from the machine. -/
inductive TrapMove (cpu0 : Cpu) (t : Traps Cpu) : TimerEvent Cpu → Traps Cpu → Prop where
  | kernel (event : Event Cpu) (machine : Machine Cpu) (outside : t.Outside event)
      (stepped : t.machine.step event = some machine) :
      TrapMove cpu0 t (.kernel event) { t with machine }
  | timer (c : Cpu) (p : Slot) (user : Bool) :
      TrapMove cpu0 t (.timer c user)
        { t with trap := update t.trap p (some ⟨if c = cpu0 then .ticks else .killed, user⟩) }
  | think (c : Cpu) (p : Slot) (trap : Trap) (point : Option TrapPoint) (frame : t.trap p = some trap)
      (plan : t.machine.trapPlan c p trap = (none, point)) :
      TrapMove cpu0 t (.handler c)
        { t with trap := update t.trap p (point.map fun point => { trap with point }) }
  | does (c : Cpu) (p : Slot) (trap : Trap) (point : Option TrapPoint) (event : Event Cpu) (machine : Machine Cpu)
      (here : t.machine.running c = some p) (frame : t.trap p = some trap)
      (plan : t.machine.trapPlan c p trap = (some event, point)) (stepped : t.machine.step event = some machine) :
      TrapMove cpu0 t (.handler c) ⟨machine, update t.trap p (point.map fun point => { trap with point })⟩

section

variable {cpu0 : Cpu} {t next : Traps Cpu} {event : TimerEvent Cpu}

theorem trap_move (stepped : t.step cpu0 event = some next) : TrapMove cpu0 t event next := by
  cases event with
  | kernel event =>
    simp only [Traps.step, ite_none_right_eq_some, map_eq_some_iff] at stepped
    obtain ⟨outside, machine, stepped, rfl⟩ := stepped
    exact .kernel event machine outside stepped
  | timer c user =>
    simp only [Traps.step, Traps.arrive, bind_eq_some_iff, ite_none_right_eq_some, some.injEq] at stepped
    obtain ⟨p, -, -, rfl⟩ := stepped
    exact .timer c p user
  | handler c =>
    simp only [Traps.step, bind_eq_some_iff] at stepped
    obtain ⟨p, here, trap, frame, handled⟩ := stepped
    unfold Traps.handle at handled
    cases plan : t.machine.trapPlan c p trap with
    | mk done point =>
      simp only [plan] at handled
      cases done with
      | none =>
        cases handled
        exact .think c p trap point frame plan
      | some event =>
        simp only [map_eq_some_iff] at handled
        obtain ⟨machine, stepped, rfl⟩ := handled
        exact .does c p trap point event machine here frame plan stepped

/-- What the handler may do to the machine from a point. -/
inductive Handles (m : Machine Cpu) (c : Cpu) (p : Slot) (trap : Trap) : Event Cpu → Prop where
  | tick : Handles m c p trap .tick
  | statistics : Handles m c p trap .updateStatistics
  | wakeup : Handles m c p trap (.wakeup .ticks)
  | exit (killed : (m.proc p).killed = true) : Handles m c p trap (.act c .exit)
  | yield (point : trap.point = .yield) : Handles m c p trap (.act c .yield)

omit [DecidableEq Cpu] in
theorem trapPlan_handles {m : Machine Cpu} {c : Cpu} {p : Slot} {trap : Trap} {event : Event Cpu}
    {point : Option TrapPoint} (plan : m.trapPlan c p trap = (some event, point)) : Handles m c p trap event := by
  unfold trapPlan at plan
  split at plan
  · cases plan
    exact .tick
  · cases plan
    exact .statistics
  · cases plan
    exact .wakeup
  · split at plan
    · rename_i killed
      cases plan
      exact .exit killed.1
    · cases plan
  · split at plan <;> cases plan
  · cases plan
  · split at plan <;> cases plan
  · rename_i yields
    cases plan
    exact .yield yields
  · split at plan
    · rename_i killed
      cases plan
      exact .exit killed.1
    · cases plan

end

/-- setscheduler is not called with the number of policies. -/
def KnownSelection (t : Traps Cpu) (event : TimerEvent Cpu) (next : Traps Cpu) : Prop :=
  ∀ call, event = .kernel call → KnownPolicy t.machine call next.machine

/-- The handler has not found a preemptive policy selected. -/
def TrapPoint.Undecided : TrapPoint → Prop
  | .yield => False
  | .scan rest => 2 ∈ rest
  | _ => True

/-- How a process stops running: it yields, sleeps, sleeps in a reaper or exits. -/
inductive GivesUp (m : Machine Cpu) (p : Slot) : Event Cpu → ProcState → Prop where
  | yield (c : Cpu) (here : m.running c = some p) : GivesUp m p (.act c .yield) .runnable
  | sleep (c : Cpu) (chan : Chan) (here : m.running c = some p) : GivesUp m p (.act c (.sleep chan)) .sleeping
  | wait (c : Cpu) (kind : Reaper) (here : m.running c = some p) : GivesUp m p (.act c (.wait kind)) .sleeping
  | waitAgain (c : Cpu) (kind : Reaper) (here : m.cpus c = ⟨some p, .resuming⟩) (task : m.task p = .waiting kind) :
      GivesUp m p (.resume c) .sleeping
  | exit (c : Cpu) (here : m.running c = some p) : GivesUp m p (.act c .exit) .zombie

section

variable {m next : Machine Cpu} {event : Event Cpu} {c d : Cpu} {p q : Slot}

theorem ReapMove.givesUp {kind : Reaper} (move : ReapMove m c p kind next) :
    next.cpus = update m.cpus c { m.cpus c with mode := .process } ∨
      next.cpus = update m.cpus c { m.cpus c with mode := .switched } ∧ next.states p = .sleeping := by
  cases move with
  | reaped =>
    left
    unfold freeZombie
    split <;> rfl
  | failed => exact .inl rfl
  | blocked =>
    refine .inr ⟨rfl, ?_⟩
    rw [states_sleep, update_self]

/-- A process that runs is on a CPU, so whoever stops it changes that CPU. -/
theorem Orderly.stops (orderly : Orderly m) (stepped : m.step event = some next) (running : m.states p = .running)
    (left : next.states p ≠ .running) : GivesUp m p event (next.states p) := by
  have placed := (step_move stepped).placed orderly
  obtain ⟨c, on⟩ := orderly.placed.placed p running
  have mode : (m.cpus c).mode ≠ .switched := fun gone => orderly.placed.left c p on gone running
  have stays (same : (next.cpus c).proc = (m.cpus c).proc) (still : (next.cpus c).mode ≠ .switched) : False :=
    left (placed.running c p (same.trans on) still)
  have unchanged (same : next.cpus c = m.cpus c) : False := stays (by rw [same]) (by rw [same]; exact mode)
  have here (d : Cpu) (cpu : CpuState) (changed : next.cpus = update m.cpus d cpu) : d = c := by
    by_contra other
    exact unchanged (by rw [changed, update_of_ne (Ne.symm other)])
  cases step_move stepped with
  | dispatch d _ _ _ idle =>
    cases here d _ rfl
    exact absurd (on.symm.trans (orderly.placed.idle c idle)) (by simp)
  | retire d gone =>
    cases here d _ rfl
    exact absurd gone mode
  | resume d =>
    cases here d _ rfl
    refine (stays ?_ ?_).elim <;> simp [leave]
  | awake d =>
    cases here d _ rfl
    refine (stays ?_ ?_).elim <;> simp [leave, setProc]
  | rescan d q kind _ resuming _ task reap =>
    cases reap.givesUp with
    | inl process =>
      cases here d _ process
      refine (stays ?_ ?_).elim <;> simp [process, setProc]
    | inr slept =>
      cases here d _ slept.1
      cases (show some q = some p by rw [← on, resuming])
      rw [slept.2]
      exact .waitAgain c kind resuming task
  | act d q _ _ process act =>
    have runs (same : d = c) : m.running c = some p := by
      subst same
      rw [Machine.running, if_pos (by rw [process]), on]
    have mine (same : d = c) : q = p := by
      subst same
      exact some.inj (show some q = some p by rw [← on, process])
    cases act with
    | yield =>
      cases here d _ rfl
      cases mine rfl
      rw [states_enterSched, states_setProc, update_self]
      exact .yield c (runs rfl)
    | sleep chan =>
      cases here d _ rfl
      cases mine rfl
      rw [states_sleep, update_self]
      exact .sleep c chan (runs rfl)
    | exit =>
      cases here d _ rfl
      cases mine rfl
      have dead : ({ m with proc := exitTable m.proc m.initproc p }.enterSched c).states p = .zombie :=
        (exitTable_self m.proc m.initproc p).1
      rw [dead]
      exact .exit c (runs rfl)
    | wait kind _ _ _ reap =>
      cases reap.givesUp with
      | inl still =>
        cases here d _ still
        refine (stays ?_ ?_).elim <;> simp [still]
      | inr slept =>
        cases here d _ slept.1
        cases mine rfl
        rw [slept.2]
        exact .wait c kind (runs rfl)
    | _ => exact (unchanged rfl).elim
  | _ => exact (unchanged rfl).elim

end

/-- One step under the first-come-first-served policy. -/
structure RunToBlock (t : Traps Cpu) (event : TimerEvent Cpu) (next : Traps Cpu) : Prop where
  timer : ∀ c, (∃ user, event = .timer c user) ∨ event = .handler c → ∀ p, t.machine.states p = .running →
    (t.machine.proc p).killed = false → next.machine.states p = .running ∧
      ∀ d, (t.machine.cpus d).proc = some p → next.machine.cpus d = t.machine.cpus d
  leaves : ∀ p, t.machine.states p = .running → next.machine.states p ≠ .running →
    (∃ call, event = .kernel call ∧ GivesUp t.machine p call (next.machine.states p)) ∨
      (t.machine.proc p).killed = true ∧ next.machine.states p = .zombie
  dispatch : ∀ c stray p, event = .kernel (.dispatch c stray) → (next.machine.cpus c).proc = some p →
    t.machine.states p = .runnable ∧ ∀ q, t.machine.states q = .runnable → Ahead t.machine.proc Proc.ctime p q

def FcfsSelected (t : Traps Cpu) (_ : TimerEvent Cpu) (next : Traps Cpu) : Prop :=
  t.machine.schedSelected = 2 ∧ next.machine.schedSelected = 2

structure Fcfs (t : Traps Cpu) : Prop where
  orderly : Orderly t.machine
  coupled : Coupled t.machine
  undecided : ∀ p trap, t.trap p = some trap → trap.point.Undecided

section

variable {cpu0 : Cpu} {t next : Traps Cpu} {event : TimerEvent Cpu}

omit [DecidableEq Cpu] in
theorem trapPlan_undecided {m : Machine Cpu} {c : Cpu} {p : Slot} {trap : Trap} {done : Option (Event Cpu)}
    {point : TrapPoint} (selected : m.getscheduler = 2) (undecided : trap.point.Undecided)
    (plan : m.trapPlan c p trap = (done, some point)) : point.Undecided := by
  unfold trapPlan at plan
  split at plan
  · cases plan
    trivial
  · cases plan
    trivial
  · cases plan
    trivial
  · split at plan <;> cases plan
    trivial
  · split at plan <;> cases plan
    · exact List.mem_cons_self
    · trivial
  · rename_i empty
    rw [empty] at undecided
    cases undecided
  · rename_i i rest scans
    rw [scans] at undecided
    split at plan <;> cases plan
    · trivial
    · rename_i other
      rw [selected] at other
      exact (List.mem_cons.mp undecided).resolve_left other
  · cases plan
    trivial
  · split at plan <;> cases plan

theorem TrapMove.sound (orderly : Orderly t.machine) (coupled : Coupled t.machine)
    (known : KnownSelection t event next) (move : TrapMove cpu0 t event next) : Orderly next.machine ∧ Coupled next.machine := by
  cases move with
  | kernel call _ _ stepped => exact ⟨orderly.step (known call rfl) stepped, coupled.step stepped⟩
  | timer | think => exact ⟨orderly, coupled⟩
  | does _ _ _ _ call machine _ _ plan stepped =>
    have known : KnownPolicy t.machine call machine := by
      cases trapPlan_handles plan <;> trivial
    exact ⟨orderly.step known stepped, coupled.step stepped⟩

theorem TrapMove.undecided (fcfs : Fcfs t) (selected : t.machine.schedSelected = 2)
    (move : TrapMove cpu0 t event next) (p : Slot) (trap : Trap) (frame : next.trap p = some trap) : trap.point.Undecided := by
  have continues {c : Cpu} {q : Slot} {old : Trap} {done : Option (Event Cpu)} {point : Option TrapPoint}
      (before : t.trap q = some old) (plan : t.machine.trapPlan c q old = (done, point))
      (after : update t.trap q (point.map fun point => { old with point }) p = some trap) :
      trap.point.Undecided := by
    by_cases same : p = q
    · subst same
      rw [update_self, map_eq_some_iff] at after
      obtain ⟨_, rfl, rfl⟩ := after
      exact trapPlan_undecided selected (fcfs.undecided p old before) plan
    · rw [update_of_ne same] at after
      exact fcfs.undecided p trap after
  cases move with
  | kernel => exact fcfs.undecided p trap frame
  | timer _ q =>
    dsimp only at frame
    by_cases same : p = q
    · subst same
      rw [update_self] at frame
      cases frame
      split <;> trivial
    · rw [update_of_ne same] at frame
      exact fcfs.undecided p trap frame
  | think _ _ _ _ before plan | does _ _ _ _ _ _ _ before plan => exact continues before plan frame

theorem TrapMove.known (selected : FcfsSelected t event next) (move : TrapMove cpu0 t event next) :
    KnownSelection t event next := by
  intro call same
  subst same
  cases move with
  | kernel _ _ _ stepped =>
    refine known_of_selected stepped fun past => ?_
    rw [selected.2] at past
    exact absurd past (by decide)

theorem Fcfs.step (fcfs : Fcfs t) (selected : FcfsSelected t event next) (stepped : t.step cpu0 event = some next) :
    Fcfs next := by
  have move := trap_move stepped
  obtain ⟨orderly, coupled⟩ := move.sound fcfs.orderly fcfs.coupled (move.known selected)
  exact ⟨orderly, coupled, move.undecided fcfs selected.1⟩

theorem Fcfs.timer (fcfs : Fcfs t) (move : TrapMove cpu0 t event next) {p : Slot}
    (interrupt : ∀ call, event ≠ .kernel call) (running : t.machine.states p = .running)
    (alive : (t.machine.proc p).killed = false) : next.machine.states p = .running ∧
      ∀ d, (t.machine.cpus d).proc = some p → next.machine.cpus d = t.machine.cpus d := by
  cases move with
  | kernel call => exact absurd rfl (interrupt call)
  | timer | think => exact ⟨running, fun _ _ => rfl⟩
  | does c q trap point call machine here frame plan stepped =>
    -- a call of the handler that stops a process is its exit, of a killed one
    have stays (other : ∀ state, ¬ GivesUp t.machine p call state) : machine.states p = .running := by
      by_contra left
      exact other _ (fcfs.orderly.stops stepped running left)
    cases trapPlan_handles plan with
    | tick =>
      cases stepped
      exact ⟨running, fun _ _ => rfl⟩
    | statistics | wakeup =>
      refine ⟨stays (fun _ gives => nomatch gives), fun d _ => ?_⟩
      cases step_move stepped
      rfl
    | exit killed =>
      have other : q ≠ p := fun same => by
        rw [← same, killed] at alive
        contradiction
      refine ⟨stays (fun _ gives => ?_), fun d on => ?_⟩
      · cases gives with
        | exit _ mine => exact other (some.inj (here.symm.trans mine))
      · cases step_move stepped with
        | act _ r _ _ process act =>
          have mine : r = q := by
            have runs : t.machine.running c = some r := by simp [Machine.running, process]
            exact some.inj (runs.symm.trans here)
          cases act with
          | exit =>
            refine update_of_ne (fun same => ?_) _ _
            subst same
            rw [process, mine] at on
            exact other (some.inj on)
          | full _ _ _ creates | create _ _ _ _ _ _ creates => simp at creates
    | yield point =>
      have undecided := fcfs.undecided q trap frame
      rw [point] at undecided
      cases undecided

theorem Fcfs.leaves (fcfs : Fcfs t) (move : TrapMove cpu0 t event next) {p : Slot}
    (running : t.machine.states p = .running) (left : next.machine.states p ≠ .running) :
    (∃ call, event = .kernel call ∧ GivesUp t.machine p call (next.machine.states p)) ∨
      (t.machine.proc p).killed = true ∧ next.machine.states p = .zombie := by
  cases move with
  | kernel call _ _ stepped => exact .inl ⟨call, rfl, fcfs.orderly.stops stepped running left⟩
  | timer | think => exact absurd running left
  | does c q trap point _ machine here frame plan stepped =>
    have gives := fcfs.orderly.stops stepped running left
    cases trapPlan_handles plan with
    | exit killed =>
      generalize machine.states p = state at gives
      cases gives with
      | exit _ mine =>
        cases here.symm.trans mine
        exact .inr ⟨killed, rfl⟩
    | yield point =>
      have undecided := fcfs.undecided q trap frame
      rw [point] at undecided
      cases undecided
    | _ => cases gives

theorem Fcfs.dispatch (fcfs : Fcfs t) (selected : t.machine.schedSelected = 2) {c : Cpu} {stray : Option Slot}
    (move : TrapMove cpu0 t (.kernel (.dispatch c stray)) next) {p : Slot} (on : (next.machine.cpus c).proc = some p) :
    t.machine.states p = .runnable ∧ ∀ q, t.machine.states q = .runnable → Ahead t.machine.proc Proc.ctime p q := by
  have policy : t.machine.readyProcess = some .fcfs := by
    rw [fcfs.coupled, selected]
    rfl
  cases move with
  | kernel _ _ _ stepped =>
    cases step_move stepped with
    | idle _ _ _ mode =>
      exact absurd (on.symm.trans (fcfs.orderly.placed.idle c mode)) (by simp)
    | dispatch _ _ _ q _ _ choice =>
      have same : q = p := by
        simpa [setProc, setCpu] using on
      subst same
      refine ⟨(fcfs.orderly.choice choice).2 q rfl, ?_⟩
      simp only [readyChoice, policy, Policy.select, some.injEq, Prod.mk.injEq] at choice
      exact leastScan_least choice.1

end

def Traps.boot (policy : Policy) : Traps Cpu := { machine := Kernel.boot policy }

/-- From any state in which no handler has decided to yield yet, and for as
long as FCFS stays selected: a timer interrupt takes only killed processes off
their CPU, and each dispatch takes the one that arrived first. -/
theorem fcfs_run_to_block {cpu0 : Cpu} {policy : Policy} {before events : List (TimerEvent Cpu)} {t : Traps Cpu}
    (known : EveryStep (step cpu0) KnownSelection (.boot policy) before)
    (ran : run (step cpu0) (.boot policy) before = some t)
    (undecided : ∀ p trap, t.trap p = some trap → trap.point.Undecided)
    (stays : EveryStep (step cpu0) FcfsSelected t events) : EveryStep (step cpu0) RunToBlock t events := by
  obtain ⟨orderly, coupled⟩ := (runs_along (fun t : Traps Cpu => Orderly t.machine ∧ Coupled t.machine)
    ⟨.boot policy, .boot policy⟩ known
    fun _ _ _ both known stepped => ⟨(trap_move stepped).sound both.1 both.2 known, trivial⟩).2 t ran
  refine (runs_along Fcfs ⟨orderly, coupled, undecided⟩ stays
    (fun t event next fcfs selected stepped => ⟨fcfs.step selected stepped, ?_⟩)).1
  have move := trap_move stepped
  refine ⟨fun c interrupt p => fcfs.timer move fun call same => ?_, fun p => fcfs.leaves move,
    fun c stray p dispatched on => ?_⟩
  · subst same
    simp at interrupt
  · subst dispatched
    exact fcfs.dispatch selected.1 move on

instance (t next : Traps Cpu) (event : TimerEvent Cpu) : Decidable (FcfsSelected t event next) :=
  inferInstanceAs (Decidable (_ ∧ _))

instance (t next : Traps Cpu) (event : TimerEvent Cpu) : Decidable (KnownSelection t event next) :=
  match event with
  | .kernel call =>
    decidable_of_iff (KnownPolicy t.machine call next.machine)
      ⟨fun known other same => by cases same; exact known, fun known => known call rfl⟩
  | .timer _ _ | .handler _ => .isTrue fun _ same => nomatch same

/-- init selects FCFS while a second CPU idles. -/
def selectFcfs : List (TimerEvent Bool) :=
  [.kernel (.dispatch false none), .kernel (.resume false), .kernel (.act false (.setscheduler 2))]

/-- init forks; the timer interrupts it on the boot CPU and returns; its child is dispatched on the other CPU. -/
def interruptedFork : List (TimerEvent Bool) :=
  [.kernel (.act false .fork), .kernel (.act false (.kstack (some 3))), .timer false false, .handler false,
    .handler false, .handler false, .handler false, .handler false, .handler false, .handler false,
    .kernel (.act false (.copyuvm (some 4))), .kernel (.act false .ready), .kernel (.dispatch true none),
    .kernel (.resume true), .timer true true, .handler true, .handler true, .handler true, .handler true,
    .kernel (.act true .yield)]

theorem fcfs_run_to_block_fork : EveryStep (step false) KnownSelection (.boot .default) selectFcfs ∧
      ∃ t, run (step false) (.boot .default) selectFcfs = some t ∧
        (run (step false) t interruptedFork).map (fun last => (last.machine.proc 0).state) = some .running ∧
        EveryStep (step false) RunToBlock t interruptedFork := by
  have known : EveryStep (step false) KnownSelection (.boot .default) selectFcfs := by decide +kernel
  have reached : (run (step false) (.boot .default) selectFcfs).map (fun t =>
      ((run (step false) t interruptedFork).map (fun last => (last.machine.proc 0).state),
        decide (EveryStep (step false) FcfsSelected t interruptedFork),
        decide (∀ p, t.trap p = none))) = some (some .running, true, true) := by
    decide +kernel
  obtain ⟨t, ran, facts⟩ := Option.map_eq_some_iff.mp reached
  simp only [Prod.mk.injEq, decide_eq_true_eq] at facts
  obtain ⟨last, stays, empty⟩ := facts
  refine ⟨known, t, ran, last, fcfs_run_to_block known ran (fun p trap frame => ?_) stays⟩
  rw [empty p] at frame
  cases frame

end Xv6.Kernel
