import Xv6.Block.Calls

namespace Xv6.Block

open Process Sem Data Function Bool List Nat Option State
open State (step)

/-! Killed processes in the calls that wait. wait, wait2 and join test `killed`
and go to sleep in one section under ptable.lock, which kill() needs. The others
test it under another lock and take ptable.lock only inside sleep(), and sem_wait
does not test it at all. -/

namespace Pc

/-- Inside a call, from the trap that makes it to the return from that trap. -/
def inside : Pc → Bool
  | .user | .exiting | .panic => false
  | _ => true

/-- The process holds ptable.lock. -/
def holds : Pc → Bool
  | .acquire .ptable _ => false
  | .release .ptable _ => true
  | .acquire _ next | .release _ next => next.holds
  | .sched _ _ | .clear _ | .wakeup1 _ _ | .scan _ | .kill _ => true
  | _ => false

/-- ptable.lock is acquired and released in turn, before the call returns. -/
def formed : Pc → Bool
  | .acquire .ptable next | .sched _ next | .asleep next | .clear next | .wakeup1 _ next =>
    next.holds && next.formed
  | .release .ptable next => !next.holds && next.inside && next.formed
  | .acquire _ next | .release _ next => next.inside && next.formed
  | .ifKilled yes no => !yes.holds && !no.holds && yes.inside && no.inside && yes.formed && no.formed
  | _ => true

theorem inside_of_holds {pc : Pc} (holds : pc.holds = true) : pc.inside = true := by
  cases pc <;> first | rfl | contradiction

theorem formed_acquire {lock : Lock} {next : Pc} (formed : (Pc.acquire lock next).formed = true) :
    next.inside = true ∧ next.formed = true := by
  cases lock with
  | ptable =>
    simp only [Pc.formed, and_eq_true] at formed
    exact ⟨inside_of_holds formed.1, formed.2⟩
  | _ =>
    simp only [Pc.formed, and_eq_true] at formed
    exact formed

theorem formed_release {lock : Lock} {next : Pc} (formed : (Pc.release lock next).formed = true) :
    next.inside = true ∧ next.formed = true := by
  cases lock with
  | ptable =>
    simp only [Pc.formed, and_eq_true] at formed
    exact ⟨formed.1.2, formed.2⟩
  | _ =>
    simp only [Pc.formed, and_eq_true] at formed
    exact formed

/-- A process that is killed here may go to sleep before it tests `killed`. -/
def risky : Pc → Bool
  | .sched _ _ => true
  | .acquire _ next | .release _ next | .asleep next | .clear next | .wakeup1 _ next => next.risky
  | .ifKilled yes _ => yes.risky
  | .point (.semFirst _ _) | .point (.semLoop _ _) => true
  | _ => false

/-- kill() can find a process here. -/
def exposed (pc : Pc) : Bool := pc.risky && !pc.holds

/-- The pid that kill() looks for here. -/
def kills : Pc → Option Int32
  | .kill pid => some pid
  | _ => none

/-- The inode that ilock() tests here. -/
def wants : Pc → Option Nat
  | .point (.ilock ip _) => some ip
  | _ => none

end Pc

/-- An upper bound on the steps a killed process takes from here to its return. -/
def Point.rank : Point → Nat
  | .semFirst _ _ | .semLoop _ _ | .ilock _ _ => 3
  | .readEmpty _ n => n.toInt.toNat + 7
  | .readCopy _ n got => (n.toInt.toNat - got.length) + 6
  | .writeNext _ _ rest => 2 * rest.length + 6
  | .writeFull _ _ _ rest => 2 * rest.length + 7
  | .writeOpen _ _ _ _ | .sleepTest _ _ => 4
  | .holding _ n => 3 * n + 15
  | .unlock _ n => 3 * n + 12
  | .consNext _ _ n => 3 * n + 6
  | .consEmpty _ _ left => 3 * left + 8
  | .consTake _ _ left => 3 * left + 7
  | .sleepStart _ => 5

open Point (rank run)

def Pc.rank : Pc → Nat
  | .user | .exiting | .panic => 0
  | .trap _ | .ret _ => 1
  | .acquire _ next | .release _ next | .asleep next | .clear next | .wakeup1 _ next => next.rank + 1
  | .sched _ next => next.rank + 2
  | .ifKilled yes _ => yes.rank + 1
  | .scan _ | .kill _ => 3
  | .point test => test.rank

section

variable {shared : Shared} {point : Point}

theorem run_formed (shared : Shared) (point : Point) :
    (point.run shared).2.formed = true ∧ (point.run shared).2.holds = false ∧ (point.run shared).2 ≠ .user := by
  cases point with
  | writeNext _ _ rest | consNext _ _ rest => cases rest <;> exact ⟨rfl, rfl, nofun⟩
  | unlock | sleepStart => exact ⟨rfl, rfl, nofun⟩
  | consTake =>
    simp only [Point.run]
    split
    · exact ⟨rfl, rfl, nofun⟩
    · split <;> exact ⟨rfl, rfl, nofun⟩
  | _ =>
    simp only [Point.run]
    split <;> exact ⟨rfl, rfl, nofun⟩

theorem start_formed (call : Call) : call.start.formed = true ∧ call.start.holds = false := by
  cases call with
  | semWait =>
    simp only [Call.start]
    split <;> exact ⟨rfl, rfl⟩
  | _ => exact ⟨rfl, rfl⟩

/-- From a point that is not risky a killed process comes to no sleep, and closer
to its return, if it does not have to wait for an inode. -/
theorem run_safe (safe : (Pc.point point).risky = false) (free : ∀ ip value, point = .ilock ip value → shared.locked ip = false) :
    (point.run shared).2.risky = false ∧ (point.run shared).2.rank < point.rank := by
  cases point with
  | semFirst | semLoop => simp [Pc.risky] at safe
  | readEmpty =>
    simp only [Point.run]
    split
    · exact ⟨rfl, by simp [Pc.rank, Pc.leave, Point.rank]⟩
    · exact ⟨rfl, by simp [Pc.rank, Point.rank]⟩
  | readCopy =>
    simp only [Point.run]
    split
    · rename_i more
      refine ⟨rfl, ?_⟩
      simp only [Pc.rank, Point.rank, length_append, length_singleton]
      omega
    · exact ⟨rfl, by simp [Pc.rank, Pc.wakeup, Pc.leave, Point.rank]⟩
  | writeNext _ _ rest =>
    cases rest with
    | nil => exact ⟨rfl, by simp [Point.run, Pc.rank, Pc.wakeup, Pc.leave, Point.rank]⟩
    | cons =>
      refine ⟨rfl, ?_⟩
      simp only [Point.run, Pc.rank, Point.rank, length_cons]
      omega
  | writeFull =>
    simp only [Point.run]
    split
    · refine ⟨rfl, ?_⟩
      simp only [Pc.rank, Point.rank]
      omega
    · exact ⟨rfl, by simp [Pc.rank, Point.rank]⟩
  | writeOpen | sleepTest =>
    simp only [Point.run]
    split <;> exact ⟨rfl, by simp [Pc.rank, Pc.leave, Point.rank]⟩
  | holding =>
    simp only [Point.run]
    split <;> exact ⟨rfl, by simp [Pc.rank, Point.rank]⟩
  | unlock => exact ⟨rfl, by simp [Point.run, Pc.rank, Pc.wakeup, Point.rank]⟩
  | consNext _ _ n =>
    cases n with
    | zero => exact ⟨rfl, by simp [Point.run, Pc.rank, Pc.ilock, Point.rank]⟩
    | succ =>
      refine ⟨rfl, ?_⟩
      simp only [Point.run, Pc.rank, Point.rank]
      omega
  | consEmpty =>
    simp only [Point.run]
    split
    · refine ⟨rfl, ?_⟩
      simp only [Pc.rank, Pc.ilock, Point.rank]
      omega
    · exact ⟨rfl, by simp [Pc.rank, Point.rank]⟩
  | consTake =>
    simp only [Point.run]
    split
    · refine ⟨rfl, ?_⟩
      simp only [Pc.rank, Pc.ilock, Point.rank]
      omega
    · split
      · refine ⟨rfl, ?_⟩
        simp only [Pc.rank, Pc.ilock, Point.rank]
        omega
      · exact ⟨rfl, by simp [Pc.rank, Point.rank]⟩
  | ilock ip value =>
    have unlocked := free ip value rfl
    simp only [Point.run, unlocked]
    exact ⟨rfl, by simp [Pc.rank, Pc.leave, Point.rank]⟩
  | sleepStart => exact ⟨rfl, by simp [Point.run, Pc.rank, Point.rank]⟩

end

@[simp] theorem State.goto_pc (s : State) (p : Slot) (pc : Pc) : (s.goto p pc).pc p = pc := update_self ..

/-- Everything a process can do on its own, guards included. -/
inductive Advance (s : State) (p : Slot) : Pc → State → Prop where
  | exit (pc : Pc) (killed : (s.proc p).killed = true) (edge : (∃ call, pc = .trap call) ∨ ∃ value, pc = .ret value) :
      Advance s p pc (s.goto p .exiting)
  | enter (call : Call) (alive : (s.proc p).killed = false) : Advance s p (.trap call) (s.goto p call.start)
  | leave (value : Int32) (alive : (s.proc p).killed = false) :
      Advance s p (.ret value) ({ s with result := update s.result p (some value) }.goto p .user)
  | acquire (lock : Lock) (next : Pc) (free : s.locks lock = none) :
      Advance s p (.acquire lock next) ((s.setLock lock (some p)).goto p next)
  | release (lock : Lock) (next : Pc) : Advance s p (.release lock next) ((s.setLock lock none).goto p next)
  | sched (chan : Chan) (next : Pc) :
      Advance s p (.sched chan next) (((s.setLock .ptable none).setProc p fun proc =>
        { proc with chan := some chan, state := .sleeping }).goto p (.asleep next))
  | clear (next : Pc) :
      Advance s p (.clear next) ((s.setProc p fun proc => { proc with chan := none }).goto p next)
  | wakeup1 (chan : Chan) (next : Pc) :
      Advance s p (.wakeup1 chan next) ({ s with proc := Process.wakeup1 s.proc chan }.goto p next)
  | ifKilled (yes no : Pc) :
      Advance s p (.ifKilled yes no) (s.goto p (if (s.proc p).killed = true then yes else no))
  | reap (kind : Reaper) (z : Slot) (zombie : (s.proc z).state = .zombie) :
      Advance s p (.scan kind) ((s.setProc z kind.clear).goto p (.leave .ptable (s.proc z).pid))
  | fail (kind : Reaper) : Advance s p (.scan kind) (s.goto p (.leave .ptable (-1)))
  | block (kind : Reaper) (alive : (s.proc p).killed = false) :
      Advance s p (.scan kind) (s.goto p (.sched (.proc p) (.clear (.scan kind))))
  | kill (pid : Int32) :
      Advance s p (.kill pid)
        ({ s with proc := (killTable s.proc pid).1 }.goto p (.leave .ptable (killTable s.proc pid).2))
  | point (point : Point) :
      Advance s p (.point point)
        ({ s with shared := (point.run s.shared).1 }.goto p (point.run s.shared).2)

section

variable {s next : State} {p : Slot}

theorem scan_advance (kind : Reaper) : Advance s p (.scan kind) (s.scan p kind) := by
  unfold State.scan Reaper.scan
  cases found : s.proc.first fun proc => kind.child p proc && proc.state == .zombie with
  | some z =>
    have both := Table.first_some found
    simp only [and_eq_true, beq_iff_eq] at both
    exact .reap kind z both.2
  | none =>
    by_cases fails : s.proc.first (kind.child p) = none ∨ (s.proc p).killed = true
    · simp only [if_pos fails]
      exact .fail kind
    · simp only [if_neg fails]
      exact .block kind (by simpa using (not_or.mp fails).2)

theorem advance_cases (advanced : s.advance p = some next) : Advance s p (s.pc p) next := by
  unfold State.advance at advanced
  cases here : s.pc p with
  | user | exiting | panic | asleep => simp [here] at advanced
  | trap call =>
    simp only [here, some.injEq] at advanced
    subst next
    split
    · rename_i killed
      exact .exit _ killed (.inl ⟨call, rfl⟩)
    · rename_i alive
      exact .enter call (by simpa using alive)
  | ret value =>
    simp only [here] at advanced
    split at advanced
    · rename_i killed
      cases advanced
      exact .exit _ killed (.inr ⟨value, rfl⟩)
    · rename_i alive
      cases advanced
      exact .leave value (by simpa using alive)
  | acquire lock after =>
    simp only [here, ite_none_right_eq_some, some.injEq] at advanced
    obtain ⟨free, rfl⟩ := advanced
    exact .acquire lock after free
  | release lock after =>
    simp only [here, some.injEq] at advanced
    subst next
    exact .release lock after
  | sched chan after =>
    simp only [here, some.injEq] at advanced
    subst next
    exact .sched chan after
  | clear after =>
    simp only [here, some.injEq] at advanced
    subst next
    exact .clear after
  | wakeup1 chan after =>
    simp only [here, some.injEq] at advanced
    subst next
    exact .wakeup1 chan after
  | ifKilled yes no =>
    simp only [here, some.injEq] at advanced
    subst next
    exact .ifKilled yes no
  | scan kind =>
    simp only [here, some.injEq] at advanced
    subst next
    exact scan_advance kind
  | kill pid =>
    simp only [here, some.injEq] at advanced
    subst next
    exact .kill pid
  | point point =>
    simp only [here, some.injEq] at advanced
    subst next
    exact .point point

end

/-- kill() never finds its victim between the test of `killed` and the
acquisition of ptable.lock in sleep(), nor in the loop of sem_wait, and no killed
process finds its inode locked at the end of consoleread. -/
def KillTimely (s : State) (event : Event) (_ : State) : Prop :=
  match event with
  | .step p =>
    (∀ pid ∈ (s.pc p).kills, ∀ q ∈ s.proc.first fun proc => proc.pid == pid, (s.pc q).exposed = false) ∧
      ∀ ip ∈ (s.pc p).wants, (s.proc p).killed = true → s.shared.locked ip = false
  | _ => True

-- the pid is looked up, and not searched for among all numbers
instance (s next : State) (event : Event) : Decidable (KillTimely s event next) :=
  match event with
  | .step p => @instDecidableAnd _ _ (Option.decidableForallMem (s.pc p).kills) inferInstance
  | .call _ _ | .dispatch _ | .preempt _ | .wakeup _ | .change _ | .rest _ _ => .isTrue trivial

theorem KillTimely.inode {s next : State} {p : Slot} {ip : Nat} {value : Int32} (timely : KillTimely s (.step p) next)
    (here : s.pc p = .point (.ilock ip value)) (killed : (s.proc p).killed = true) : s.shared.locked ip = false := by
  have free := timely.2
  rw [here] at free
  exact free ip rfl killed

/-- A killed process does not sleep inside a call. It does not go back to user
space, and its rank bounds the steps it takes until it exits. -/
structure KilledReturns (s : State) (event : Event) (next : State) : Prop where
  awake : ∀ p, (s.pc p).inside = true → (s.proc p).killed = true → (next.proc p).state ≠ .sleeping
  closer : ∀ p, (s.pc p).inside = true → (s.proc p).killed = true →
    next.pc p ≠ .user ∧ (next.pc p).rank ≤ (s.pc p).rank ∧ (event = .step p → (next.pc p).rank < (s.pc p).rank)

/-- Who may hold ptable.lock. -/
structure Guarded (s : State) : Prop where
  formed : ∀ p, (s.pc p).formed = true
  ptable : ∀ p, (s.pc p).holds = true → s.locks .ptable = some p

/-- A process is where its `killed` flag allows it to be. -/
structure Alert (pc : Pc) (proc : Proc) : Prop where
  live : pc.inside = true → proc.state ≠ .zombie
  tested : proc.killed = true → pc.risky = false
  awake : pc.inside = true → proc.killed = true → proc.state ≠ .sleeping

section

variable {s next : State} {p : Slot}

theorem Guarded.move {after : Pc} (guarded : Guarded s) (pc : next.pc = update s.pc p after)
    (formed : after.formed = true) (mine : after.holds = true → next.locks .ptable = some p)
    (others : next.locks .ptable = s.locks .ptable ∨ s.locks .ptable = none ∨ (s.pc p).holds = true) : Guarded next := by
  constructor
  · intro q
    rw [pc]
    exact (forall_update_iff s.pc fun _ now => now.formed = true).mpr ⟨formed, fun q _ => guarded.formed q⟩ q
  · intro q holds
    rw [pc] at holds
    by_cases same : q = p
    · subst same
      rw [update_self] at holds
      exact mine holds
    · rw [update_of_ne same] at holds
      have before := guarded.ptable q holds
      rcases others with unchanged | free | held
      · rw [unchanged]
        exact before
      · exact absurd (before.symm.trans free) (by simp)
      · exact absurd (some.inj (before.symm.trans (guarded.ptable p held))) same

theorem Guarded.goto {after : Pc} (guarded : Guarded s) (pc : next.pc = update s.pc p after)
    (locks : next.locks .ptable = s.locks .ptable) (formed : after.formed = true)
    (holds : after.holds = true → (s.pc p).holds = true) : Guarded next :=
  guarded.move pc formed (fun held => locks.trans (guarded.ptable p (holds held))) (.inl locks)

theorem Guarded.advance (guarded : Guarded s) (advance : Advance s p (s.pc p) next) : Guarded next := by
  have formed := guarded.formed p
  generalize here : s.pc p = pc at advance formed
  have held (holds : pc.holds = true) : (s.pc p).holds = true := by rw [here]; exact holds
  cases advance with
  | exit | leave => exact guarded.goto rfl rfl rfl (by simp [Pc.holds])
  | enter call =>
    obtain ⟨sound, outside⟩ := start_formed call
    exact guarded.goto rfl rfl sound (by simp [outside])
  | acquire lock _ free =>
    by_cases same : lock = .ptable
    · subst same
      exact guarded.move rfl (Pc.formed_acquire formed).2 (fun _ => by simp [State.goto, State.setLock]) (.inr (.inl free))
    · refine guarded.goto rfl (update_of_ne (Ne.symm same) _ _) (Pc.formed_acquire formed).2
        fun holds => held ?_
      cases lock <;> first | contradiction | exact holds
  | release lock after =>
    by_cases same : lock = .ptable
    · subst same
      have free : after.holds = false := by
        simp only [Pc.formed, Bool.and_eq_true, Bool.not_eq_true'] at formed
        exact formed.1.1
      exact guarded.move rfl (Pc.formed_release formed).2 (by simp [free]) (.inr (.inr (held rfl)))
    · refine guarded.goto rfl (update_of_ne (Ne.symm same) _ _) (Pc.formed_release formed).2
        fun holds => held ?_
      cases lock <;> first | contradiction | exact holds
  | sched => exact guarded.move rfl formed (by simp [Pc.holds]) (.inr (.inr (held rfl)))
  | clear | wakeup1 =>
    simp only [Pc.formed, Bool.and_eq_true] at formed
    exact guarded.goto rfl rfl formed.2 fun _ => held rfl
  | ifKilled =>
    simp only [Pc.formed, Bool.and_eq_true, Bool.not_eq_true'] at formed
    obtain ⟨⟨⟨⟨⟨free, clear⟩, -⟩, -⟩, left⟩, right⟩ := formed
    refine guarded.goto rfl rfl ?_ ?_
    · split
      · exact left
      · exact right
    · split
      · simp [free]
      · simp [clear]
  | reap | fail | block | kill => exact guarded.goto rfl rfl rfl fun _ => held rfl
  | point point =>
    obtain ⟨sound, outside, _⟩ := run_formed s.shared point
    exact guarded.goto rfl rfl sound (by simp [outside])

end

/-- A process is not killed, put to sleep or made a zombie. -/
structure Calmer (before after : Proc) : Prop where
  killed : after.killed = true → before.killed = true
  asleep : after.state = .sleeping → before.state = .sleeping
  zombie : after.state = .zombie → before.state = .zombie

theorem Calmer.refl (proc : Proc) : Calmer proc proc := ⟨id, id, id⟩

theorem Calmer.update {table : Table} {p : Slot} {new : Proc} (calmer : Calmer (table p) new) (q : Slot) :
    Calmer (table q) (Function.update table p new q) := by
  refine (forall_update_iff table fun q now => Calmer (table q) now).mpr ⟨calmer, ?_⟩ q
  exact fun q _ => .refl _

theorem Calmer.wakeup1 (table : Table) (chan : Chan) (q : Slot) : Calmer (table q) (Process.wakeup1 table chan q) := by
  unfold Process.wakeup1
  split
  · exact ⟨id, by simp, by simp⟩
  · exact .refl _

theorem Calmer.clear (kind : Reaper) (proc : Proc) : Calmer proc (kind.clear proc) := by
  cases kind with
  | wait | wait2 | join => exact ⟨by simp [Reaper.clear], by simp [Reaper.clear], by simp [Reaper.clear]⟩

theorem Calmer.chan (proc : Proc) (chan : Option Chan) : Calmer proc { proc with chan := chan } := ⟨id, id, id⟩

theorem Calmer.restate (proc : Proc) {state : ProcState} (awake : state ≠ .sleeping) (live : state ≠ .zombie) :
    Calmer proc { proc with state := state } :=
  ⟨id, fun asleep => absurd asleep awake, fun zombie => absurd zombie live⟩

namespace Alert

variable {s next : State} {p : Slot} {pc after : Pc} {proc : Proc}

theorem calm {before : Proc} (alert : Alert pc before) (calmer : Calmer before proc) : Alert pc proc where
  live := fun inside zombie => alert.live inside (calmer.zombie zombie)
  tested := fun killed => alert.tested (calmer.killed killed)
  awake := fun inside killed asleep => alert.awake inside (calmer.killed killed) (calmer.asleep asleep)

theorem ofRunning (running : proc.state = .running) (tested : proc.killed = true → pc.risky = false) : Alert pc proc where
  live := fun _ zombie => absurd (running.symm.trans zombie) (by simp)
  tested := tested
  awake := fun _ _ asleep => absurd (running.symm.trans asleep) (by simp)

theorem ofAlive (alive : proc.killed = false) (live : proc.state ≠ .zombie) : Alert pc proc where
  live := fun _ => live
  tested := by simp [alive]
  awake := by simp [alive]

theorem outside (gone : pc.inside = false) (safe : pc.risky = false) : Alert pc proc where
  live := by simp [gone]
  tested := fun _ => safe
  awake := by simp [gone]

section

variable (alert : ∀ q, Alert (s.pc q) (s.proc q))
include alert

theorem move (moved : next.pc = update s.pc p after)
    (others : ∀ q, q ≠ p → Calmer (s.proc q) (next.proc q)) (mine : Alert after (next.proc p)) (q : Slot) :
    Alert (next.pc q) (next.proc q) := by
  rw [moved]
  by_cases same : q = p
  · subst same
    rw [update_self]
    exact mine
  · rw [update_of_ne same]
    exact (alert q).calm (others q same)

/-- Only kill() sets `killed`, and it holds ptable.lock: a victim that has taken
that lock in sleep() would be the killer itself. -/
theorem kill {pid : Int32} (guarded : Guarded s) (here : s.pc p = .kill pid)
    (timely : ∀ q, (s.proc.first fun proc => proc.pid == pid) = some q → (s.pc q).exposed = false) (q : Slot) :
    Alert (s.pc q) ((killTable s.proc pid).1 q) := by
  have owner : s.locks .ptable = some p := guarded.ptable p (by rw [here]; rfl)
  cases killTable_hit s.proc pid q with
  | inl same =>
    rw [same]
    exact alert q
  | inr hit =>
    refine ⟨fun inside zombie => ?_, fun _ => ?_, fun _ _ => hit.2⟩
    · cases killTable_state s.proc pid q with
      | inl same => exact (alert q).live inside (same.symm.trans zombie)
      | inr woken => exact absurd (woken.2.symm.trans zombie) (by simp)
    · by_contra risky
      rw [not_eq_false] at risky
      have clear := timely q hit.1
      simp only [Pc.exposed, risky, Bool.true_and, not_eq_false'] at clear
      have same : q = p := some.inj ((guarded.ptable q clear).symm.trans owner)
      rw [same, here] at risky
      cases risky

theorem advance (guarded : Guarded s) (running : (s.proc p).state = .running) (timely : KillTimely s (.step p) next)
    (advance : Advance s p (s.pc p) next) : ∀ q, Alert (next.pc q) (next.proc q) := by
  have tested := (alert p).tested
  generalize here : s.pc p = pc at advance tested
  have still (q : Slot) (_ : q ≠ p) : Calmer (s.proc q) (s.proc q) := .refl _
  cases advance with
  | exit | leave | fail => exact move alert rfl still (.ofRunning running fun _ => rfl)
  | enter _ alive | block _ alive => exact move alert rfl still (.ofRunning running (by simp [goto, alive]))
  | acquire | release => exact move alert rfl still (.ofRunning running tested)
  | sched =>
    -- a killed process would have been turned away before it came here
    have alive : (s.proc p).killed = false := by
      by_contra killed
      cases tested (by simpa using killed)
    refine move alert rfl (fun q other => ?_) ?_
    · simp only [goto, setProc, setLock, update_of_ne other]
      exact .refl _
    · simp only [goto, setProc, setLock, update_self]
      exact .ofAlive alive (by simp)
  | clear =>
    refine move alert rfl (fun q _ => (Calmer.chan (s.proc p) none).update q) (.ofRunning ?_ fun killed => tested ?_)
    · simpa [goto, setProc] using running
    · simpa [goto, setProc] using killed
  | wakeup1 chan after =>
    have mine : wakeup1 s.proc chan p = s.proc p := by simp [Process.wakeup1, running]
    refine move alert rfl (fun q _ => .wakeup1 s.proc chan q) ?_
    change Alert after (wakeup1 s.proc chan p)
    rw [mine]
    exact .ofRunning running tested
  | ifKilled =>
    refine move alert rfl still (.ofRunning running fun (killed : (s.proc p).killed = true) => ?_)
    rw [if_pos killed]
    exact tested killed
  | reap kind z zombie =>
    have other : p ≠ z := by
      rintro rfl
      exact absurd (running.symm.trans zombie) (by simp)
    refine move alert rfl (fun q _ => (Calmer.clear kind (s.proc z)).update q) (.ofRunning ?_ fun _ => rfl)
    simpa [goto, setProc, update_of_ne other] using running
  | kill pid =>
    have spared := timely.1
    rw [here] at spared
    have hit := kill alert guarded here (spared pid rfl)
    have inside : (s.pc p).inside = true := by
      rw [here]
      rfl
    have mine : Alert (.leave .ptable (killTable s.proc pid).2) ((killTable s.proc pid).1 p) :=
      ⟨fun _ => (hit p).live inside, fun _ => rfl, fun _ => (hit p).awake inside⟩
    exact move (s := { s with proc := (killTable s.proc pid).1 }) hit rfl (fun q _ => .refl _) mine
  | point =>
    refine move alert rfl still (.ofRunning running fun killed => ?_)
    refine (run_safe (tested killed) fun ip value same => ?_).1
    subst same
    exact timely.inode here killed

end

end Alert

structure Sound (s : State) : Prop where
  guarded : Guarded s
  alert : ∀ p, Alert (s.pc p) (s.proc p)

section

variable {s next : State} {event : Event}

theorem Sound.retable (sound : Sound s) (table : Table) (shared : Shared) (calmer : ∀ q, Calmer (s.proc q) (table q)) : Sound
    { s with proc := table, shared } :=
  ⟨⟨sound.guarded.formed, sound.guarded.ptable⟩, fun q => (sound.alert q).calm (calmer q)⟩

theorem Sound.dispatch {p : Slot} (sound : Sound s) (free : s.locks .ptable = none) : Sound (s.dispatch p) := by
  have woken : Sound (s.setProc p fun proc => { proc with state := .running }) :=
    sound.retable _ s.shared (Calmer.restate (s.proc p) (by simp) (by simp)).update
  unfold State.dispatch
  dsimp only
  split
  · rename_i after here
    have formed := woken.guarded.formed p
    rw [here] at formed
    simp only [Pc.formed, and_eq_true] at formed
    refine ⟨woken.guarded.move rfl formed.2 (fun _ => by simp [goto, setLock]) (.inr (.inl free)), ?_⟩
    have tested := (woken.alert p).tested
    rw [here] at tested
    refine Alert.move woken.alert rfl (fun q _ => .refl _) (.ofRunning ?_ tested)
    simp [goto, setLock, setProc]
  · exact woken

theorem Sound.step (sound : Sound s) (timely : KillTimely s event next) (stepped : s.step event = some next) : Sound next := by
  cases event with
  | call =>
    simp only [step, Data.guarded] at stepped
    obtain ⟨⟨here, running, _⟩, rfl⟩ := stepped
    exact ⟨sound.guarded.goto rfl rfl rfl (by simp [Pc.holds]),
      Alert.move sound.alert rfl (fun q _ => .refl _) (.ofRunning running fun _ => rfl)⟩
  | step =>
    simp only [step, ite_none_right_eq_some] at stepped
    obtain ⟨running, advanced⟩ := stepped
    have advance := advance_cases advanced
    exact ⟨sound.guarded.advance advance, Alert.advance sound.alert sound.guarded running timely advance⟩
  | dispatch =>
    simp only [step, Data.guarded] at stepped
    obtain ⟨⟨free, _⟩, rfl⟩ := stepped
    exact sound.dispatch free
  | preempt p =>
    simp only [step, Data.guarded] at stepped
    obtain ⟨⟨free, _⟩, rfl⟩ := stepped
    exact sound.retable _ s.shared (Calmer.restate (s.proc p) (by simp) (by simp)).update
  | wakeup chan =>
    simp only [step, Data.guarded] at stepped
    obtain ⟨free, rfl⟩ := stepped
    exact sound.retable _ s.shared (Calmer.wakeup1 s.proc chan)
  | change =>
    simp only [step, Data.guarded] at stepped
    obtain ⟨free, rfl⟩ := stepped
    exact sound.retable _ _ fun q => .refl _
  | rest =>
    simp only [step, Data.guarded] at stepped
    obtain ⟨⟨_, _⟩, rfl⟩ := stepped
    refine ⟨sound.guarded.goto rfl rfl rfl (by simp [Pc.holds]), Alert.move sound.alert rfl (fun q other => ?_) ?_⟩
    · simp only [goto, setProc, update_of_ne other]
      exact .refl _
    · exact .outside rfl rfl

theorem Advance.pc_other {p q : Slot} {pc : Pc} (advance : Advance s p pc next) (other : q ≠ p) : next.pc q = s.pc q := by
  cases advance <;> exact update_of_ne other _ _

theorem Advance.asleep {p q : Slot} (advance : Advance s p (s.pc p) next) (asleep : (next.proc q).state = .sleeping) :
    (s.proc q).state = .sleeping ∨ q = p ∧ ∃ chan after, s.pc p = .sched chan after := by
  generalize here : s.pc p = pc at advance
  cases advance with
  | sched chan after =>
    by_cases same : q = p
    · exact .inr ⟨same, chan, after, rfl⟩
    · simp only [goto, setProc, setLock, update_of_ne same] at asleep
      exact .inl asleep
  | clear =>
    exact .inl (((Calmer.chan (s.proc p) none).update q).asleep asleep)
  | wakeup1 => exact .inl (wakeup1_sleeping asleep).1
  | reap kind z =>
    exact .inl (((Calmer.clear kind (s.proc z)).update q).asleep asleep)
  | kill pid =>
    cases killTable_hit s.proc pid q with
    | inl same => exact .inl (by rw [← same]; exact asleep)
    | inr hit => exact absurd asleep hit.2
  | _ => exact .inl asleep

theorem Advance.closer {p : Slot} (sound : Sound s) (timely : KillTimely s (.step p) next)
    (killed : (s.proc p).killed = true) (advance : Advance s p (s.pc p) next) :
    next.pc p ≠ .user ∧ (next.pc p).rank < (s.pc p).rank := by
  have safe := (sound.alert p).tested killed
  have formed := sound.guarded.formed p
  generalize here : s.pc p = pc at advance safe formed
  have ends {after : Pc} (inside : after.inside = true) : after ≠ .user := by
    rintro rfl
    cases inside
  cases advance with
  | exit _ _ edge =>
    rw [goto_pc]
    obtain ⟨_, rfl⟩ | ⟨value, rfl⟩ := edge
    · exact ⟨by simp, by simp [Pc.rank]⟩
    · exact ⟨by simp, by simp [Pc.rank]⟩
  | enter _ alive | leave _ alive | block _ alive => simp [killed] at alive
  | acquire =>
    rw [goto_pc]
    exact ⟨ends (Pc.formed_acquire formed).1, lt_succ_self _⟩
  | release =>
    rw [goto_pc]
    exact ⟨ends (Pc.formed_release formed).1, lt_succ_self _⟩
  | sched => cases safe
  | clear | wakeup1 =>
    rw [goto_pc]
    simp only [Pc.formed, and_eq_true] at formed
    exact ⟨ends (Pc.inside_of_holds formed.1), lt_succ_self _⟩
  | ifKilled =>
    simp only [goto_pc, killed, if_true]
    simp only [Pc.formed, and_eq_true] at formed
    exact ⟨ends formed.1.1.1.2, lt_succ_self _⟩
  | reap | fail | kill =>
    rw [goto_pc]
    exact ⟨by simp [Pc.leave], by simp [Pc.leave, Pc.rank]⟩
  | point point =>
    rw [goto_pc]
    have free (ip : Nat) (value : Int32) (same : point = .ilock ip value) : s.shared.locked ip = false := by
      subst same
      exact timely.inode here killed
    exact ⟨(run_formed s.shared point).2.2, (run_safe safe free).2⟩

theorem dispatch_proc (s : State) (p : Slot) : (s.dispatch p).proc = update s.proc p { s.proc p with state := .running } := by
  unfold State.dispatch
  dsimp only
  split <;> rfl

theorem dispatch_pc (s : State) (p q : Slot) :
    (s.dispatch p).pc q = s.pc q ∨ q = p ∧ ∃ after, s.pc p = .asleep after ∧ (s.dispatch p).pc p = after := by
  cases here : s.pc p with
  | asleep after =>
    have moved : (s.dispatch p).pc = update s.pc p after := by
      simp [State.dispatch, setProc, setLock, goto, here]
    by_cases same : q = p
    · exact .inr ⟨same, after, rfl, by rw [moved, update_self]⟩
    · exact .inl (by rw [moved, update_of_ne same])
  | _ => exact .inl (by simp [State.dispatch, setProc, here])

theorem Sound.returns (sound : Sound s) (timely : KillTimely s event next) (stepped : s.step event = some next) :
    KilledReturns s event next := by
  have unmoved {q : Slot} (inside : (s.pc q).inside = true) (same : next.pc q = s.pc q)
      (other : event ≠ .step q) : next.pc q ≠ .user ∧ (next.pc q).rank ≤ (s.pc q).rank ∧
        (event = .step q → (next.pc q).rank < (s.pc q).rank) := by
    refine ⟨fun user => ?_, by rw [same], fun step => absurd step other⟩
    rw [← same, user] at inside
    cases inside
  cases event with
  | call p =>
    simp only [State.step, Data.guarded] at stepped
    obtain ⟨⟨here, running, _⟩, rfl⟩ := stepped
    refine ⟨fun q inside killed => (sound.alert q).awake inside killed, fun q inside killed => ?_⟩
    have other : q ≠ p := by
      rintro rfl
      rw [here] at inside
      cases inside
    exact unmoved inside (update_of_ne other _ _) (by simp)
  | step p =>
    simp only [State.step, ite_none_right_eq_some] at stepped
    obtain ⟨running, advanced⟩ := stepped
    have advance := advance_cases advanced
    refine ⟨fun q inside killed asleep => ?_, fun q inside killed => ?_⟩
    · rcases advance.asleep asleep with before | ⟨rfl, chan, after, here⟩
      · exact (sound.alert q).awake inside killed before
      · have safe := (sound.alert q).tested killed
        rw [here] at safe
        cases safe
    · by_cases same : q = p
      · subst same
        obtain ⟨away, less⟩ := advance.closer sound timely killed
        exact ⟨away, Nat.le_of_lt less, fun _ => less⟩
      · exact unmoved inside (advance.pc_other same) (by simpa using Ne.symm same)
  | dispatch p =>
    simp only [State.step, Data.guarded] at stepped
    obtain ⟨⟨free, _⟩, rfl⟩ := stepped
    refine ⟨fun q inside killed asleep => ?_, fun q inside killed => ?_⟩
    · rw [dispatch_proc] at asleep
      have before := ((Calmer.restate (s.proc p) (by simp) (by simp)).update q).asleep asleep
      exact (sound.alert q).awake inside killed before
    · rcases dispatch_pc s p q with same | ⟨rfl, after, here, there⟩
      · exact unmoved inside same (by simp)
      · have formed := sound.guarded.formed q
        rw [here] at formed
        simp only [Pc.formed, and_eq_true] at formed
        rw [there, here]
        refine ⟨fun user => ?_, le_succ _, by simp⟩
        rw [user] at formed
        cases formed.1
  | preempt p =>
    simp only [State.step, Data.guarded] at stepped
    obtain ⟨⟨free, _⟩, rfl⟩ := stepped
    refine ⟨fun q inside killed asleep => ?_, fun q inside killed => unmoved inside rfl (by simp)⟩
    have before := ((Calmer.restate (s.proc p) (by simp) (by simp)).update q).asleep asleep
    exact (sound.alert q).awake inside killed before
  | wakeup =>
    simp only [State.step, Data.guarded] at stepped
    obtain ⟨free, rfl⟩ := stepped
    refine ⟨fun q inside killed asleep => ?_, fun q inside killed => unmoved inside rfl (by simp)⟩
    exact (sound.alert q).awake inside killed (wakeup1_sleeping asleep).1
  | change =>
    simp only [State.step, Data.guarded] at stepped
    obtain ⟨free, rfl⟩ := stepped
    exact ⟨fun q => (sound.alert q).awake, fun q inside killed => unmoved inside rfl (by simp)⟩
  | rest p =>
    simp only [State.step, Data.guarded] at stepped
    obtain ⟨⟨_, here⟩, rfl⟩ := stepped
    have other {q : Slot} (inside : (s.pc q).inside = true) : q ≠ p := by
      rintro rfl
      rcases here with here | here <;> rw [here] at inside <;> cases inside
    refine ⟨fun q inside killed => ?_, fun q inside killed => ?_⟩
    · simp only [goto, setProc, update_of_ne (other inside)]
      exact (sound.alert q).awake inside killed
    · exact unmoved inside (update_of_ne (other inside) _ _) (by simp)

end

theorem Sound.boot (table : Table) (shared : Shared) : Sound { proc := table, shared } where
  guarded := ⟨fun _ => rfl, by simp [Pc.holds]⟩
  alert := fun _ => .outside rfl rfl

/-- As long as kill() does not fall between a test of `killed` and sleep(), and
spares sem_wait, no killed process goes to sleep in one of the calls, and each
gets to its exit in a bounded number of its own steps. -/
theorem killed_processes_return (table : Table) (shared : Shared) {events : List Event}
    (timely : EveryStep step KillTimely { proc := table, shared } events) :
    EveryStep step KilledReturns { proc := table, shared } events := by
  exact (runs_along Sound (.boot table shared) timely
    (fun _ _ _ sound timely stepped => ⟨sound.step timely stepped, sound.returns timely stepped⟩)).1

/-- Two running processes; the one in slot 0 has a child in slot 2. -/
def family : Table := fun p =>
  if p = 0 then { state := .running, pid := 1 }
  else if p = 1 then { state := .running, pid := 2 }
  else if p = 2 then { state := .runnable, pid := 3, parent := some 0 }
  else {}

/-- The process in slot 1 kills the one in slot 0. -/
def killFirst : List Event := [.call 1 (.kill 1), .step 1, .step 1, .step 1, .step 1]

def killedWait : List Event :=
  [.call 0 (.wait .wait), .step 0, .step 0, .step 0, .step 0] ++ killFirst ++ [.dispatch 0, .step 0, .step 0, .step 0, .step 0]

theorem killed_processes_return_wait : EveryStep step KillTimely { proc := family } killedWait ∧
      (run step { proc := family } killedWait).map (fun s => s.pc 0) = some .exiting ∧
      EveryStep step KilledReturns { proc := family } killedWait := by
  have timely : EveryStep step KillTimely { proc := family } killedWait := by decide +kernel
  exact ⟨timely, by decide +kernel, killed_processes_return family {} timely⟩

/-- A process that is killed when it has just called sem_wait. -/
def killedSemWait : List Event := [.call 0 (.semWait 0 1), .step 0] ++ killFirst ++ [.step 0, .step 0, .step 0, .step 0, .step 0]

/-- A process that is killed between the test in piperead and its sleep(). -/
def killedPiperead : List Event :=
  [.call 0 (.piperead 0 1), .step 0, .step 0, .step 0, .step 0] ++ killFirst ++ [.step 0, .step 0]

/-- Both are killed, still run, and then go to sleep. -/
theorem killed_process_sleeps :
    ((run step { proc := family } killedSemWait).map fun s => ((s.proc 0).killed, (s.proc 0).state)) =
        some (true, .running) ∧
      ((run step { proc := family } (killedSemWait ++ [.step 0])).map fun s =>
        ((s.proc 0).killed, (s.proc 0).state)) = some (true, .sleeping) ∧
      ((run step { proc := family } killedPiperead).map fun s => ((s.proc 0).killed, (s.proc 0).state)) =
        some (true, .running) ∧
      ((run step { proc := family } (killedPiperead ++ [.step 0])).map fun s =>
        ((s.proc 0).killed, (s.proc 0).state)) = some (true, .sleeping) := by
  decide +kernel

end Xv6.Block
