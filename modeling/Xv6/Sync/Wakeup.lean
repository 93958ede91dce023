import Xv6.Sync.Sleep

namespace Xv6.Sync

open Process Data List Option State
open Function (update update_self update_of_ne)
open State (goto)

/-! No wakeup is lost. A process that goes to sleep holds ptable.lock from before
it releases `lk` until scheduler() has taken over, so a wakeup finds every
process that released `lk` to sleep. -/

variable {σ K : Type} {code : Code σ K} {cond : Chan → σ → Bool} {s next : State σ K} {event : Event K}

/-- The channels in `owed`, and those whose condition becomes true. -/
def raise (code : Code σ K) (cond : Chan → σ → Bool) (before after : σ) (owed : List Chan) : List Chan :=
  owed ++ code.channels.filter fun chan => !cond chan before && cond chan after

/-- The wakeups that the holder of `lk` owes: the channels whose condition it
made true and did not wake. -/
def owe (code : Code σ K) (cond : Chan → σ → Bool) (s : State σ K) (event : Event K) (next : State σ K)
    (owed : List Chan) : List Chan :=
  match event with
  | .step t =>
    match s.pc t with
    | .inside _ => raise code cond s.data next.data owed
    | .wake chan _ => owed.filter (· ≠ chan)
    | _ => owed
  | _ => owed

/-- A process sleeps only on a channel whose condition it found false, and `lk`
is given up with no wakeup owed. -/
def Disciplined (code : Code σ K) (cond : Chan → σ → Bool) (before : State σ K × List Chan) (event : Event K)
    (after : State σ K × List Chan) : Prop :=
  match event with
  | .step t =>
    match before.1.pc t with
    | .inside k =>
      match (code.run k before.1.data).2 with
      | .sleep chan _ => cond chan after.1.data = false ∧ after.2 = []
      | .leave => after.2 = []
      | _ => True
    | _ => True
  | _ => True

instance (before after : State σ K × List Chan) (event : Event K) : Decidable (Disciplined code cond before event after) := by
  unfold Disciplined
  split
  · split
    · split <;> infer_instance
    · infer_instance
  · infer_instance

structure WakeupSafe (code : Code σ K) (cond : Chan → σ → Bool) (s : State σ K) : Prop where
  awake : s.locks code.lk = none → ∀ p, (s.proc p).state = .sleeping → ∀ chan ∈ code.channels,
    (s.proc p).chan = some chan → cond chan s.data = false
  /-- In particular a process that comes back from sleep. -/
  holding : ∀ t k, s.pc t = .inside k → s.locks code.lk = some t ∧ (s.locks .ptable = some t → code.lk = .ptable)

namespace Pc

def holds (lk lock : Lock) : Pc K → Bool
  | .inside _ | .leaving | .wakeLock .. | .sleepLock .. => lock = lk
  | .wake .. | .wakeUnlock _ | .sleepUnlock .. => lock = lk ∨ lock = .ptable
  | .commit .. | .switched .. | .resumed _ | .tidied _ => lock = .ptable
  | .out | .acquire _ | .asleep .. | .reacquire _ => false

/-- The points of sleep and wakeup that are skipped when `lk` is ptable.lock. -/
def indirect : Pc K → Bool
  | .wakeLock .. | .wakeUnlock _ | .sleepLock .. | .sleepUnlock .. | .tidied _ | .reacquire _ => true
  | _ => false

/-- The channel of a process that has given up the CPU in sleep(). -/
def dozes : Pc K → Option Chan
  | .switched chan _ | .asleep chan _ => some chan
  | _ => none

/-- The channel of a process in sleep() that holds `lk`. -/
def enters : Pc K → Option Chan
  | .sleepLock chan _ | .sleepUnlock chan _ => some chan
  | _ => none

/-- The channel of a process in sleep() that has released `lk` and not yet given up the CPU. -/
def commits : Pc K → Option Chan
  | .commit chan _ => some chan
  | _ => none

/-- The holder of `lk` is in its section, or in a wakeup within it. -/
def busy : Pc K → Bool
  | .inside _ | .wakeLock .. | .wake .. | .wakeUnlock _ => true
  | _ => false

end Pc

/-- What a step does, with what it found. -/
inductive Moved (code : Code σ K) (s : State σ K) : Event K → State σ K → Prop where
  | start (t k) (here : s.pc t = .out) (entry : code.entry k = true) : Moved code s (.start t k) (s.goto t (.acquire k))
  | acquire (t k) (here : s.pc t = .acquire k ∨ s.pc t = .reacquire k) (free : s.locks code.lk = none) :
      Moved code s (.step t) ((s.setLock code.lk (some t)).goto t (.inside k))
  | goto (t k k') (here : s.pc t = .inside k) (move : (code.run k s.data).2 = .goto k') :
      Moved code s (.step t) ((s.perform code k).goto t (.inside k'))
  | killed (p k yes no) (here : s.pc (.proc p) = .inside k) (move : (code.run k s.data).2 = .ifKilled yes no) :
      Moved code s (.step (.proc p))
        ((s.perform code k).goto (.proc p) (.inside (if (s.proc p).killed = true then yes else no)))
  | sleep (p k chan k') (here : s.pc (.proc p) = .inside k) (move : (code.run k s.data).2 = .sleep chan k') :
      Moved code s (.step (.proc p)) ((s.perform code k).goto (.proc p)
        (if code.lk = .ptable then .commit chan k' else .sleepLock chan k'))
  | wakeup (t k chan k') (here : s.pc t = .inside k) (move : (code.run k s.data).2 = .wakeup chan k') :
      Moved code s (.step t) ((s.perform code k).goto t
        (if code.lk = .ptable then .wake chan k' else .wakeLock chan k'))
  | leave (t k) (here : s.pc t = .inside k) (move : (code.run k s.data).2 = .leave) :
      Moved code s (.step t) ((s.perform code k).goto t .leaving)
  | left (t) (here : s.pc t = .leaving) : Moved code s (.step t) ((s.setLock code.lk none).goto t .out)
  | wakeLock (t chan k) (here : s.pc t = .wakeLock chan k) (free : s.locks .ptable = none) :
      Moved code s (.step t) ((s.setLock .ptable (some t)).goto t (.wake chan k))
  | wake (t chan k) (here : s.pc t = .wake chan k) :
      Moved code s (.step t) ({ s with proc := wakeup1 s.proc chan }.goto t
        (if code.lk = Lock.ptable then .inside k else .wakeUnlock k))
  | wakeUnlock (t k) (here : s.pc t = .wakeUnlock k) : Moved code s (.step t) ((s.setLock .ptable none).goto t (.inside k))
  | sleepLock (t chan k) (here : s.pc t = .sleepLock chan k) (free : s.locks .ptable = none) :
      Moved code s (.step t) ((s.setLock .ptable (some t)).goto t (.sleepUnlock chan k))
  | sleepUnlock (t chan k) (here : s.pc t = .sleepUnlock chan k) :
      Moved code s (.step t) ((s.setLock code.lk none).goto t (.commit chan k))
  | commit (p chan k) (here : s.pc (.proc p) = .commit chan k) :
      Moved code s (.step (.proc p)) ((s.setProc p fun proc =>
        { proc with chan := some chan, state := .sleeping }).goto (.proc p) (.switched chan k))
  | resumed (p k) (here : s.pc (.proc p) = .resumed k) (running : (s.proc p).state = .running) :
      Moved code s (.step (.proc p)) ((s.setProc p fun proc => { proc with chan := none }).goto (.proc p)
        (if code.lk = .ptable then .inside k else .tidied k))
  | tidied (t k) (here : s.pc t = .tidied k) : Moved code s (.step t) ((s.setLock .ptable none).goto t (.reacquire k))
  | retire (p chan k) (here : s.pc (.proc p) = .switched chan k) :
      Moved code s (.retire p) ((s.setLock .ptable none).goto (.proc p) (.asleep chan k))
  | dispatch (p chan k) (here : s.pc (.proc p) = .asleep chan k) (free : s.locks .ptable = none) :
      Moved code s (.dispatch p) (((s.setProc p fun proc => { proc with state := .running }).setLock .ptable
        (some (.proc p))).goto (.proc p) (.resumed k))
  | dispatchOut (p) (here : s.pc (.proc p) = .out) :
      Moved code s (.dispatch p) (s.setProc p fun proc => { proc with state := .running })
  | preempt (p) (here : s.pc (.proc p) = .out) :
      Moved code s (.preempt p) (s.setProc p fun proc => { proc with state := .runnable })
  | wakeupOut (chan) : Moved code s (.wakeup chan) { s with proc := wakeup1 s.proc chan }
  | kill (pid) : Moved code s (.kill pid) { s with proc := (killTable s.proc pid).1 }
  | rest (p proc) (here : s.pc (.proc p) = .out)
      (elsewhere : proc.state = .sleeping → ∀ chan ∈ code.channels, proc.chan ≠ some chan) :
      Moved code s (.rest p proc) (s.setProc p fun _ => proc)

theorem Pc.isOut_iff {pc : Pc K} : pc.isOut = true ↔ pc = .out := by cases pc <;> simp [Pc.isOut]

theorem step_moved (stepped : code.step s event = some next) : Moved code s event next := by
  cases event with
  | start t k =>
    simp only [Code.step, guarded, Pc.isOut_iff] at stepped
    obtain ⟨⟨here, -, entry⟩, rfl⟩ := stepped
    exact .start t k here entry
  | step t =>
    simp only [Code.step, ite_none_right_eq_some] at stepped
    obtain ⟨running, stepped⟩ := stepped
    cases here : s.pc t with
    | out | switched | asleep => simp [advance, here] at stepped
    | acquire k =>
      simp only [advance, here, guarded] at stepped
      obtain ⟨free, rfl⟩ := stepped
      exact .acquire t k (.inl here) free
    | reacquire k =>
      simp only [advance, here, guarded] at stepped
      obtain ⟨free, rfl⟩ := stepped
      exact .acquire t k (.inr here) free
    | inside k =>
      simp only [advance, here] at stepped
      cases move : (code.run k s.data).2 with
      | goto k' =>
        simp only [State.move, move, some.injEq] at stepped
        exact stepped ▸ .goto t k k' here move
      | wakeup chan k' =>
        simp only [State.move, move, some.injEq] at stepped
        exact stepped ▸ .wakeup t k chan k' here move
      | leave =>
        simp only [State.move, move, some.injEq] at stepped
        exact stepped ▸ .leave t k here move
      | ifKilled yes no =>
        cases t with
        | handler => simp [State.move, move] at stepped
        | proc p =>
          simp only [State.move, move, some.injEq] at stepped
          exact stepped ▸ .killed p k yes no here move
      | sleep chan k' =>
        cases t with
        | handler => simp [State.move, move] at stepped
        | proc p =>
          simp only [State.move, move, some.injEq] at stepped
          exact stepped ▸ .sleep p k chan k' here move
    | leaving =>
      simp only [advance, here, some.injEq] at stepped
      exact stepped ▸ .left t here
    | wakeLock chan k =>
      simp only [advance, here, guarded] at stepped
      obtain ⟨free, rfl⟩ := stepped
      exact .wakeLock t chan k here free
    | wake chan k =>
      simp only [advance, here, some.injEq] at stepped
      exact stepped ▸ .wake t chan k here
    | wakeUnlock k =>
      simp only [advance, here, some.injEq] at stepped
      exact stepped ▸ .wakeUnlock t k here
    | sleepLock chan k =>
      simp only [advance, here, guarded] at stepped
      obtain ⟨free, rfl⟩ := stepped
      exact .sleepLock t chan k here free
    | sleepUnlock chan k =>
      simp only [advance, here, some.injEq] at stepped
      exact stepped ▸ .sleepUnlock t chan k here
    | commit chan k =>
      cases t with
      | handler => simp [advance, here] at stepped
      | proc p =>
        simp only [advance, here, some.injEq] at stepped
        exact stepped ▸ .commit p chan k here
    | resumed k =>
      cases t with
      | handler => simp [advance, here] at stepped
      | proc p =>
        simp only [advance, here, some.injEq] at stepped
        exact stepped ▸ .resumed p k here (by simpa [State.running] using running)
    | tidied k =>
      simp only [advance, here, some.injEq] at stepped
      exact stepped ▸ .tidied t k here
  | retire p =>
    simp only [Code.step] at stepped
    split at stepped
    · rename_i chan k here
      exact some.inj stepped ▸ .retire p chan k here
    · contradiction
  | dispatch p =>
    simp only [Code.step, ite_none_right_eq_some] at stepped
    obtain ⟨⟨free, -⟩, stepped⟩ := stepped
    simp only [State.dispatch] at stepped
    split at stepped
    · rename_i chan k here
      exact some.inj stepped ▸ .dispatch p chan k here free
    · rename_i here
      exact some.inj stepped ▸ .dispatchOut p here
    · contradiction
  | preempt p =>
    simp only [Code.step, guarded, Pc.isOut_iff] at stepped
    obtain ⟨⟨-, -, here⟩, rfl⟩ := stepped
    exact .preempt p here
  | wakeup chan =>
    simp only [Code.step, guarded] at stepped
    exact stepped.2 ▸ .wakeupOut chan
  | kill pid =>
    simp only [Code.step, guarded] at stepped
    exact stepped.2 ▸ .kill pid
  | rest p proc =>
    simp only [Code.step, guarded, Pc.isOut_iff] at stepped
    obtain ⟨⟨-, here, elsewhere⟩, rfl⟩ := stepped
    exact .rest p proc here elsewhere

/-- A lock is held by the thread that is between its acquire and its release. -/
def Held (lk : Lock) (locks : Lock → Option Thread) (pc : Thread → Pc K) : Prop :=
  ∀ lock t, locks lock = some t ↔ (pc t).holds lk lock = true

section

variable {lk lock : Lock} {locks : Lock → Option Thread} {pc : Thread → Pc K} {t : Thread} {new : Pc K}

theorem Held.keep (held : Held lk locks pc) (same : ∀ lock, new.holds lk lock = (pc t).holds lk lock) :
    Held lk locks (update pc t new) := by
  intro lock u
  by_cases mine : u = t
  · rw [mine, update_self, same, held]
  · rw [update_of_ne mine, held]

theorem Held.take (held : Held lk locks pc) (free : locks lock = none)
    (more : ∀ lock', new.holds lk lock' = (decide (lock' = lock) || (pc t).holds lk lock')) :
    Held lk (update locks lock (some t)) (update pc t new) := by
  intro lock' u
  have before := held lock' u
  by_cases mine : u = t <;> by_cases same : lock' = lock
  · simp [mine, same, more]
  · subst mine
    simp [same, more, before]
  · subst same
    rw [free] at before
    simpa [mine, Ne.symm mine] using before
  · simp [mine, same, before]

theorem Held.give (held : Held lk locks pc) (holds : (pc t).holds lk lock = true)
    (less : ∀ lock', new.holds lk lock' = (decide (lock' ≠ lock) && (pc t).holds lk lock')) :
    Held lk (update locks lock none) (update pc t new) := by
  intro lock' u
  have before := held lock' u
  by_cases mine : u = t <;> by_cases same : lock' = lock
  · simp [mine, same, less]
  · subst mine
    simp [same, less, before]
  · subst same
    rw [(held lock' t).mpr holds] at before
    simpa [mine, Ne.symm mine] using before
  · simp [mine, same, before]

end

/-- Who holds which lock, and on which channel a process sleeps. -/
structure Locked (code : Code σ K) (s : State σ K) : Prop where
  held : Held code.lk s.locks s.pc
  direct : code.lk = .ptable → ∀ t, (s.pc t).indirect = false
  chan : ∀ p chan, (s.pc (.proc p)).dozes = some chan → (s.proc p).state = .sleeping → (s.proc p).chan = some chan
  mine : ∀ p, (s.proc p).state = .sleeping → ∀ chan ∈ code.channels, (s.proc p).chan = some chan →
    (s.pc (.proc p)).dozes = some chan

section

theorem Locked.other (locked : Locked code s) {t : Thread} (indirect : (s.pc t).indirect = true) : code.lk = .other := by
  cases lk : code.lk with
  | other => rfl
  | ptable => simp [locked.direct lk t] at indirect

theorem Moved.held (moved : Moved code s event next) (locked : Locked code s) : Held code.lk next.locks next.pc := by
  have held := locked.held
  cases moved with
  | start _ _ here | goto _ _ _ here | killed _ _ _ _ here | leave _ _ here | commit _ _ _ here =>
    exact held.keep (by simp [here, Pc.holds])
  | acquire _ _ here free =>
    refine held.take free fun lock => ?_
    rcases here with here | here <;> simp [here, Pc.holds]
  | sleep _ _ _ _ here | wakeup _ _ _ _ here | wake _ _ _ here | resumed _ _ here =>
    refine held.keep fun lock => ?_
    cases lk : code.lk <;> simp [here, Pc.holds]
  | left _ here | tidied _ _ here | retire _ _ _ here => exact held.give (by simp [here, Pc.holds]) (by simp [here, Pc.holds])
  | wakeLock _ _ _ here free | sleepLock _ _ _ here free => exact held.take free (by simp [here, Pc.holds, or_comm])
  | wakeUnlock t _ here | sleepUnlock t _ _ here =>
    have lk := locked.other (t := t) (by rw [here]; rfl)
    refine held.give (by simp [here, Pc.holds]) fun lock => ?_
    cases lock <;> simp [here, Pc.holds, lk]
  | dispatch _ _ _ here free => exact held.take free (by simp [here, Pc.holds])
  | dispatchOut | preempt | wakeupOut | kill | rest => exact held

theorem Moved.direct (moved : Moved code s event next) (locked : Locked code s) (lk : code.lk = .ptable) (t : Thread) :
    (next.pc t).indirect = false := by
  have before := locked.direct lk
  -- The one thread that moves does not come to an indirect point.
  have frame {u : Thread} {new : Pc K} (direct : new.indirect = false) :
      (update s.pc u new t).indirect = false := by
    by_cases mine : t = u
    · rw [mine, update_self, direct]
    · rw [update_of_ne mine, before]
  cases moved with
  | wakeLock u _ _ here | sleepLock u _ _ here | wakeUnlock u _ here | sleepUnlock u _ _ here | tidied u _ here =>
    have direct := before u
    simp [here, Pc.indirect] at direct
  | dispatchOut | preempt | wakeupOut | kill | rest => exact before t
  | _ => exact frame (by simp [Pc.indirect, lk])

/-- What a step makes of a process, for its being asleep. -/
inductive Slept (code : Code σ K) (s next : State σ K) (p : Slot) : Prop where
  | commit (chan k) (here : s.pc (.proc p) = .commit chan k) (pc : (next.pc (.proc p)).dozes = some chan)
      (on : (next.proc p).chan = some chan)
  | kept (pc : (next.pc (.proc p)).dozes = (s.pc (.proc p)).dozes) (on : (next.proc p).chan = (s.proc p).chan)
      (still : (next.proc p).state = .sleeping → (s.proc p).state = .sleeping)
  | awake (state : (next.proc p).state ≠ .sleeping)
  | elsewhere (here : (next.pc (.proc p)).dozes = none)
      (on : (next.proc p).state = .sleeping → ∀ chan ∈ code.channels, (next.proc p).chan ≠ some chan)

theorem dozes_goto {pc : Thread → Pc K} {t u : Thread} {new : Pc K} (same : new.dozes = (pc t).dozes) :
    (update pc t new u).dozes = (pc u).dozes := by
  by_cases mine : u = t
  · rw [mine, update_self, same]
  · rw [update_of_ne mine]

theorem Moved.slept (moved : Moved code s event next) (p : Slot) : Slept code s next p := by
  cases moved with
  | commit q chan k here =>
    by_cases mine : p = q
    · subst mine
      exact .commit chan k here (by simp [State.goto, Pc.dozes]) (by simp [State.goto, setProc])
    · refine .kept ?_ ?_ ?_ <;> simp [State.goto, setProc, mine]
  | resumed q _ _ running =>
    by_cases mine : p = q
    · subst mine
      exact .awake (by simp [State.goto, setProc, running])
    · refine .kept ?_ ?_ ?_ <;> simp [State.goto, setProc, mine]
  | dispatch q =>
    by_cases mine : p = q
    · subst mine
      exact .awake (by simp [State.goto, setProc, setLock])
    · refine .kept ?_ ?_ ?_ <;> simp [State.goto, setProc, setLock, mine]
  | dispatchOut q | preempt q =>
    by_cases mine : p = q
    · subst mine
      exact .awake (by simp [setProc])
    · refine .kept ?_ ?_ ?_ <;> simp [setProc, mine]
  | rest q _ here elsewhere =>
    by_cases mine : p = q
    · subst mine
      exact .elsewhere (by simp [setProc, here, Pc.dozes]) (by simpa [setProc] using elsewhere)
    · refine .kept ?_ ?_ ?_ <;> simp [setProc, mine]
  | wakeupOut => exact .kept rfl (wakeup1_chan ..) fun asleep => (wakeup1_sleeping asleep).1
  | kill pid =>
    refine .kept rfl (killTable_chan ..) fun asleep => ?_
    rcases killTable_state s.proc pid p with same | ⟨before, -⟩
    · rw [← same, asleep]
    · exact before
  | wake _ _ _ here =>
    refine .kept (dozes_goto ?_) (wakeup1_chan ..) fun asleep => (wakeup1_sleeping asleep).1
    cases lk : code.lk <;> simp [here, Pc.dozes]
  | acquire _ _ here =>
    refine .kept (dozes_goto ?_) rfl id
    rcases here with here | here <;> simp [setLock, here, Pc.dozes]
  | sleep _ _ _ _ here | wakeup _ _ _ _ here =>
    refine .kept (dozes_goto ?_) rfl id
    cases lk : code.lk <;> simp [perform, here, Pc.dozes]
  | start _ _ here => exact .kept (dozes_goto (by simp [here, Pc.dozes])) rfl id
  | goto _ _ _ here | leave _ _ here => exact .kept (dozes_goto (by simp [perform, here, Pc.dozes])) rfl id
  | killed _ _ _ _ here => exact .kept (dozes_goto (by simp [perform, here, Pc.dozes])) rfl id
  | left _ here | retire _ _ _ here => exact .kept (dozes_goto (by simp [setLock, here, Pc.dozes])) rfl id
  | wakeLock _ _ _ here | sleepLock _ _ _ here | sleepUnlock _ _ _ here =>
    exact .kept (dozes_goto (by simp [setLock, here, Pc.dozes])) rfl id
  | wakeUnlock _ _ here | tidied _ _ here => exact .kept (dozes_goto (by simp [setLock, here, Pc.dozes])) rfl id

theorem Locked.step (locked : Locked code s) (moved : Moved code s event next) : Locked code next := by
  refine ⟨moved.held locked, moved.direct locked, fun p chan dozes asleep => ?_, fun p asleep chan mine on => ?_⟩
  · cases moved.slept p with
    | commit _ _ _ pc on =>
      rw [pc] at dozes
      rw [on, dozes]
    | kept pc on still => rw [on, locked.chan p chan (pc ▸ dozes) (still asleep)]
    | awake => contradiction
    | elsewhere here => simp [here] at dozes
  · cases moved.slept p with
    | commit _ _ _ pc on' => rw [pc, ← on', on]
    | kept pc on' still => rw [pc, locked.mine p (still asleep) chan mine (on' ▸ on)]
    | awake => contradiction
    | elsewhere _ on' => exact absurd on (on' asleep chan mine)

end

section

variable {p : Slot} {chan : Chan} {owed : List Chan}

/-- Process `p` sleeps on the channel, or is about to and no longer holds `lk` for it. -/
def Sleeper (s : State σ K) (p : Slot) (chan : Chan) : Prop :=
  (s.pc (.proc p)).commits = some chan ∨ (s.pc (.proc p)).dozes = some chan ∧ (s.proc p).state = .sleeping

/-- The process calls sleep on the channel in this step. -/
def Sleeps (code : Code σ K) (s : State σ K) (event : Event K) (p : Slot) (chan : Chan) : Prop :=
  event = .step (.proc p) ∧ ∃ k k', s.pc (.proc p) = .inside k ∧ (code.run k s.data).2 = .sleep chan k'

theorem kept_chan (of : Pc K → Option Chan) {t : Thread} {new : Pc K} (same : of new = none ∨ of new = of (s.pc t))
    (now : of (update s.pc t new (.proc p)) = some chan) : of (s.pc (.proc p)) = some chan := by
  by_cases mine : .proc p = t
  · subst mine
    rw [update_self] at now
    rcases same with none | same
    · simp [none] at now
    · rw [← same, now]
  · rwa [update_of_ne mine] at now

section

variable (moved : Moved code s event next)
include moved

theorem Moved.enters (enters : (next.pc (.proc p)).enters = some chan) :
    (s.pc (.proc p)).enters = some chan ∨ Sleeps code s event p chan := by
  cases moved with
  | sleep q k _ k' here =>
    by_cases mine : p = q
    · subst mine
      refine .inr ⟨rfl, k, k', here, ?_⟩
      cases lk : code.lk <;> simp_all [State.goto, Pc.enters]
    · exact .inl (by simpa [State.goto, perform, mine] using enters)
  | sleepLock _ _ _ here => exact .inl (kept_chan Pc.enters (.inr (by simp [here, Pc.enters])) enters)
  | wakeup | wake | resumed =>
    refine .inl (kept_chan Pc.enters (.inl ?_) enters)
    cases lk : code.lk <;> rfl
  | dispatchOut | preempt | wakeupOut | kill | rest => exact .inl enters
  | _ => exact .inl (kept_chan Pc.enters (.inl rfl) enters)

theorem Moved.commits (commits : (next.pc (.proc p)).commits = some chan) :
    (s.pc (.proc p)).commits = some chan ∨ (s.pc (.proc p)).enters = some chan ∨ Sleeps code s event p chan := by
  cases moved with
  | sleep q k _ k' here =>
    by_cases mine : p = q
    · subst mine
      refine .inr (.inr ⟨rfl, k, k', here, ?_⟩)
      cases lk : code.lk <;> simp_all [State.goto, Pc.commits]
    · exact .inl (by simpa [State.goto, perform, mine] using commits)
  | sleepUnlock t _ _ here =>
    by_cases mine : .proc p = t
    · subst mine
      rw [here]
      exact .inr (.inl (by simpa [State.goto, Pc.commits, Pc.enters] using commits))
    · exact .inl (by simpa [State.goto, setLock, update_of_ne mine] using commits)
  | wakeup | wake | resumed =>
    refine .inl (kept_chan Pc.commits (.inl ?_) commits)
    cases lk : code.lk <;> rfl
  | dispatchOut | preempt | wakeupOut | kill | rest => exact .inl commits
  | _ => exact .inl (kept_chan Pc.commits (.inl rfl) commits)

theorem Moved.sleeper (sleeper : Sleeper next p chan) :
    Sleeper s p chan ∨ (s.pc (.proc p)).enters = some chan ∨ Sleeps code s event p chan := by
  rcases sleeper with commits | ⟨dozes, asleep⟩
  · rcases moved.commits commits with before | entering
    · exact .inl (.inl before)
    · exact .inr entering
  · cases moved.slept p with
    | commit _ _ here pc =>
      rw [pc] at dozes
      exact .inl (.inl (by rw [here, ← dozes]; rfl))
    | kept pc _ still => exact .inl (.inr ⟨pc ▸ dozes, still asleep⟩)
    | awake => contradiction
    | elsewhere here => simp [here] at dozes

/-- The data changes only at a point of the code, in the hands of the holder of `lk`. -/
theorem Moved.data : next.data = s.data ∨ ∃ t k, event = .step t ∧ s.pc t = .inside k := by
  cases moved with
  | goto t k _ here | wakeup t k _ _ here | leave t k here => exact .inr ⟨t, k, rfl, here⟩
  | killed _ k _ _ here | sleep _ k _ _ here => exact .inr ⟨_, k, rfl, here⟩
  | _ => exact .inl rfl

theorem Moved.busy {t : Thread} (busy : (s.pc t).busy = true) :
    (next.pc t).busy = true ∨ ∃ k, event = .step t ∧ s.pc t = .inside k ∧
      ((∃ chan k', (code.run k s.data).2 = .sleep chan k') ∨ (code.run k s.data).2 = .leave) := by
  have frame {u : Thread} {new : Pc K} (ends : new.busy = true ∨ (s.pc u).busy = false) :
      (update s.pc u new t).busy = true := by
    by_cases mine : t = u
    · subst mine
      rcases ends with ends | ends
      · rwa [update_self]
      · simp [busy] at ends
    · rwa [update_of_ne mine]
  cases moved with
  | sleep q k chan k' here move =>
    by_cases mine : t = .proc q
    · subst mine
      exact .inr ⟨k, rfl, here, .inl ⟨chan, k', move⟩⟩
    · exact .inl (by simpa [State.goto, perform, update_of_ne mine] using busy)
  | leave u k here move =>
    by_cases mine : t = u
    · subst mine
      exact .inr ⟨k, rfl, here, .inr move⟩
    · exact .inl (by simpa [State.goto, perform, update_of_ne mine] using busy)
  | wakeup | wake =>
    refine .inl (frame (.inl ?_))
    cases lk : code.lk <;> rfl
  | acquire | goto | killed | wakeLock | wakeUnlock => exact .inl (frame (.inl rfl))
  | start _ _ here | left _ here | sleepLock _ _ _ here | sleepUnlock _ _ _ here | tidied _ _ here | commit _ _ _ here
  | resumed _ _ here | retire _ _ _ here | dispatch _ _ _ here =>
    exact .inl (frame (.inr (by rw [here]; rfl)))
  | dispatchOut | preempt | wakeupOut | kill | rest => exact .inl busy

end

/-- Every sleeper waits for something that is still false, or is owed a wakeup by the holder of `lk`. -/
structure Awaited (code : Code σ K) (cond : Chan → σ → Bool) (s : State σ K) (owed : List Chan) : Prop where
  locked : Locked code s
  owing : owed ≠ [] → ∃ t, (s.pc t).busy = true
  entering : ∀ p chan, (s.pc (.proc p)).enters = some chan → cond chan s.data = false
  sleeping : ∀ p, ∀ chan ∈ code.channels, Sleeper s p chan → cond chan s.data = false ∨ chan ∈ owed

theorem Locked.alone (locked : Locked code s) {lock : Lock} {t u : Thread}
    (first : (s.pc t).holds code.lk lock = true) (second : (s.pc u).holds code.lk lock = true) : t = u := by
  have one := (locked.held lock t).mpr first
  rw [(locked.held lock u).mpr second] at one
  exact (some.inj one).symm

theorem enters_holds {lk : Lock} {pc : Pc K} (enters : pc.enters = some chan) : pc.holds lk lk = true := by
  cases pc <;> simp_all [Pc.enters, Pc.holds]

theorem busy_holds {lk : Lock} {pc : Pc K} (busy : pc.busy = true) : pc.holds lk lk = true := by
  cases pc <;> simp_all [Pc.busy, Pc.holds]

theorem commits_holds {lk : Lock} {pc : Pc K} (commits : pc.commits = some chan) : pc.holds lk .ptable = true := by
  cases pc <;> simp_all [Pc.commits, Pc.holds]

/-- While a process is in sleep() with `lk` held, nobody else changes the data. -/
theorem Locked.data_of_enters (locked : Locked code s) (moved : Moved code s event next)
    (enters : (s.pc (.proc p)).enters = some chan) : next.data = s.data := by
  rcases moved.data with same | ⟨t, k, -, here⟩
  · exact same
  · have same := locked.alone (t := .proc p) (u := t) (enters_holds enters) (busy_holds (by rw [here]; rfl))
    rw [same, here] at enters
    contradiction

theorem Awaited.owes (awaited : Awaited code cond s owed) (moved : Moved code s event next)
    (disciplined : Disciplined code cond (s, owed) event (next, owe code cond s event next owed))
    (owes : owe code cond s event next owed ≠ []) : ∃ t, (next.pc t).busy = true := by
  have before : ∃ t, (s.pc t).busy = true := by
    unfold owe at owes
    split at owes
    · rename_i t
      split at owes
      · rename_i here
        exact ⟨t, by rw [here]; rfl⟩
      · refine awaited.owing fun none => owes ?_
        rw [none, filter_nil]
      · exact awaited.owing owes
    · exact awaited.owing owes
  obtain ⟨t, busy⟩ := before
  rcases moved.busy busy with still | ⟨k, rfl, here, ⟨chan, k', move⟩ | move⟩
  · exact ⟨t, still⟩
  · simp only [Disciplined, here, move] at disciplined
    exact absurd disciplined.2 owes
  · simp only [Disciplined, here, move] at disciplined
    exact absurd disciplined owes

theorem Disciplined.sleeps {after : State σ K × List Chan} (disciplined : Disciplined code cond (s, owed) event after)
    (sleeps : Sleeps code s event p chan) : cond chan after.1.data = false := by
  obtain ⟨rfl, k, k', here, move⟩ := sleeps
  simp only [Disciplined, here, move] at disciplined
  exact disciplined.1

/-- After a wakeup on a channel nobody sleeps on it: one on its way to sleep
would hold ptable.lock. -/
theorem Locked.woken (locked : Locked code s) {t : Thread} {k : K} (here : s.pc t = .wake chan k)
    (moved : Moved code s (.step t) next) (proc : next.proc = wakeup1 s.proc chan) : ¬ Sleeper next p chan := by
  have holds : (s.pc t).holds code.lk .ptable = true := by simp [here, Pc.holds]
  rintro (commits | ⟨dozes, asleep⟩)
  · rcases moved.commits commits with before | before | ⟨-, k', k'', inside, -⟩
    · have same := locked.alone (t := t) (u := .proc p) holds (commits_holds before)
      rw [← same, here] at before
      contradiction
    · have same := locked.alone (t := t) (u := .proc p) (busy_holds (by rw [here]; rfl)) (enters_holds before)
      rw [← same, here] at before
      contradiction
    · have same := locked.alone (t := t) (u := .proc p) (busy_holds (by rw [here]; rfl)) (busy_holds (by rw [inside]; rfl))
      rw [← same, here] at inside
      contradiction
  · have on := (locked.step moved).chan p chan dozes asleep
    rw [proc] at asleep on
    rw [wakeup1_chan] at on
    exact (wakeup1_sleeping asleep).2 on

theorem mem_owe (owes : chan ∈ owed) :
    chan ∈ owe code cond s event next owed ∨ ∃ t k, event = .step t ∧ s.pc t = .wake chan k := by
  unfold owe
  split
  · rename_i t
    split
    · exact .inl (mem_append_left _ owes)
    · rename_i chan' k here
      by_cases same : chan = chan'
      · subst same
        exact .inr ⟨t, k, rfl, here⟩
      · exact .inl (by simp [owes, same])
    · exact .inl owes
  · exact .inl owes

theorem Awaited.step (awaited : Awaited code cond s owed) (moved : Moved code s event next)
    (disciplined : Disciplined code cond (s, owed) event (next, owe code cond s event next owed)) :
    Awaited code cond next (owe code cond s event next owed) := by
  refine ⟨awaited.locked.step moved, awaited.owes moved disciplined, fun p chan enters => ?_,
    fun p chan mine sleeper => ?_⟩
  · rcases moved.enters enters with before | sleeps
    · rw [awaited.locked.data_of_enters moved before]
      exact awaited.entering p chan before
    · exact disciplined.sleeps sleeps
  · rcases moved.sleeper sleeper with before | before | sleeps
    · have waits := awaited.sleeping p chan mine before
      rcases moved.data with same | ⟨t, k, rfl, here⟩
      · rw [same]
        rcases waits with waits | owes
        · exact .inl waits
        · have left : chan ∈ owe code cond s event next owed ∨ ∃ t k, event = .step t ∧ s.pc t = .wake chan k :=
            mem_owe owes
          rcases left with still | ⟨t, k, rfl, here⟩
          · exact .inr still
          · have woken : next.proc = wakeup1 s.proc chan := by cases moved <;> simp_all [State.goto]
            exact absurd sleeper (awaited.locked.woken here moved woken)
      · simp only [owe, here, raise, mem_append, mem_filter]
        by_cases was : cond chan s.data = true <;> by_cases now : cond chan next.data = true <;>
          simp_all
    · rw [awaited.locked.data_of_enters moved before]
      exact .inl (awaited.entering p chan before)
    · exact .inl (disciplined.sleeps sleeps)

end

variable {owed : List Chan}

theorem Awaited.safe (awaited : Awaited code cond s owed) : WakeupSafe code cond s := by
  refine ⟨fun free p asleep chan mine on => ?_, fun t k here => ?_⟩
  · rcases awaited.sleeping p chan mine (.inr ⟨awaited.locked.mine p asleep chan mine on, asleep⟩) with waits | owes
    · exact waits
    · obtain ⟨t, busy⟩ := awaited.owing (ne_nil_of_mem owes)
      rw [(awaited.locked.held code.lk t).mpr (busy_holds busy)] at free
      contradiction
  · refine ⟨(awaited.locked.held code.lk t).mpr (by simp [here, Pc.holds]), fun held => ?_⟩
    have holds := (awaited.locked.held .ptable t).mp held
    simpa [here, Pc.holds, eq_comm] using holds

theorem Awaited.start (table : Table) (data : σ)
    (quiet : ∀ p, (table p).state = .sleeping → ∀ chan ∈ code.channels, (table p).chan ≠ some chan) :
    Awaited code cond { proc := table, data } [] where
  locked := {
    held := fun lock t => by simp [Pc.holds]
    direct := fun _ _ => rfl
    chan := fun p chan dozes => by simp [Pc.dozes] at dozes
    mine := fun p asleep chan mine on => absurd on (quiet p asleep chan mine) }
  owing := fun owes => absurd rfl owes
  entering := fun p chan enters => by simp [Pc.enters] at enters
  sleeping := fun p chan _ sleeper => by simp [Sleeper, Pc.commits, Pc.dozes] at sleeper

/-- Every run of code under a lock that sleeps and wakes as it should, from a
state in which nobody is in the code or sleeps on its channels. -/
theorem sleep_loses_no_wakeup (code : Code σ K) (cond : Chan → σ → Bool) (table : Table) (data : σ)
    (quiet : ∀ p, (table p).state = .sleeping → ∀ chan ∈ code.channels, (table p).chan ≠ some chan) (events : List (Event K))
    (disciplined : EveryStep (withHistory code.step (owe code cond)) (Disciplined code cond)
      ({ proc := table, data }, []) events) :
    EveryStep (withHistory code.step (owe code cond)) (fun _ _ after => WakeupSafe code cond after.1)
      ({ proc := table, data }, []) events := by
  refine (runs_along (fun s : State σ K × List Chan => Awaited code cond s.1 s.2) (Awaited.start table data quiet) disciplined
    (fun before event after awaited disciplined stepped => ?_)).1
  obtain ⟨moved, recorded⟩ := withHistory_step stepped
  obtain ⟨after, _⟩ := after
  dsimp only at moved recorded
  subst recorded
  have next := awaited.step (step_moved moved) disciplined
  exact ⟨next, next.safe⟩

/-- A flag that one process waits for and another sets: the points of both. -/
inductive FlagPoint where
  | test | clear | set | done
deriving DecidableEq, Repr

def flagCode (lk : Lock) : Code Bool FlagPoint where
  lk
  channels := [.ticks]
  entry := fun k => k = .test ∨ k = .set
  run
    | .test, flag => if flag = true then (flag, .goto .clear) else (flag, .sleep .ticks .test)
    | .clear, _ => (false, .leave)
    | .set, _ => (true, .wakeup .ticks .done)
    | .done, flag => (flag, .leave)

def flagTable : Table := fun p => if p = 0 ∨ p = 1 then { state := .running } else {}

/-- Process 0 tests the flag and goes to sleep while process 1 waits for the lock to set it. -/
def flagEvents : List (Event FlagPoint) :=
  [.start (.proc 0) .test, .step (.proc 0), .start (.proc 1) .set, .step (.proc 0), .step (.proc 0), .step (.proc 0),
    .step (.proc 1), .step (.proc 1), .step (.proc 0), .retire 0, .step (.proc 1), .step (.proc 1), .step (.proc 1),
    .step (.proc 1), .step (.proc 1), .dispatch 0, .step (.proc 0), .step (.proc 0), .step (.proc 0), .step (.proc 0)]

theorem sleep_loses_no_wakeup_flag :
    (run (withHistory (flagCode .other).step (owe (flagCode .other) fun _ flag => flag)) ({ proc := flagTable, data := false }, [])
        flagEvents).map (fun (s, owed) => (s.pc (.proc 0), s.data, owed)) = some (.inside .clear, true, []) ∧
      EveryStep (withHistory (flagCode .other).step (owe (flagCode .other) fun _ flag => flag))
        (fun _ _ after => WakeupSafe (flagCode .other) (fun _ flag => flag) after.1)
        ({ proc := flagTable, data := false }, []) flagEvents :=
  ⟨by decide +kernel, sleep_loses_no_wakeup (flagCode .other) (fun _ flag => flag) flagTable false
    (by decide +kernel) flagEvents (by decide +kernel)⟩

end Xv6.Sync
