import Xv6.Sync.Wakeup

namespace Xv6.Sync

open Process Data Function State
open State (goto)

/-! Proof outlines for code under a lock other than ptable.lock: what holds of the
data while the lock is free, and what holds at each point of the code. An outline
is checked point by point, and then holds in every run. -/

variable {σ K : Type}

structure Outline (σ K : Type) where
  free : σ → Prop
  /-- The points at which the code takes the lock, at the start or at the end of sleep. -/
  back : K → Prop
  /-- The channels the code sleeps on, and the points at which it goes on. -/
  asleep : Chan → K → Prop := fun _ _ => True
  /-- Of the data when the lock was taken, the data now, the wakeups owed and the point. -/
  good : σ → σ → List Chan → K → Prop

/-- The data when the lock was last taken. -/
def taken (s : State σ K) (event : Event K) (_ : State σ K) (old : σ) : σ :=
  match event with
  | .step t =>
    match s.pc t with
    | .acquire _ | .reacquire _ => s.data
    | _ => old
  | _ => old

def State.killed (s : State σ K) : Thread → Bool
  | .proc p => (s.proc p).killed
  | .handler _ => false

namespace Outline

variable (outline : Outline σ K) (code : Code σ K) (cond : Chan → σ → Bool)

/-- The code at a point does what the outline says of the point it goes to. -/
def Correct (killed : Bool) (old now : σ) (owed : List Chan) (k : K) : Prop :=
  match (code.run k now).2 with
  | .goto k' => outline.good old (code.run k now).1 (raise code cond now (code.run k now).1 owed) k'
  | .ifKilled yes no =>
    outline.good old (code.run k now).1 (raise code cond now (code.run k now).1 owed) (if killed = true then yes else no)
  | .wakeup chan k' =>
    outline.good old (code.run k now).1 ((raise code cond now (code.run k now).1 owed).filter (· ≠ chan)) k'
  | .sleep chan k' =>
    cond chan (code.run k now).1 = false ∧ raise code cond now (code.run k now).1 owed = [] ∧
      outline.free (code.run k now).1 ∧ outline.back k' ∧ outline.asleep chan k'
  | .leave => raise code cond now (code.run k now).1 owed = [] ∧ outline.free (code.run k now).1

def Holds (old now : σ) (owed : List Chan) : Pc K → Prop
  | .out => True
  | .inside k | .wakeUnlock k => outline.good old now owed k
  | .wakeLock chan k | .wake chan k => outline.good old now (owed.filter (· ≠ chan)) k
  | .sleepLock chan k | .sleepUnlock chan k => outline.free now ∧ outline.back k ∧ outline.asleep chan k
  | .leaving => outline.free now
  | .commit chan k | .switched chan k | .asleep chan k => outline.back k ∧ outline.asleep chan k
  | .acquire k | .resumed k | .tidied k | .reacquire k => outline.back k

structure Follows (s : State σ K) (old : σ) (owed : List Chan) : Prop where
  awaited : Awaited code cond s owed
  free : s.locks code.lk = none → outline.free s.data
  holds : ∀ t, outline.Holds old s.data owed (s.pc t)

/-- What is asked of an outline besides its points. -/
structure Sound : Prop where
  other : code.lk = .other
  entry : ∀ k, code.entry k = true → outline.back k

/-- What is asked of a step: that the outline holds at the point where the lock is
taken, and that the code keeps it. -/
structure Checked (s : State σ K) (event : Event K) (old : σ) (owed : List Chan) : Prop where
  enter : ∀ t k, event = .step t → s.pc t = .acquire k ∨ s.pc t = .reacquire k → outline.free s.data →
    outline.back k → outline.good s.data s.data [] k
  correct : ∀ t k, event = .step t → s.pc t = .inside k → outline.good old s.data owed k →
    outline.Correct code cond (s.killed t) old s.data owed k

end Outline

variable {outline : Outline σ K} {code : Code σ K} {cond : Chan → σ → Bool} {s next : State σ K} {event : Event K}
  {old : σ} {owed : List Chan} {t : Thread}

def Event.actor : Event K → Option Thread
  | .start t _ | .step t => some t
  | .retire p | .dispatch p => some (.proc p)
  | _ => none

theorem Moved.pc_frame (moved : Moved code s event next) (others : event.actor ≠ some t) : next.pc t = s.pc t := by
  have frame {u : Thread} {new : Pc K} (acts : event.actor = some u) : update s.pc u new t = s.pc t := by
    refine update_of_ne (fun same => others ?_) ..
    rw [acts, same]
  cases moved with
  | dispatchOut | preempt | wakeupOut | kill | rest => rfl
  | _ => exact frame rfl

def Move.target (killed : Bool) : Move K → Option K
  | .goto k | .sleep _ k | .wakeup _ k => some k
  | .ifKilled yes no => some (if killed = true then yes else no)
  | .leave => none

/-- How a thread gets on with the code in a step. -/
inductive Advanced (code : Code σ K) (s : State σ K) (event : Event K) (next : State σ K) (t : Thread) : Prop where
  | kept (point : (next.pc t).point = (s.pc t).point) (idle : event = .step t → ∀ k, s.pc t ≠ .inside k)
  | started (k) (acts : event = .start t k) (here : s.pc t = .out) (point : (next.pc t).point = some k)
  | ran (k) (acts : event = .step t) (here : s.pc t = .inside k)
      (point : (next.pc t).point = (code.run k s.data).2.target (s.killed t)) (data : next.data = (code.run k s.data).1)

theorem Moved.advanced (moved : Moved code s event next) (t : Thread) : Advanced code s event next t := by
  by_cases acts : event.actor = some t
  · cases moved with
    | start _ k here =>
      cases acts
      exact .started k rfl here (by simp [State.goto, Pc.point])
    | goto _ k _ here move | wakeup _ k _ _ here move | leave _ k here move | sleep _ k _ _ here move =>
      cases acts
      refine .ran k rfl here ?_ rfl
      cases lk : code.lk <;> simp [State.goto, Pc.point, move, Move.target]
    | killed p k _ _ here move =>
      cases acts
      refine .ran k rfl here ?_ rfl
      cases killed : (s.proc p).killed <;> simp [State.goto, Pc.point, move, Move.target, State.killed, killed]
    | acquire _ _ here =>
      cases acts
      rcases here with here | here <;>
        exact .kept (by simp [State.goto, Pc.point, here]) fun _ _ => by simp [here]
    | left _ here | wakeUnlock _ _ here | tidied _ _ here | wakeLock _ _ _ here | sleepLock _ _ _ here
    | sleepUnlock _ _ _ here | commit _ _ _ here | retire _ _ _ here | dispatch _ _ _ here =>
      cases acts
      exact .kept (by simp [State.goto, Pc.point, here]) fun _ _ => by simp [here]
    | wake _ _ _ here | resumed _ _ here =>
      cases acts
      refine .kept ?_ fun _ _ => by simp [here]
      cases lk : code.lk <;> simp [State.goto, Pc.point, here]
    | dispatchOut => exact .kept rfl fun other => by contradiction
    | preempt | wakeupOut | kill | rest => contradiction
  · refine .kept (by rw [moved.pc_frame acts]) fun same => ?_
    simp [same, Event.actor] at acts

theorem Locked.undisturbed (locked : Locked code s) (moved : Moved code s event next) (cond : Chan → σ → Bool) (old : σ)
    (owed : List Chan) (holds : (s.pc t).holds code.lk code.lk = true) (others : event.actor ≠ some t) :
    next.data = s.data ∧ owe code cond s event next owed = owed ∧ taken s event next old = old := by
  have busyElse {u : Thread} (acts : event.actor = some u) (busy : (s.pc u).holds code.lk code.lk = true) : False :=
    others (by rw [acts, locked.alone busy holds])
  have heldElse : s.locks code.lk ≠ none := by
    rw [(locked.held code.lk t).mpr holds]
    exact nofun
  cases moved with
  | acquire _ _ _ free => exact absurd free heldElse
  | goto _ _ _ here | wakeup _ _ _ _ here | leave _ _ here =>
    exact (busyElse rfl (busy_holds (by rw [here]; rfl))).elim
  | killed _ _ _ _ here | sleep _ _ _ _ here | wake _ _ _ here => exact (busyElse rfl (busy_holds (by rw [here]; rfl))).elim
  | start | retire | dispatch | dispatchOut | preempt | wakeupOut | kill | rest => exact ⟨rfl, rfl, rfl⟩
  | left _ here | wakeLock _ _ _ here | wakeUnlock _ _ here => exact ⟨rfl, by simp [owe, here], by simp [taken, here]⟩
  | sleepLock _ _ _ here | sleepUnlock _ _ _ here | tidied _ _ here =>
    exact ⟨rfl, by simp [owe, here], by simp [taken, here]⟩
  | commit _ _ _ here | resumed _ _ here => exact ⟨rfl, by simp [owe, here], by simp [taken, here]⟩

theorem Outline.Holds.frame {old' now now' : σ} {owed' : List Chan} {pc : Pc K}
    (without : pc.holds code.lk code.lk = false) (holds : outline.Holds old now owed pc) : outline.Holds old' now' owed' pc := by
  cases pc <;> first | exact holds | simp [Pc.holds] at without

theorem Outline.Correct.disciplined {k : K} (here : s.pc t = .inside k) (moved : Moved code s (.step t) next)
    (correct : outline.Correct code cond (s.killed t) old s.data owed k) :
    Disciplined code cond (s, owed) (.step t) (next, owe code cond s (.step t) next owed) := by
  have data : next.data = (code.run k s.data).1 := by
    cases moved <;> simp_all [goto, perform]
  simp only [Outline.Correct] at correct
  simp only [Disciplined, here, owe, data]
  cases move : (code.run k s.data).2 with
  | sleep =>
    simp only [move] at correct
    exact ⟨correct.1, correct.2.1⟩
  | leave =>
    simp only [move] at correct
    exact correct.1
  | _ => trivial

section

variable (follows : outline.Follows code cond s old owed)
include follows

theorem Outline.Follows.disciplined (moved : Moved code s event next)
    (checked : outline.Checked code cond s event old owed) :
    Disciplined code cond (s, owed) event (next, owe code cond s event next owed) := by
  cases event with
  | step t =>
    cases here : s.pc t with
    | inside k =>
      have good := follows.holds t
      rw [here] at good
      exact (checked.correct t k rfl here good).disciplined here moved
    | _ => simp [Disciplined, here]
  | _ => trivial

theorem Outline.Follows.acting (sound : outline.Sound code)
    (moved : Moved code s event next) (checked : outline.Checked code cond s event old owed) (acts : event.actor = some t) :
    outline.Holds (taken s event next old) next.data (owe code cond s event next owed) (next.pc t) := by
  have indirect : ¬ code.lk = .ptable := by
    rw [sound.other]
    decide
  have before := follows.holds t
  cases moved with
  | start _ k _ entry =>
    cases acts
    simpa [goto, Holds] using sound.entry k entry
  | acquire u k here free =>
    cases acts
    have none : owed = [] := by
      by_contra owes
      obtain ⟨u, busy⟩ := follows.awaited.owing owes
      rw [(follows.awaited.locked.held code.lk u).mpr (busy_holds busy)] at free
      contradiction
    have back : outline.back k := by
      rcases here with here | here <;> rwa [here] at before
    subst none
    have entered := checked.enter t k rfl here (follows.free free) back
    rcases here with here | here <;> simpa [goto, setLock, Holds, taken, owe, here] using entered
  | goto _ k _ here move =>
    cases acts
    rw [here] at before
    have correct := checked.correct t k rfl here before
    simp only [Correct, move] at correct
    simpa [goto, perform, Holds, taken, owe, here] using correct
  | killed p k _ _ here move =>
    cases acts
    rw [here] at before
    have correct := checked.correct _ k rfl here before
    simp only [Correct, move, State.killed] at correct
    cases killed : (s.proc p).killed <;>
      simpa [goto, perform, Holds, taken, owe, here, killed] using correct
  | sleep _ k _ _ here move =>
    cases acts
    rw [here] at before
    have correct := checked.correct _ k rfl here before
    simp only [Correct, move] at correct
    simpa [goto, perform, Holds, indirect] using correct.2.2
  | wakeup _ k _ _ here move =>
    cases acts
    rw [here] at before
    have correct := checked.correct _ k rfl here before
    simp only [Correct, move] at correct
    simpa [goto, perform, Holds, taken, owe, here, indirect] using correct
  | leave _ k here move =>
    cases acts
    rw [here] at before
    have correct := checked.correct _ k rfl here before
    simp only [Correct, move] at correct
    simpa [goto, perform, Holds] using correct.2
  | left =>
    cases acts
    simp [goto, Holds]
  | wakeLock _ _ _ here | wakeUnlock _ _ here =>
    cases acts
    rw [here] at before
    simpa [goto, setLock, Holds, taken, owe, here] using before
  | wake _ _ _ here =>
    cases acts
    rw [here] at before
    simpa [goto, Holds, taken, owe, here, indirect] using before
  | sleepLock _ _ _ here =>
    cases acts
    rw [here] at before
    simpa [goto, setLock, Holds] using before
  | sleepUnlock _ _ _ here =>
    cases acts
    rw [here] at before
    simpa [goto, Holds] using before.2
  | commit _ _ _ here | retire _ _ _ here =>
    cases acts
    rw [here] at before
    simpa [goto, Holds] using before
  | resumed _ _ here | tidied _ _ here =>
    cases acts
    rw [here] at before
    simpa [goto, Holds, indirect] using before
  | dispatch _ _ _ here =>
    cases acts
    rw [here] at before
    simpa [goto, Holds] using before.1
  | dispatchOut _ here =>
    cases acts
    simp [setProc, here, Holds]
  | preempt | wakeupOut | kill | rest => contradiction

theorem Outline.Follows.free_of_moved (sound : outline.Sound code)
    (moved : Moved code s event next) (free : next.locks code.lk = none) : outline.free next.data := by
  have apart : code.lk ≠ .ptable := by
    rw [sound.other]
    decide
  -- A point of the code leaves the lock where it is, with the thread that runs it.
  have taken {u : Thread} {k : K} (here : s.pc u = .inside k) (free : s.locks code.lk = none) : False := by
    rw [(follows.awaited.locked.held code.lk u).mpr (by simp [here, Pc.holds])] at free
    contradiction
  cases moved with
  | acquire => simp [goto, setLock] at free
  | goto _ _ _ here | wakeup _ _ _ _ here | leave _ _ here => exact (taken here free).elim
  | killed _ _ _ _ here | sleep _ _ _ _ here => exact (taken here free).elim
  | left u here =>
    have before := follows.holds u
    rwa [here] at before
  | sleepUnlock u _ _ here =>
    have before := follows.holds u
    rw [here] at before
    exact before.1
  | wakeLock | wakeUnlock | sleepLock | tidied | retire | dispatch =>
    exact follows.free (by simpa [goto, setLock, setProc, update_of_ne apart] using free)
  | _ => exact follows.free free

theorem Outline.Follows.step (sound : outline.Sound code)
    (moved : Moved code s event next) (checked : outline.Checked code cond s event old owed) :
    outline.Follows code cond next (taken s event next old) (owe code cond s event next owed) := by
  have locked := follows.awaited.locked
  have holds (t : Thread) :
      outline.Holds (taken s event next old) next.data (owe code cond s event next owed) (next.pc t) := by
    by_cases acts : event.actor = some t
    · exact follows.acting sound moved checked acts
    · rw [moved.pc_frame acts]
      cases held : (s.pc t).holds code.lk code.lk with
      | false => exact (follows.holds t).frame held
      | true =>
        have same := locked.undisturbed moved cond old owed held acts
        rw [same.1, same.2.1, same.2.2]
        exact follows.holds t
  refine ⟨follows.awaited.step moved (follows.disciplined moved checked), fun free => ?_, holds⟩
  exact follows.free_of_moved sound moved free

end

theorem Outline.Follows.start (table : Table) (data : σ) (free : outline.free data)
    (quiet : ∀ p, (table p).state = .sleeping → ∀ chan ∈ code.channels, (table p).chan ≠ some chan) :
    outline.Follows code cond { proc := table, data } data [] :=
  ⟨Awaited.start table data quiet, fun _ => free, fun _ => trivial⟩

/-- An outline that is correct at every point, in the steps that meet `condition`,
is followed by every run whose steps meet it. -/
theorem Outline.Sound.every (sound : outline.Sound code) {condition : State σ K × σ → Event K → State σ K × σ → Prop}
    {property : State σ K → Prop} {table : Table} {data : σ} {events : List (Event K)}
    (enter : ∀ k now, outline.free now → outline.back k → outline.good now now [] k)
    (correct : ∀ before after t k owed, condition before (.step t) after → before.1.pc t = .inside k →
      outline.good before.2 before.1.data owed k → outline.Correct code cond (before.1.killed t) before.2 before.1.data owed k)
    (gives : ∀ s old owed, outline.Follows code cond s old owed → property s) (free : outline.free data)
    (quiet : ∀ p, (table p).state = .sleeping → ∀ chan ∈ code.channels, (table p).chan ≠ some chan)
    (met : EveryStep (withHistory code.step taken) condition ({ proc := table, data }, data) events) :
    EveryStep (withHistory code.step taken) (fun _ _ after => property after.1) ({ proc := table, data }, data) events := by
  refine (runs_along (fun s : State σ K × σ => ∃ owed, outline.Follows code cond s.1 s.2 owed)
    ⟨[], Follows.start table data free quiet⟩ met (fun before event after follows meets stepped => ?_)).1
  obtain ⟨moved, recorded⟩ := withHistory_step stepped
  obtain ⟨owed, follows⟩ := follows
  rw [recorded]
  have next := follows.step sound (step_moved moved) ⟨fun _ k _ _ => enter k before.1.data, fun t k acts here good => ?_⟩
  · exact ⟨⟨_, next⟩, gives _ _ _ next⟩
  · subst acts
    exact correct before after t k owed meets here good

end Xv6.Sync
