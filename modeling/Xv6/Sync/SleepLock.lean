import Xv6.Sync.Outline

namespace Xv6.Sync

open Process Data List

/-! Sleep locks. The code under the inner spin lock is acquiresleep and
releasesleep; who has the sleep lock is recorded beside the run. -/

/-- `struct sleeplock` without its spin lock. -/
structure SleepLock where
  locked : Bool := false
  pid : Int32 := 0
deriving DecidableEq, Repr

/-- The points of acquiresleep, called by the process `pid`, and of releasesleep. -/
inductive SleepPoint where
  /-- `while (lk->locked)`, and the call of sleep. -/
  | test (pid : Int32)
  | take (pid : Int32)
  | clear
  | done
deriving DecidableEq, Repr

/-- The address of the lock is its channel. -/
def sleepLockCode (address : Nat) : Code SleepLock SleepPoint where
  lk := .other
  channels := [.object address]
  entry
    | .test _ | .clear => true
    | _ => false
  run
    | .test pid, lock => if lock.locked = true then (lock, .sleep (.object address) (.test pid)) else (lock, .goto (.take pid))
    | .take pid, _ => ({ locked := true, pid }, .goto .done)
    | .clear, _ => ({ locked := false, pid := 0 }, .wakeup (.object address) .done)
    | .done, lock => (lock, .leave)

/-- The processes that have the lock: from their assignment in acquiresleep to that
in releasesleep, so all that have returned from the one and not called the other. -/
def holders (s : State SleepLock SleepPoint) (event : Event SleepPoint) (_ : State SleepLock SleepPoint)
    (held : List Slot) : List Slot :=
  match event with
  | .step (.proc p) =>
    match s.pc (.proc p) with
    | .inside (.take _) => p :: held
    | .inside .clear => held.erase p
    | _ => held
  | _ => held

/-- Processes call acquiresleep under their own pid, releasesleep after their own
acquiresleep, and keep their pid as long as they have the lock. -/
def OwnRelease (before : State SleepLock SleepPoint × List Slot) (event : Event SleepPoint)
    (_ : State SleepLock SleepPoint × List Slot) : Prop :=
  match event with
  | .start (.proc p) (.test pid) => pid = (before.1.proc p).pid
  | .start (.proc p) .clear => p ∈ before.2
  | .start (.handler _) _ => False
  | .rest p proc => p ∈ before.2 → proc.pid = (before.1.proc p).pid
  | _ => True

instance (before after : State SleepLock SleepPoint × List Slot) (event : Event SleepPoint) :
    Decidable (OwnRelease before event after) := by
  unfold OwnRelease
  split <;> infer_instance

section

variable {address : Nat} {k : SleepPoint}

end

/-! ## The holders -/

/-- A point that a thread has reached. -/
def Rightful (proc : Table) (held : List Slot) (t : Thread) : SleepPoint → Prop
  | .test pid | .take pid => ∃ p, t = .proc p ∧ pid = (proc p).pid
  | .clear => ∃ p, t = .proc p ∧ p ∈ held
  | .done => True

structure Owned (s : State SleepLock SleepPoint) (held : List Slot) : Prop where
  alone : held.length ≤ 1
  locked : s.data.locked = true ↔ held ≠ []
  pid : ∀ p ∈ held, s.data.pid = (s.proc p).pid
  points : ∀ t k, (s.pc t).point = some k → Rightful s.proc held t k

section

variable {address : Nat} {s next : State SleepLock SleepPoint} {event : Event SleepPoint} {old : SleepLock}
  {owed : List Chan} {held : List Slot} {t : Thread} {after : State SleepLock SleepPoint × List Slot}

theorem wakeup1_pid (table : Table) (chan : Chan) (p : Slot) : (wakeup1 table chan p).pid = (table p).pid := by
  unfold wakeup1
  split <;> rfl

theorem killTable_pid (table : Table) (pid : Int32) (p : Slot) : ((killTable table pid).1 p).pid = (table p).pid := by
  rw [killTable_fields]

theorem update_pid (table : Table) (q : Slot) {proc : Proc} (same : proc.pid = (table q).pid) (p : Slot) :
    (Function.update table q proc p).pid = (table p).pid := by
  by_cases here : p = q
  · subst here
    rwa [Function.update_self]
  · rw [Function.update_of_ne here]

theorem Moved.pid (moved : Moved (sleepLockCode address) s event next) (p : Slot) :
    (next.proc p).pid = (s.proc p).pid ∨ ∃ proc, event = .rest p proc ∧ s.pc (.proc p) = .out := by
  cases moved with
  | wake _ chan | wakeupOut chan => exact .inl (wakeup1_pid s.proc chan p)
  | kill pid => exact .inl (killTable_pid s.proc pid p)
  | commit q | resumed q | dispatch q | dispatchOut q | preempt q => exact .inl (update_pid s.proc q (by rfl) p)
  | rest q proc here =>
    by_cases mine : p = q
    · subst mine
      exact .inr ⟨proc, rfl, here⟩
    · exact .inl (by simp [State.setProc, mine])
  | _ => exact .inl rfl

/-- What a step does to the lock and to those who have it. -/
inductive Change (s : State SleepLock SleepPoint) (event : Event SleepPoint) (next : State SleepLock SleepPoint)
    (held held' : List Slot) : Prop where
  | kept (data : next.data = s.data) (same : held' = held)
  | took (p pid) (acts : event = .step (.proc p)) (here : s.pc (.proc p) = .inside (.take pid))
      (data : next.data = { locked := true, pid }) (gains : held' = p :: held)
  | cleared (p) (acts : event = .step (.proc p)) (here : s.pc (.proc p) = .inside .clear)
      (data : next.data = {}) (loses : held' = held.erase p)

theorem Moved.data_of_inside (moved : Moved (sleepLockCode address) s (.step t) next) {k : SleepPoint}
    (here : s.pc t = .inside k) : next.data = ((sleepLockCode address).run k s.data).1 := by
  cases moved.advanced t with
  | kept _ idle => exact absurd here (idle rfl k)
  | started _ acts => cases acts
  | ran _ _ here' _ data =>
    rw [here] at here'
    cases here'
    exact data

theorem Owned.change (owned : Owned s held) (moved : Moved (sleepLockCode address) s event next) :
    Change s event next held (holders s event next held) := by
  by_cases inside : ∃ t k, event = .step t ∧ s.pc t = .inside k
  · obtain ⟨t, k, rfl, here⟩ := inside
    have data := moved.data_of_inside here
    have rightful := owned.points t k (by simp [here, Pc.point])
    cases k with
    | test =>
      obtain ⟨p, rfl, -⟩ := rightful
      refine .kept ?_ (by simp [holders, here])
      rw [data]
      dsimp only [sleepLockCode]
      split <;> rfl
    | take pid =>
      obtain ⟨p, rfl, -⟩ := rightful
      exact .took p pid rfl here data (by simp [holders, here])
    | clear =>
      obtain ⟨p, rfl, -⟩ := rightful
      exact .cleared p rfl here data (by simp [holders, here])
    | done =>
      refine .kept data ?_
      cases t <;> simp [holders, here]
  · refine .kept (moved.data.resolve_right inside) ?_
    cases event with
    | step t =>
      cases t with
      | handler => rfl
      | proc p =>
        cases here : s.pc (.proc p) with
        | inside => exact absurd ⟨_, _, rfl, here⟩ inside
        | _ => simp [holders, here]
    | _ => rfl

theorem eq_of_length_le_one {p q : Slot} (alone : held.length ≤ 1) (first : p ∈ held) (second : q ∈ held) : p = q := by
  rcases held with - | ⟨r, - | ⟨_, _⟩⟩
  · cases first
  · rw [List.mem_singleton.mp first, List.mem_singleton.mp second]
  · simp at alone

theorem Moved.pid_same {p : Slot} (moved : Moved (sleepLockCode address) s event next)
    (own : OwnRelease (s, held) event after) (bound : p ∈ held ∨ s.pc (.proc p) ≠ .out) : (next.proc p).pid = (s.proc p).pid := by
  rcases moved.pid p with same | ⟨proc, rfl, out⟩
  · exact same
  · have mine : p ∈ held := bound.resolve_right fun inside => inside out
    have kept : proc.pid = (s.proc p).pid := own mine
    cases moved
    simpa [State.setProc] using kept

theorem Owned.points_step (owned : Owned s held) (moved : Moved (sleepLockCode address) s event next)
    (own : OwnRelease (s, held) event after) (k : SleepPoint) (reached : (next.pc t).point = some k) : Rightful next.proc
    (holders s event next held) t k := by
  have change := owned.change moved
  cases moved.advanced t with
  | kept point idle =>
    have before := owned.points t k (point ▸ reached)
    cases k with
    | test | take =>
      obtain ⟨p, rfl, mine⟩ := before
      refine ⟨p, rfl, mine.trans (moved.pid_same own (.inr fun out => ?_)).symm⟩
      rw [point, out] at reached
      cases reached
    | clear =>
      obtain ⟨p, rfl, mine⟩ := before
      refine ⟨p, rfl, ?_⟩
      cases change with
      | kept _ same =>
        rw [same]
        exact mine
      | took q _ _ _ _ gains => exact gains ▸ mem_cons_of_mem q mine
      | cleared q acts here =>
        -- the one process with the lock is this one, which does not move
        obtain ⟨q', same, other⟩ := owned.points (.proc q) .clear (by rw [here]; rfl)
        cases same
        have one := eq_of_length_le_one owned.alone mine other
        subst one
        exact absurd here (idle acts _)
    | done => trivial
  | started _ acts _ point =>
    rw [point] at reached
    cases reached
    subst acts
    have entry : (sleepLockCode address).entry k = true := by
      cases moved
      assumption
    cases t with
    | handler => exact own.elim
    | proc p =>
      cases k with
      | test pid =>
        have mine : pid = (s.proc p).pid := own
        refine ⟨p, rfl, mine.trans ?_⟩
        cases moved
        rfl
      | clear => exact ⟨p, rfl, own⟩
      | take | done => cases entry
  | ran k' _ here point =>
    have before := owned.points t k' (by rw [here]; rfl)
    rw [point] at reached
    have running (p : Slot) (mine : t = .proc p) : (next.proc p).pid = (s.proc p).pid :=
      moved.pid_same own (.inr (by rw [← mine, here]; exact nofun))
    cases k' with
    | test pid =>
      obtain ⟨p, rfl, mine⟩ := before
      have next : k = .test pid ∨ k = .take pid := by
        dsimp only [sleepLockCode] at reached
        split at reached
        · exact .inl (by simpa [Move.target] using reached.symm)
        · exact .inr (by simpa [Move.target] using reached.symm)
      rcases next with rfl | rfl
      · exact ⟨p, rfl, mine.trans (running p rfl).symm⟩
      · exact ⟨p, rfl, mine.trans (running p rfl).symm⟩
    | take | clear =>
      cases reached
      trivial
    | done => cases reached

theorem Owned.step (owned : Owned s held)
    (moved : Moved (sleepLockCode address) s event next) (own : OwnRelease (s, held) event after)
    (found : ∀ p pid, event = .step (.proc p) → s.pc (.proc p) = .inside (.take pid) → s.data.locked = false) :
    Owned next (holders s event next held) := by
  have points (t : Thread) (k : SleepPoint) (reached : (next.pc t).point = some k) := owned.points_step moved own k reached
  cases owned.change moved with
  | kept data same =>
    rw [same] at points ⊢
    refine ⟨owned.alone, by rw [data]; exact owned.locked, fun p mine => ?_, points⟩
    rw [data, moved.pid_same own (.inl mine)]
    exact owned.pid p mine
  | took p pid acts here data gains =>
    have free : held = [] := by
      by_contra some
      have locked := owned.locked.mpr some
      rw [found p pid acts here] at locked
      cases locked
    rw [gains, free] at points ⊢
    refine ⟨Nat.le_refl 1, by simp [data], fun q mine => ?_, points⟩
    rw [List.mem_singleton.mp mine, data, moved.pid_same own (.inr (by rw [here]; exact nofun))]
    obtain ⟨p', same, pid⟩ := owned.points (.proc p) (.take pid) (by rw [here]; rfl)
    cases same
    exact pid
  | cleared p _ here data loses =>
    obtain ⟨p', same, mine⟩ := owned.points (.proc p) .clear (by rw [here]; rfl)
    cases same
    have none : held.erase p = [] := by
      rcases held with - | ⟨q, - | ⟨_, _⟩⟩
      · rfl
      · simp [List.mem_singleton.mp mine]
      · exact absurd owned.alone (by simp)
    rw [loses, none] at points ⊢
    exact ⟨Nat.zero_le 1, by simp [data], nofun, points⟩

end

end Xv6.Sync
