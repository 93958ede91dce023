import Xv6.Kernel.Census

namespace Xv6.Kernel

open Process Data Option Machine
open Function (update_self update_of_ne)

/-! The protocol of exit and wait. exit wakes its parent before it becomes a
zombie and passes its children to initproc, all under one hold of the lock. -/

/-- A process that sleeps in a reaper sleeps on itself and has no zombie to collect. -/
def Watchful (table : Table) (task : Slot → Task) : Prop :=
  ∀ p kind, task p = .waiting kind → (table p).state = .sleeping →
    (table p).chan = some (.proc p) ∧ ∀ q, kind.child p (table q) = true → (table q).state ≠ .zombie

namespace Watchful

variable {s next : Procs} {table : Table} {task after : Slot → Task} {h : Census}

theorem calm (watchful : Watchful s.proc s.task) (calm : Calm s next) : Watchful next.proc next.task := by
  intro p kind waiting asleep
  have known (q : Slot) : kind.child p (next.proc q) = kind.child p (s.proc q) := (calm.fields q).child kind p
  cases calm.asleep p kind waiting asleep with
  | inl before =>
    obtain ⟨task, slept, chan⟩ := before
    obtain ⟨self, none⟩ := watchful p kind task slept
    exact ⟨chan.trans self, fun q child dead => none q (known q ▸ child) ((calm.zombie q).mp dead)⟩
  | inr looked =>
    exact ⟨looked.1, fun q child dead => looked.2 q (known q ▸ child) ((calm.zombie q).mp dead)⟩

theorem update (watchful : Watchful table task) {np : Slot} {new : Proc} (awake : new.state ≠ .sleeping)
    (young : new.state ≠ .zombie) (waits : ∀ p kind, after p = .waiting kind → task p = .waiting kind) :
    Watchful (Function.update table np new) after := by
  intro p kind waiting asleep
  have other : p ≠ np := by
    rintro rfl
    exact awake (by rwa [update_self] at asleep)
  rw [update_of_ne other] at asleep ⊢
  obtain ⟨self, none⟩ := watchful p kind (waits p kind waiting) asleep
  refine ⟨self, fun q child => ?_⟩
  by_cases same : q = np
  · rw [same, update_self]
    exact young
  · rw [update_of_ne same] at child ⊢
    exact none q child

theorem waits_update {p : Slot} {new : Task} (other : ∀ kind, new ≠ .waiting kind) (q : Slot) (kind : Reaper)
    (waiting : Function.update task p new q = .waiting kind) : task q = .waiting kind := by
  have caller : q ≠ p := by
    rintro rfl
    exact other kind (by rwa [update_self] at waiting)
  rwa [update_of_ne caller] at waiting

/-- Whoever exit makes a zombie or hands over as one, the parent is not left asleep. -/
theorem exit (watchful : Watchful s.proc s.task) (kin : Kinship s h) {p : Slot}
    (running : (s.proc p).state = .running) (mortal : p ≠ s.initproc) : Watchful (exitTable s.proc s.initproc p) s.task := by
  intro r kind waiting asleep
  obtain ⟨slept, woken, given⟩ := exitTable_asleep asleep
  have other : r ≠ p := by
    rintro rfl
    exact absurd (asleep.symm.trans (exitTable_self s.proc s.initproc r).1) (by simp)
  obtain ⟨self, none⟩ := watchful r kind waiting slept
  have chan : (exitTable s.proc s.initproc p r).chan = (s.proc r).chan := by
    rw [(exitTable_other s.proc s.initproc other).fields]
  refine ⟨chan.trans self, fun q child dead => ?_⟩
  simp only [Reaper.child, Bool.and_eq_true, beq_iff_eq] at child
  obtain ⟨parent, thread⟩ := child
  rw [exitTable_parent] at parent
  by_cases same : q = p
  · -- `p` is not its own parent, so its parent was woken by name.
    subst same
    obtain ⟨c, mine, guards⟩ := kin.parent q (by simp [Born, running]) mortal
    have apart : (s.proc q).parent ≠ some q := by simpa [mine] using guards.other
    rw [if_neg apart] at parent
    exact woken self parent
  · have stirred := exitTable_other s.proc s.initproc same
    have before : (s.proc q).state = .zombie := by
      cases stirred.state with
      | inl kept => exact kept.symm.trans dead
      | inr moved => exact absurd (dead.symm.trans moved.2) (by simp)
    by_cases passed : (s.proc q).parent = some p
    · rw [if_pos passed, some.injEq] at parent
      exact given (parent ▸ self) q passed before
    · rw [if_neg passed] at parent
      have still : (s.proc q).isthread = (exitTable s.proc s.initproc p q).isthread := by rw [stirred.fields]
      refine none q ?_ before
      simp only [Reaper.child, parent, still, thread, beq_self_eq_true, Bool.and_self]

theorem step {op : Option LifeOp} (watchful : Watchful s.proc s.task) (kin : Kinship s h) (step : LifeStep s op next) :
    Watchful next.proc next.task := by
  cases step with
  | calm _ calm => exact watchful.calm calm
  | allocate | publish =>
    exact watchful.update (by simp) (by simp) (waits_update (by simp))
  | abandon _ _ _ _ _ unused =>
    exact watchful.update (by simp [unused]) (by simp [unused]) (waits_update (by simp))
  | fork _ _ _ _ _ embryo =>
    exact watchful.update (by simp [forkProc, embryo]) (by simp [forkProc, embryo]) (waits_update (by simp))
  | clone _ _ _ _ _ embryo =>
    exact watchful.update (by simp [cloneProc, embryo]) (by simp [cloneProc, embryo]) (waits_update (by simp))
  | exit _ running _ mortal => exact watchful.exit kin running mortal
  | reap =>
    exact watchful.update (by simp [clear_state]) (by simp [clear_state]) (waits_update (by simp))
  | fail =>
    exact fun q other waiting asleep => watchful q other (waits_update (by simp) q other waiting) asleep
  | statistics =>
    intro p kind waiting asleep
    have fields (q : Slot) : kind.child p (updateStatistics s.proc q) = kind.child p (s.proc q) := by
      rw [updateStatistics_fields]
      rfl
    have chan : (updateStatistics s.proc p).chan = (s.proc p).chan := by rw [updateStatistics_fields]
    obtain ⟨self, none⟩ := watchful p kind waiting ((updateStatistics_state s.proc p).symm.trans asleep)
    refine ⟨chan.trans self, fun q child dead => none q ?_ ?_⟩
    · rw [← fields]
      exact child
    · exact (updateStatistics_state s.proc q).symm.trans dead

end Watchful

section

variable {Cpu : Type} [DecidableEq Cpu] {m next : Machine Cpu} {event : Event Cpu} {c : Cpu} {p : Slot}
    {kind : Reaper} {op : LifeOp}

theorem ReapMove.result (move : ReapMove m c p kind next) (life : scanLife kind p (kind.scan m.proc p) = some op) :
    (∃ z, op = .reap kind p z ∧ next.result p = some (m.proc z).pid) ∨
      op = .fail kind p ∧ next.result p = some (-1) := by
  cases move with
  | reaped z scan =>
    rw [scan] at life
    cases life
    exact .inl ⟨z, rfl, update_self ..⟩
  | failed scan =>
    rw [scan] at life
    cases life
    exact .inr ⟨rfl, update_self ..⟩
  | blocked scan =>
    rw [scan] at life
    cases life

/-- The operations that end a call of a reaper. -/
def LifeOp.Returns : LifeOp → Prop
  | .reap _ _ _ | .fail _ _ => True
  | _ => False

omit [DecidableEq Cpu] in
theorem actLife_wait {action : Action} (life : m.actLife p action = some op) (returns : op.Returns) :
    ∃ kind, action = .wait kind := by
  have made {kind : Creation} (allocated : m.allocLife p kind = some op) : False := by
    obtain ⟨_, _, rfl⟩ := Option.map_eq_some_iff.mp allocated
    exact returns
  have child {make : Slot → LifeOp} (silent : ∀ np, ¬ (make np).Returns)
      (set : (m.task p).child.map make = some op) : False := by
    obtain ⟨np, _, rfl⟩ := Option.map_eq_some_iff.mp set
    exact silent np returns
  cases action with
  | wait kind => exact ⟨kind, rfl⟩
  | fork | clone => exact (made life).elim
  | copyuvm dir =>
    cases dir with
    | none => cases life
    | some => exact (child (fun _ => id) life).elim
  | shareuvm | ready => exact (child (fun _ => id) life).elim
  | exit =>
    cases life
    exact returns.elim
  | yield | sleep | kill | kstack | execAlloc | execBad | execCommit | setscheduler => cases life

section

variable (stepped : m.step event = some next)
include stepped

theorem returns_result (life : m.lifeOp event = some op) (returns : op.Returns) :
    (∃ kind p z, op = .reap kind p z ∧ next.result p = some (m.proc z).pid) ∨
      ∃ kind p, op = .fail kind p ∧ next.result p = some (-1) := by
  cases step_move stepped with
  | act c p _ _ here act =>
    have on : m.running c = some p := by simp [Machine.running, here]
    simp only [lifeOp, on, bind_some] at life
    obtain ⟨kind, rfl⟩ := actLife_wait life returns
    cases act with
    | wait _ _ _ _ reap =>
      cases reap.result life with
      | inl reaped => exact .inl ⟨kind, p, reaped⟩
      | inr failed => exact .inr ⟨kind, p, failed⟩
    | full _ _ _ creates | create _ _ _ _ _ _ creates => simp at creates
  | rescan _ p kind _ here context task reap =>
    simp only [lifeOp, here, context, task] at life
    cases reap.result life with
    | inl reaped =>
      obtain ⟨z, same, result⟩ := reaped
      have pid : ((m.setProc p fun proc => { proc with chan := none }).proc z).pid = (m.proc z).pid :=
        field_keep (·.pid) (by rfl) z
      exact .inl ⟨kind, p, z, same, pid ▸ result⟩
    | inr failed => exact .inr ⟨kind, p, failed⟩
  | resume _ _ here context =>
    simp only [lifeOp, here] at life
    split at life
    · rename_i asleep waiting
      exact absurd asleep context
    · cases life
  | awake _ _ here _ task =>
    simp only [lifeOp, here] at life
    split at life
    · rename_i kind asleep waiting
      exact absurd waiting (task kind)
    · cases life
  | updateStatistics =>
    cases life
    exact returns.elim
  | _ => cases life

theorem reap_result {p z : Slot} (life : m.lifeOp event = some (.reap kind p z)) : next.result p = some (m.proc z).pid := by
  obtain ⟨_, _, _, same, result⟩ | ⟨_, _, same, _⟩ := returns_result stepped life trivial
  · cases same
    exact result
  · cases same

end

end

variable {Cpu : Type} [DecidableEq Cpu]

section

variable {before after : Machine Cpu × Census} {event : Event Cpu}

theorem Enrolled.watchful (enrolled : Enrolled before) (watchful : Watchful before.1.proc before.1.task)
    (stepped : withHistory Machine.step census before event = some after) : Watchful after.1.proc after.1.task := by
  obtain ⟨middle, calm, _, step, _, kin, _⟩ := enrolled.life stepped
  have seen : Watchful middle.proc middle.task := Watchful.calm (s := before.1.procs) watchful calm
  exact seen.step kin step

end

end Xv6.Kernel
