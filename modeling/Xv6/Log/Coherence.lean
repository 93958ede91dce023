import Xv6.Log.GroupCommit
import Xv6.Data.Run
import Xv6.Data.Count

namespace Xv6.Log

open Data Function Int

/-! The counters of `struct log` against what the processes are doing. -/

def LogPc.active : LogPc → Bool
  | .inOp _ | .appending _ _ => true
  | _ => false

def LogPc.committer : LogPc → Bool
  | .writing _ | .installing | .closing => true
  | _ => false

variable {P : Type} {s next : LogState P} {p : P} {old new : LogPc}

@[simp] theorem wakeup_committing : s.wakeup.committing = s.committing := rfl
@[simp] theorem wakeup_block : s.wakeup.block = s.block := rfl
@[simp] theorem wakeup_panic : s.wakeup.panic = s.panic := rfl
@[simp] theorem wakeup_written : s.wakeup.written = s.written := rfl

theorem wakeup_pc (s : LogState P) (q : P) : s.wakeup.pc q = s.pc q ∨ s.pc q = .sleeping ∧ s.wakeup.pc q = .beginning := by
  by_cases asleep : s.pc q = .sleeping
  · exact .inr ⟨asleep, if_pos asleep⟩
  · exact .inl (if_neg asleep)

theorem wakeup_pc_of_ne (awake : s.pc p ≠ .sleeping) : s.wakeup.pc p = s.pc p := if_neg awake

theorem closing_of_wakeup {q : P} (there : s.wakeup.pc q = .closing) : s.pc q = .closing := by
  cases wakeup_pc s q with
  | inl kept => rwa [kept] at there
  | inr moved =>
    rw [moved.2] at there
    contradiction

section

variable [DecidableEq P]

@[simp] theorem goto_pc : (s.goto p new).pc = Function.update s.pc p new := rfl
@[simp] theorem goto_outstanding : (s.goto p new).outstanding = s.outstanding := rfl
@[simp] theorem goto_committing : (s.goto p new).committing = s.committing := rfl
@[simp] theorem goto_block : (s.goto p new).block = s.block := rfl
@[simp] theorem goto_panic : (s.goto p new).panic = s.panic := rfl
@[simp] theorem goto_written : (s.goto p new).written = s.written := rfl

theorem closing_of_goto {q : P} (there : (s.goto p new).pc q = .closing) (other : new ≠ .closing) : s.pc q = .closing := by
  by_cases same : q = p
  · subst same
    rw [goto_pc, update_self] at there
    contradiction
  · rwa [goto_pc, update_of_ne same] at there

end

variable [Fintype P]

theorem total_wakeup (weight : LogPc → Nat) (same : weight .sleeping = weight .beginning) :
    total weight s.wakeup.pc = total weight s.pc := by
  refine Finset.sum_congr rfl fun q _ => ?_
  cases wakeup_pc s q with
  | inl kept => rw [kept]
  | inr moved => rw [moved.1, moved.2, same]

/-- Operations between begin_op and end_op. -/
def LogState.ops (s : LogState P) : Nat := tally (fun pc => pc.active = true) s.pc

def LogState.committers (s : LogState P) : Nat := tally (fun pc => pc.committer = true) s.pc

@[simp] theorem ops_wakeup : s.wakeup.ops = s.ops :=
  total_wakeup (fun pc => if pc.active = true then 1 else 0) rfl

@[simp] theorem committers_wakeup : s.wakeup.committers = s.committers :=
  total_wakeup (fun pc => if pc.committer = true then 1 else 0) rfl

theorem ops_pos (active : (s.pc p).active = true) : 0 < s.ops :=
  @tally_pos_of_kind _ _ _ (fun pc : LogPc => pc.active = true) _ s.pc p active

structure Coherent (s : LogState P) : Prop where
  outstanding : s.outstanding = s.ops
  committing : s.committing = true → s.ops = 0
  committers : s.committers = if s.committing then 1 else 0
  empty : s.ops = 0 → s.committing = false → s.block = []
  closing : ∀ q, s.pc q = .closing → s.block = []

theorem Coherent.initial : Coherent ({} : LogState P) where
  outstanding := by
    have none : ({} : LogState P).ops = 0 := tally_eq_zero fun _ => by simp [LogPc.active]
    rw [none]
    rfl
  committing := by simp
  committers := tally_eq_zero fun _ => by simp [LogPc.committer]
  empty := by simp
  closing := by simp

theorem Coherent.idle_of_active (coherent : Coherent s) (active : (s.pc p).active = true) : s.committing = false := by
  have busy := ops_pos active
  cases flag : s.committing with
  | false => rfl
  | true =>
    have := coherent.committing flag
    omega

theorem Coherent.not_closing (coherent : Coherent s) (active : (s.pc p).active = true) (q : P) : (s.pc q).committer = false := by
  have none := coherent.committers
  rw [coherent.idle_of_active active, if_neg (by simp)] at none
  simpa using not_kind_of_tally_zero none q

theorem Coherent.busy_of_committer (coherent : Coherent s) (here : (s.pc p).committer = true) : s.committing = true := by
  have some_ : 0 < s.committers := tally_pos_of_kind (i := p) here
  rw [coherent.committers] at some_
  by_contra idle
  simp [idle] at some_

variable [DecidableEq P] {logged : List UInt32}

theorem total_goto (weight : LogPc → Nat) (new : LogPc) (here : s.pc p = old) :
    total weight (s.goto p new).pc + weight old = total weight s.pc + weight new := by
  rw [← here]
  exact total_update weight s.pc p new

theorem ops_goto (new : LogPc) (here : s.pc p = old) :
    (s.goto p new).ops + (if old.active then 1 else 0) = s.ops + (if new.active then 1 else 0) :=
  total_goto (fun pc => if pc.active = true then 1 else 0) new here

theorem committers_goto (new : LogPc) (here : s.pc p = old) : (s.goto p new).committers + (if old.committer then 1 else 0) =
      s.committers + (if new.committer then 1 else 0) :=
  total_goto (fun pc => if pc.committer = true then 1 else 0) new here

variable (coherent : Coherent s)
include coherent

theorem Coherent.goto (new : LogPc) (here : s.pc p = old) (active : new.active = old.active)
    (committer : new.committer = old.committer) (other : new ≠ .closing) : Coherent (s.goto p new) := by
  have ops : (s.goto p new).ops = s.ops := by
    have := ops_goto new here
    rw [active] at this
    omega
  have committers : (s.goto p new).committers = s.committers := by
    have := committers_goto new here
    rw [committer] at this
    omega
  constructor
  · rw [ops]
    exact coherent.outstanding
  · rw [ops]
    exact coherent.committing
  · rw [committers]
    exact coherent.committers
  · rw [ops]
    exact coherent.empty
  · exact fun q there => coherent.closing q (closing_of_goto there other)

theorem Coherent.enter (here : s.pc p = .beginning) (idle : s.committing = false) :
    Coherent ({ s with outstanding := s.outstanding + 1 }.goto p (.inOp [])) := by
  have ops : (s.goto p (.inOp [])).ops = s.ops + 1 := ops_goto (.inOp []) here
  have committers : (s.goto p (.inOp [])).committers = s.committers := committers_goto (.inOp []) here
  constructor
  · change s.outstanding + 1 = ((s.goto p (.inOp [])).ops : Int)
    rw [ops, coherent.outstanding]
    rfl
  · intro busy
    exact absurd (idle.symm.trans busy) (by simp)
  · exact committers.trans coherent.committers
  · intro none
    have : s.ops + 1 = 0 := ops.symm.trans none
    omega
  · exact fun q there => coherent.closing q (closing_of_goto (s := s) there (by simp))

theorem Coherent.append {blockno : UInt32} (here : s.pc p = .appending logged blockno) : Coherent
    ({ s with block := s.block ++ [blockno] }.goto p (.inOp logged)) := by
  have active : (s.pc p).active = true := by rw [here]; rfl
  have moved := coherent.goto (.inOp logged) here rfl rfl (by simp)
  constructor
  · exact moved.outstanding
  · exact moved.committing
  · exact moved.committers
  · intro none
    have busy := ops_pos active
    have kept : (s.goto p (.inOp logged)).ops = s.ops := by
      have := ops_goto (.inOp logged) here
      simpa [LogPc.active] using this
    have : s.ops = 0 := kept.symm.trans none
    omega
  · intro q there
    have still := coherent.not_closing active q
    rw [closing_of_goto (s := s) there (by simp)] at still
    contradiction

theorem Coherent.last (here : s.pc p = .inOp logged) (idle : s.committing = false) (alone : s.outstanding = 1) :
    Coherent ({ s with outstanding := 0, committing := true }.goto p (.writing 0)) := by
  have one : s.ops = 1 := by
    have := coherent.outstanding
    omega
  have ops : (s.goto p (.writing 0)).ops = 0 := by
    have : (s.goto p (.writing 0)).ops + 1 = s.ops := ops_goto (.writing 0) here
    omega
  have committers : (s.goto p (.writing 0)).committers = 1 := by
    have moved : (s.goto p (.writing 0)).committers = s.committers + 1 := committers_goto (.writing 0) here
    have none := coherent.committers
    rw [idle] at none
    rw [moved, none]
    rfl
  constructor
  · exact (congrArg ofNat ops).symm
  · exact fun _ => ops
  · exact committers
  · exact fun _ idle => absurd idle (by simp)
  · exact fun q there => coherent.closing q (closing_of_goto (s := s) there (by simp))

theorem Coherent.leave (here : s.pc p = .inOp logged) (idle : s.committing = false) (others : s.outstanding ≠ 1) :
    Coherent ({ s with outstanding := s.outstanding - 1 }.wakeup.goto p .idle) := by
  have awake : s.wakeup.pc p = .inOp logged := by
    rw [wakeup_pc_of_ne (by simp [here]), here]
  have ops : (s.wakeup.goto p .idle).ops + 1 = s.ops := by
    have := ops_goto .idle awake
    simpa [LogPc.active] using this
  have committers : (s.wakeup.goto p .idle).committers = s.committers := by
    have := committers_goto .idle awake
    simpa [LogPc.committer] using this
  have counted := coherent.outstanding
  constructor
  · change s.outstanding - 1 = ((s.wakeup.goto p .idle).ops : Int)
    omega
  · intro busy
    exact absurd (idle.symm.trans busy) (by simp)
  · exact committers.trans coherent.committers
  · intro none
    have : (s.wakeup.goto p .idle).ops = 0 := none
    omega
  · exact fun q there => coherent.closing q (closing_of_wakeup (closing_of_goto (s := s.wakeup) there (by simp)))

theorem Coherent.install (here : s.pc p = .installing) :
    Coherent ({ s with block := [] }.goto p .closing) := by
  have ops : (s.goto p .closing).ops = s.ops := ops_goto .closing here
  have committers : (s.goto p .closing).committers = s.committers := by
    have := committers_goto .closing here
    simpa [LogPc.committer] using this
  constructor
  · exact coherent.outstanding.trans (congrArg ofNat ops).symm
  · exact fun busy => ops.trans (coherent.committing busy)
  · exact committers.trans coherent.committers
  · exact fun _ _ => rfl
  · exact fun _ _ => rfl

theorem Coherent.close (here : s.pc p = .closing) :
    Coherent ({ s with committing := false }.wakeup.goto p .idle) := by
  have busy : s.committing = true := coherent.busy_of_committer (by rw [here]; rfl)
  have awake : s.wakeup.pc p = .closing := by
    rw [wakeup_pc_of_ne (by simp [here]), here]
  have ops : (s.wakeup.goto p .idle).ops = s.ops := by
    have := ops_goto .idle awake
    simpa [LogPc.active] using this
  have committers : (s.wakeup.goto p .idle).committers = 0 := by
    have moved := committers_goto .idle awake
    have one := coherent.committers
    rw [busy, if_pos rfl] at one
    simp only [LogPc.committer, committers_wakeup, one] at moved
    simpa using moved
  constructor
  · exact coherent.outstanding.trans (congrArg ofNat ops).symm
  · exact fun still => absurd still (by simp)
  · exact committers
  · exact fun _ _ => coherent.closing p here
  · exact fun q there => coherent.closing q (closing_of_wakeup (closing_of_goto (s := s.wakeup) there (by simp)))

theorem Coherent.step {log : Region} {event : LogEvent P} (stepped : logStep log s event = some next) : Coherent next := by
  obtain ⟨-, move⟩ := logStep_move stepped
  cases move with
  | call _ here | wake _ here => exact coherent.goto .beginning here rfl rfl (by simp)
  | sleep _ here => exact coherent.goto .sleeping here rfl rfl (by simp)
  | enter _ here idle => exact coherent.enter here idle
  | test _ _ _ here | absorb _ _ _ here => exact coherent.goto _ here rfl rfl (by simp)
  | tooBig =>
    exact ⟨coherent.outstanding, coherent.committing, coherent.committers, coherent.empty, coherent.closing⟩
  | outside p _ _ here =>
    have := ops_pos (s := s) (p := p) (by rw [here]; rfl)
    have := coherent.outstanding
    omega
  | append _ _ _ here => exact coherent.append here
  | committing p _ here busy =>
    have idle := coherent.idle_of_active (p := p) (by rw [here]; rfl)
    exact absurd (idle.symm.trans busy) (by simp)
  | last _ _ here idle alone => exact coherent.last here idle alone
  | leave _ _ here idle others => exact coherent.leave here idle others
  | write _ tail here =>
    have moved := coherent.goto (.writing (tail + 1)) here rfl rfl (by simp)
    exact ⟨moved.outstanding, moved.committing, moved.committers, moved.empty, moved.closing⟩
  | written _ _ here => exact coherent.goto .installing here rfl rfl (by simp)
  | install _ here => exact coherent.install here
  | close _ here => exact coherent.close here

end Xv6.Log
