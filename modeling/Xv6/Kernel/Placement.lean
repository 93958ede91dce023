import Xv6.Kernel.Machine
import Xv6.Data.Owners

namespace Xv6.Kernel

open Process Option
open Function (update update_self update_of_ne)

/-! Which CPU runs which process. The lock is handed from the scheduler to the
process it resumes and back, so the relation between `c->proc` and `p->state`
has to be stated for the moments in between too. -/

/-- The edges of the process life cycle. -/
inductive StateMove : ProcState → ProcState → Prop where
  | stay (state : ProcState) : StateMove state state
  | allocate : StateMove .unused .embryo
  | publish : StateMove .embryo .runnable
  | abandon : StateMove .embryo .unused
  | dispatch : StateMove .runnable .running
  | yield : StateMove .running .runnable
  | sleep : StateMove .running .sleeping
  | exit : StateMove .running .zombie
  | wake : StateMove .sleeping .runnable
  | reap : StateMove .zombie .unused

variable {Cpu : Type}

/-- `c->proc` against `p->state`, at any moment. -/
structure Placed (lock : Option Cpu) (cpus : Cpu → CpuState) (state : Slot → ProcState) : Prop where
  owner : ∀ c, lock = some c ↔ (cpus c).mode = .resuming ∨ (cpus c).mode = .switched
  idle : ∀ c, (cpus c).mode = .scheduler → (cpus c).proc = none
  running : ∀ c p, (cpus c).proc = some p → (cpus c).mode ≠ .switched → state p = .running
  left : ∀ c p, (cpus c).proc = some p → (cpus c).mode = .switched → state p ≠ .running
  single : ∀ c d p, (cpus c).proc = some p → (cpus d).proc = some p → c = d
  placed : ∀ p, state p = .running → ∃ c, (cpus c).proc = some p

namespace Placed

variable {lock : Option Cpu} {cpus : Cpu → CpuState} {state after : Slot → ProcState} {c : Cpu} {p : Slot}

theorem quiet (placed : Placed lock cpus state) (same : ∀ q, after q = .running ↔ state q = .running) :
    Placed lock cpus after where
  owner := placed.owner
  idle := placed.idle
  running := fun d q on mode => (same q).mpr (placed.running d q on mode)
  left := fun d q on mode => fun again => placed.left d q on mode ((same q).mp again)
  single := placed.single
  placed := fun q running => placed.placed q ((same q).mp running)

/-- While `c` has the lock, or nobody has it, no other CPU is in a switch. -/
theorem alone (placed : Placed lock cpus state) (mine : lock = none ∨ lock = some c) {d : Cpu} (other : d ≠ c) :
    (cpus d).mode ≠ .resuming ∧ (cpus d).mode ≠ .switched := by
  have free : ¬ lock = some d := by
    cases mine with
    | inl none => simp [none]
    | inr own => simpa [own] using Ne.symm other
  have := mt (placed.owner d).mpr free
  exact not_or.mp this

variable [DecidableEq Cpu]

/-- CPU `c` changes, while no other CPU is in a switch. -/
theorem change (placed : Placed lock cpus state) (mine : lock = none ∨ lock = some c) (new : CpuState)
    (idle : new.mode = .scheduler → new.proc = none)
    (own : ∀ q, new.proc = some q →
      (after q = .running ↔ new.mode ≠ .switched) ∧ ∀ d, d ≠ c → (cpus d).proc ≠ some q)
    (kept : ∀ d q, d ≠ c → (cpus d).proc = some q → state q = .running → after q = .running)
    (found : ∀ q, after q = .running → new.proc = some q ∨ ∃ d, d ≠ c ∧ (cpus d).proc = some q) :
    Placed (if new.mode = .resuming ∨ new.mode = .switched then some c else none) (update cpus c new) after where
  owner := by
    intro d
    by_cases same : d = c
    · subst same
      simp [or_iff_not_imp_left]
    · have := placed.alone mine same
      simp [update_of_ne same, this, Ne.symm same]
  idle := by
    intro d mode
    by_cases same : d = c
    · subst same
      rw [update_self] at mode ⊢
      exact idle mode
    · rw [update_of_ne same] at mode ⊢
      exact placed.idle d mode
  running := by
    intro d q there mode
    by_cases same : d = c
    · subst same
      rw [update_self] at there mode
      exact (own q there).1.mpr mode
    · rw [update_of_ne same] at there mode
      exact kept d q same there (placed.running d q there mode)
  left := by
    intro d q there mode
    by_cases same : d = c
    · subst same
      rw [update_self] at there mode
      exact fun again => (own q there).1.mp again mode
    · rw [update_of_ne same] at mode
      exact absurd mode (placed.alone mine same).2
  single := fun d e q => Data.single_update (fun cpu : CpuState => cpu.proc = some q)
    (fun d e => placed.single d e q) (fun there => (own q there).2) d e
  placed := by
    intro q running
    rcases found q running with there | ⟨d, other, there⟩
    · exact ⟨c, by rw [update_self]; exact there⟩
    · exact ⟨d, by rw [update_of_ne other]; exact there⟩

theorem switch (placed : Placed lock cpus state) (on : (cpus c).proc = some p) (mine : lock = none ∨ lock = some c)
    (others : ∀ q, q ≠ p → (after q = .running ↔ state q = .running)) (stopped : after p ≠ .running) : Placed (some c)
    (update cpus c { cpus c with mode := .switched }) after := by
  have elsewhere (d : Cpu) (other : d ≠ c) : (cpus d).proc ≠ some p := fun there => other (placed.single d c p there on)
  refine placed.change mine { cpus c with mode := .switched } (by simp) (fun q there => ?_) (fun d q other there => ?_)
    fun q running => ?_
  · obtain rfl : p = q := some.inj (on.symm.trans there)
    exact ⟨iff_of_false stopped (by simp), elsewhere⟩
  · exact (others q fun equal => elsewhere d other (equal ▸ there)).mpr
  · have different : q ≠ p := fun equal => stopped (equal ▸ running)
    obtain ⟨d, there⟩ := placed.placed q ((others q different).mp running)
    refine .inr ⟨d, fun own => different ?_, there⟩
    exact some.inj (there.symm.trans (own ▸ on))

theorem release (placed : Placed lock cpus state) (mode : (cpus c).mode = .process ∨ (cpus c).mode = .resuming)
    (mine : lock = none ∨ lock = some c) (same : ∀ q, after q = .running ↔ state q = .running) :
    Placed none (update cpus c { cpus c with mode := .process }) after := by
  refine placed.change mine { cpus c with mode := .process } (by simp) (fun q there => ?_)
    (fun _ q _ _ => (same q).mpr) fun q running => ?_
  · have on : (cpus c).mode ≠ .switched := by
      rcases mode with mode | mode <;> simp [mode]
    exact ⟨iff_of_true ((same q).mpr (placed.running c q there on)) (by simp),
      fun d other again => other (placed.single d c q again there)⟩
  · obtain ⟨d, there⟩ := placed.placed q ((same q).mp running)
    by_cases own : d = c
    · exact .inl (own ▸ there)
    · exact .inr ⟨d, own, there⟩

theorem dispatch (placed : Placed none cpus state) (mode : (cpus c).mode = .scheduler)
    (ready : state p = .runnable) (others : ∀ q, q ≠ p → after q = state q) (started : after p = .running) :
    Placed (some c) (update cpus c ⟨some p, .resuming⟩) after := by
  -- A RUNNABLE slot can only be on a CPU that is switching, and the lock is free.
  have elsewhere (d : Cpu) : (cpus d).proc ≠ some p := by
    intro there
    by_cases gone : (cpus d).mode = .switched
    · have held := (placed.owner d).mpr (.inr gone)
      contradiction
    · exact absurd (ready.symm.trans (placed.running d p there gone)) (by simp)
  refine placed.change (.inl rfl) ⟨some p, .resuming⟩ (by simp) (fun q there => ?_) (fun d q _ there => ?_)
    fun q running => ?_
  · obtain rfl := some.inj there
    exact ⟨iff_of_true started (by simp), fun d _ => elsewhere d⟩
  · rw [others q fun equal => elsewhere d (equal ▸ there)]
    exact id
  · by_cases same : q = p
    · exact .inl (by rw [same])
    · rw [others q same] at running
      obtain ⟨d, there⟩ := placed.placed q running
      refine .inr ⟨d, ?_, there⟩
      rintro rfl
      rw [placed.idle d mode] at there
      contradiction

theorem retire (placed : Placed lock cpus state) (mode : (cpus c).mode = .switched) :
    Placed none (update cpus c ⟨none, .scheduler⟩) state := by
  refine placed.change (.inr ((placed.owner c).mpr (.inr mode))) ⟨none, .scheduler⟩ (fun _ => rfl) (by simp)
    (fun _ _ _ _ => id) fun q running => ?_
  obtain ⟨d, there⟩ := placed.placed q running
  refine .inr ⟨d, ?_, there⟩
  rintro rfl
  exact placed.left d q there mode running

end Placed

/-- The slot a fork or clone in progress is setting up. -/
def Task.child : Task → Option Slot
  | .allocated _ np | .stacked _ np | .filled np => some np
  | _ => none

def Live (state : ProcState) : Prop := state = .running ∨ state = .runnable ∨ state = .sleeping

/-- Calls in progress against `p->state`: only live processes are inside a call,
and nobody else touches the slot a fork or clone is setting up. -/
structure Tasked (task : Slot → Task) (state : Slot → ProcState) : Prop where
  embryo : ∀ p np, (task p).child = some np → state np = .embryo
  single : ∀ p q np, (task p).child = some np → (task q).child = some np → p = q
  busy : ∀ p, task p ≠ .user → Live (state p)

namespace Tasked

variable {task : Slot → Task} {state after : Slot → ProcState} {p : Slot}

variable (tasked : Tasked task state)
include tasked

theorem quiet (kept : ∀ q, state q = .embryo → after q = .embryo)
    (live : ∀ q, task q ≠ .user → Live (state q) → Live (after q)) : Tasked task after where
  embryo := fun q np child => kept np (tasked.embryo q np child)
  single := tasked.single
  busy := fun q busy => live q busy (tasked.busy q busy)

theorem update (new : Task) (kept : ∀ q np, q ≠ p → (task q).child = some np → after np = .embryo)
    (own : ∀ np, new.child = some np → after np = .embryo ∧ ∀ q, q ≠ p → (task q).child ≠ some np)
    (live : ∀ q, q ≠ p → Live (state q) → task q ≠ .user → Live (after q)) (mine : new ≠ .user → Live (after p)) :
    Tasked (Function.update task p new) after := by
  constructor
  · intro q np child
    by_cases same : q = p
    · subst same
      rw [update_self] at child
      exact (own np child).1
    · rw [update_of_ne same] at child
      exact kept q np same child
  · exact fun q r np => Data.single_update (fun task : Task => task.child = some np)
      (fun q r => tasked.single q r np) (fun child => (own np child).2) q r
  · intro q busy
    by_cases same : q = p
    · subst same
      rw [update_self] at busy
      exact mine busy
    · rw [update_of_ne same] at busy
      exact live q same (tasked.busy q busy) busy

theorem finish (kept : ∀ q, state q = .embryo → (task p).child = some q ∨ after q = .embryo)
    (live : ∀ q, q ≠ p → Live (state q) → Live (after q)) : Tasked (Function.update task p .user) after := by
  refine tasked.update .user (fun q np other child => ?_) (fun _ child => ?_) (fun q other up _ => live q other up)
    fun busy => absurd rfl busy
  · cases kept np (tasked.embryo q np child) with
    | inl mine => exact absurd (tasked.single q p np child mine) other
    | inr same => exact same
  · contradiction

theorem advance (new : Task) (same : new.child = (task p).child) (busy : Live (state p)) : Tasked
    (Function.update task p new) state := by
  refine tasked.update new (fun q np _ child => tasked.embryo q np child) (fun np child => ?_) (fun _ _ up _ => up) fun _ => busy
  rw [same] at child
  exact ⟨tasked.embryo p np child, fun q other again => other (tasked.single q p np again child)⟩

end Tasked

end Xv6.Kernel
