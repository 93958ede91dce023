import Xv6.Interrupt.Thread

namespace Xv6.Interrupt

open Data List State
open Function (update update_self update_of_ne update_eq_self update_idem)
open Process (ProcState)
open Interrupt.Frame (depth)

/-! Interrupts stay off while a thread has calls of pushcli to undo, and come back
as they were. The counts are kept for each CPU, and a thread may go on at another
one; what carries them over is that both threads of a switch have one call to undo. -/

variable {C P : Type} [DecidableEq C] [DecidableEq P]

/-- How many calls of pushcli the thread on `c` has to undo. -/
def State.nesting (s : State C P) (c : C) : Nat := ((s.stack c).map depth).sum

structure FlagSafe (before : State C P) (event : Event C P) (after : State C P) : Prop where
  masked : ∀ c, 0 < (after.cpu c).ncli → (after.cpu c).flag = false
  counted : ∀ c, (after.cpu c).ncli = after.nesting c
  panics : after.halted ≠ some .mycpu ∧ after.halted ≠ some .popcli ∧ after.halted ≠ some .popcliInterruptible
  /-- When a process has undone all, the flag is what it was when it began. -/
  restored : ∀ c p frame rest flag, before.running c = some p → before.stack c = frame :: rest → frame.depth = 1 →
    frame.entry = some flag → (event = .popcli c ∨ ∃ lock, event = .release c lock) → (after.cpu c).flag = flag

/-- The locks that scheduler() has when it comes to `loop`. -/
def Loop.held : Loop → List Lock
  | .sti | .acquirePtable => []
  | .acquireChoose => [.ptable]
  | .releaseChoose => [.schedulerlock, .ptable]
  | .switch | .releasePtable => [.ptable]

/-- The frame of scheduler() itself is at `loop`, or on its way there. -/
structure Loop.Meets (loop : Loop) (frame : Frame) : Prop where
  clis : frame.clis = 0
  held : frame.op = .run ∧ frame.held = loop.held ∨
    ∃ lock, (frame.op = .spin lock ∨ ∃ eflags, frame.op = .cli eflags (some lock)) ∧ lock :: frame.held = loop.held

/-- A process that is not running can go on: it is in sched, or will start at forkret. -/
inductive Resumable : List Frame → Prop where
  | alone {frame : Frame} (clis : frame.clis = 0) (held : frame.held = [.ptable])
      (op : frame.op = .run ∧ frame.entry = none ∨ ∃ intena, frame.op = .swtch intena ∧ ∀ flag, frame.entry = some flag → intena = flag) :
      Resumable [frame]
  | handler {frame base : Frame} (clis : frame.clis = 0) (held : frame.held = [.ptable]) (entry : frame.entry = some false)
      (op : frame.op = .swtch false) (saved : frame.saved = true) (below : Interrupted base) : Resumable [frame, base]

/-- The locks that the thread on a CPU has to release. -/
structure Owns (lock : Lock → Option C) (c : C) (frame : Frame) : Prop where
  held : ∀ l ∈ frame.held, lock l = some c
  once : frame.held.Nodup

structure Disciplined (s : State C P) : Prop where
  running : ∀ c, Running (s.cpu c) (s.stack c)
  owns : ∀ c frame rest, s.stack c = frame :: rest → Owns s.lock c frame
  kept : ∀ c p frame rest, s.running c = some p → s.stack c = frame :: rest → Kept (s.cpu c) frame
  program : ∀ c, s.running c = none → ∃ frame, (s.scheduler c).frames.getLast? = some frame ∧ (s.scheduler c).loop.Meets frame
  waits : ∀ c p, s.running c = some p → (s.scheduler c).loop = .releasePtable ∧
    ∃ frame, (s.scheduler c).frames = [frame] ∧ frame.op = .run ∧ (s.scheduler c).loop.Meets frame
  parked : ∀ c p frame rest, s.running c = some p → s.stack c = frame :: rest → (s.proc p).state ≠ .running →
    frame.op = .run ∧ .ptable ∈ frame.held
  used : ∀ c p, s.running c = some p → (s.proc p).state ≠ .unused
  resumable : ∀ p, (∀ c, s.running c ≠ some p) → (s.proc p).state = .runnable ∨ (s.proc p).state = .sleeping →
    Resumable (s.proc p).frames
  unique : ∀ c d p, s.running c = some p → s.running d = some p → c = d
  panics : s.halted ≠ some .mycpu ∧ s.halted ≠ some .popcli ∧ s.halted ≠ some .popcliInterruptible

section

variable {s : State C P} {c d : C} {frames : List Frame}

@[simp] theorem setStack_running : (s.setStack c frames).running = s.running := by
  unfold setStack
  split <;> rfl

@[simp] theorem setStack_cpu : (s.setStack c frames).cpu = s.cpu := by
  unfold setStack
  split <;> rfl

@[simp] theorem setStack_lock : (s.setStack c frames).lock = s.lock := by
  unfold setStack
  split <;> rfl

@[simp] theorem setStack_halted : (s.setStack c frames).halted = s.halted := by
  unfold setStack
  split <;> rfl

@[simp] theorem setStack_state (p : P) : ((s.setStack c frames).proc p).state = (s.proc p).state := by
  unfold setStack
  split
  · rename_i q _
    by_cases mine : p = q
    · subst mine
      simp
    · simp [update_of_ne mine]
  · rfl

@[simp] theorem setStack_loop : ((s.setStack c frames).scheduler d).loop = (s.scheduler d).loop := by
  unfold setStack
  split
  · rfl
  · by_cases mine : d = c
    · subst mine
      simp
    · simp [update_of_ne mine]

@[simp] theorem stack_setStack : (s.setStack c frames).stack c = frames := by
  unfold setStack State.stack
  cases running : s.running c <;> simp [running]

theorem stack_setStack_of_ne (unique : ∀ c d p, s.running c = some p → s.running d = some p → c = d) (apart : d ≠ c) :
    (s.setStack c frames).stack d = s.stack d := by
  unfold setStack State.stack
  cases here : s.running c with
  | some p =>
    cases there : s.running d with
    | some q =>
      have differs : q ≠ p := by
        rintro rfl
        exact apart (unique d c q there here)
      simp [update_of_ne differs]
    | none => simp
  | none =>
    cases there : s.running d with
    | some => simp
    | none => simp [update_of_ne apart]

theorem proc_setStack_of_ne {p : P} (away : s.running c ≠ some p) : (s.setStack c frames).proc p = s.proc p := by
  unfold setStack
  cases here : s.running c with
  | some q =>
    have differs : p ≠ q := by
      rintro rfl
      exact away here
    simp [update_of_ne differs]
  | none => rfl

theorem scheduler_setStack_of_some {p : P} (here : s.running c = some p) : (s.setStack c frames).scheduler = s.scheduler := by
  simp [setStack, here]

theorem scheduler_setStack_of_ne (apart : d ≠ c) : (s.setStack c frames).scheduler d = s.scheduler d := by
  unfold setStack
  split
  · rfl
  · simp [update_of_ne apart]

end

/-- A step of the thread on `c`, which leaves everything else alone. -/
structure Moves (s : State C P) (c : C) (next : State C P) : Prop where
  running : next.running = s.running
  cpu : ∀ d, d ≠ c → next.cpu d = s.cpu d
  stack : ∀ d, d ≠ c → next.stack d = s.stack d
  state : ∀ p, (next.proc p).state = (s.proc p).state
  proc : ∀ p, s.running c ≠ some p → next.proc p = s.proc p
  scheduler : ∀ d, d ≠ c ∨ (∃ p, s.running c = some p) → next.scheduler d = s.scheduler d

section

variable {s next : State C P} {c : C} {frame : Frame} {rest : List Frame} {loop : Loop}

/-- The thread on `c` changes its CPU, the locks and its frames. -/
def State.moved (s : State C P) (c : C) (cpu : Cpu) (lock : Lock → Option C) (frames : List Frame) : State C P :=
  ({ s with lock }.setCpu c cpu).setStack c frames

theorem setStack_eq (frames : List Frame) : s.setStack c frames = s.moved c (s.cpu c) s.lock frames := by
  simp [State.moved, setCpu, update_eq_self]

theorem setCpu_setStack_eq (cpu : Cpu) (frames : List Frame) : (s.setCpu c cpu).setStack c frames = s.moved c cpu s.lock frames := rfl

theorem setLock_setStack_eq (l : Lock) (owner : Option C) (frames : List Frame) :
    (s.setLock l owner).setStack c frames = s.moved c (s.cpu c) (update s.lock l owner) frames := by
  simp [State.moved, setCpu, setLock, update_eq_self]

theorem Moves.moved (unique : ∀ c d p, s.running c = some p → s.running d = some p → c = d) (lock : Lock → Option C)
    (cpu : Cpu) (frames : List Frame) : Moves s c (s.moved c cpu lock frames) := by
  refine ⟨by simp [State.moved, setCpu], fun d apart => ?_, fun d apart => ?_, fun p => ?_, fun p away => ?_, fun d other => ?_⟩
  · simp [State.moved, setCpu, update_of_ne apart]
  · exact stack_setStack_of_ne unique apart
  · exact setStack_state p
  · exact proc_setStack_of_ne away
  · rcases other with apart | ⟨p, here⟩
    · exact scheduler_setStack_of_ne apart
    · have busy : ({ s with lock }.setCpu c cpu).running c = some p := here
      exact congrFun (scheduler_setStack_of_some busy) d

omit [DecidableEq P] in
theorem stack_setLoop (loop : Loop) (d : C) : (s.setLoop c loop).stack d = s.stack d := by
  unfold State.stack
  cases there : s.running d with
  | some => simp [setLoop, there]
  | none =>
    by_cases mine : d = c
    · subst mine
      simp [setLoop, there]
    · simp [setLoop, there, update_of_ne mine]

omit [DecidableEq P] in
theorem Moves.setLoop (moves : Moves (s.setLoop c loop) c next) (here : s.running c = none) : Moves s c next := by
  refine ⟨moves.running, moves.cpu, fun d apart => (moves.stack d apart).trans (stack_setLoop loop d), moves.state, moves.proc,
    fun d other => ?_⟩
  rcases other with apart | ⟨p, busy⟩
  · exact (moves.scheduler d (.inl apart)).trans (update_of_ne apart ..)
  · rw [here] at busy
    contradiction

/-- Only the CPU `c`, its thread and the thread that leaves it change. -/
theorem Disciplined.switched (good : Disciplined s) {r : Option P} (running : next.running = update s.running c r)
    (cpu : ∀ d, d ≠ c → next.cpu d = s.cpu d) (threads : ∀ d, d ≠ c → next.stack d = s.stack d)
    (schedulers : ∀ d, d ≠ c → next.scheduler d = s.scheduler d)
    (procs : ∀ q, s.running c ≠ some q → r ≠ some q → next.proc q = s.proc q)
    (fresh : ∀ p d, r = some p → d ≠ c → s.running d ≠ some p)
    (others : ∀ d, d ≠ c → ∀ l, s.lock l = some d → next.lock l = some d) (here : next.stack c = frame :: rest)
    (thread : Running (next.cpu c) (frame :: rest)) (owns : Owns next.lock c frame)
    (kept : ∀ p, r = some p → Kept (next.cpu c) frame ∧ (next.proc p).state = .running)
    (program : r = none → ∃ base, (next.scheduler c).frames.getLast? = some base ∧ (next.scheduler c).loop.Meets base)
    (waits : ∀ p, r = some p → (next.scheduler c).loop = .releasePtable ∧
      ∃ base, (next.scheduler c).frames = [base] ∧ base.op = .run ∧ (next.scheduler c).loop.Meets base)
    (resumable : ∀ p, s.running c = some p → r ≠ some p → Resumable (next.proc p).frames)
    (panics : next.halted ≠ some .mycpu ∧ next.halted ≠ some .popcli ∧ next.halted ≠ some .popcliInterruptible) :
    Disciplined next := by
  have mine : next.running c = r := by rw [running, update_self]
  have theirs (d : C) (apart : d ≠ c) : next.running d = s.running d := by rw [running, update_of_ne apart]
  have proc (d : C) (apart : d ≠ c) (q : P) (busy : s.running d = some q) : next.proc q = s.proc q := by
    refine procs q (fun old => apart (good.unique d c q busy old)) fun new => ?_
    exact fresh q d new apart busy
  refine ⟨fun d => ?_, fun d frame' rest' there => ?_, fun d q frame' rest' busy there => ?_, fun d idle => ?_,
    fun d q busy => ?_, fun d q frame' rest' busy there parked => ?_, fun d q busy => ?_, fun q away ready => ?_,
    fun d e q busy busy' => ?_, panics⟩
  · by_cases same : d = c
    · subst same
      rwa [here]
    · rw [cpu d same, threads d same]
      exact good.running d
  · by_cases same : d = c
    · subst same
      rw [here] at there
      cases there
      exact owns
    · rw [threads d same] at there
      have old := good.owns d frame' rest' there
      exact ⟨fun l member => others d same l (old.held l member), old.once⟩
  · by_cases same : d = c
    · subst same
      rw [here] at there
      cases there
      exact (kept q (mine ▸ busy)).1
    · rw [theirs d same] at busy
      rw [threads d same] at there
      rw [cpu d same]
      exact good.kept d q frame' rest' busy there
  · by_cases same : d = c
    · subst same
      exact program (mine ▸ idle)
    · rw [theirs d same] at idle
      rw [schedulers d same]
      exact good.program d idle
  · by_cases same : d = c
    · subst same
      exact waits q (mine ▸ busy)
    · rw [theirs d same] at busy
      rw [schedulers d same]
      exact good.waits d q busy
  · by_cases same : d = c
    · subst same
      exact absurd (kept q (mine ▸ busy)).2 parked
    · rw [theirs d same] at busy
      rw [threads d same] at there
      rw [proc d same q busy] at parked
      exact good.parked d q frame' rest' busy there parked
  · by_cases same : d = c
    · subst same
      rw [(kept q (mine ▸ busy)).2]
      nofun
    · rw [theirs d same] at busy
      rw [proc d same q busy]
      exact good.used d q busy
  · by_cases old : s.running c = some q
    · exact resumable q old (mine ▸ away c)
    · have gone (d : C) : s.running d ≠ some q := by
        by_cases same : d = c
        · subst same
          exact old
        · rw [← theirs d same]
          exact away d
      have same : next.proc q = s.proc q := procs q old (mine ▸ away c)
      rw [same] at ready ⊢
      exact good.resumable q gone ready
  · by_cases first : d = c
    · by_cases second : e = c
      · rw [first, second]
      · rw [first, mine] at busy
        rw [theirs e second] at busy'
        exact absurd busy' (fresh q e busy second)
    · rw [theirs d first] at busy
      by_cases second : e = c
      · rw [second, mine] at busy'
        exact absurd busy (fresh q d busy' first)
      · rw [theirs e second] at busy'
        exact good.unique d e q busy busy'

theorem Disciplined.move (good : Disciplined s) (moves : Moves s c next) (here : next.stack c = frame :: rest)
    (running : Running (next.cpu c) (frame :: rest)) (owns : Owns next.lock c frame)
    (others : ∀ d, d ≠ c → ∀ l, s.lock l = some d → next.lock l = some d)
    (kept : ∀ p, s.running c = some p → Kept (next.cpu c) frame ∧ (s.proc p).state = .running)
    (program : s.running c = none → ∃ base, (frame :: rest).getLast? = some base ∧ (next.scheduler c).loop.Meets base)
    (panics : next.halted ≠ some .mycpu ∧ next.halted ≠ some .popcli ∧ next.halted ≠ some .popcliInterruptible) :
    Disciplined next := by
  refine good.switched (moves.running.trans (update_eq_self ..).symm) moves.cpu moves.stack
    (fun d apart => moves.scheduler d (.inl apart)) (fun q away _ => moves.proc q away)
    (fun p d busy apart there => apart (good.unique d c p there busy)) others here running owns (fun p busy => ?_)
    (fun idle => ?_) (fun p busy => ?_) (fun p busy gone => absurd busy gone) panics
  · rw [moves.state]
    exact kept p busy
  · obtain ⟨base, last, meets⟩ := program idle
    have frames : (next.scheduler c).frames = frame :: rest := by
      rw [← here, State.stack, moves.running, idle]
    exact ⟨base, frames ▸ last, meets⟩
  · rw [moves.scheduler c (.inr ⟨p, busy⟩)]
    exact good.waits c p busy

variable {cpu : Cpu} {lock : Lock → Option C}

theorem Disciplined.moved (good : Disciplined s) (running : Running cpu (frame :: rest)) (owns : Owns lock c frame)
    (others : ∀ d, d ≠ c → ∀ l, s.lock l = some d → lock l = some d)
    (kept : ∀ p, s.running c = some p → Kept cpu frame ∧ (s.proc p).state = .running)
    (program : s.running c = none → ∃ base, (frame :: rest).getLast? = some base ∧ (s.scheduler c).loop.Meets base) :
    Disciplined (s.moved c cpu lock (frame :: rest)) := by
  have here : (s.moved c cpu lock (frame :: rest)).cpu c = cpu := by simp [State.moved, setCpu]
  have locks : (s.moved c cpu lock (frame :: rest)).lock = lock := by simp [State.moved, setCpu]
  have loop : ((s.moved c cpu lock (frame :: rest)).scheduler c).loop = (s.scheduler c).loop := by simp [State.moved, setCpu]
  have halted : (s.moved c cpu lock (frame :: rest)).halted = s.halted := by simp [State.moved, setCpu]
  refine good.move (.moved good.unique lock cpu _) stack_setStack ?_ ?_ ?_ ?_ ?_ ?_
  · rwa [here]
  · rwa [locks]
  · rwa [locks]
  · rwa [here]
  · rwa [loop]
  · rw [halted]
    exact good.panics

theorem Disciplined.looped (good : Disciplined s) (idle : s.running c = none) (running : Running cpu [frame])
    (owns : Owns lock c frame) (others : ∀ d, d ≠ c → ∀ l, s.lock l = some d → lock l = some d) (program : loop.Meets frame) :
    Disciplined ((s.setLoop c loop).moved c cpu lock [frame]) := by
  have here : ((s.setLoop c loop).moved c cpu lock [frame]).cpu c = cpu := by simp [State.moved, setCpu]
  have locks : ((s.setLoop c loop).moved c cpu lock [frame]).lock = lock := by simp [State.moved, setCpu]
  have at' : (((s.setLoop c loop).moved c cpu lock [frame]).scheduler c).loop = loop := by
    simp [State.moved, setCpu, setLoop]
  have halted : ((s.setLoop c loop).moved c cpu lock [frame]).halted = s.halted := by
    simp [State.moved, setCpu, setLoop]
  have unique : ∀ d e p, (s.setLoop c loop).running d = some p → (s.setLoop c loop).running e = some p → d = e := good.unique
  refine good.move (Moves.setLoop (.moved unique lock cpu _) idle) stack_setStack ?_ ?_ ?_ ?_ ?_ ?_
  · rwa [here]
  · rwa [locks]
  · rwa [locks]
  · intro p busy
    rw [idle] at busy
    contradiction
  · rw [at']
    exact fun _ => ⟨frame, rfl, program⟩
  · rw [halted]
    exact good.panics

end

section

omit [DecidableEq C] [DecidableEq P]

variable {s : State C P} {c : C} {frame : Frame} {rest : List Frame}

theorem Disciplined.thread (good : Disciplined s) (stack : s.stack c = frame :: rest) : Running (s.cpu c) (frame :: rest) := stack ▸ good.running c

theorem Disciplined.active (good : Disciplined s) (stack : s.stack c = frame :: rest) (busy : frame.op ≠ .run) (p : P)
    (here : s.running c = some p) : (s.proc p).state = .running := by
  by_contra parked
  exact busy (good.parked c p frame rest here stack parked).1

theorem free_active (free : s.Free c) (p : P) (here : s.running c = some p) : (s.proc p).state = .running := by
  rwa [State.Free, here] at free

theorem Disciplined.program_handler (good : Disciplined s) (stack : s.stack c = frame :: rest) (handler : rest ≠ [])
    (after : Frame) (idle : s.running c = none) :
    ∃ base, (after :: rest).getLast? = some base ∧ (s.scheduler c).loop.Meets base := by
  obtain ⟨base, last, meets⟩ := good.program c idle
  rw [State.stack, idle] at stack
  rw [show (s.scheduler c).frames = frame :: rest from stack] at last
  obtain ⟨_, _, rfl⟩ := exists_cons_of_ne_nil handler
  exact ⟨base, last, meets⟩

theorem free_handler (free : s.Free c) (stack : s.stack c = frame :: rest) (idle : s.running c = none) : rest ≠ [] := by
  rw [State.Free, idle] at free
  rw [State.stack, idle] at stack
  rintro rfl
  rw [show (s.scheduler c).frames = [frame] from stack] at free
  simp at free

theorem Disciplined.program_alone (good : Disciplined s) (stack : s.stack c = [frame]) (idle : s.running c = none) :
    (s.scheduler c).loop.Meets frame := by
  obtain ⟨_, last, meets⟩ := good.program c idle
  rw [State.stack, idle] at stack
  rw [show (s.scheduler c).frames = [frame] from stack] at last
  cases last
  exact meets

theorem Disciplined.parked_lock {d : C} {q : P} (good : Disciplined s) (here : s.running d = some q) (off : (s.proc q).state ≠ .running) :
    s.lock .ptable = some d := by
  cases stack : s.stack d with
  | nil =>
    have running := good.running d
    rw [stack] at running
    contradiction
  | cons frame rest => exact (good.owns d frame rest stack).held _ (good.parked d q frame rest here stack off).2

theorem Disciplined.program_of {after : Frame} (good : Disciplined s) (stack : s.stack c = frame :: rest)
    (meets : ∀ loop : Loop, loop.Meets frame → loop.Meets after) (idle : s.running c = none) :
    ∃ base, (after :: rest).getLast? = some base ∧ (s.scheduler c).loop.Meets base := by
  by_cases handler : rest = []
  · subst handler
    exact ⟨after, rfl, meets _ (good.program_alone stack idle)⟩
  · exact good.program_handler stack handler after idle

theorem Disciplined.away {q : P} (good : Disciplined s) (stack : s.stack c = frame :: rest) (member : .ptable ∈ frame.held)
    (off : (s.proc q).state ≠ .running) (other : s.running c ≠ some q) (d : C) : s.running d ≠ some q := by
  intro here
  have locked := good.parked_lock here off
  rw [(good.owns c frame rest stack).held _ member] at locked
  cases locked
  exact other here

theorem Disciplined.cpuid {base : Frame} (good : Disciplined s) (stack : s.stack c = frame :: base :: rest) :
    (s.cpu c).mycpu = .ok (s.cpu c) := by
  have off : (s.cpu c).flag = false := by
    have thread := good.thread stack
    cases thread with
    | handler fits _ handles =>
      by_cases outside : frame.depth = 0
      · exact handles.off outside
      · exact fits.masked (Nat.pos_of_ne_zero outside)
  rw [Cpu.mycpu, off]
  rfl

theorem Disciplined.halt (good : Disciplined s) {panic : Panic}
    (other : panic ≠ .mycpu ∧ panic ≠ .popcli ∧ panic ≠ .popcliInterruptible) : Disciplined (s.halt panic) := by
  obtain ⟨running, owns, kept, program, waits, parked, used, resumable, unique, -⟩ := good
  refine ⟨running, owns, kept, program, waits, parked, used, resumable, unique, ?_⟩
  simpa [State.halt] using other

end

section

variable {s next : State C P} {c : C} {frame : Frame} {rest : List Frame} {lock : Option Lock} {l : Lock}
    {after : Frame}

section

variable (good : Disciplined s)
include good

theorem Disciplined.enter (stack : s.stack c = frame :: rest) (run : frame.op = .run) (free : s.Free c)
    (lock : Option Lock) : Disciplined (s.enter c lock frame rest) := by
  have owns := good.owns c frame rest stack
  rw [State.enter, setStack_eq]
  refine good.moved ((good.thread stack).enter run lock) ⟨owns.held, owns.once⟩ (fun _ _ _ => id) (fun p here => ?_) fun idle => ?_
  · exact ⟨(good.kept c p frame rest here stack).enter run lock, free_active free p here⟩
  · exact good.program_handler stack (free_handler free stack idle) _ idle

end

theorem Loop.Meets.push {loop : Loop} {eflags : Bool} (meets : loop.Meets frame) (op : frame.op = .cli eflags lock) :
    loop.Meets (frame.push lock) := by
  rcases meets.held with ⟨run, -⟩ | ⟨l, way, held⟩
  · rw [op] at run
    contradiction
  · rw [op] at way
    rcases way with spin | ⟨_, cli⟩
    · contradiction
    · cases cli
      exact ⟨meets.clis, .inr ⟨l, .inl rfl, held⟩⟩

theorem Loop.Meets.take {loop : Loop} (meets : loop.Meets frame) (op : frame.op = .spin l) : loop.Meets (frame.take l) := by
  rcases meets.held with ⟨run, -⟩ | ⟨m, way, held⟩
  · rw [op] at run
    contradiction
  · rw [op] at way
    rcases way with spin | ⟨_, cli⟩
    · cases spin
      exact ⟨meets.clis, .inl ⟨rfl, held⟩⟩
    · contradiction

theorem Disciplined.resume (good : Disciplined s) (stack : s.stack c = frame :: rest) (resumed : s.resume c frame rest = some next) :
    Disciplined next := by
  have owns := good.owns c frame rest stack
  cases op : frame.op with
  | run => simp [State.resume, op] at resumed
  | cli eflags lock =>
    have busy : frame.op ≠ .run := by simp [op]
    have pushed : Disciplined ((s.setCpu c ((s.cpu c).pushcli eflags)).setStack c (frame.push lock :: rest)) := by
      rw [setCpu_setStack_eq]
      refine good.moved ((good.thread stack).push op) ?_ (fun _ _ _ => id) (fun p here => ?_)
        (good.program_of stack fun loop meets => meets.push op)
      · cases lock <;> exact ⟨owns.held, owns.once⟩
      · exact ⟨(good.kept c p frame rest here stack).push (good.thread stack).fits op, good.active stack busy p here⟩
    simp only [State.resume, op] at resumed
    split at resumed
    · cases resumed
      exact pushed.halt (by simp)
    · cases resumed
      exact pushed
  | spin lock =>
    have busy : frame.op ≠ .run := by simp [op]
    simp only [State.resume, op] at resumed
    split at resumed
    · rename_i unlocked
      cases resumed
      rw [setLock_setStack_eq]
      have other {l : Lock} {d : C} (locked : s.lock l = some d) : l ≠ lock := by
        rintro rfl
        rw [unlocked] at locked
        contradiction
      refine good.moved ((good.thread stack).take op) ⟨fun l member => ?_, ?_⟩ (fun d _ l locked => ?_) (fun p here => ?_)
        (good.program_of stack fun loop meets => meets.take op)
      · rcases List.mem_cons.mp member with rfl | old
        · exact update_self ..
        · rw [update_of_ne (other (owns.held l old))]
          exact owns.held l old
      · exact List.nodup_cons.mpr ⟨fun member => other (owns.held lock member) rfl, owns.once⟩
      · rwa [update_of_ne (other locked)]
      · exact ⟨(good.kept c p frame rest here stack).take op, good.active stack busy p here⟩
    · contradiction
  | swtch intena =>
    have busy : frame.op ≠ .run := by simp [op]
    have inner : 0 < frame.depth := by
      rw [(good.thread stack).fits.back intena op]
      exact Nat.one_pos
    have mycpu : (s.cpu c).mycpu = .ok (s.cpu c) := by
      rw [Cpu.mycpu, (good.thread stack).fits.masked inner]
      rfl
    simp only [State.resume, op, mycpu] at resumed
    cases resumed
    rw [setCpu_setStack_eq]
    refine good.moved ((good.thread stack).back op) ⟨owns.held, owns.once⟩ (fun _ _ _ => id) (fun p here => ?_)
      (good.program_of stack fun loop meets => ?_)
    · exact ⟨(good.kept c p frame rest here stack).back op, good.active stack busy p here⟩
    · rcases meets.held with ⟨run, -⟩ | ⟨l, spin | ⟨_, cli⟩, -⟩
      · exact absurd run busy
      · rw [op] at spin
        contradiction
      · rw [op] at cli
        contradiction

structure Undoes (frame after : Frame) : Prop where
  op : after.op = .run
  entry : after.entry = frame.entry
  saved : after.saved = frame.saved
  one : after.depth + 1 = frame.depth

theorem undoes_cli (run : frame.op = .run) (some : 0 < frame.clis) : Undoes frame { frame with clis := frame.clis - 1 } := by
  refine ⟨run, rfl, rfl, ?_⟩
  simp only [depth]
  omega

theorem undoes_lock (run : frame.op = .run) (member : l ∈ frame.held) :
    Undoes frame { frame with held := frame.held.erase l } := by
  refine ⟨run, rfl, rfl, ?_⟩
  have := length_pos_of_mem member
  simp only [depth, length_erase_of_mem member]
  omega

theorem Disciplined.leave_eq (good : Disciplined s) (stack : s.stack c = frame :: rest) (undoes : Undoes frame after) :
    s.leave c after rest = s.moved c (s.cpu c).popped s.lock (after :: rest) := by
  have one := undoes.one
  rw [leave, (good.thread stack).fits.popcli (by omega)]
  rfl

theorem release_eq (fits : Fits (s.cpu c) frame) (run : frame.op = .run) (locked : s.lock l = some c)
    (member : l ∈ frame.held) : s.release c l frame rest =
      s.moved c (s.cpu c).popped (update s.lock l none) ({ frame with held := frame.held.erase l } :: rest) := by
  have one := (undoes_lock run member).one
  have mycpu : (s.cpu c).mycpu = .ok (s.cpu c) := by
    rw [Cpu.mycpu, fits.masked (by omega)]
    rfl
  have holding : s.holding c l = .ok true := by
    rw [State.holding, locked]
    simp [mycpu, Except.map]
  simp only [State.release, holding, leave]
  rw [show ((s.setLock l none).cpu c).popcli = .ok (s.cpu c).popped from fits.popcli (by omega)]
  rfl

omit [DecidableEq C] in
theorem Owns.release {lock : Lock → Option C} (owns : Owns lock c frame) :
    Owns (update lock l none) c { frame with held := frame.held.erase l } := by
  refine ⟨fun m member => ?_, owns.once.erase l⟩
  have other : m ≠ l := ((owns.once.mem_erase_iff).mp member).1
  rw [update_of_ne other]
  exact owns.held m (mem_of_mem_erase member)

omit [DecidableEq C] in
theorem Owns.others {lock : Lock → Option C} {l m : Lock} {d : C} (owns : Owns lock c frame) (member : l ∈ frame.held) (apart : d ≠ c)
    (locked : lock m = some d) : update lock l none m = some d := by
  have other : m ≠ l := by
    rintro rfl
    rw [owns.held m member] at locked
    exact apart (Option.some.inj locked).symm
  rwa [update_of_ne other]

section

variable (good : Disciplined s)
include good

section

variable (stack : s.stack c = frame :: rest)
include stack

theorem Disciplined.undone (run : frame.op = .run) (free : s.Free c)
    (undoes : Undoes frame after) {lock : Lock → Option C} (owns : Owns lock c after)
    (others : ∀ d, d ≠ c → ∀ l, s.lock l = some d → lock l = some d) :
    Disciplined (s.moved c (s.cpu c).popped lock (after :: rest)) := by
  refine good.moved ((good.thread stack).pop run undoes.op undoes.entry undoes.saved undoes.one) owns others (fun p here => ?_) fun idle => ?_
  · exact ⟨(good.kept c p frame rest here stack).pop run undoes.op undoes.entry undoes.one, free_active free p here⟩
  · exact good.program_handler stack (free_handler free stack idle) after idle

theorem Disciplined.popcli (run : frame.op = .run) (free : s.Free c)
    (some : 0 < frame.clis) : Disciplined (s.leave c { frame with clis := frame.clis - 1 } rest) := by
  have owns := good.owns c frame rest stack
  rw [good.leave_eq stack (undoes_cli run some)]
  exact good.undone stack run free (undoes_cli run some) ⟨owns.held, owns.once⟩ fun _ _ _ => id

theorem Disciplined.release (run : frame.op = .run) (free : s.Free c)
    (member : l ∈ frame.held) : Disciplined (s.release c l frame rest) := by
  have owns := good.owns c frame rest stack
  rw [release_eq (good.thread stack).fits run (owns.held l member) member]
  exact good.undone stack run free (undoes_lock run member) owns.release fun d apart m locked => owns.others member apart locked

end

theorem Disciplined.interrupt (on : (s.cpu c).flag = true) :
    Disciplined ((s.setCpu c { s.cpu c with flag := false }).setStack c ({ saved := (s.cpu c).flag } :: s.stack c)) := by
  rw [setCpu_setStack_eq]
  refine good.moved ((good.running c).interrupt on) ⟨nofun, nodup_nil⟩ (fun _ _ _ => id) (fun p here => ⟨?_, ?_⟩) fun idle => ?_
  · exact fun inner => absurd inner (Nat.lt_irrefl 0)
  · by_contra parked
    cases stack : s.stack c with
    | nil =>
      have running := good.running c
      rw [stack] at running
      contradiction
    | cons frame rest =>
      have member := (good.parked c p frame rest here stack parked).2
      have inner : 0 < frame.depth := by
        have := length_pos_of_mem member
        simp only [depth]
        omega
      have off := (good.thread stack).fits.masked inner
      rw [on] at off
      contradiction
  · obtain ⟨base, last, meets⟩ := good.program c idle
    refine ⟨base, ?_, meets⟩
    rw [State.stack, idle]
    cases frames : (s.scheduler c).frames with
    | nil => simp [frames] at last
    | cons => rwa [frames] at last

theorem Disciplined.iret {base : Frame} (stack : s.stack c = frame :: base :: rest) (free : s.Free c)
    (outside : frame.depth = 0) : Disciplined ((s.setCpu c { s.cpu c with flag := frame.saved }).setStack c (base :: rest)) := by
  have thread := good.thread stack
  rw [setCpu_setStack_eq]
  cases thread with
  | handler _ _ _ below =>
    have held : base.held = [] := by
      have depth := below.depth
      simp only [Frame.depth] at depth
      exact eq_nil_of_length_eq_zero (by omega)
    refine good.moved ((good.thread stack).iret outside) ⟨by simp [held], by simp [held]⟩ (fun _ _ _ => id) (fun p here => ⟨?_, ?_⟩) fun idle => ?_
    · intro inner
      rw [below.depth] at inner
      contradiction
    · exact free_active free p here
    · obtain ⟨bottom, last, meets⟩ := good.program c idle
      rw [State.stack, idle] at stack
      rw [show (s.scheduler c).frames = [frame, base] from stack] at last
      exact ⟨bottom, last, meets⟩

theorem Disciplined.trapret (stack : s.stack c = [frame]) {p : P} (here : s.running c = some p)
    (free : s.Free c) (run : frame.op = .run) (outside : frame.depth = 0) :
    Disciplined (s.setCpu c { s.cpu c with flag := true }) := by
  have owns := good.owns c frame [] stack
  have same : s.setCpu c { s.cpu c with flag := true } = s.moved c { s.cpu c with flag := true } s.lock [frame] := by
    rw [State.stack, here] at stack
    have frames : (s.proc p).frames = [frame] := stack
    simp only [State.moved, setStack, setCpu, here]
    rw [← frames, update_eq_self]
  rw [same]
  refine good.moved ((good.thread stack).trapret run outside) owns (fun _ _ _ => id) (fun q busy => ⟨?_, free_active free q busy⟩) fun idle => ?_
  · intro inner
    rw [outside] at inner
    contradiction
  · rw [here] at idle
    contradiction

end

end

section

variable {s next : State C P} {c : C} {p q : P} {frame : Frame} {rest : List Frame} {new : Proc}

section

omit [DecidableEq C]

theorem stack_update (same : ∀ d, s.running d = some q → new.frames = (s.proc q).frames) (d : C) :
    State.stack { s with proc := update s.proc q new } d = s.stack d := by
  unfold State.stack
  cases here : s.running d with
  | none => rfl
  | some p =>
    by_cases mine : p = q
    · subst mine
      simpa using same d here
    · simp [update_of_ne mine]

theorem stack_setState (state : ProcState) (d : C) : (s.setState q state).stack d = s.stack d :=
  @stack_update C P _ s q { s.proc q with state } (fun _ _ => rfl) d

section

variable (good : Disciplined s)
include good

theorem Disciplined.setProc (same : ∀ d, s.running d = some q → new.frames = (s.proc q).frames)
    (parked : ∀ d frame rest, s.running d = some q → s.stack d = frame :: rest → frame.op = .run ∧ .ptable ∈ frame.held)
    (used : ∀ d, s.running d = some q → new.state ≠ .unused)
    (resumable : (∀ d, s.running d ≠ some q) → new.state = .runnable ∨ new.state = .sleeping → Resumable new.frames) :
    Disciplined { s with proc := update s.proc q new } := by
  refine ⟨fun d => ?_, fun d frame rest stack => ?_, fun d p frame rest here stack => ?_, good.program, good.waits,
    fun d p frame rest here stack off => ?_, fun d p here => ?_, fun p away ready => ?_, good.unique, good.panics⟩
  · rw [stack_update same]
    exact good.running d
  · rw [stack_update same] at stack
    exact good.owns d frame rest stack
  · rw [stack_update same] at stack
    exact good.kept d p frame rest here stack
  · rw [stack_update same] at stack
    by_cases mine : p = q
    · subst mine
      exact parked d frame rest here stack
    · simp only [update_of_ne mine] at off
      exact good.parked d p frame rest here stack off
  · by_cases mine : p = q
    · subst mine
      simpa using used d here
    · simp only [update_of_ne mine]
      exact good.used d p here
  · by_cases mine : p = q
    · subst mine
      simp only [update_self] at ready ⊢
      exact resumable away ready
    · simp only [update_of_ne mine] at ready ⊢
      exact good.resumable p away ready

theorem Disciplined.park (here : s.running c = some p) (stack : s.stack c = frame :: rest)
    (run : frame.op = .run) (member : .ptable ∈ frame.held) {state : ProcState} (given : state ∈ [.runnable, .sleeping, .zombie]) :
    Disciplined (s.setState p state) := by
  refine good.setProc (fun _ _ => rfl) (fun d frame' rest' there stack' => ?_) (fun d _ => ?_) fun away => absurd here (away c)
  · obtain rfl := good.unique c d p here there
    rw [stack] at stack'
    cases stack'
    exact ⟨run, member⟩
  · rintro rfl
    simp at given

theorem Disciplined.change (stack : s.stack c = frame :: rest) (free : s.Free c) (member : .ptable ∈ frame.held)
    {old new : ProcState} (state : (s.proc q).state = old) (off : old ≠ .running)
    (ready : new = .runnable ∨ new = .sleeping → old = .runnable ∨ old = .sleeping) : Disciplined (s.setState q new) := by
  have other : s.running c ≠ some q := by
    intro here
    exact off (state ▸ free_active free q here)
  have away := good.away stack member (state ▸ off) other
  refine good.setProc (fun _ _ => rfl) (fun d _ _ here => absurd here (away d)) (fun d here => absurd here (away d)) fun away later => ?_
  exact good.resumable q away (state ▸ ready later)

end

theorem resumable_forkret : Resumable forkret := .alone rfl rfl (.inl ⟨rfl, rfl⟩)

theorem Disciplined.fork (good : Disciplined s) (free : (s.proc q).state = .unused) :
    Disciplined { s with proc := update s.proc q { state := .runnable, frames := forkret } } := by
  have away (d : C) : s.running d ≠ some q := fun here => good.used d q here free
  exact good.setProc (fun d here => absurd here (away d)) (fun d _ _ here => absurd here (away d)) (fun d here => absurd here (away d))
    fun _ _ => resumable_forkret

end

theorem Resumable.running {frames : List Frame} {cpu : Cpu} (resumable : Resumable frames) (count : cpu.ncli = 1)
    (off : cpu.flag = false) :
    Running cpu frames ∧ ∃ frame rest, frames = frame :: rest ∧ frame.held = [.ptable] ∧ Kept cpu frame := by
  cases resumable with
  | alone clis held op =>
    rename_i frame
    have quiet : frame.op.spinning = 0 ∧ ∀ eflags lock, frame.op ≠ .cli eflags lock := by
      rcases op with ⟨run, -⟩ | ⟨intena, back, -⟩
      · simp [run, Op.spinning]
      · simp [back, Op.spinning]
    have depth : frame.depth = 1 := by simp [depth, clis, held, quiet.1]
    refine ⟨.alone ⟨by rw [count, depth]; rfl, fun _ => off, fun eflags lock cli => absurd cli (quiet.2 eflags lock), fun _ _ => depth⟩,
      frame, [], rfl, held, fun _ flag entry => ?_⟩
    rcases op with ⟨-, fresh⟩ | ⟨intena, back, same⟩
    · rw [fresh] at entry
      contradiction
    · rw [Frame.intena, back]
      exact same flag entry
  | handler clis held entry op saved below =>
    rename_i frame base
    have depth : frame.depth = 1 := by simp [depth, clis, held, op, Op.spinning]
    have kept : Kept cpu frame := by
      intro _ flag entered
      rw [entry] at entered
      rw [Frame.intena, op]
      exact Option.some.inj entered
    refine ⟨.handler ⟨by rw [count, depth]; rfl, fun _ => off, by simp [op], fun _ _ => depth⟩ kept
      ⟨fun outside => ?_, fun _ => entry, saved⟩ below, frame, [base], rfl, held, kept⟩
    rw [depth] at outside
    contradiction

theorem Running.resumable {cpu : Cpu} (running : Running cpu (frame :: rest)) (kept : Kept cpu frame) (run : frame.op = .run)
    (clis : frame.clis = 0) (held : frame.held = [.ptable]) : Resumable ({ frame with op := .swtch cpu.intena } :: rest) := by
  have inner : 0 < frame.depth := by
    simp only [depth, held, length_singleton]
    omega
  have intena (flag : Bool) (entry : frame.entry = some flag) : cpu.intena = flag := by
    have := kept inner flag entry
    rwa [Frame.intena, run] at this
  cases running with
  | alone => exact .alone clis held (.inr ⟨cpu.intena, rfl, intena⟩)
  | handler _ _ handles below =>
    have entry := handles.entry inner
    refine .handler clis held entry ?_ handles.saved below
    rw [intena false entry]

theorem Loop.Meets.held_eq {loop : Loop} (meets : loop.Meets frame) (run : frame.op = .run) : frame.held = loop.held := by
  rcases meets.held with ⟨-, held⟩ | ⟨l, spin | ⟨_, cli⟩, -⟩
  · exact held
  · rw [run] at spin
    contradiction
  · rw [run] at cli
    contradiction

theorem Loop.Meets.depth {loop : Loop} (meets : loop.Meets frame) (run : frame.op = .run) : frame.depth = loop.held.length := by
  simp [Frame.depth, meets.clis, meets.held_eq run, run, Op.spinning]

section

variable (good : Disciplined s)
include good

theorem Disciplined.sched (here : s.running c = some p) (stack : s.stack c = frame :: rest)
    (off : (s.proc p).state ≠ .running) : Disciplined (s.sched c p frame rest) := by
  obtain ⟨run, member⟩ := good.parked c p frame rest here stack off
  have running := good.thread stack
  have owns := good.owns c frame rest stack
  have inner : 0 < frame.depth := by
    have := length_pos_of_mem member
    simp only [depth]
    omega
  have flag := running.fits.masked inner
  have holding : s.holding c .ptable = .ok true := by
    rw [State.holding, owns.held _ member]
    simp [Cpu.mycpu, flag, Except.map]
  simp only [State.sched, holding, if_neg off, flag, Bool.false_eq_true, if_false]
  split
  · exact good.halt (by simp)
  rename_i count
  have count : (s.cpu c).ncli = 1 := by simpa using count
  -- The lock is the only thing the process has to undo.
  have one : frame.clis + frame.held.length = 1 := by
    have := running.fits.count
    simp only [depth, run, Op.spinning] at this
    omega
  have length := length_pos_of_mem member
  have held : frame.held = [.ptable] := by
    obtain ⟨l, only⟩ := List.length_eq_one_iff.mp (show frame.held.length = 1 by omega)
    rw [only] at member
    rw [only, List.mem_singleton.mp member]
  obtain ⟨loop, base, frames, base_run, meets⟩ := good.waits c p here
  have base_held : base.held = [.ptable] := (meets.held_eq base_run).trans (by rw [loop]; rfl)
  have base_depth : base.depth = 1 := (meets.depth base_run).trans (by rw [loop]; rfl)
  have scheduler : (s.setStack c ({ frame with op := .swtch (s.cpu c).intena } :: rest)).scheduler = s.scheduler :=
    scheduler_setStack_of_some here
  have mine : State.stack { s.setStack c ({ frame with op := .swtch (s.cpu c).intena } :: rest) with
      running := update s.running c none } c = [base] := by
    simp only [State.stack, update_self, scheduler]
    exact frames
  refine good.switched rfl (fun _ _ => by rw [setStack_cpu]) (fun d apart => ?_) (fun d _ => congrFun scheduler d)
    (fun q old _ => proc_setStack_of_ne old) (fun _ _ new => by cases new) (fun _ _ _ => by rw [setStack_lock]; exact id)
    mine ?_ ⟨fun l taken => ?_, by simp [base_held]⟩ (fun _ new => by cases new) (fun _ => ?_)
    (fun _ new => by cases new) (fun q old _ => ?_) (by rw [setStack_halted]; exact good.panics)
  · have there : (s.setStack c ({ frame with op := .swtch (s.cpu c).intena } :: rest)).stack d = s.stack d :=
      stack_setStack_of_ne good.unique apart
    rw [← there]
    simp only [State.stack, update_of_ne apart, setStack_running]
  · rw [setStack_cpu]
    exact .alone ⟨by rw [count, base_depth]; rfl, fun _ => flag, by simp [base_run], by simp [base_run]⟩
  · rw [base_held, mem_singleton] at taken
    rw [taken, setStack_lock]
    exact owns.held _ member
  · simp only [scheduler]
    exact ⟨base, by rw [frames]; rfl, meets⟩
  · rw [here] at old
    cases old
    simp only [setStack, here, update_self]
    exact running.resumable (good.kept c p frame rest here stack) run (by omega) held

theorem Disciplined.swtch (idle : s.running c = none) (stack : s.stack c = [frame]) (run : frame.op = .run)
    (loop : (s.scheduler c).loop = .switch) (ready : (s.proc p).state = .runnable) :
    Disciplined { (s.setLoop c .releasePtable).setState p .running with running := update s.running c (some p) } := by
  have meets := good.program_alone stack idle
  have held : frame.held = [.ptable] := (meets.held_eq run).trans (by rw [loop]; rfl)
  have depth : frame.depth = 1 := (meets.depth run).trans (by rw [loop]; rfl)
  have fits := (good.thread stack).fits
  have locked := (good.owns c frame [] stack).held .ptable (by simp [held])
  have off : (s.proc p).state ≠ .running := by rw [ready]; nofun
  have away := good.away stack (by simp [held]) off (by rw [idle]; nofun)
  obtain ⟨running, _, _, frames, top_held, kept⟩ := (good.resumable p away (.inl ready)).running
    (show (s.cpu c).ncli = 1 by rw [fits.count, depth]; rfl) (fits.masked (by omega))
  have others (d : C) (apart : d ≠ c) : ((s.setLoop c .releasePtable).setState p .running).stack d = s.stack d := by
    rw [stack_setState, stack_setLoop]
  have mine : State.stack { (s.setLoop c .releasePtable).setState p .running with running := update s.running c (some p) } c =
      (s.proc p).frames := by
    simp only [State.stack, update_self]
    simp [setState, setLoop]
  have base : (s.scheduler c).frames = [frame] := by rwa [State.stack, idle] at stack
  refine good.switched rfl (fun _ _ => rfl) (fun d apart => ?_) (fun d apart => update_of_ne apart ..)
    (fun q _ new => update_of_ne (fun same : q = p => new (same ▸ rfl)) ..) ?_ (fun _ _ _ => id) (mine.trans frames)
    (frames ▸ running) ⟨fun l taken => ?_, by simp [top_held]⟩ ?_ nofun ?_ ?_ good.panics
  · rw [← others d apart]
    simp only [State.stack, update_of_ne apart]
    rfl
  · rintro q d ⟨⟩ _
    exact away d
  · rw [top_held, mem_singleton] at taken
    rw [taken]
    exact locked
  · rintro q ⟨⟩
    exact ⟨kept, by simp [setState]⟩
  · rintro q ⟨⟩
    have here : (s.setLoop c .releasePtable).scheduler c = { s.scheduler c with loop := .releasePtable } := update_self ..
    refine ⟨congrArg Scheduler.loop here, frame, (congrArg Scheduler.frames here).trans base, run, ?_⟩
    exact (congrArg Scheduler.loop here).symm ▸ ⟨meets.clis, .inl ⟨run, held⟩⟩
  · intro q busy
    rw [idle] at busy
    contradiction

theorem Disciplined.loop (idle : s.running c = none) (stack : s.stack c = [frame]) (run : frame.op = .run)
    {choice : Option P} (stepped : s.loop c choice frame = some next) : Disciplined next := by
  have meets := good.program_alone stack idle
  have thread := good.thread stack
  have owns := good.owns c frame [] stack
  have held := meets.held_eq run
  have base : (s.scheduler c).frames = [frame] := by rwa [State.stack, idle] at stack
  have stays (loop : Loop) (cpu : Cpu) : (s.setCpu c cpu).setLoop c loop = (s.setLoop c loop).moved c cpu s.lock [frame] := by
    simp only [State.moved, State.setStack, State.setCpu, State.setLoop, idle, update_self, update_idem, base]
  have releases {l : Lock} (loop : Loop) (member : l ∈ frame.held) (after : frame.held.erase l = loop.held) :
      Disciplined ((s.setLoop c loop).release c l frame []) := by
    have undoes := undoes_lock run member
    have fits : Fits ((s.setLoop c loop).cpu c) frame := thread.fits
    rw [release_eq fits run (owns.held l member) member]
    refine good.looped idle (thread.pop run undoes.op undoes.entry undoes.saved undoes.one) owns.release
      (fun d apart m locked => owns.others member apart locked) ⟨meets.clis, .inl ⟨run, after⟩⟩
  have enters {l : Lock} (loop : Loop) (more : l :: frame.held = loop.held) :
      Disciplined ((s.setLoop c loop).enter c (some l) frame []) := by
    rw [State.enter, setStack_eq]
    exact good.looped idle (thread.enter run (some l)) ⟨owns.held, owns.once⟩ (fun _ _ _ => id) ⟨meets.clis, .inr ⟨l, .inr ⟨_, rfl⟩, more⟩⟩
  cases loop : (s.scheduler c).loop with
  | sti =>
    have empty : frame.held = [] := held.trans (by rw [loop]; rfl)
    have outside : frame.depth = 0 := (meets.depth run).trans (by rw [loop]; rfl)
    simp only [State.loop, loop] at stepped
    cases stepped
    rw [stays]
    exact good.looped idle (thread.trapret run outside) owns (fun _ _ _ => id) ⟨meets.clis, .inl ⟨run, empty⟩⟩
  | acquirePtable =>
    simp only [State.loop, loop] at stepped
    cases stepped
    exact enters .acquireChoose (by rw [held, loop]; rfl)
  | acquireChoose =>
    simp only [State.loop, loop] at stepped
    cases stepped
    exact enters .releaseChoose (by rw [held, loop]; rfl)
  | releaseChoose =>
    simp only [State.loop, loop] at stepped
    cases stepped
    exact releases .switch (by rw [held, loop]; simp [Loop.held]) (by rw [held, loop]; rfl)
  | switch =>
    simp only [State.loop, loop] at stepped
    cases choice with
    | none =>
      cases stepped
      have same := stays .releasePtable (s.cpu c)
      rw [State.setCpu, update_eq_self] at same
      rw [show s.setLoop c .releasePtable = _ from same]
      exact good.looped idle thread owns (fun _ _ _ => id) ⟨meets.clis, .inl ⟨run, held.trans (by rw [loop]; rfl)⟩⟩
    | some =>
      simp only at stepped
      split at stepped
      · cases stepped
        exact good.swtch idle stack run loop (by assumption)
      · contradiction
  | releasePtable =>
    simp only [State.loop, loop] at stepped
    cases stepped
    exact releases .sti (by rw [held, loop]; simp [Loop.held]) (by rw [held, loop]; rfl)

end

end

section

variable {s next : State C P} {c : C} {frame : Frame} {rest : List Frame} {event : Event C P}

section

variable (good : Disciplined s)
include good

section

variable (stepped : s.step event = some next)
include stepped

theorem Disciplined.step : Disciplined next := by
  unfold State.step at stepped
  split at stepped
  · cases event with
    | interrupt =>
      obtain ⟨enabled, rfl⟩ := guarded.mp stepped
      exact good.interrupt enabled
    | pushcli =>
      simp only at stepped
      split at stepped
      · rename_i frame rest stack
        obtain ⟨ready, rfl⟩ := guarded.mp stepped
        exact good.enter stack ready.2 ready.1 none
      · contradiction
    | acquire _ lock =>
      simp only at stepped
      split at stepped
      · rename_i frame rest stack
        obtain ⟨ready, rfl⟩ := guarded.mp stepped
        exact good.enter stack ready.2 ready.1 (some lock)
      · contradiction
    | resume =>
      simp only at stepped
      split at stepped
      · rename_i frame rest stack
        exact good.resume stack stepped
      · contradiction
    | popcli =>
      simp only at stepped
      split at stepped
      · rename_i frame rest stack
        obtain ⟨ready, rfl⟩ := guarded.mp stepped
        exact good.popcli stack ready.2.1 ready.1 ready.2.2
      · contradiction
    | release =>
      simp only at stepped
      split at stepped
      · rename_i frame rest stack
        obtain ⟨ready, rfl⟩ := guarded.mp stepped
        exact good.release stack ready.2.1 ready.1 ready.2.2
      · contradiction
    | cpuid =>
      simp only at stepped
      split at stepped
      · rename_i frame base rest stack
        rw [good.cpuid stack] at stepped
        obtain ⟨-, rfl⟩ := guarded.mp stepped
        exact good
      · contradiction
    | iret =>
      simp only at stepped
      split at stepped
      · rename_i frame base rest stack
        obtain ⟨ready, rfl⟩ := guarded.mp stepped
        exact good.iret stack ready.1 ready.2.2
      · contradiction
    | trapret =>
      simp only at stepped
      split at stepped
      · rename_i p frame here stack
        obtain ⟨ready, rfl⟩ := guarded.mp stepped
        exact good.trapret stack here ready.1 ready.2.1 ready.2.2
      · contradiction
    | park =>
      simp only at stepped
      split at stepped
      · rename_i p frame rest here stack
        obtain ⟨ready, rfl⟩ := guarded.mp stepped
        exact good.park here stack ready.2.1 ready.2.2.1 ready.2.2.2
      · contradiction
    | sched =>
      simp only at stepped
      split at stepped
      · rename_i p frame rest here stack
        obtain ⟨ready, rfl⟩ := guarded.mp stepped
        exact good.sched here stack ready.1
      · contradiction
    | wakeup =>
      simp only at stepped
      split at stepped
      · rename_i frame rest stack
        obtain ⟨ready, rfl⟩ := guarded.mp stepped
        exact good.change stack ready.1 ready.2.2.1 ready.2.2.2 nofun fun _ => .inr rfl
      · contradiction
    | fork =>
      simp only at stepped
      split at stepped
      · rename_i frame rest stack
        obtain ⟨_, moved, rfl⟩ := Option.map_eq_some_iff.mp stepped
        obtain ⟨ready, rfl⟩ := guarded.mp moved
        simp only [setState, update_self, update_idem]
        exact good.fork ready.2.2.2
      · contradiction
    | wait =>
      simp only at stepped
      split at stepped
      · rename_i frame rest stack
        obtain ⟨ready, rfl⟩ := guarded.mp stepped
        exact good.change stack ready.1 ready.2.2.1 ready.2.2.2 nofun (by simp)
      · contradiction
    | loop =>
      simp only at stepped
      split at stepped
      · rename_i frame here stack
        split at stepped
        · exact good.loop here stack (by assumption) stepped
        · contradiction
      · contradiction
  · contradiction

theorem Disciplined.restored {p : P}
    (here : s.running c = some p) (stack : s.stack c = frame :: rest) (outermost : frame.depth = 1) {flag : Bool}
    (entry : frame.entry = some flag) (pops : event = .popcli c ∨ ∃ lock, event = .release c lock) : (next.cpu c).flag = flag := by
  have popped (lock : Lock → Option C) (frames : List Frame) : ((s.moved c (s.cpu c).popped lock frames).cpu c) = (s.cpu c).popped := by
    simp [State.moved, setCpu]
  have fits := (good.thread stack).fits
  unfold State.step at stepped
  split at stepped
  · rcases pops with rfl | ⟨lock, rfl⟩
    · simp only [stack] at stepped
      split at stepped
      · rename_i ready
        cases stepped
        rw [good.leave_eq stack (undoes_cli ready.2.1 ready.2.2), popped]
        exact (good.kept c p frame rest here stack).flag fits ready.2.1 outermost entry
      · contradiction
    · simp only [stack] at stepped
      split at stepped
      · rename_i ready
        cases stepped
        rw [release_eq fits ready.2.1 ((good.owns c frame rest stack).held lock ready.2.2) ready.2.2, popped]
        exact (good.kept c p frame rest here stack).flag fits ready.2.1 outermost entry
      · contradiction
  · contradiction

theorem Disciplined.safe : FlagSafe s event next := by
  have after := good.step stepped
  refine ⟨fun c => (after.running c).masked, fun c => (after.running c).nesting, after.panics, ?_⟩
  intro c p frame rest flag here stack outermost entry pops
  exact good.restored stepped here stack outermost entry pops

end

end

omit [DecidableEq C] [DecidableEq P] in
theorem disciplined_boot (ready : P → Bool) : Disciplined (State.boot ready : State C P) := by
  have meets : Loop.sti.Meets {} := ⟨rfl, .inl ⟨rfl, rfl⟩⟩
  refine ⟨fun c => .alone ⟨rfl, fun _ => rfl, nofun, nofun⟩, ?_, nofun, fun c _ => ⟨{}, rfl, meets⟩, nofun, nofun, nofun, fun p _ state => ?_,
    nofun, by simp [boot]⟩
  · rintro c _ _ ⟨⟩
    exact ⟨nofun, nodup_nil⟩
  · by_cases there : ready p = true
    · simpa [boot, there] using resumable_forkret
    · simp [boot, there] at state

end

/-- Every interleaving on any number of CPUs. -/
theorem interrupt_discipline (ready : P → Bool) (events : List (Event C P)) :
    EveryStep State.step FlagSafe (State.boot ready : State C P) events := by
  exact (runs_along Disciplined (disciplined_boot ready) (everyStep_true _ _ events)
    (fun _ _ _ good _ stepped => ⟨good.step stepped, good.safe stepped⟩)).1

end Xv6.Interrupt
