import Xv6.Interrupt.Cpu

namespace Xv6.Interrupt

open Interrupt.Frame

/-! One thread on one CPU. `ncli` is what the thread has to undo, and `intena` the
flag at the outermost of it, through every call and every interrupt. -/

/-- What `intena` is, or will be when the thread is back in sched. -/
def Frame.intena (cpu : Cpu) (frame : Frame) : Bool :=
  match frame.op with
  | .swtch intena => intena
  | _ => cpu.intena

structure Fits (cpu : Cpu) (frame : Frame) : Prop where
  count : cpu.ncli = frame.depth
  masked : 0 < frame.depth → cpu.flag = false
  reads : ∀ eflags lock, frame.op = .cli eflags lock → frame.depth = 0 → eflags = cpu.flag ∧ frame.entry = some eflags
  back : ∀ intena, frame.op = .swtch intena → frame.depth = 1

/-- `intena` belongs to the outermost call. -/
def Kept (cpu : Cpu) (frame : Frame) : Prop := 0 < frame.depth → ∀ flag, frame.entry = some flag → frame.intena cpu = flag

structure Handles (cpu : Cpu) (frame : Frame) : Prop where
  off : frame.depth = 0 → cpu.flag = false
  entry : 0 < frame.depth → frame.entry = some false
  saved : frame.saved = true

structure Interrupted (frame : Frame) : Prop where
  depth : frame.depth = 0
  op : frame.op = .run ∨ ∃ lock, frame.op = .cli true lock ∧ frame.entry = some true

/-- A thread on a CPU; a handler is not interrupted. -/
inductive Running (cpu : Cpu) : List Frame → Prop where
  | alone {frame : Frame} (fits : Fits cpu frame) : Running cpu [frame]
  | handler {frame base : Frame} (fits : Fits cpu frame) (kept : Kept cpu frame) (handles : Handles cpu frame)
      (below : Interrupted base) : Running cpu [frame, base]

variable {cpu : Cpu} {frame : Frame} {rest : List Frame} {lock : Option Lock} {eflags : Bool} {frames : List Frame}
    {intena : Bool}

theorem depth_enter (run : frame.op = .run) : (frame.enter lock cpu).depth = frame.depth := by
  simp [depth, enter, run, Op.spinning]

theorem depth_push (op : frame.op = .cli eflags lock) : (frame.push lock).depth = frame.depth + 1 := by
  cases lock <;> simp [depth, push, op, Op.spinning]
  omega

theorem Fits.enter (fits : Fits cpu frame) (run : frame.op = .run) (lock : Option Lock) : Fits cpu (frame.enter lock cpu) := by
  have same : (frame.enter lock cpu).depth = frame.depth := depth_enter run
  refine ⟨same ▸ fits.count, same ▸ fits.masked, ?_, nofun⟩
  rintro _ _ ⟨⟩ outermost
  rw [same] at outermost
  exact ⟨rfl, if_pos outermost⟩

theorem Kept.enter (kept : Kept cpu frame) (run : frame.op = .run) (lock : Option Lock) : Kept cpu (frame.enter lock cpu) := by
  have same : (frame.enter lock cpu).depth = frame.depth := depth_enter run
  intro inner flag entry
  rw [same] at inner
  have before : (frame.enter lock cpu).entry = frame.entry := if_neg (Nat.ne_of_gt inner)
  have intena := kept inner flag (before ▸ entry)
  simpa [Frame.intena, Frame.enter, run] using intena

theorem Handles.enter (handles : Handles cpu frame) (run : frame.op = .run) (lock : Option Lock) :
    Handles cpu (frame.enter lock cpu) := by
  have same : (frame.enter lock cpu).depth = frame.depth := depth_enter run
  refine ⟨same ▸ handles.off, fun inner => ?_, handles.saved⟩
  rw [same] at inner
  exact (if_neg (Nat.ne_of_gt inner)).trans (handles.entry inner)

theorem Running.enter (running : Running cpu (frame :: rest)) (run : frame.op = .run) (lock : Option Lock) :
    Running cpu (frame.enter lock cpu :: rest) := by
  cases running with
  | alone fits => exact .alone (fits.enter run lock)
  | handler fits kept handles below => exact .handler (fits.enter run lock) (kept.enter run lock) (handles.enter run lock) below

theorem Fits.push (fits : Fits cpu frame) (op : frame.op = .cli eflags lock) : Fits (cpu.pushcli eflags) (frame.push lock) := by
  refine ⟨?_, fun _ => rfl, ?_, ?_⟩
  · rw [depth_push op]
    simp [Cpu.pushcli, fits.count]
  · cases lock <;> nofun
  · cases lock <;> nofun

theorem Kept.push (kept : Kept cpu frame) (fits : Fits cpu frame) (op : frame.op = .cli eflags lock) :
    Kept (cpu.pushcli eflags) (frame.push lock) := by
  intro _ flag entry
  have entry : frame.entry = some flag := by cases lock <;> exact entry
  have intena : (frame.push lock).intena (cpu.pushcli eflags) = if cpu.ncli = 0 then eflags else cpu.intena := by
    cases lock <;> rfl
  rw [intena, fits.count]
  by_cases outermost : frame.depth = 0
  · have reads := (fits.reads eflags lock op outermost).2
    rw [entry] at reads
    simpa [outermost] using (Option.some.inj reads).symm
  · have old := kept (Nat.pos_of_ne_zero outermost) flag entry
    rw [Frame.intena, op] at old
    simpa [outermost] using old

theorem Handles.push (handles : Handles cpu frame) (fits : Fits cpu frame) (op : frame.op = .cli eflags lock) :
    Handles (cpu.pushcli eflags) (frame.push lock) := by
  have entry : (frame.push lock).entry = frame.entry := by cases lock <;> rfl
  have saved : (frame.push lock).saved = frame.saved := by cases lock <;> rfl
  refine ⟨fun _ => rfl, fun _ => ?_, saved.trans handles.saved⟩
  rw [entry]
  by_cases outermost : frame.depth = 0
  · obtain ⟨same, reads⟩ := fits.reads eflags lock op outermost
    rw [reads, same, handles.off outermost]
  · exact handles.entry (Nat.pos_of_ne_zero outermost)

theorem Running.push (running : Running cpu (frame :: rest)) (op : frame.op = .cli eflags lock) :
    Running (cpu.pushcli eflags) (frame.push lock :: rest) := by
  cases running with
  | alone fits => exact .alone (fits.push op)
  | handler fits kept handles below => exact .handler (fits.push op) (kept.push fits op) (handles.push fits op) below

theorem depth_take {lock : Lock} (op : frame.op = .spin lock) : (frame.take lock).depth = frame.depth := by
  simp [depth, take, op, Op.spinning]
  omega

theorem Fits.take {lock : Lock} (fits : Fits cpu frame) (op : frame.op = .spin lock) : Fits cpu (frame.take lock) := by
  have same : (frame.take lock).depth = frame.depth := depth_take op
  exact ⟨same ▸ fits.count, same ▸ fits.masked, nofun, nofun⟩

theorem Kept.take {lock : Lock} (kept : Kept cpu frame) (op : frame.op = .spin lock) : Kept cpu (frame.take lock) := by
  intro inner flag entry
  rw [depth_take op] at inner
  have intena := kept inner flag entry
  rwa [Frame.intena, op] at intena

theorem Running.take {lock : Lock} (running : Running cpu (frame :: rest)) (op : frame.op = .spin lock) :
    Running cpu (frame.take lock :: rest) := by
  have same : (frame.take lock).depth = frame.depth := depth_take op
  cases running with
  | alone fits => exact .alone (fits.take op)
  | handler fits kept handles below =>
    exact .handler (fits.take op) (kept.take op) ⟨same ▸ handles.off, same ▸ handles.entry, handles.saved⟩ below

/-- `mycpu()->intena = intena` in sched. -/
theorem Kept.back (kept : Kept cpu frame) (op : frame.op = .swtch intena) :
    Kept { cpu with intena } { frame with op := .run } := by
  intro inner flag entry
  have same : ({ frame with op := .run } : Frame).depth = frame.depth := by simp [depth, op, Op.spinning]
  rw [same] at inner
  have before := kept inner flag entry
  rwa [Frame.intena, op] at before

theorem Running.back (running : Running cpu (frame :: rest)) (op : frame.op = .swtch intena) :
    Running { cpu with intena } ({ frame with op := .run } :: rest) := by
  have same : ({ frame with op := .run } : Frame).depth = frame.depth := by simp [depth, op, Op.spinning]
  have fitting (fits : Fits cpu frame) : Fits { cpu with intena } { frame with op := .run } :=
    ⟨same ▸ fits.count, same ▸ fits.masked, nofun, nofun⟩
  cases running with
  | alone fits => exact .alone (fitting fits)
  | handler fits kept handles below =>
    exact .handler (fitting fits) (kept.back op) ⟨same ▸ handles.off, same ▸ handles.entry, handles.saved⟩ below

def Cpu.popped (cpu : Cpu) : Cpu := { cpu with ncli := cpu.ncli - 1, flag := cpu.ncli - 1 = 0 ∧ cpu.intena = true }

theorem Fits.popcli (fits : Fits cpu frame) (inner : 0 < frame.depth) : cpu.popcli = .ok cpu.popped := by
  have count := fits.count
  rw [Cpu.popcli, fits.masked inner, if_neg (by simp), if_neg (by omega)]
  rfl

section

variable {after : Frame}

theorem Fits.pop (fits : Fits cpu frame) (run : after.op = .run) (one : after.depth + 1 = frame.depth) : Fits cpu.popped after := by
  have count := fits.count
  have left : cpu.ncli - 1 = after.depth := by omega
  refine ⟨left, fun inner => ?_, by simp [run], by simp [run]⟩
  have more : (after.depth : Int) ≠ 0 := by omega
  simp [Cpu.popped, left, Nat.ne_of_gt inner]

theorem Kept.pop (kept : Kept cpu frame) (run : frame.op = .run) (after_run : after.op = .run) (entry : after.entry = frame.entry)
    (one : after.depth + 1 = frame.depth) : Kept cpu.popped after := by
  intro _ flag entered
  have before := kept (by omega) flag (entry ▸ entered)
  rw [Frame.intena, run] at before
  rw [Frame.intena, after_run]
  exact before

theorem Kept.flag (kept : Kept cpu frame) (fits : Fits cpu frame) (run : frame.op = .run) (outermost : frame.depth = 1)
    {flag : Bool} (entry : frame.entry = some flag) : cpu.popped.flag = flag := by
  have before := kept (by omega) flag entry
  rw [Frame.intena, run] at before
  have count := fits.count
  simp [Cpu.popped, count, outermost, before]

theorem Running.pop (running : Running cpu (frame :: rest)) (run : frame.op = .run) (after_run : after.op = .run)
    (entry : after.entry = frame.entry) (saved : after.saved = frame.saved) (one : after.depth + 1 = frame.depth) :
    Running cpu.popped (after :: rest) := by
  cases running with
  | alone fits => exact .alone (fits.pop after_run one)
  | handler fits kept handles below =>
    have entered := handles.entry (by omega)
    refine .handler (fits.pop after_run one) (kept.pop run after_run entry one) ⟨fun done => ?_, fun _ => entry.trans entered, ?_⟩ below
    · exact kept.flag fits run (by omega) entered
    · exact saved.trans handles.saved

end

theorem Running.fits (running : Running cpu (frame :: rest)) : Fits cpu frame := by
  cases running with
  | alone fits | handler fits => exact fits

theorem Running.interrupt (running : Running cpu frames) (on : cpu.flag = true) :
    Running { cpu with flag := false } ({ saved := cpu.flag } :: frames) := by
  have free {frame : Frame} (fits : Fits cpu frame) : frame.depth = 0 := by
    by_contra inner
    have off := fits.masked (Nat.pos_of_ne_zero inner)
    rw [on] at off
    contradiction
  cases running with
  | alone fits =>
    rename_i frame
    have outside := free fits
    refine .handler ⟨fits.count.trans (by rw [outside]; rfl), fun _ => rfl, nofun, nofun⟩ (fun inner => absurd inner (Nat.lt_irrefl 0))
      ⟨fun _ => rfl, fun inner => absurd inner (Nat.lt_irrefl 0), on⟩ ⟨outside, ?_⟩
    cases op : frame.op with
    | run => exact .inl rfl
    | cli eflags lock =>
      obtain ⟨same, entry⟩ := fits.reads eflags lock op outside
      rw [on] at same
      subst same
      exact .inr ⟨lock, rfl, entry⟩
    | spin =>
      rw [depth, op] at outside
      simp [Op.spinning] at outside
    | swtch intena =>
      have := fits.back intena op
      omega
  | handler fits _ handles =>
    have off := handles.off (free fits)
    rw [on] at off
    contradiction

theorem Running.iret {base : Frame} (running : Running cpu (frame :: base :: rest)) (outside : frame.depth = 0) :
    Running { cpu with flag := frame.saved } (base :: rest) := by
  cases running with
  | handler fits _ handles below =>
    have count : cpu.ncli = 0 := fits.count.trans (by rw [outside]; rfl)
    refine .alone ⟨count.trans (by rw [below.depth]; rfl), fun inner => ?_, fun eflags lock op _ => ?_, fun intena op => ?_⟩
    · rw [below.depth] at inner
      contradiction
    · rcases below.op with run | ⟨lock', op', entry⟩
      · rw [run] at op
        contradiction
      · rw [op'] at op
        cases op
        exact ⟨handles.saved.symm, entry⟩
    · rcases below.op with run | ⟨lock', op', -⟩
      · rw [run] at op
        contradiction
      · rw [op'] at op
        contradiction

theorem Running.trapret (running : Running cpu [frame]) (run : frame.op = .run) (outside : frame.depth = 0) :
    Running { cpu with flag := true } [frame] := by
  refine .alone ⟨running.fits.count, fun inner => ?_, by simp [run], by simp [run]⟩
  rw [outside] at inner
  contradiction

theorem Running.nesting (running : Running cpu frames) : cpu.ncli = ((frames.map depth).sum : Nat) := by
  cases running with
  | alone fits => simp [fits.count]
  | handler fits _ _ below => simp [fits.count, below.depth]

theorem Running.masked (running : Running cpu frames) (inner : 0 < cpu.ncli) : cpu.flag = false := by
  cases running with
  | alone fits | handler fits => exact fits.masked (by have := fits.count; omega)

end Xv6.Interrupt
