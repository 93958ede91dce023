import Xv6.Data.Count
import Xv6.Ftable.Calls

namespace Xv6.Ftable

open Data Function Finset List Nat State
open Process (NPROC ProcState)

/-! A reference count is the number of descriptors that point to the file, as far
as no process is in a call. In a call, a process may hold a reference that it has
no descriptor for, or have a descriptor that it holds no reference for. -/

/-- The call that ends the use of what a file stands for. -/
def Closing.Ends (file : File) : Closing → Prop
  | .pipeclose pipe writable => file.type = .pipe ∧ file.pipe = pipe ∧ file.writable = writable
  | .iput ip => file.type = .inode ∧ file.ip = ip

instance (file : File) (c : Closing) : Decidable (c.Ends file) :=
  match c with
  | .pipeclose .. => inferInstanceAs (Decidable (_ ∧ _ ∧ _))
  | .iput .. => inferInstanceAs (Decidable (_ ∧ _))

/-- The files that have lost their last reference, among those that `c` is for. -/
def drops (before after : Files) (c : Closing) : Nat :=
  (Finset.univ.filter fun f : Fin NFILE =>
    (before f).ref ≠ 0 ∧ (after f).ref = 0 ∧ c.Ends (before f)).card

/-- How often a last reference has been dropped, for each close. -/
def dropped (s : State) (_ : Event) (next : State) (count : Closing → Nat) : Closing → Nat :=
  fun c => count c + drops s.file next.file c

def State.Quiet (s : State) : Prop := ∀ p, (s.proc p).pc = .idle

/-- The descriptors that point to a file, of all processes that are not UNUSED. -/
def State.descriptors (s : State) (f : Fin NFILE) : Finset (Fin NPROC × Fin NOFILE) :=
  Finset.univ.filter fun slot => (s.proc slot.1).state ≠ .unused ∧ (s.proc slot.1).ofile slot.2 = some f

structure FilesSafe (before : State × (Closing → Nat)) (_ : Event) (after : State × (Closing → Nat)) : Prop where
  refs : after.1.Quiet → ∀ f, (after.1.file f).ref = (after.1.descriptors f).card
  unused : ∀ f, (after.1.file f).ref = 0 → (after.1.file f).type = .none
  /-- The pipe end or the inode of a file is closed once for each time its last reference is dropped. -/
  closes : after.1.Quiet → ∀ c, after.1.closed.count c = after.2 c
  /-- Until then nothing else of the file changes. -/
  stable : ∀ f, (before.1.file f).type ≠ .none → (after.1.file f).ref ≠ 0 →
    after.1.file f = { before.1.file f with ref := (after.1.file f).ref }
  panics : after.1.halted ≠ some .filedup ∧ after.1.halted ≠ some .fileclose

/-! ## What a process holds -/

def After.hidden : After → Option (Fin NOFILE)
  | .returns => none
  | .clear fd => some fd

namespace Work

/-- The references a process holds without a descriptor. -/
def extra : Work → List (Fin NFILE)
  | .opened f _ _ | .pipingWrite f => [f]
  | .closing f rest _ => f :: rest
  | .effect _ rest _ => rest
  | .pipingPage f0 f1 | .installing f0 f1 => [f0, f1]
  | .installingWrite _ wf _ => [wf]
  | _ => []

/-- The descriptor for which it holds no reference. -/
def hidden : Work → Option (Fin NOFILE)
  | .duping _ fd | .clearing fd => some fd
  | .closing _ _ after | .effect _ _ after => after.hidden
  | _ => none

/-- The files it has taken and not filled in. -/
def fresh : Work → List (Fin NFILE)
  | .opened f _ _ | .typing f _ _ | .pipingWrite f => [f]
  | .pipingPage f0 f1 => [f0, f1]
  | _ => []

def pending : Work → Option Closing
  | .effect c _ _ => some c
  | _ => none

def cleared : Work → Nat
  | .exiting fd => fd
  | .clearing fd | .closing _ _ (.clear fd) | .effect _ _ (.clear fd) => fd
  | _ => 0

/-- What the descriptors are when a process is at `work`. -/
def Held (ofile : Fds) : Work → Prop
  | .typing f _ _ => ∃ fd, ofile fd = some f
  | .duping f fd => ofile fd = some f ∧ ∃ other, other ≠ fd ∧ ofile other = some f
  | .installingWrite rf _ fd0 => ofile fd0 = some rf
  | _ => True

end Work

namespace Pc

def extra : Pc → List (Fin NFILE)
  | .work w => w.extra
  | _ => []

def hidden : Pc → Option (Fin NOFILE)
  | .work w => w.hidden
  | _ => none

def fresh : Pc → List (Fin NFILE)
  | .work w => w.fresh
  | _ => []

def pending : Pc → Option Closing
  | .work w => w.pending
  | _ => none

def cleared : Pc → Nat
  | .work w => w.cleared
  | _ => 0

def Held (ofile : Fds) : Pc → Prop
  | .work w => w.Held ofile
  | _ => True

end Pc

def shown (ofile : Fds) : Option (Fin NOFILE) → Fds
  | none => ofile
  | some fd => update ofile fd none

/-- The references to `f` that a process holds. -/
def Proc.claims (f : Fin NFILE) (self : Proc) : Nat :=
  tally (· = some f) (shown self.ofile self.pc.hidden) + self.pc.extra.count f

structure Local (file : Files) (proc : Proc) : Prop where
  live : proc.pc ≠ .idle → proc.state = .runnable
  empty : proc.state = .unused ∨ proc.state = .zombie → ∀ fd, proc.ofile fd = none
  fresh : ∀ f ∈ proc.pc.fresh, (file f).ref = 1 ∧ (file f).type = .none
  held : proc.pc.Held proc.ofile
  cleared : ∀ fd : Fin NOFILE, fd.val < proc.pc.cleared → proc.ofile fd = none

section

variable {self : Proc} {file : Files} {ofile : Fds} {f g : Fin NFILE} {fd : Fin NOFILE} {rest : List (Fin NFILE)} {after : After}

theorem tally_set (free : ofile fd = none) :
    tally (· = some g) (update ofile fd (some f)) = tally (· = some g) ofile + if f = g then 1 else 0 := by
  have moved := tally_update (· = some g) ofile fd (some f)
  simpa [free] using moved

theorem tally_clear (taken : ofile fd = some f) :
    tally (· = some g) (update ofile fd none) + (if f = g then 1 else 0) = tally (· = some g) ofile := by
  have moved := tally_update (· = some g) ofile fd none
  simpa [taken] using moved

theorem fdalloc_none (found : fdalloc ofile = some fd) : ofile fd = none := by
  simpa using List.find?_some found

theorem filealloc_free (found : filealloc file = some f) : (file f).ref = 0 := by
  simpa using List.find?_some found

@[simp] theorem closeNext_ofile : (self.closeNext rest after).ofile = self.ofile := by
  cases rest <;> cases after <;> rfl

@[simp] theorem closeNext_state : (self.closeNext rest after).state = self.state := by
  cases rest <;> cases after <;> rfl

@[simp] theorem closeNext_extra : (self.closeNext rest after).pc.extra = rest := by
  cases rest <;> cases after <;> rfl

@[simp] theorem closeNext_hidden : (self.closeNext rest after).pc.hidden = after.hidden := by
  cases rest <;> cases after <;> rfl

@[simp] theorem closeNext_fresh : (self.closeNext rest after).pc.fresh = [] := by
  cases rest <;> cases after <;> rfl

@[simp] theorem closeNext_pending : (self.closeNext rest after).pc.pending = none := by
  cases rest <;> cases after <;> rfl

@[simp] theorem closeNext_held : (self.closeNext rest after).pc.Held ofile := by
  cases rest <;> cases after <;> trivial

@[simp] theorem closeNext_cleared : (self.closeNext rest (.clear fd)).pc.cleared = fd := by
  cases rest <;> rfl

@[simp] theorem closeNext_returns_cleared : (self.closeNext rest .returns).pc.cleared = 0 := by
  cases rest <;> rfl

theorem fresh_claimed (held : Local file self) (fresh : f ∈ self.pc.fresh) : 0 < self.claims f := by
  unfold Proc.claims
  cases pc : self.pc with
  | idle | birth => simp [pc, Pc.fresh] at fresh
  | work work =>
    rw [pc] at fresh
    cases work with
    | typing g =>
      obtain rfl : f = g := by simpa [Pc.fresh, Work.fresh] using fresh
      have slot := held.held
      rw [pc] at slot
      obtain ⟨fd, here⟩ := slot
      exact Nat.add_pos_left (tally_pos_of_kind (i := fd) here) _
    | opened | pipingWrite | pipingPage => exact Nat.add_pos_right _ (List.count_pos_iff.mpr fresh)
    | _ => simp [Pc.fresh, Work.fresh] at fresh

end

/-! ## A step of one process -/

/-- What a step of a process does to it and to the files. -/
structure Advance (file : Files) (before : Proc) (moved : Moved) : Prop where
  refs : ∀ f, (moved.file f).ref + before.claims f = (file f).ref + moved.proc.claims f
  touches : ∀ f, (file f).ref ≠ 0 → before.claims f = 0 → moved.file f = file f
  unused : ∀ f, (moved.file f).ref = 0 → (moved.file f).type = .none
  stable : ∀ f, (file f).type ≠ .none → (moved.file f).ref ≠ 0 →
    moved.file f = { file f with ref := (moved.file f).ref }
  closes : ∀ c, drops file moved.file c + (if before.pc.pending = some c then 1 else 0) =
    (if moved.closed = some c then 1 else 0) + if moved.proc.pc.pending = some c then 1 else 0
  after : Local moved.file moved.proc
  own : ∀ np birth, moved.proc.pc ≠ .birth np birth

section

variable {file : Files} {self proc : Proc} {f : Fin NFILE} {left : Option Closing} {files : Files} {c : Closing}

theorem drops_eq_zero {after : Files} (kept : ∀ f, (file f).ref ≠ 0 → (after f).ref ≠ 0) : drops file after c = 0 := by
  rw [drops, Finset.card_eq_zero, filter_eq_empty_iff]
  rintro f - ⟨before, gone, -⟩
  exact kept f before gone

section

variable (unused : ∀ f, (file f).ref = 0 → (file f).type = .none)
include unused

theorem Advance.same {closed : Option Closing} (claims : ∀ f, proc.claims f = self.claims f)
    (closes : ∀ c, self.pc.pending = some c ↔ closed = some c) (idle : proc.pc.pending = none) (after : Local file proc)
    (own : ∀ np birth, proc.pc ≠ .birth np birth) : Advance file self { proc, file, closed } := by
  refine ⟨fun f => by rw [claims], fun _ _ _ => rfl, unused, fun _ _ _ => rfl, fun c => ?_, after, own⟩
  have none : drops file file c = 0 := drops_eq_zero fun _ => id
  simp only [none, closes, idle, reduceCtorEq, if_false, Nat.zero_add, Nat.add_zero]

theorem Advance.take (free : (file f).ref = 0) (claims : ∀ g, proc.claims g = self.claims g + if f = g then 1 else 0)
    (before : self.pc.pending = none) (idle : proc.pc.pending = none)
    (after : Local (update file f { file f with ref := 1 }) proc) (own : ∀ np birth, proc.pc ≠ .birth np birth) :
    Advance file self { proc, file := update file f { file f with ref := 1 } } := by
  refine ⟨fun g => ?_, fun g present _ => ?_, fun g gone => ?_, fun g typed _ => ?_, fun c => ?_, after, own⟩
  · rw [claims]
    by_cases mine : g = f
    · subst mine
      simp [free, Nat.add_comm]
    · simp [update_of_ne mine, Ne.symm mine]
  · exact update_of_ne (fun mine : g = f => present (mine ▸ free)) ..
  · by_cases mine : g = f
    · subst mine
      simp at gone
    · simp only [update_of_ne mine] at gone ⊢
      exact unused g gone
  · simp only [update_of_ne fun mine : g = f => typed (mine ▸ unused f free)]
  · have none : drops file (update file f { file f with ref := 1 }) c = 0 := by
      refine drops_eq_zero fun g present => ?_
      rw [update_of_ne fun mine : g = f => present (mine ▸ free)]
      exact present
    simp [none, before, idle]

theorem Advance.fill {after : Files} (refs : ∀ f, (after f).ref = (file f).ref) (before : Local file self)
    (others : ∀ f, f ∉ self.pc.fresh → after f = file f) (claims : ∀ f, proc.claims f = self.claims f)
    (start : self.pc.pending = none) (idle : proc.pc.pending = none) (kept : Local after proc)
    (own : ∀ np birth, proc.pc ≠ .birth np birth) : Advance file self { proc, file := after } := by
  refine ⟨fun g => ?_, fun g _ unclaimed => others g fun fresh => ?_, fun g gone => ?_, fun g typed _ => ?_, fun c => ?_, kept, own⟩
  · rw [claims]
    exact congrArg (· + _) (refs g)
  · exact absurd unclaimed (Nat.ne_of_gt (fresh_claimed before fresh))
  · have gone : (file g).ref = 0 := (refs g).symm.trans gone
    have other : g ∉ self.pc.fresh := fun fresh => by
      have := (before.fresh g fresh).1
      omega
    change (after g).type = .none
    rw [others g other]
    exact unused g gone
  · simp only [others g fun fresh => typed (before.fresh g fresh).2]
  · have none : drops file after c = 0 := drops_eq_zero fun g present => (refs g).symm ▸ present
    simp [none, start, idle]

end

section

variable {g : Fin NFILE}

theorem ref_bump : (update file f { file f with ref := (file f).ref + 1 } g).ref =
    (file g).ref + if f = g then 1 else 0 := by
  by_cases mine : g = f
  · subst mine
    simp
  · simp [update_of_ne mine, Ne.symm mine]

theorem same_bump : update file f { file f with ref := (file f).ref + 1 } g =
    { file g with ref := (update file f { file f with ref := (file f).ref + 1 } g).ref } := by
  by_cases mine : g = f
  · subst mine
    simp
  · rw [update_of_ne mine]

theorem type_bump : (update file f { file f with ref := (file f).ref + 1 } g).type = (file g).type := by
  rw [same_bump]

theorem unused_bump (unused : ∀ f, (file f).ref = 0 → (file f).type = .none)
    (gone : (update file f { file f with ref := (file f).ref + 1 } g).ref = 0) :
    (update file f { file f with ref := (file f).ref + 1 } g).type = .none := by
  rw [ref_bump] at gone
  rw [type_bump]
  exact unused g (by omega)

theorem present_bump (present : (file g).ref ≠ 0) : (update file f { file f with ref := (file f).ref + 1 } g).ref ≠ 0 := by
  rw [ref_bump]
  omega

theorem untouched_bump (claimed : 0 < self.claims f) (unclaimed : self.claims g = 0) :
    update file f { file f with ref := (file f).ref + 1 } g = file g :=
  update_of_ne (fun mine : g = f => absurd unclaimed (mine ▸ Nat.ne_of_gt claimed)) ..

end

theorem Advance.bump (unused : ∀ f, (file f).ref = 0 → (file f).type = .none) (claimed : 0 < self.claims f)
    (claims : ∀ g, proc.claims g = self.claims g + if f = g then 1 else 0) (start : self.pc.pending = none)
    (idle : proc.pc.pending = none) (kept : Local (update file f { file f with ref := (file f).ref + 1 }) proc)
    (own : ∀ np birth, proc.pc ≠ .birth np birth) :
    Advance file self { proc, file := update file f { file f with ref := (file f).ref + 1 } } := by
  refine ⟨fun g => ?_, fun g _ => untouched_bump claimed, fun g => unused_bump unused,
    fun g _ _ => same_bump, fun c => ?_, kept, own⟩
  · rw [claims, ref_bump]
    omega
  · have none : drops file (update file f { file f with ref := (file f).ref + 1 }) c = 0 :=
      drops_eq_zero fun _ => present_bump
    simp [none, start, idle]

theorem Local.of_runnable (runnable : proc.state = .runnable)
    (fresh : ∀ f ∈ proc.pc.fresh, (file f).ref = 1 ∧ (file f).type = .none) (held : proc.pc.Held proc.ofile)
    (cleared : ∀ fd : Fin NOFILE, fd.val < proc.pc.cleared → proc.ofile fd = none) : Local file proc :=
  ⟨fun _ => runnable, fun either => by simp [runnable] at either, fresh, held, cleared⟩

theorem Local.plain (runnable : proc.state = .runnable) (fresh : proc.pc.fresh = []) (held : proc.pc.Held proc.ofile)
    (cleared : proc.pc.cleared = 0) : Local file proc := by
  refine .of_runnable runnable ?_ held ?_
  · simp [fresh]
  · simp [cleared]

theorem closing_eq_some {file : File} : file.closing = some c ↔ c.Ends file := by
  cases c <;> cases type : file.type <;> simp [File.closing, Closing.Ends, type]

theorem drops_update {change : File} (present : (file f).ref ≠ 0) (gone : change.ref = 0) :
    drops file (update file f change) c = if c.Ends (file f) then 1 else 0 := by
  have only (g : Fin NFILE) : ((file g).ref ≠ 0 ∧ (update file f change g).ref = 0 ∧ c.Ends (file g)) ↔
      g = f ∧ c.Ends (file f) := by
    by_cases mine : g = f
    · subst mine
      simp [present, gone]
    · simp only [update_of_ne mine, mine, false_and, iff_false]
      exact fun ⟨before, after, _⟩ => before after
  simp only [drops, only]
  by_cases same : c.Ends (file f)
  · simp only [same, and_true, if_true]
    rw [filter_eq', if_pos (mem_univ f), card_singleton]
  · simp [same]

theorem fileclose_cases (dropped : fileclose file f = .ok (files, left)) :
    ∃ change : File, files = update file f change ∧ change.ref + 1 = (file f).ref ∧
      (change.ref = 0 ∧ change.type = .none ∧ left = (file f).closing ∨
        change.ref ≠ 0 ∧ change = { file f with ref := change.ref } ∧ left = none) := by
  unfold fileclose at dropped
  split at dropped
  · contradiction
  rename_i present
  split at dropped
  · rename_i more
    obtain ⟨rfl, rfl⟩ : _ ∧ _ := by simpa using dropped
    exact ⟨_, rfl, by simp only; omega, .inr ⟨by simp only; omega, rfl, rfl⟩⟩
  · rename_i last
    obtain ⟨rfl, rfl⟩ : _ ∧ _ := by simpa using dropped
    exact ⟨_, rfl, by simp only; omega, .inl ⟨rfl, rfl, rfl⟩⟩

theorem Advance.drop (unused : ∀ f, (file f).ref = 0 → (file f).type = .none)
    (dropped : fileclose file f = .ok (files, left)) (claimed : 0 < self.claims f)
    (claims : ∀ g, proc.claims g + (if f = g then 1 else 0) = self.claims g) (start : self.pc.pending = none)
    (pending : proc.pc.pending = left) (kept : Local files proc) (own : ∀ np birth, proc.pc ≠ .birth np birth) :
    Advance file self { proc, file := files } := by
  obtain ⟨change, rfl, _, last⟩ := fileclose_cases dropped
  refine ⟨fun g => ?_, fun g _ unclaimed => ?_, fun g gone => ?_, fun g _ alive => ?_, fun c => ?_, kept, own⟩
  · have := claims g
    by_cases mine : g = f
    · subst mine
      simp only [update_self, if_true] at this ⊢
      omega
    · simp only [update_of_ne mine, if_neg (Ne.symm mine)] at this ⊢
      omega
  · exact update_of_ne (fun mine : g = f => absurd unclaimed (mine ▸ Nat.ne_of_gt claimed)) ..
  · by_cases mine : g = f
    · subst mine
      simp only [update_self] at gone ⊢
      exact last.elim (fun last => last.2.1) fun more => absurd gone more.1
    · simp only [update_of_ne mine] at gone ⊢
      exact unused g gone
  · by_cases mine : g = f
    · subst mine
      simp only [update_self] at alive ⊢
      exact last.elim (fun last => absurd last.1 alive) fun more => more.2.1
    · simp [update_of_ne mine]
  · rcases last with ⟨gone, -, rfl⟩ | ⟨alive, -, rfl⟩
    · rw [drops_update (by omega) gone]
      simp [start, pending, closing_eq_some]
    · have none : drops file (update file f change) c = 0 := by
        refine drops_eq_zero fun g present => ?_
        by_cases mine : g = f
        · subst mine
          rwa [update_self]
        · rwa [update_of_ne mine]
      simp [none, start, pending]

end

section

variable {file : Files} {self : Proc} {work : Work} {page : Option Nat}

theorem claims_work (pc : self.pc = .work work) (f : Fin NFILE) :
    self.claims f = tally (· = some f) (shown self.ofile work.hidden) + work.extra.count f := by
  rw [Proc.claims, pc]
  rfl

theorem claims_closeNext (rest : List (Fin NFILE)) (after : After) (f : Fin NFILE) :
    (self.closeNext rest after).claims f = tally (· = some f) (shown self.ofile after.hidden) + rest.count f := by
  simp [Proc.claims]

theorem closeNext_own (rest : List (Fin NFILE)) (after : After) (np : Fin NPROC) (birth : Birth) :
    (self.closeNext rest after).pc ≠ .birth np birth := by
  cases rest <;> cases after <;> nofun

theorem closeNext_local (runnable : self.state = .runnable) (rest : List (Fin NFILE)) (after : After)
    (cleared : ∀ fd, after = .clear fd → ∀ other < fd, self.ofile other = none) : Local file (self.closeNext rest after) := by
  refine .of_runnable (by simpa using runnable) (by simp) (by simp) fun fd low => ?_
  cases after with
  | returns => simp at low
  | clear last => simpa using cleared last rfl fd (by simpa using low)

theorem closing_advance {f : Fin NFILE} {rest : List (Fin NFILE)} {after : After} (before : Local file self)
    (unused : ∀ f, (file f).ref = 0 → (file f).type = .none) (claimed : ∀ f, self.claims f ≤ (file f).ref)
    (pc : self.pc = .work (.closing f rest after)) :
    ∃ moved, self.resume file page (.closing f rest after) = .ok moved ∧ Advance file self moved := by
  have runnable : self.state = .runnable := before.live (by simp [pc])
  have mine : 0 < self.claims f := by simp [claims_work pc, Work.extra]
  have present : ¬ (file f).ref < 1 := Nat.not_lt_of_le (Nat.le_trans mine (claimed f))
  have start : self.pc.pending = none := by rw [pc]; rfl
  have claims (g : Fin NFILE) : tally (· = some g) (shown self.ofile after.hidden) + rest.count g + (if f = g then 1 else 0) =
      self.claims g := by
    simp [claims_work pc, Work.hidden, Work.extra, count_cons, Nat.add_assoc]
  have cleared (fd : Fin NOFILE) (exits : after = .clear fd) (other : Fin NOFILE) (low : other < fd) : self.ofile other = none := by
    subst exits
    exact before.cleared other (by rw [pc]; exact low)
  obtain ⟨files, left, dropped⟩ : ∃ files left, fileclose file f = .ok (files, left) := by
    unfold fileclose
    rw [if_neg present]
    split
    · exact ⟨_, _, rfl⟩
    · exact ⟨_, _, rfl⟩
  have ran : self.resume file page (.closing f rest after) = match left with
      | some closing => .ok { proc := self.goto (.work (.effect closing rest after)), file := files }
      | none => .ok { proc := self.closeNext rest after, file := files } := by
    simp only [Proc.resume, dropped]
    cases left <;> rfl
  cases left with
  | none =>
    refine ⟨_, ran, .drop unused dropped mine (fun g => ?_) start (by simp) (closeNext_local runnable rest after cleared)
      (closeNext_own rest after)⟩
    rw [claims_closeNext]
    exact claims g
  | some =>
    refine ⟨_, ran, .drop unused dropped mine (fun g => ?_) start rfl ?_ nofun⟩
    · rw [claims_work rfl]
      exact claims g
    · refine .of_runnable runnable (by simp [Proc.goto, Pc.fresh, Work.fresh]) trivial fun fd low => ?_
      cases after with
      | returns => exact absurd low (Nat.not_lt_zero _)
      | clear last => exact cleared last rfl fd low

theorem claims_idle (f : Fin NFILE) :
    (self.goto .idle).claims f = tally (· = some f) (shown self.ofile none) + List.count f [] := rfl

theorem claims_goto {pc : Pc} {f : Fin NFILE} (hidden : pc.hidden = self.pc.hidden) (extra : pc.extra = self.pc.extra) :
    (self.goto pc).claims f = self.claims f := by
  change tally _ (shown self.ofile pc.hidden) + pc.extra.count f = _
  rw [hidden, extra]
  rfl

theorem take_advance {f : Fin NFILE} {next : Work} (before : Local file self)
    (unused : ∀ f, (file f).ref = 0 → (file f).type = .none) (pc : self.pc = .work work) (found : filealloc file = some f)
    (extra : ∀ g, next.extra.count g = work.extra.count g + if f = g then 1 else 0) (hidden : next.hidden = work.hidden)
    (fresh : ∀ g ∈ next.fresh, g = f ∨ g ∈ work.fresh) (start : work.pending = none) (idle : next.pending = none)
    (held : next.Held self.ofile) (cleared : next.cleared = 0) : Advance file self
      { proc := self.goto (.work next), file := update file f { file f with ref := 1 } } := by
  have free := filealloc_free found
  refine .take unused free (fun g => ?_) (by rw [pc]; exact start) idle ?_ nofun
  · rw [claims_work rfl, claims_work pc, extra, hidden]
    exact (Nat.add_assoc ..).symm
  · refine .of_runnable (before.live (by simp [pc])) (fun g member => ?_) held fun fd low => ?_
    · rcases fresh g member with rfl | old
      · simpa using unused g free
      · have kept := before.fresh g (by rw [pc]; exact old)
        have other : g ≠ f := by
          rintro rfl
          omega
        rwa [update_of_ne other]
    · change fd.val < next.cleared at low
      omega

theorem resume_advance (before : Local file self) (unused : ∀ f, (file f).ref = 0 → (file f).type = .none)
    (claimed : ∀ f, self.claims f ≤ (file f).ref) (pc : self.pc = .work work) :
    ∃ moved, self.resume file page work = .ok moved ∧ Advance file self moved := by
  have runnable : self.state = .runnable := before.live (by simp [pc])
  have held : work.Held self.ofile := by
    have := before.held
    rwa [pc] at this
  have fresh : ∀ f ∈ work.fresh, (file f).ref = 1 ∧ (file f).type = .none := by
    have := before.fresh
    rwa [pc] at this
  have cleared : ∀ fd : Fin NOFILE, fd.val < work.cleared → self.ofile fd = none := by
    have := before.cleared
    rwa [pc] at this
  have idle : Local file (self.goto .idle) := .plain runnable rfl trivial rfl
  have quiet : work.pending = none → ∀ c, self.pc.pending = some c ↔ (none : Option Closing) = some c := by
    intro none c
    rw [pc]
    simp [Pc.pending, none]
  have returns (started : work.pending = none) (hidden : work.hidden = none) (extra : work.extra = []) :
      Advance file self { proc := self.goto .idle, file } := by
    refine .same unused (fun f => ?_) (quiet started) rfl idle nofun
    rw [claims_idle, claims_work pc, hidden, extra]
  have closeAll (files : List (Fin NFILE)) (started : work.pending = none) (hidden : work.hidden = none)
      (extra : work.extra = files) : Advance file self { proc := self.closeNext files .returns, file } := by
    refine .same unused (fun g => ?_) (quiet started) (by simp) (closeNext_local runnable files .returns nofun) (closeNext_own _ _)
    rw [claims_closeNext, claims_work pc, hidden, extra]
    rfl
  cases work with
  | opening | piping =>
    cases found : filealloc file with
    | none => exact ⟨_, by simp only [Proc.resume, found], returns rfl rfl rfl⟩
    | some =>
      simp only [Proc.resume, found]
      refine ⟨_, rfl, ?_⟩
      refine take_advance before unused pc found ?_ rfl ?_ rfl rfl trivial rfl
      · simp [Work.extra, count_cons]
      · simp [Work.fresh]
  | opened f =>
    cases found : fdalloc self.ofile with
    | none => exact ⟨_, by simp only [Proc.resume, found], closeAll [f] rfl rfl rfl⟩
    | some fd =>
      simp only [Proc.resume, found]
      refine ⟨_, rfl, ?_⟩
      refine .same unused (fun g => ?_) (quiet rfl) rfl ?_ nofun
      · rw [claims_work rfl, claims_work pc]
        change tally _ (update self.ofile fd (some f)) + count g [] = tally _ self.ofile + [f].count g
        rw [tally_set (fdalloc_none found)]
        simp [count_cons]
      · exact .of_runnable runnable fresh ⟨fd, update_self ..⟩ nofun
  | typing f =>
    refine ⟨_, rfl, ?_⟩
    refine .fill unused (fun g => ?_) before (fun g other => ?_) (fun g => ?_) (by rw [pc]; rfl) rfl ?_ nofun
    · by_cases mine : g = f
      · subst mine
        simp
      · rw [update_of_ne mine]
    · rw [pc] at other
      exact update_of_ne (fun mine : g = f => other (by simp [mine, Pc.fresh, Work.fresh])) ..
    · rw [claims_idle, claims_work pc]
      rfl
    · exact .plain runnable rfl trivial rfl
  | duping f fd =>
    obtain ⟨here, other, apart, _⟩ := held
    have mine : 0 < self.claims f := by
      rw [claims_work pc]
      refine Nat.add_pos_left (tally_pos_of_kind (i := other) ?_) _
      change update self.ofile fd none other = some f
      rwa [update_of_ne apart]
    have present : ¬ (file f).ref < 1 := Nat.not_lt_of_le (Nat.le_trans mine (claimed f))
    simp only [Proc.resume, filedup, if_neg present]
    refine ⟨_, rfl, ?_⟩
    refine .bump unused mine (fun g => ?_) (by rw [pc]; rfl) rfl (.plain runnable rfl trivial rfl) nofun
    rw [claims_idle, claims_work pc, shown, ← tally_clear (g := g) here]
    simp [Work.extra, Work.hidden, shown]
  | closing => exact closing_advance before unused claimed pc
  | effect _ rest after =>
    refine ⟨_, rfl, ?_⟩
    refine .same unused (fun g => ?_) (fun d => ?_) (by simp) ?_ (closeNext_own _ _)
    · rw [claims_closeNext, claims_work pc]
      rfl
    · rw [pc]
      rfl
    · refine closeNext_local runnable rest after ?_
      rintro fd rfl other low
      exact cleared other low
  | pipingWrite f0 =>
    cases found : filealloc file with
    | none => exact ⟨_, by simp only [Proc.resume, found], closeAll [f0] rfl rfl rfl⟩
    | some =>
      simp only [Proc.resume, found]
      refine ⟨_, rfl, ?_⟩
      refine take_advance before unused pc found ?_ rfl ?_ rfl rfl trivial rfl
      · intro g
        simp only [Work.extra, count_cons, count_nil, beq_iff_eq]
        omega
      · simp [Work.fresh, or_comm]
  | pipingPage f0 f1 =>
    cases page with
    | none => exact ⟨_, rfl, closeAll [f0, f1] rfl rfl rfl⟩
    | some =>
      refine ⟨_, rfl, ?_⟩
      refine .fill unused (fun g => ?_) before (fun g other => ?_) (fun g => ?_) (by rw [pc]; rfl) rfl ?_ nofun
      · by_cases write : g = f1
        · subst write
          by_cases read : g = f0
          · subst read
            simp
          · simp [update_of_ne read]
        · rw [update_of_ne write]
          by_cases read : g = f0
          · subst read
            simp
          · rw [update_of_ne read]
      · rw [pc] at other
        have read : g ≠ f0 := fun mine => other (by simp [mine, Pc.fresh, Work.fresh])
        have write : g ≠ f1 := fun mine => other (by simp [mine, Pc.fresh, Work.fresh])
        rw [update_of_ne write, update_of_ne read]
      · rw [claims_work rfl, claims_work pc]
        rfl
      · exact .plain runnable rfl trivial rfl
  | installing rf wf =>
    cases found : fdalloc self.ofile with
    | none => exact ⟨_, by simp only [Proc.resume, found], closeAll [rf, wf] rfl rfl rfl⟩
    | some fd0 =>
      simp only [Proc.resume, found]
      refine ⟨_, rfl, ?_⟩
      refine .same unused (fun g => ?_) (quiet rfl) rfl ?_ nofun
      · rw [claims_work rfl, claims_work pc]
        change tally _ (update self.ofile fd0 (some rf)) + [wf].count g = tally _ self.ofile + [rf, wf].count g
        rw [tally_set (fdalloc_none found)]
        simp only [count_cons, count_nil, beq_iff_eq]
        omega
      · exact .plain runnable rfl (update_self ..) rfl
  | installingWrite rf wf fd0 =>
    have here : self.ofile fd0 = some rf := held
    cases found : fdalloc self.ofile with
    | none =>
      simp only [Proc.resume, found]
      refine ⟨_, rfl, ?_⟩
      refine .same unused (fun g => ?_) (quiet rfl) (by simp) ?_ (closeNext_own _ _)
      · rw [claims_closeNext, claims_work pc]
        change tally _ (update self.ofile fd0 none) + [rf, wf].count g = tally _ self.ofile + [wf].count g
        rw [← tally_clear (g := g) here]
        simp only [count_cons, count_nil, beq_iff_eq]
        omega
      · have alive : (self.setFd fd0 none).state = .runnable := runnable
        exact closeNext_local alive [rf, wf] .returns nofun
    | some fd1 =>
      simp only [Proc.resume, found]
      refine ⟨_, rfl, ?_⟩
      refine .same unused (fun g => ?_) (quiet rfl) rfl (.plain runnable rfl trivial rfl) nofun
      rw [claims_work pc]
      change tally _ (update self.ofile fd1 (some wf)) + count g [] = tally _ self.ofile + [wf].count g
      rw [tally_set (fdalloc_none found)]
      simp [count_cons]
  | exiting fd =>
    by_cases bound : fd < NOFILE
    · cases here : self.ofile ⟨fd, bound⟩ with
      | none =>
        simp only [Proc.resume, dif_pos bound, here]
        refine ⟨_, rfl, ?_⟩
        refine .same unused (fun g => ?_) (quiet rfl) rfl ?_ nofun
        · rw [claims_work rfl, claims_work pc]
          rfl
        · refine .of_runnable runnable nofun trivial fun other low => ?_
          rcases Nat.lt_succ_iff_lt_or_eq.mp low with low | same
          · exact cleared other low
          · obtain rfl : other = ⟨fd, bound⟩ := Fin.ext same
            exact here
      | some f =>
        simp only [Proc.resume, dif_pos bound, here]
        refine ⟨_, rfl, ?_⟩
        refine .same unused (fun g => ?_) (quiet rfl) (by simp) ?_ (closeNext_own _ _)
        · rw [claims_closeNext, claims_work pc]
          change tally _ (update self.ofile ⟨fd, bound⟩ none) + [f].count g = tally _ self.ofile + count g []
          rw [← tally_clear (g := g) here]
          simp [count_cons]
        · refine closeNext_local runnable [f] _ ?_
          rintro _ ⟨⟩ other low
          exact cleared other low
    · simp only [Proc.resume, dif_neg bound]
      refine ⟨_, rfl, ?_⟩
      refine .same unused (fun g => ?_) (quiet rfl) rfl ?_ nofun
      · rw [claims_work pc]
        rfl
      · have gone (other : Fin NOFILE) : self.ofile other = none :=
          cleared other (Nat.lt_of_lt_of_le other.isLt (Nat.le_of_not_lt bound))
        exact ⟨nofun, fun _ => gone, nofun, trivial, nofun⟩
  | clearing fd =>
    refine ⟨_, rfl, ?_⟩
    refine .same unused (fun g => ?_) (quiet rfl) rfl ?_ nofun
    · rw [claims_work rfl, claims_work pc]
      rfl
    · refine .of_runnable runnable nofun trivial fun other low => ?_
      change update self.ofile fd none other = none
      rcases Nat.lt_succ_iff_lt_or_eq.mp low with low | same
      · have apart : other ≠ fd := fun same => Nat.lt_irrefl _ (same ▸ low)
        rw [update_of_ne apart]
        exact cleared other low
      · rw [Fin.ext same, update_self]

end

/-! ## All processes -/

/-- The descriptor that fork or clone copies next. -/
def Birth.next : Birth → Nat
  | .dup i => i
  | _ => 0

structure Counted (s : State) (count : Closing → Nat) : Prop where
  refs : ∀ f, (s.file f).ref = total (Proc.claims f) s.proc
  unused : ∀ f, (s.file f).ref = 0 → (s.file f).type = .none
  own : ∀ p, Local s.file (s.proc p)
  child : ∀ p np birth, (s.proc p).pc = .birth np birth →
    (s.proc np).state = .embryo ∧ ∀ fd : Fin NOFILE, birth.next ≤ fd → (s.proc np).ofile fd = none
  parent : ∀ p q np birth other, (s.proc p).pc = .birth np birth → (s.proc q).pc = .birth np other → p = q
  closes : ∀ c, count c = s.closed.count c + tally (fun proc => proc.pc.pending = some c) s.proc
  panics : s.halted ≠ some .filedup ∧ s.halted ≠ some .fileclose

section

variable {s next : State} {count : Closing → Nat} {p q np : Fin NPROC} {event : Event}

section

variable (counted : Counted s count)
include counted

theorem Counted.claimed (p : Fin NPROC) (f : Fin NFILE) : (s.proc p).claims f ≤ (s.file f).ref := by
  rw [counted.refs]
  exact weight_le_total (Proc.claims f) s.proc p

theorem Counted.exclusive (apart : q ≠ p) {f : Fin NFILE} (fresh : f ∈ (s.proc q).pc.fresh) :
    (s.proc p).claims f = 0 := by
  have one := ((counted.own q).fresh f fresh).1
  have mine := fresh_claimed (counted.own q) fresh
  have both := weight_add_le_total (Proc.claims f) s.proc apart
  rw [← counted.refs] at both
  omega

/-- A process stays as it is when another one touches only files to which it holds references. -/
theorem Counted.frame (apart : q ≠ p) {file : Files}
    (touches : ∀ f, (s.file f).ref ≠ 0 → (s.proc p).claims f = 0 → file f = s.file f) : Local file (s.proc q) := by
  obtain ⟨live, empty, fresh, held, cleared⟩ := counted.own q
  refine ⟨live, empty, fun f member => ?_, held, cleared⟩
  have one := fresh f member
  rwa [touches f (by omega) (counted.exclusive apart member)]

theorem Counted.embryo_idle (embryo : (s.proc np).state ≠ .runnable) : (s.proc np).pc = .idle := by
  by_contra busy
  exact embryo ((counted.own np).live busy)

theorem Counted.advance {moved : Moved} (alive : (s.proc p).state = .runnable)
    (advance : Advance s.file (s.proc p) moved) :
    Counted { s.setProc p moved.proc with file := moved.file, closed := s.closed ++ moved.closed.toList }
      (fun c => count c + drops s.file moved.file c) := by
  have at' (q : Fin NPROC) : (s.setProc p moved.proc).proc q = if q = p then moved.proc else s.proc q := update_apply ..
  have born (q np : Fin NPROC) (birth : Birth) (pc : ((s.setProc p moved.proc).proc q).pc = .birth np birth) :
      q ≠ p ∧ (s.proc q).pc = .birth np birth := by
    rw [at'] at pc
    split at pc
    · exact absurd pc (advance.own np birth)
    · exact ⟨by assumption, pc⟩
  refine ⟨fun f => ?_, advance.unused, fun q => ?_, fun q np birth pc => ?_, fun q r np birth other pc pc' => ?_, fun c => ?_, counted.panics⟩
  · have before := counted.refs f
    have change := advance.refs f
    have sum := total_update (Proc.claims f) s.proc p moved.proc
    change (moved.file f).ref = total (Proc.claims f) (update s.proc p moved.proc)
    omega
  · change Local moved.file ((s.setProc p moved.proc).proc q)
    rw [at']
    split
    · exact advance.after
    · exact counted.frame (by assumption) advance.touches
  · obtain ⟨-, pc⟩ := born q np birth pc
    have embryo := (counted.child q np birth pc).1
    have apart : np ≠ p := by
      rintro rfl
      rw [alive] at embryo
      contradiction
    rw [at', if_neg apart]
    exact counted.child q np birth pc
  · exact counted.parent q r np birth other (born q np birth pc).2 (born r np other pc').2
  · have before := counted.closes c
    have change := advance.closes c
    have sum := tally_update (fun proc : Proc => proc.pc.pending = some c) s.proc p moved.proc
    have shown : (s.closed ++ moved.closed.toList).count c = s.closed.count c + if moved.closed = some c then 1 else 0 := by
      cases moved.closed <;> simp [count_cons]
    change count c + _ = (s.closed ++ moved.closed.toList).count c + tally _ (update s.proc p moved.proc)
    omega

theorem Counted.local {proc : Proc} (idle : (s.proc p).pc = .idle)
    (alive : (s.proc p).state = .runnable) (claims : ∀ f, proc.claims f = (s.proc p).claims f)
    (quiet : proc.pc.pending = none) (after : Local s.file proc) (own : ∀ np birth, proc.pc ≠ .birth np birth) :
    Counted (s.setProc p proc) (fun c => count c + drops s.file s.file c) := by
  have advance : Advance s.file (s.proc p) { proc, file := s.file } :=
    .same counted.unused claims (fun c => by rw [idle]; rfl) quiet after own
  have step := counted.advance alive advance
  rwa [Option.toList, append_nil] at step

theorem Counted.pair {file : Files} {parent child : Proc} (apart : np ≠ p)
    (alive : (s.proc p).state = .runnable) (idle : (s.proc np).pc = .idle) (childIdle : child.pc = .idle)
    (refs : ∀ f, (file f).ref + ((s.proc p).claims f + (s.proc np).claims f) = (s.file f).ref + (parent.claims f + child.claims f))
    (touches : ∀ f, (s.file f).ref ≠ 0 → (s.proc p).claims f = 0 → file f = s.file f)
    (unused : ∀ f, (file f).ref = 0 → (file f).type = .none) (present : ∀ f, (s.file f).ref ≠ 0 → (file f).ref ≠ 0)
    (start : (s.proc p).pc.pending = none) (quiet : parent.pc.pending = none)
    (parentLocal : Local file parent) (childLocal : Local file child) (bears : ∀ other birth, parent.pc = .birth other birth →
      other = np ∧ child.state = .embryo ∧ ∀ fd : Fin NOFILE, birth.next ≤ fd → child.ofile fd = none)
    (only : ∀ q birth, (s.proc q).pc = .birth np birth → q = p) :
    Counted { s with file, proc := update (update s.proc np child) p parent }
      (fun c => count c + drops s.file file c) := by
  have at' (q : Fin NPROC) : update (update s.proc np child) p parent q =
      if q = p then parent else if q = np then child else s.proc q := by
    rw [update_apply, update_apply]
  have born (q other : Fin NPROC) (birth : Birth) (pc : (update (update s.proc np child) p parent q).pc = .birth other birth) :
      q = p ∧ parent.pc = .birth other birth ∧ other = np ∨ q ≠ p ∧ other ≠ np ∧ (s.proc q).pc = .birth other birth := by
    rw [at'] at pc
    split at pc
    · rename_i mine
      exact .inl ⟨mine, pc, (bears other birth pc).1⟩
    · rename_i other'
      split at pc
      · rw [childIdle] at pc
        contradiction
      · refine .inr ⟨other', ?_, pc⟩
        rintro rfl
        exact other' (only q birth pc)
  refine ⟨fun f => ?_, unused, fun q => ?_, fun q other birth pc => ?_, fun q r other birth birth' pc pc' => ?_, fun c => ?_, counted.panics⟩
  · have before := counted.refs f
    have change := refs f
    have first := total_update (Proc.claims f) s.proc np child
    have second := total_update (Proc.claims f) (update s.proc np child) p parent
    rw [update_of_ne apart.symm] at second
    change (file f).ref = total (Proc.claims f) (update (update s.proc np child) p parent)
    omega
  · change Local file (update (update s.proc np child) p parent q)
    rw [at']
    split
    · exact parentLocal
    · split
      · exact childLocal
      · exact counted.frame (by assumption) touches
  · change (update (update s.proc np child) p parent other).state = .embryo ∧
      ∀ fd : Fin NOFILE, _ → (update (update s.proc np child) p parent other).ofile fd = none
    rcases born q other birth pc with ⟨-, bearing, rfl⟩ | ⟨-, differs, pc⟩
    · rw [at', if_neg apart, if_pos rfl]
      exact (bears other birth bearing).2
    · have embryo := (counted.child q other birth pc).1
      have away : other ≠ p := by
        rintro rfl
        rw [alive] at embryo
        contradiction
      rw [at', if_neg away, if_neg differs]
      exact counted.child q other birth pc
  · rcases born q other birth pc with ⟨rfl, -, rfl⟩ | ⟨-, differs, pc⟩
    · rcases born r other birth' pc' with ⟨rfl, -⟩ | ⟨-, differs, -⟩
      · rfl
      · exact absurd rfl differs
    · rcases born r other birth' pc' with ⟨-, -, same⟩ | ⟨-, -, pc'⟩
      · exact absurd same differs
      · exact counted.parent q r other birth birth' pc pc'
  · have before := counted.closes c
    have first := tally_update (fun proc : Proc => proc.pc.pending = some c) s.proc np child
    have second := tally_update (fun proc : Proc => proc.pc.pending = some c) (update s.proc np child) p parent
    rw [update_of_ne apart.symm] at second
    have none : drops s.file file c = 0 := drops_eq_zero present
    have away : Pc.idle.pending = Option.none := rfl
    simp only [idle, childIdle, start, quiet, away, reduceCtorEq, if_false, Nat.add_zero] at first second
    change count c + drops s.file file c = s.closed.count c + tally _ (update (update s.proc np child) p parent)
    omega

end

theorem argfd_some {ofile : Fds} {n : Int} {fd : Fin NOFILE} {f : Fin NFILE} (found : argfd ofile n = some (fd, f)) :
    ofile fd = some f := by
  unfold argfd at found
  split at found
  · obtain ⟨g, here, same⟩ := Option.map_eq_some_iff.mp found
    cases same
    exact here
  · contradiction

theorem Counted.only_parent (counted : Counted s count) {birth : Birth} (pc : (s.proc p).pc = .birth np birth) (q : Fin NPROC)
    (other : Birth) (bears : (s.proc q).pc = .birth np other) : q = p :=
  counted.parent q p np other birth bears pc

theorem Counted.bearing (counted : Counted s count) {birth : Birth} (pc : (s.proc p).pc = .birth np birth) :
    (s.proc p).state = .runnable ∧ np ≠ p ∧ (s.proc np).state = .embryo ∧ (s.proc np).pc = .idle ∧
      ∀ fd : Fin NOFILE, birth.next ≤ fd → (s.proc np).ofile fd = none := by
  have alive : (s.proc p).state = .runnable := (counted.own p).live (by rw [pc]; nofun)
  obtain ⟨embryo, free⟩ := counted.child p np birth pc
  refine ⟨alive, ?_, embryo, counted.embryo_idle (by rw [embryo]; nofun), free⟩
  rintro rfl
  rw [alive] at embryo
  contradiction

theorem Counted.stays (counted : Counted s count) : Counted s (fun c => count c + drops s.file s.file c) := by
  obtain ⟨refs, unused, own, child, parent, closes, panics⟩ := counted
  refine ⟨refs, unused, own, child, parent, fun c => ?_, panics⟩
  have none : drops s.file s.file c = 0 := drops_eq_zero fun _ => id
  rw [none, Nat.add_zero]
  exact closes c

theorem Local.of_pc {file : Files} {proc : Proc} (idle : proc.pc = .idle)
    (empty : proc.state = .unused ∨ proc.state = .zombie → ∀ fd, proc.ofile fd = none) : Local file proc := by
  refine ⟨fun busy => absurd idle busy, empty, ?_, ?_, ?_⟩ <;> rw [idle]
  · nofun
  · trivial
  · nofun

theorem Counted.beget (counted : Counted s count) (alive : (s.proc p).state = .runnable) (idle : (s.proc p).pc = .idle)
    (thread : Bool) : Counted (s.beget p thread) (fun c => count c + drops s.file (s.beget p thread).file c) := by
  cases found : s.allocproc with
  | none =>
    have same : s.beget p thread = s := by simp only [State.beget, found]
    rw [same]
    exact counted.stays
  | some np =>
    have free : (s.proc np).state = .unused := by simpa using List.find?_some found
    have apart : np ≠ p := by
      rintro rfl
      rw [alive] at free
      contradiction
    have empty := (counted.own np).empty (.inl free)
    have away : (s.proc np).pc = .idle := counted.embryo_idle (by rw [free]; nofun)
    have result : s.beget p thread = { s with
        proc := update (update s.proc np { s.proc np with state := .embryo }) p
          ((s.proc p).goto (.birth np (.kstack thread))) } := by
      simp only [State.beget, found, State.goto, State.setState, State.setProc, update_of_ne apart.symm]
    rw [result]
    refine counted.pair apart alive away away (fun f => ?_) (fun _ _ _ => rfl) counted.unused (fun _ => id) (by rw [idle]; rfl) rfl
      ?_ ?_ ?_ ?_
    · rw [claims_goto (by rw [idle]; rfl) (by rw [idle]; rfl)]
      rfl
    · exact .plain alive rfl trivial rfl
    · exact .of_pc away (by simp)
    · rintro _ birth ⟨⟩
      exact ⟨rfl, rfl, fun fd _ => empty fd⟩
    · intro q birth pc
      have := (counted.child q np birth pc).1
      rw [free] at this
      contradiction

section

variable {birth : Birth}

theorem Counted.delivered (counted : Counted s count) (pc : (s.proc p).pc = .birth np birth) {state : ProcState}
    (empty : state = .unused ∨ state = .zombie → birth.next = 0) :
    Counted ((s.setState np state).goto p .idle) (fun c => count c + drops s.file s.file c) := by
  obtain ⟨alive, apart, embryo, away, free⟩ := counted.bearing pc
  have result : (s.setState np state).goto p .idle = { s with
      proc := update (update s.proc np { s.proc np with state }) p ((s.proc p).goto .idle) } := by
    simp only [goto, setState, setProc, update_of_ne apart.symm]
  rw [result]
  refine counted.pair apart alive away away (fun f => ?_) (fun _ _ _ => rfl) counted.unused (fun _ => id) (by rw [pc]; rfl) rfl
    (.plain alive rfl trivial rfl) (.of_pc away fun dead fd => ?_) nofun (counted.only_parent pc)
  · rw [claims_goto (by rw [pc]; rfl) (by rw [pc]; rfl)]
    rfl
  · exact free fd (empty dead ▸ Nat.zero_le _)

theorem Counted.bears (counted : Counted s count) (pc : (s.proc p).pc = .birth np birth) {later : Birth}
    (next : birth.next ≤ later.next) : Counted (s.goto p (.birth np later)) (fun c => count c + drops s.file s.file c) := by
  obtain ⟨alive, apart, embryo, away, free⟩ := counted.bearing pc
  have result : s.goto p (.birth np later) = { s with
      proc := update (update s.proc np (s.proc np)) p ((s.proc p).goto (.birth np later)) } := by
    rw [update_eq_self]
    rfl
  rw [result]
  refine counted.pair apart alive away away (fun f => ?_) (fun _ _ _ => rfl) counted.unused (fun _ => id) (by rw [pc]; rfl) rfl
    (.plain alive rfl trivial rfl) (counted.own np) ?_ (counted.only_parent pc)
  · rw [claims_goto (by rw [pc]; rfl) (by rw [pc]; rfl)]
  · rintro _ _ ⟨⟩
    exact ⟨rfl, embryo, fun fd beyond => free fd (Nat.le_trans next beyond)⟩

theorem Counted.copies (counted : Counted s count) {i : Nat} (pc : (s.proc p).pc = .birth np (.dup i)) (bound : i < NOFILE)
    {f : Fin NFILE} (here : (s.proc p).ofile ⟨i, bound⟩ = some f) : (s.file f).ref ≠ 0 ∧ Counted
      (({ s with file := update s.file f { s.file f with ref := (s.file f).ref + 1 } }.setProc np
        ((s.proc np).setFd ⟨i, bound⟩ (some f))).goto p (.birth np (.dup (i + 1))))
      (fun c => count c + drops s.file (update s.file f { s.file f with ref := (s.file f).ref + 1 }) c) := by
  obtain ⟨alive, apart, embryo, away, free⟩ := counted.bearing pc
  have mine : 0 < (s.proc p).claims f := by
    refine Nat.add_pos_left (tally_pos_of_kind (i := ⟨i, bound⟩) ?_) _
    rw [pc]
    exact here
  have present : (s.file f).ref ≠ 0 := Nat.ne_of_gt (Nat.lt_of_lt_of_le mine (counted.claimed p f))
  have result : ({ s with file := update s.file f { s.file f with ref := (s.file f).ref + 1 } }.setProc np
      ((s.proc np).setFd ⟨i, bound⟩ (some f))).goto p (.birth np (.dup (i + 1))) = { s with
        file := update s.file f { s.file f with ref := (s.file f).ref + 1 }
        proc := update (update s.proc np ((s.proc np).setFd ⟨i, bound⟩ (some f))) p
          ((s.proc p).goto (.birth np (.dup (i + 1)))) } := by
    simp only [State.goto, State.setProc, update_of_ne apart.symm]
  rw [result]
  refine ⟨present, counted.pair apart alive away away (fun g => ?_) (fun g _ => untouched_bump mine)
    (fun g => unused_bump counted.unused) (fun g => present_bump) (by rw [pc]; rfl) rfl (.plain alive rfl trivial rfl)
    (.of_pc away fun dead => ?_) ?_ (counted.only_parent pc)⟩
  · have copied : ((s.proc np).setFd ⟨i, bound⟩ (some f)).claims g = (s.proc np).claims g + if f = g then 1 else 0 := by
      simp only [Proc.claims, Proc.setFd, away]
      change tally _ (update (s.proc np).ofile ⟨i, bound⟩ (some f)) + List.count g [] = tally _ (s.proc np).ofile + List.count g [] + _
      rw [tally_set (free ⟨i, bound⟩ (Nat.le_refl i))]
      omega
    rw [claims_goto (by rw [pc]; rfl) (by rw [pc]; rfl), copied, ref_bump]
    omega
  · simp [Proc.setFd, embryo] at dead
  · rintro _ _ ⟨⟩
    refine ⟨rfl, embryo, fun fd beyond => ?_⟩
    have apart : fd ≠ ⟨i, bound⟩ := by
      rintro rfl
      exact absurd beyond (Nat.not_succ_le_self i)
    change update (s.proc np).ofile ⟨i, bound⟩ (some f) fd = none
    rw [update_of_ne apart]
    exact free fd (Nat.le_of_succ_le beyond)

def Stable (before after : Files) : Prop :=
  ∀ f, (before f).type ≠ .none → (after f).ref ≠ 0 → after f = { before f with ref := (after f).ref }

theorem Counted.bear (counted : Counted s count) (pc : (s.proc p).pc = .birth np birth) (page : Option Nat) :
    Counted (s.bear p np page birth) (fun c => count c + drops s.file (s.bear p np page birth).file c) ∧
      Stable s.file (s.bear p np page birth).file := by
  cases birth with
  | kstack | copying =>
    cases page with
    | none => exact ⟨counted.delivered pc fun _ => rfl, fun _ _ _ => rfl⟩
    | some => exact ⟨counted.bears pc (Nat.zero_le _), fun _ _ _ => rfl⟩
  | dup i =>
    by_cases bound : i < NOFILE
    · cases here : (s.proc p).ofile ⟨i, bound⟩ with
      | none =>
        simp only [State.bear, dif_pos bound, here]
        exact ⟨counted.bears pc (Nat.le_succ i), fun _ _ _ => rfl⟩
      | some f =>
        obtain ⟨_, copied⟩ := counted.copies pc bound here
        have dup : filedup s.file f = .ok (update s.file f { s.file f with ref := (s.file f).ref + 1 }) := if_neg (by omega)
        simp only [State.bear, dif_pos bound, here, dup]
        exact ⟨copied, fun g _ _ => same_bump⟩
    · simp only [State.bear, dif_neg bound]
      exact ⟨counted.delivered pc nofun, fun _ _ _ => rfl⟩

end

theorem Counted.reaped (counted : Counted s count) (alive : (s.proc p).state = .runnable) (idle : (s.proc p).pc = .idle)
    (zombie : (s.proc np).state = .zombie) : Counted (s.setState np .unused) (fun c => count c + drops s.file s.file c) := by
  have apart : np ≠ p := by
    rintro rfl
    rw [alive] at zombie
    contradiction
  have away : (s.proc np).pc = .idle := counted.embryo_idle (by rw [zombie]; nofun)
  have result : s.setState np .unused = { s with
      proc := update (update s.proc np { s.proc np with state := .unused }) p (s.proc p) } := by
    rw [update_comm apart, update_eq_self]
    rfl
  rw [result]
  refine counted.pair apart alive away away (fun f => rfl) (fun _ _ _ => rfl) counted.unused (fun _ => id) (by rw [idle]; rfl)
    (by rw [idle]; rfl) (counted.own p) (.of_pc away fun _ => (counted.own np).empty (.inr zombie)) ?_ ?_
  · intro other birth pc
    rw [idle] at pc
    contradiction
  · intro q birth pc
    have := (counted.child q np birth pc).1
    rw [zombie] at this
    contradiction

theorem Counted.halted (counted : Counted s count) : Counted (s.halt .exit) (fun c => count c + drops s.file s.file c) := by
  obtain ⟨refs, unused, own, child, parent, closes, -⟩ := counted.stays
  exact ⟨refs, unused, own, child, parent, closes, by simp [halt]⟩

theorem claims_start (idle : (s.proc p).pc = .idle) (f : Fin NFILE) :
    (s.proc p).claims f = tally (· = some f) (s.proc p).ofile + List.count f [] := by
  rw [Proc.claims, idle]
  rfl

theorem Counted.start (counted : Counted s count) (alive : (s.proc p).state = .runnable) (idle : (s.proc p).pc = .idle)
    {call : Call} (started : s.start p call = some next) :
    next.file = s.file ∧ Counted next (fun c => count c + drops s.file s.file c) := by
  have enter {work : Work} (hidden : work.hidden = none) (extra : work.extra = []) (fresh : work.fresh = [])
      (quiet : work.pending = none) (held : work.Held (s.proc p).ofile) (cleared : work.cleared = 0) :
      Counted (s.goto p (.work work)) (fun c => count c + drops s.file s.file c) := by
    refine counted.local idle alive (fun f => ?_) quiet (.plain alive fresh held cleared) nofun
    exact claims_goto (by rw [idle]; exact hidden) (by rw [idle]; exact extra)
  cases call with
  | «open» ip omode =>
    cases ip with
    | none =>
      cases started
      exact ⟨rfl, counted.stays⟩
    | some =>
      cases started
      exact ⟨rfl, enter rfl rfl rfl rfl trivial rfl⟩
  | dup fd =>
    cases found : argfd (s.proc p).ofile fd with
    | none =>
      obtain rfl : s = next := by simpa [State.start, found] using started
      exact ⟨rfl, counted.stays⟩
    | some pair =>
      obtain ⟨old, f⟩ := pair
      cases free : fdalloc (s.proc p).ofile with
      | none =>
        obtain rfl : s = next := by simpa [State.start, found, free] using started
        exact ⟨rfl, counted.stays⟩
      | some new =>
        simp only [State.start, found, free] at started
        cases started
        have here := argfd_some found
        have vacant := fdalloc_none free
        have apart : old ≠ new := by
          rintro rfl
          rw [here] at vacant
          contradiction
        refine ⟨rfl, counted.local idle alive (fun g => ?_) rfl ?_ nofun⟩
        · rw [claims_work rfl, claims_start idle]
          change tally _ (update (update (s.proc p).ofile new (some f)) new none) + List.count g [] = _
          rw [update_idem, ← vacant, update_eq_self]
        · refine .plain alive rfl ⟨update_self .., old, apart, ?_⟩ rfl
          change update (s.proc p).ofile new (some f) old = some f
          rw [update_of_ne apart]
          exact here
  | close fd =>
    cases found : argfd (s.proc p).ofile fd with
    | none =>
      obtain rfl : s = next := by simpa [State.start, found] using started
      exact ⟨rfl, counted.stays⟩
    | some pair =>
      obtain ⟨old, f⟩ := pair
      simp only [State.start, found] at started
      cases started
      have alive' : ((s.proc p).setFd old none).state = .runnable := alive
      refine ⟨rfl, counted.local idle alive (fun g => ?_) (by simp) (closeNext_local alive' [f] .returns nofun) (closeNext_own _ _)⟩
      rw [claims_closeNext, claims_start idle]
      change tally _ (update (s.proc p).ofile old none) + [f].count g = _
      rw [← tally_clear (g := g) (argfd_some found)]
      simp [count_cons]
  | pipe valid =>
    cases valid with
    | false =>
      cases started
      exact ⟨rfl, counted.stays⟩
    | true =>
      cases started
      exact ⟨rfl, enter rfl rfl rfl rfl trivial rfl⟩
  | fork =>
    cases started
    have same : (s.beget p false).file = s.file := by
      unfold State.beget
      cases s.allocproc <;> rfl
    exact ⟨same, same ▸ counted.beget alive idle false⟩
  | clone =>
    cases started
    have same : (s.beget p true).file = s.file := by
      unfold State.beget
      cases s.allocproc <;> rfl
    exact ⟨same, same ▸ counted.beget alive idle true⟩
  | exit =>
    simp only [State.start] at started
    split at started
    · cases started
      exact ⟨rfl, counted.halted⟩
    · cases started
      exact ⟨rfl, enter rfl rfl rfl rfl trivial rfl⟩
  | wait =>
    simp only [State.start] at started
    split at started
    · cases started
      exact ⟨rfl, counted.reaped alive idle (by assumption)⟩
    · contradiction

theorem Counted.step (counted : Counted s count) (stepped : s.step event = some next) :
    Counted next (dropped s event next count) ∧ Stable s.file next.file := by
  unfold State.step at stepped
  split at stepped
  · cases event with
    | start =>
      simp only at stepped
      split at stepped
      · rename_i ready
        obtain ⟨same, kept⟩ := counted.start ready.1 ready.2 stepped
        refine ⟨?_, fun f _ _ => by rw [same]⟩
        unfold dropped
        rw [same]
        exact kept
      · contradiction
    | resume p page =>
      simp only [State.resume] at stepped
      split at stepped
      · contradiction
      · rename_i np birth pc
        cases stepped
        exact counted.bear pc page
      · rename_i work pc
        obtain ⟨moved, ran, advance⟩ : ∃ moved, (s.proc p).resume s.file page work = .ok moved ∧ Advance s.file (s.proc p) moved :=
          resume_advance (counted.own p) counted.unused (counted.claimed p) pc
        rw [ran] at stepped
        cases stepped
        have alive : (s.proc p).state = .runnable := (counted.own p).live (by rw [pc]; nofun)
        exact ⟨counted.advance alive advance, advance.stable⟩
  · contradiction

theorem counted_boot (initproc : Fin NPROC) : Counted (State.boot initproc) fun _ => 0 := by
  have idle (p : Fin NPROC) : ((State.boot initproc).proc p).pc = .idle := by
    by_cases mine : p = initproc
    · subst mine
      simp [State.boot]
    · simp [State.boot, update_of_ne mine]
  have empty (p : Fin NPROC) (fd : Fin NOFILE) : ((State.boot initproc).proc p).ofile fd = none := by
    by_cases mine : p = initproc
    · subst mine
      simp [State.boot]
    · simp [State.boot, update_of_ne mine]
  refine ⟨fun f => ?_, fun _ _ => rfl, fun p => .of_pc (idle p) fun _ => empty p, fun p np birth pc => ?_,
    fun p q np birth other pc => ?_, fun c => ?_, by simp [State.boot]⟩
  · refine (Finset.sum_eq_zero fun p _ => ?_).symm
    rw [claims_start (idle p), tally_eq_zero fun fd => by simp [empty p fd]]
    rfl
  · rw [idle] at pc
    contradiction
  · rw [idle] at pc
    contradiction
  · rw [tally_eq_zero fun p => by rw [idle]; nofun]
    rfl

theorem Counted.descriptors (counted : Counted s count) (quiet : s.Quiet) (f : Fin NFILE) :
    (s.file f).ref = (s.descriptors f).card := by
  have each (p : Fin NPROC) : (s.proc p).claims f =
      ∑ fd : Fin NOFILE, if (s.proc p).state ≠ .unused ∧ (s.proc p).ofile fd = some f then 1 else 0 := by
    rw [claims_start (quiet p), count_nil, Nat.add_zero, tally, total]
    refine sum_congr rfl fun fd _ => ?_
    by_cases gone : (s.proc p).state = .unused
    · simp [(counted.own p).empty (.inl gone) fd]
    · simp [gone]
  rw [counted.refs, State.descriptors, card_filter, Fintype.sum_prod_type]
  exact sum_congr rfl fun p _ => each p

theorem Counted.safe {before after : State × (Closing → Nat)} (counted : Counted before.1 before.2)
    (taken : withHistory State.step dropped before event = some after) :
    Counted after.1 after.2 ∧ FilesSafe before event after := by
  obtain ⟨stepped, history⟩ := withHistory_step taken
  obtain ⟨kept, stable⟩ := counted.step stepped
  rw [← history] at kept
  refine ⟨kept, kept.descriptors, kept.unused, fun quiet c => ?_, stable, kept.panics⟩
  have none : tally (fun proc : Proc => proc.pc.pending = some c) after.1.proc = 0 := by
    refine tally_eq_zero fun p => ?_
    rw [quiet p]
    nofun
  rw [kept.closes, none, Nat.add_zero]

end

/-- Every interleaving of the steps of these calls, from boot on. -/
theorem file_references_counted (initproc : Fin NPROC) (events : List Event) :
    EveryStep (withHistory State.step dropped) FilesSafe (State.boot initproc, fun _ => 0) events := by
  exact (runs_along (fun s => Counted s.1 s.2) (counted_boot initproc) (everyStep_true _ _ events)
    (fun _ _ _ counted _ => counted.safe)).1

/-- A process opens an inode, duplicates the descriptor and closes both, and makes a pipe and closes its write end. -/
def lastReferences : List Event :=
  [.start 0 (.open (some 7) 0), .resume 0 none, .resume 0 none, .resume 0 none, .start 0 (.dup 0), .resume 0 none,
    .start 0 (.close 0), .resume 0 none, .start 0 (.close 1), .resume 0 none, .resume 0 none, .start 0 (.pipe true),
    .resume 0 none, .resume 0 none, .resume 0 (some 9), .resume 0 none, .resume 0 none, .start 0 (.close 1),
    .resume 0 none, .resume 0 none]

theorem file_references_counted_lastReferences :
    (run (withHistory State.step dropped) (State.boot 0, fun _ => 0) lastReferences).map
        (fun s => (s.1.closed, s.2 (.iput 7), (s.1.file 0).ref, (s.1.file 1).ref)) =
        some ([.iput 7, .pipeclose 9 true], 1, 1, 0) ∧
      EveryStep (withHistory State.step dropped) FilesSafe (State.boot 0, fun _ => 0) lastReferences :=
  ⟨by decide +kernel, file_references_counted 0 lastReferences⟩

end Xv6.Ftable
