import Xv6.Data.Run
import Xv6.Process.Table

namespace Xv6.Ftable

open Function

open Process (NPROC ProcState)

/-! The table of open files, and the calls that take and drop references to its
entries. A step of a process is a section under `ftable.lock`, a write to a
descriptor table that no other process sees, or the close of what an entry stood
for. Between two steps of one process the others run. -/

def NFILE : Nat := 100

instance : NeZero NFILE := ⟨by decide⟩

def NOFILE : Nat := 16

def O_WRONLY : UInt32 := 1

def O_RDWR : UInt32 := 2

inductive FileType where
  | none
  | pipe
  | inode
deriving DecidableEq, Repr

/-- `struct file`; a pipe and an inode are given by their addresses. -/
structure File where
  type : FileType := .none
  ref : Nat := 0
  readable : Bool := false
  writable : Bool := false
  pipe : Nat := 0
  ip : Nat := 0
  off : UInt32 := 0
deriving DecidableEq, Repr

abbrev Files := Fin NFILE → File

abbrev Fds := Fin NOFILE → Option (Fin NFILE)

inductive Closing where
  | pipeclose (pipe : Nat) (writable : Bool)
  | iput (ip : Nat)
deriving DecidableEq, Repr

inductive Panic where
  | filedup
  | fileclose
  /-- "init exiting" -/
  | exit
deriving DecidableEq, Repr

/-- What fileclose does with its copy `ff` of the last reference. -/
def File.closing (ff : File) : Option Closing :=
  match ff.type with
  | .pipe => some (.pipeclose ff.pipe ff.writable)
  | .inode => some (.iput ff.ip)
  | .none => none

def filealloc (file : Files) : Option (Fin NFILE) := (List.finRange NFILE).find? fun f => (file f).ref = 0

def filedup (file : Files) (f : Fin NFILE) : Except Panic Files :=
  if (file f).ref < 1 then .error .filedup else .ok (update file f { file f with ref := (file f).ref + 1 })

/-- The section under `ftable.lock`, with what is left to close after it. -/
def fileclose (file : Files) (f : Fin NFILE) : Except Panic (Files × Option Closing) :=
  if (file f).ref < 1 then .error .fileclose
  else if 0 < (file f).ref - 1 then .ok (update file f { file f with ref := (file f).ref - 1 }, none)
  else .ok (update file f { file f with ref := 0, type := .none }, (file f).closing)

def fdalloc (ofile : Fds) : Option (Fin NOFILE) := (List.finRange NOFILE).find? fun fd => (ofile fd).isNone

def argfd (ofile : Fds) (fd : Int) : Option (Fin NOFILE × Fin NFILE) :=
  if bound : 0 ≤ fd ∧ fd.toNat < NOFILE then (ofile ⟨fd.toNat, bound.2⟩).map fun f => (⟨fd.toNat, bound.2⟩, f) else none

/-- Where a process goes on when it has closed files. -/
inductive After where
  | returns
  /-- `curproc->ofile[fd] = 0` in exit. -/
  | clear (fd : Fin NOFILE)
deriving DecidableEq, Repr

/-- What a process that is in a call does next. -/
inductive Work where
  /-- sys_open before filealloc, before fdalloc, and when it fills in the file. -/
  | opening (ip : Nat) (omode : UInt32)
  | opened (f : Fin NFILE) (ip : Nat) (omode : UInt32)
  | typing (f : Fin NFILE) (ip : Nat) (omode : UInt32)
  /-- sys_dup before filedup. -/
  | duping (f : Fin NFILE) (fd : Fin NOFILE)
  /-- A call of fileclose, with more of them to come. -/
  | closing (f : Fin NFILE) (rest : List (Fin NFILE)) (after : After)
  | effect (closing : Closing) (rest : List (Fin NFILE)) (after : After)
  /-- pipealloc before each filealloc and before kalloc. -/
  | piping
  | pipingWrite (f0 : Fin NFILE)
  | pipingPage (f0 f1 : Fin NFILE)
  /-- sys_pipe before each fdalloc. -/
  | installing (rf wf : Fin NFILE)
  | installingWrite (rf wf : Fin NFILE) (fd0 : Fin NOFILE)
  | exiting (fd : Nat)
  | clearing (fd : Fin NOFILE)
deriving DecidableEq, Repr

/-- What a process that makes another process `np` does next. -/
inductive Birth where
  /-- allocproc before kalloc. -/
  | kstack (thread : Bool)
  /-- fork before copyuvm. -/
  | copying
  /-- The loop over the open files. -/
  | dup (i : Nat)
deriving DecidableEq, Repr

inductive Pc where
  | idle
  | work (work : Work)
  | birth (np : Fin NPROC) (birth : Birth)
deriving DecidableEq, Repr

/-- The part of `struct proc` that matters here; of the states that the scheduler
gives to a live process there is only `runnable`. -/
structure Proc where
  state : ProcState := .unused
  ofile : Fds := fun _ => none
  pc : Pc := .idle

/-- A process after a step, the files, and what the step closed. -/
structure Moved where
  proc : Proc
  file : Files
  closed : Option Closing := none

namespace Proc

variable (self : Proc)

def goto (pc : Pc) : Proc := { self with pc }

def setFd (fd : Fin NOFILE) (f : Option (Fin NFILE)) : Proc := { self with ofile := update self.ofile fd f }

def closeNext (rest : List (Fin NFILE)) (after : After) : Proc :=
  match rest, after with
  | f :: rest, after => self.goto (.work (.closing f rest after))
  | [], .returns => self.goto .idle
  | [], .clear fd => self.goto (.work (.clearing fd))

/-- `page` is what kalloc returns. -/
def resume (file : Files) (page : Option Nat) : Work → Except Panic Moved
  | .opening ip omode =>
    match filealloc file with
    | none => .ok { proc := self.goto .idle, file }
    | some f =>
      .ok { proc := self.goto (.work (.opened f ip omode)), file := update file f { file f with ref := 1 } }
  | .opened f ip omode =>
    match fdalloc self.ofile with
    | none => .ok { proc := self.closeNext [f] .returns, file }
    | some fd => .ok { proc := (self.setFd fd (some f)).goto (.work (.typing f ip omode)), file }
  | .typing f ip omode =>
    .ok {
      proc := self.goto .idle
      file := update file f { file f with
        type := .inode, ip, off := 0
        readable := omode &&& O_WRONLY = 0
        writable := omode &&& O_WRONLY ≠ 0 ∨ omode &&& O_RDWR ≠ 0 } }
  | .duping f _ => do
    let file ← filedup file f
    pure { proc := self.goto .idle, file }
  | .closing f rest after => do
    let (file, left) ← fileclose file f
    match left with
    | some closing => pure { proc := self.goto (.work (.effect closing rest after)), file }
    | none => pure { proc := self.closeNext rest after, file }
  | .effect closing rest after => .ok { proc := self.closeNext rest after, file, closed := some closing }
  | .piping =>
    match filealloc file with
    | none => .ok { proc := self.goto .idle, file }
    | some f0 => .ok { proc := self.goto (.work (.pipingWrite f0)), file := update file f0 { file f0 with ref := 1 } }
  | .pipingWrite f0 =>
    match filealloc file with
    | none => .ok { proc := self.closeNext [f0] .returns, file }
    | some f1 =>
      .ok { proc := self.goto (.work (.pipingPage f0 f1)), file := update file f1 { file f1 with ref := 1 } }
  | .pipingPage f0 f1 =>
    match page with
    | none => .ok { proc := self.closeNext [f0, f1] .returns, file }
    | some pipe =>
      let file := update file f0 { file f0 with type := .pipe, readable := true, writable := false, pipe }
      .ok {
        proc := self.goto (.work (.installing f0 f1))
        file := update file f1 { file f1 with type := .pipe, readable := false, writable := true, pipe } }
  | .installing rf wf =>
    match fdalloc self.ofile with
    | none => .ok { proc := self.closeNext [rf, wf] .returns, file }
    | some fd0 => .ok { proc := (self.setFd fd0 (some rf)).goto (.work (.installingWrite rf wf fd0)), file }
  | .installingWrite rf wf fd0 =>
    match fdalloc self.ofile with
    | none => .ok { proc := (self.setFd fd0 none).closeNext [rf, wf] .returns, file }
    | some fd1 => .ok { proc := (self.setFd fd1 (some wf)).goto .idle, file }
  | .exiting fd =>
    if bound : fd < NOFILE then
      match self.ofile ⟨fd, bound⟩ with
      | none => .ok { proc := self.goto (.work (.exiting (fd + 1))), file }
      | some f => .ok { proc := self.closeNext [f] (.clear ⟨fd, bound⟩), file }
    else .ok { proc := { self with state := .zombie, pc := .idle }, file }
  | .clearing fd => .ok { proc := (self.setFd fd none).goto (.work (.exiting (fd + 1))), file }

end Proc

/-- `ip` is the inode that sys_open has locked when it comes to filealloc, or none when
it has returned before that; `valid` is what argptr says of the argument of sys_pipe. -/
inductive Call where
  | open (ip : Option Nat) (omode : UInt32)
  | dup (fd : Int)
  | close (fd : Int)
  | pipe (valid : Bool)
  | fork
  | clone
  | exit
  /-- wait, wait2 or join, when it finds the zombie `child`. -/
  | wait (child : Fin NPROC)
deriving DecidableEq, Repr

structure State where
  file : Files := fun _ => {}
  proc : Fin NPROC → Proc
  initproc : Fin NPROC
  /-- Auxiliary: the calls of pipeclose and iput in fileclose. -/
  closed : List Closing := []
  halted : Option Panic := none

inductive Event where
  | start (p : Fin NPROC) (call : Call)
  | resume (p : Fin NPROC) (page : Option Nat)
deriving DecidableEq, Repr

namespace State

variable (s : State) (p : Fin NPROC)

def setProc (proc : Proc) : State := { s with proc := update s.proc p proc }

def goto (pc : Pc) : State := s.setProc p ((s.proc p).goto pc)

def halt (panic : Panic) : State := { s with halted := some panic }

def allocproc : Option (Fin NPROC) := (List.finRange NPROC).find? fun np => (s.proc np).state = .unused

def setState (q : Fin NPROC) (state : ProcState) : State := s.setProc q { s.proc q with state }

/-- allocproc, until it has released `ptable.lock`. -/
def beget (thread : Bool) : State :=
  match s.allocproc with
  | none => s
  | some np => (s.setState np .embryo).goto p (.birth np (.kstack thread))

def bear (np : Fin NPROC) (page : Option Nat) : Birth → State
  | .kstack thread =>
    match page with
    | none => (s.setState np .unused).goto p .idle
    | some _ => s.goto p (.birth np (if thread = true then .dup 0 else .copying))
  | .copying =>
    match page with
    | none => (s.setState np .unused).goto p .idle
    | some _ => s.goto p (.birth np (.dup 0))
  | .dup i =>
    if bound : i < NOFILE then
      match (s.proc p).ofile ⟨i, bound⟩ with
      | none => s.goto p (.birth np (.dup (i + 1)))
      | some f =>
        match filedup s.file f with
        | .error panic => s.halt panic
        | .ok file =>
          ({ s with file }.setProc np ((s.proc np).setFd ⟨i, bound⟩ (some f))).goto p (.birth np (.dup (i + 1)))
    else (s.setState np .runnable).goto p .idle

/-- The start of a call, in a process that is in no other. -/
def start : Call → Option State
  | .open none _ => some s
  | .open (some ip) omode => some (s.goto p (.work (.opening ip omode)))
  | .dup fd =>
    match argfd (s.proc p).ofile fd with
    | none => some s
    | some (_, f) =>
      match fdalloc (s.proc p).ofile with
      | none => some s
      | some new => some (s.setProc p (((s.proc p).setFd new (some f)).goto (.work (.duping f new))))
  | .close fd =>
    match argfd (s.proc p).ofile fd with
    | none => some s
    | some (fd, f) => some (s.setProc p (((s.proc p).setFd fd none).closeNext [f] .returns))
  | .pipe valid => some (if valid = true then s.goto p (.work .piping) else s)
  | .fork => some (s.beget p false)
  | .clone => some (s.beget p true)
  | .exit => some (if p = s.initproc then s.halt .exit else s.goto p (.work (.exiting 0)))
  | .wait child => if (s.proc child).state = .zombie then some (s.setState child .unused) else none

def resume (page : Option Nat) : Option State :=
  match (s.proc p).pc with
  | .idle => none
  | .birth np birth => some (s.bear p np page birth)
  | .work work =>
    match (s.proc p).resume s.file page work with
    | .error panic => some (s.halt panic)
    | .ok moved =>
      some { s.setProc p moved.proc with file := moved.file, closed := s.closed ++ moved.closed.toList }

def step (event : Event) : Option State :=
  if s.halted = none then
    match event with
    | .start p call => if (s.proc p).state = .runnable ∧ (s.proc p).pc = .idle then s.start p call else none
    | .resume p page => s.resume p page
  else none

def boot (initproc : Fin NPROC) : State where
  proc := update (fun _ => {}) initproc { state := .runnable }
  initproc := initproc

end State

end Xv6.Ftable
