import Xv6.Process.Calls

namespace Xv6.Syscall

open Process Option

/-! Fetching the arguments of a system call from the memory of its caller. None
stands for the -1 that the caller of such a function returns at once. -/

def KERNBASE : Nat := 0x80000000

def NOFILE : Nat := 16

def MAXARG : Nat := 32

/-- What a handler reads of the calling process. -/
structure User where
  sz : UInt32
  esp : UInt32
  memory : UInt32 → UInt8

inductive InodeType where
  | dir | file | dev
deriving DecidableEq, Repr

structure Inode where
  type : InodeType
  major : Int16 := 0
  size : UInt32 := 0
deriving DecidableEq, Repr

structure Pipe where
  nread : UInt32
  nwrite : UInt32
  writeopen : Bool
deriving DecidableEq, Repr

inductive FileType where
  | none
  | pipe (pipe : Pipe)
  | inode (ip : Inode) (off : UInt32)
deriving DecidableEq, Repr

structure File where
  type : FileType
  readable : Bool
  writable : Bool
deriving DecidableEq, Repr

abbrev Files := Fin NOFILE → Option File

namespace User

variable (u : User)

/-- `*(int*)addr`, in the byte order of the machine. -/
def int (addr : UInt32) : Int32 :=
  let byte (i : UInt32) : UInt32 := (u.memory (addr + i)).toUInt32
  (byte 0 ||| byte 1 <<< 8 ||| byte 2 <<< 16 ||| byte 3 <<< 24).toInt32

def fetchint (addr : UInt32) : Option Int32 :=
  if addr ≥ u.sz ∨ addr + 4 > u.sz then none else some (u.int addr)

/-- The string's address and its length. -/
def fetchstr (addr : UInt32) : Option (UInt32 × Nat) :=
  if addr ≥ u.sz then none
  else
    ((List.range (u.sz.toNat - addr.toNat)).find? fun i => u.memory (addr + .ofNat i) == 0).map fun length =>
      (addr, length)

def argint (n : Nat) : Option Int32 := u.fetchint (u.esp + 4 + 4 * .ofNat n)

def argptr (n : Nat) (size : Int32) : Option UInt32 := do
  let i ← u.argint n
  if size < 0 ∨ i.toUInt32 ≥ u.sz ∨ i.toUInt32 + size.toUInt32 > u.sz then none else some i.toUInt32

def argstr (n : Nat) : Option (UInt32 × Nat) := do
  let addr ← u.argint n
  u.fetchstr addr.toUInt32

def argfd (ofile : Files) (n : Nat) : Option (Fin NOFILE × File) := do
  let fd ← u.argint n
  if inside : 0 ≤ fd.toInt ∧ fd.toInt < NOFILE then
    let slot : Fin NOFILE := ⟨fd.toInt.toNat, by omega⟩
    (ofile slot).map fun f => (slot, f)
  else none

end User

/-- A function of the kernel with the arguments its handler has fetched for it. -/
inductive Call where
  | fork | exit | wait | getpid | uptime | getppid | getscheduler | yield
  | kill (pid : Int32)
  | growproc (n : Int32)
  | sleep (n : Int32)
  | getptable (nproc size : Int32) (buffer : UInt32)
  | setpriority (pid priority : Int32)
  | semInit (sem value : Int32)
  | semDestroy (sem : Int32)
  | semWait (sem count : Int32)
  | semSignal (sem count : Int32)
  | clone (func arg stack : UInt32)
  | join (stack : UInt32)
  | setscheduler (sid : Int32)
  | wait2 (retime rutime stime : UInt32)
  | dup (f : File)
  | fileread (f : File) (addr : UInt32) (n : Int32)
  | filewrite (f : File) (addr : UInt32) (n : Int32)
  | close (fd : Fin NOFILE) (f : File)
  | filestat (f : File) (st : UInt32)
  | link (old new : UInt32)
  | unlink (path : UInt32)
  | open (path : UInt32) (omode : Int32)
  | mkdir (path : UInt32)
  | mknod (path : UInt32) (major minor : Int32)
  | chdir (path : UInt32)
  | exec (path : UInt32) (argv : List UInt32)
  | pipe (fd : UInt32)
deriving DecidableEq, Repr

section

variable (u : User) (ofile : Files)

def sysKill : Option Call := do
  let pid ← u.argint 0
  some (.kill pid)

def sysSbrk : Option Call := do
  let n ← u.argint 0
  some (.growproc n)

def sysSleep : Option Call := do
  let n ← u.argint 0
  some (.sleep n)

/-- `sizeof(struct proc_us)`. -/
def procUsSize : UInt32 := 52

def sysGetptable : Option Call := do
  let nproc ← u.argint 0
  let size ← u.argint 1
  let buffer ← u.argptr 2 size
  if size.toUInt32 ≠ nproc.toUInt32 * procUsSize then none else some (.getptable nproc size buffer)

def sysSetpriority : Option Call := do
  let pid ← u.argint 0
  let priority ← u.argint 1
  some (.setpriority pid priority)

def sysSemInit : Option Call := do
  let sem ← u.argint 0
  let value ← u.argint 1
  some (.semInit sem value)

def sysSemDestroy : Option Call := do
  let sem ← u.argint 0
  some (.semDestroy sem)

def sysSemWait : Option Call := do
  let sem ← u.argint 0
  let count ← u.argint 1
  some (.semWait sem count)

def sysSemSignal : Option Call := do
  let sem ← u.argint 0
  let count ← u.argint 1
  some (.semSignal sem count)

/-- The stack is fetched as a number, and so is the pointer of sys_join. -/
def sysClone : Option Call := do
  let func ← u.argint 0
  let arg ← u.argint 1
  let stack ← u.argint 2
  some (.clone func.toUInt32 arg.toUInt32 stack.toUInt32)

def sysJoin : Option Call := do
  let stack ← u.argint 0
  some (.join stack.toUInt32)

def sysSetscheduler : Option Call := do
  let sid ← u.argint 0
  some (.setscheduler sid)

/-- The sizes are those of the pointers, which is also that of an int. -/
def sysWait2 : Option Call := do
  let retime ← u.argptr 0 4
  let rutime ← u.argptr 1 4
  let stime ← u.argptr 2 4
  some (.wait2 retime rutime stime)

def sysDup : Option Call := do
  let (_, f) ← u.argfd ofile 0
  some (.dup f)

def sysRead : Option Call := do
  let (_, f) ← u.argfd ofile 0
  let n ← u.argint 2
  let p ← u.argptr 1 n
  some (.fileread f p n)

def sysWrite : Option Call := do
  let (_, f) ← u.argfd ofile 0
  let n ← u.argint 2
  let p ← u.argptr 1 n
  some (.filewrite f p n)

def sysClose : Option Call := do
  let (fd, f) ← u.argfd ofile 0
  some (.close fd f)

/-- `sizeof(struct stat)`. -/
def statSize : Int32 := 20

def sysFstat : Option Call := do
  let (_, f) ← u.argfd ofile 0
  let st ← u.argptr 1 statSize
  some (.filestat f st)

def sysLink : Option Call := do
  let (old, _) ← u.argstr 0
  let (new, _) ← u.argstr 1
  some (.link old new)

def sysUnlink : Option Call := do
  let (path, _) ← u.argstr 0
  some (.unlink path)

def sysOpen : Option Call := do
  let (path, _) ← u.argstr 0
  let omode ← u.argint 1
  some (.open path omode)

def sysMkdir : Option Call := do
  let (path, _) ← u.argstr 0
  some (.mkdir path)

def sysMknod : Option Call := do
  let (path, _) ← u.argstr 0
  let major ← u.argint 1
  let minor ← u.argint 2
  some (.mknod path major minor)

def sysChdir : Option Call := do
  let (path, _) ← u.argstr 0
  some (.chdir path)

/-- The loop of sys_exec from argument `i` on, with `remaining` entries of argv left. -/
def execArgs (uargv : UInt32) : Nat → Nat → Option (List UInt32)
  | 0, _ => none
  | remaining + 1, i => do
    let uarg ← u.fetchint (uargv + 4 * .ofNat i)
    if uarg = 0 then some []
    else do
      let (arg, _) ← u.fetchstr uarg.toUInt32
      let rest ← execArgs uargv remaining (i + 1)
      some (arg :: rest)

def sysExec : Option Call := do
  let (path, _) ← u.argstr 0
  let uargv ← u.argint 1
  let argv ← execArgs u uargv.toUInt32 MAXARG 0
  some (.exec path argv)

def sysPipe : Option Call := do
  let fd ← u.argptr 0 8
  some (.pipe fd)

end

inductive Handler where
  | fork | exit | wait | pipe | read | kill | exec | fstat | chdir | dup | getpid | sbrk | sleep | uptime
  | open | write | mknod | unlink | link | mkdir | close | getptable | getppid | setpriority
  | semInit | semDestroy | semWait | semSignal | clone | join | getscheduler | setscheduler | wait2 | yield
deriving DecidableEq, Repr

/-- The table of syscall.c; no call has the number 0. -/
def syscalls : List (Option Handler) :=
  [none, some .fork, some .exit, some .wait, some .pipe, some .read, some .kill, some .exec, some .fstat,
    some .chdir, some .dup, some .getpid, some .sbrk, some .sleep, some .uptime, some .open, some .write,
    some .mknod, some .unlink, some .link, some .mkdir, some .close, some .getptable, some .getppid,
    some .setpriority, some .semInit, some .semDestroy, some .semWait, some .semSignal, some .clone,
    some .join, some .getscheduler, some .setscheduler, some .wait2, some .yield]

def lookup (num : Int32) : Option Handler :=
  if num > 0 ∧ num.toInt < syscalls.length then (syscalls[num.toInt.toNat]?).join else none

/-- `syscalls[num]()` up to the function it calls. -/
def Handler.fetch (handler : Handler) (u : User) (ofile : Files) : Option Call :=
  match handler with
  | .fork => some .fork
  | .exit => some .exit
  | .wait => some .wait
  | .pipe => sysPipe u
  | .read => sysRead u ofile
  | .kill => sysKill u
  | .exec => sysExec u
  | .fstat => sysFstat u ofile
  | .chdir => sysChdir u
  | .dup => sysDup u ofile
  | .getpid => some .getpid
  | .sbrk => sysSbrk u
  | .sleep => sysSleep u
  | .uptime => some .uptime
  | .open => sysOpen u
  | .write => sysWrite u ofile
  | .mknod => sysMknod u
  | .unlink => sysUnlink u
  | .link => sysLink u
  | .mkdir => sysMkdir u
  | .close => sysClose u ofile
  | .getptable => sysGetptable u
  | .getppid => some .getppid
  | .setpriority => sysSetpriority u
  | .semInit => sysSemInit u
  | .semDestroy => sysSemDestroy u
  | .semWait => sysSemWait u
  | .semSignal => sysSemSignal u
  | .clone => sysClone u
  | .join => sysJoin u
  | .getscheduler => some .getscheduler
  | .setscheduler => sysSetscheduler u
  | .wait2 => sysWait2 u
  | .yield => some .yield

theorem toUInt32_toNat {n : Int32} (nonneg : 0 ≤ n.toInt) : n.toUInt32.toNat = n.toInt.toNat := by
  have signed : n.toInt = if 2 * n.toUInt32.toNat < 2 ^ 32 then (n.toUInt32.toNat : Int)
      else (n.toUInt32.toNat : Int) - (2 ^ 32 : Nat) :=
    BitVec.toInt_eq_toNat_cond n.toBitVec
  have bound : n.toUInt32.toNat < 2 ^ 32 := n.toUInt32.toNat_lt
  split at signed <;> omega

/-- An accepted pointer and its block lie inside the process: below the kernel
the sum of argptr's test does not wrap around. -/
theorem argptr_room {u : User} {n : Nat} {size : Int32} {p : UInt32} (small : u.sz.toNat < KERNBASE)
    (fetched : u.argptr n size = some p) : 0 ≤ size.toInt ∧ p.toNat + size.toInt.toNat ≤ u.sz.toNat := by
  simp only [User.argptr, bind_eq_bind, bind_eq_some_iff, ite_none_left_eq_some, some.injEq, not_or] at fetched
  obtain ⟨i, -, ⟨nonneg, below, room⟩, rfl⟩ := fetched
  have zero : (0 : Int32).toInt = 0 := by decide
  rw [Int32.lt_iff_toInt_lt, zero] at nonneg
  rw [ge_iff_le, UInt32.le_iff_toNat_le] at below
  rw [gt_iff_lt, UInt32.lt_iff_toNat_lt, UInt32.toNat_add] at room
  have high : size.toInt < 2 ^ 31 := size.toInt_lt
  have same := toUInt32_toNat (not_lt.mp nonneg)
  unfold KERNBASE at small
  omega

end Xv6.Syscall
