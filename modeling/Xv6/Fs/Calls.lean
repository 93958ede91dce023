import Mathlib.Logic.Function.Basic

namespace Xv6.Fs

open Function

/-! The system calls that take inode sleep-locks: sys_open, sys_link, sys_unlink,
sys_mkdir, sys_mknod and sys_chdir, with namex, create, dirlink and iput. A call
is a tree of commands; a command is one step, and every acquiresleep and
releasesleep is a command. The disk copy of an inode and its copy in the cache
are one, since what differs is covered by its lock, and data blocks of files,
device numbers and the log are left out. -/

def DIRSIZ : Nat := 14

def O_CREATE : UInt32 := 0x200

abbrev Name := List UInt8

abbrev Path := List UInt8

def slash : UInt8 := 47

def dot : Name := [46]

def dotdot : Name := [46, 46]

/-- The next element of a path and what follows it. -/
def skipelem (path : Path) : Option (Name × Path) :=
  match path.dropWhile (· == slash) with
  | [] => none
  | path => some ((path.takeWhile (· != slash)).take DIRSIZ, (path.dropWhile (· != slash)).dropWhile (· == slash))

/-- The elements skipelem takes off a path, of which there are at most as many as it has bytes. -/
def elements : Nat → Path → List Name
  | 0, _ => []
  | more + 1, path =>
    match skipelem path with
    | none => []
    | some (name, rest) => name :: elements more rest

def Path.names (path : Path) : List Name := elements path.length path

/-- `free` is the type 0 of an inode that is not allocated. -/
inductive FileType where
  | free | dir | file | dev
deriving DecidableEq, Repr

variable {Proc Inum : Type}

/-- None is the inode number 0 of an entry that is not in use. -/
structure Dirent (Inum : Type) where
  name : Name := []
  inum : Option Inum := none
deriving DecidableEq, Repr

structure Inode (Inum : Type) where
  type : FileType := .free
  nlink : Int16 := 0
  content : List (Dirent Inum) := []
  valid : Bool := false
  ref : Nat := 0
deriving DecidableEq, Repr

def dirlookup (content : List (Dirent Inum)) (name : Name) : Option (Inum × Nat) :=
  match content.find? (fun entry => entry.inum.isSome && entry.name == name) with
  | some { inum := some i, .. } =>
    some (i, content.findIdx fun entry => entry.inum.isSome && entry.name == name)
  | _ => none

/-- dirlink's write: into the first entry not in use, or at the end. -/
def writeEntry (content : List (Dirent Inum)) (entry : Dirent Inum) : List (Dirent Inum) :=
  if content.findIdx (fun old => old.inum.isNone) < content.length then
    content.set (content.findIdx fun old => old.inum.isNone) entry
  else content ++ [entry]

def isdirempty (content : List (Dirent Inum)) : Bool := (content.drop 2).all fun entry => entry.inum.isNone

/-- Where acquiresleep is called from. `parentput` is the iput of the iunlockput(dp)
that create and sys_unlink call with `ip` locked. -/
inductive Site where
  | ilock | iput | parentput
deriving DecidableEq, Repr

/-- Where dirlookup is called from; `dots` is create's entering of "." and "..". -/
inductive Lookup where
  | path | dirlink | dots
deriving DecidableEq, Repr

/-- What a process still has to do. -/
inductive Code (Inum : Type) where
  | done | panic
  /-- iget, and idup, whose inode has a reference. -/
  | iget (i : Inum) (next : Code Inum)
  | acquire (site : Site) (i : Inum) (next : Code Inum)
  /-- Asleep in acquiresleep. -/
  | waiting (site : Site) (i : Inum) (next : Code Inum)
  /-- The rest of ilock, and the type it finds. -/
  | load (i : Inum) (next : FileType → Code Inum)
  | release (i : Inum) (next : Code Inum)
  | lookup (site : Lookup) (d : Inum) (name : Name) (next : Option (Inum × Nat) → Code Inum)
  /-- ialloc up to its call of iget. -/
  | ialloc (type : FileType) (next : Inum → Code Inum)
  | setLinks (i : Inum) (nlink : Int16) (next : Code Inum)
  | addLinks (i : Inum) (change : Int16) (next : Code Inum)
  | links (i : Inum) (next : Int16 → Code Inum)
  | enter (d : Inum) (name : Name) (i : Inum) (next : Code Inum)
  | erase (d : Inum) (off : Nat) (next : Code Inum)
  | empty (d : Inum) (next : Bool → Code Inum)
  /-- iput's test for the last reference to an inode without links. -/
  | last (i : Inum) (next : Bool → Code Inum)
  /-- itrunc, and the type set to 0. -/
  | free (i : Inum) (next : Code Inum)
  | drop (i : Inum) (next : Code Inum)
  /-- Whether filealloc and fdalloc find room. -/
  | choose (next : Bool → Code Inum)
  | chdir (i : Inum) (next : Code Inum)

namespace Code

def ilock (i : Inum) (next : FileType → Code Inum) : Code Inum := .acquire .ilock i (.load i next)

def iput (site : Site) (i : Inum) (next : Code Inum) : Code Inum :=
  .acquire site i (.last i fun last =>
    if last = true then .free i (.release i (.drop i next)) else .release i (.drop i next))

def iunlockput (site : Site) (i : Inum) (next : Code Inum) : Code Inum := .release i (iput site i next)

def dirlookup (site : Lookup) (d : Inum) (name : Name) (next : Option (Inum × Nat) → Code Inum) : Code Inum :=
  .lookup site d name fun
    | none => next none
    | some (i, off) => .iget i (next (some (i, off)))

/-- The result is whether dirlink returns 0. -/
def dirlink (site : Lookup) (d : Inum) (name : Name) (i : Inum) (next : Bool → Code Inum) : Code Inum :=
  dirlookup site d name fun
    | some (found, _) => iput .iput found (next false)
    | none => .enter d name i (next true)

/-- The loop of namex, with the elements of the path that are left. -/
def namexLoop (parent : Bool) (next : Option (Inum × Name) → Code Inum) : Inum → Name → List Name → Code Inum
  | ip, name, [] => if parent = true then iput .iput ip (next none) else next (some (ip, name))
  | ip, _, name :: rest =>
    ilock ip fun type =>
      if type ≠ .dir then iunlockput .iput ip (next none)
      else if parent = true ∧ rest = [] then .release ip (next (some (ip, name)))
      else dirlookup .path ip name fun
        | none => iunlockput .iput ip (next none)
        | some (child, _) => iunlockput .iput ip (namexLoop parent next child name rest)

section

variable (root cwd : Inum)

def namex (parent : Bool) (path : Path) (next : Option (Inum × Name) → Code Inum) : Code Inum :=
  let ip := if path.head? = some slash then root else cwd
  .iget ip (namexLoop parent next ip [] path.names)

def namei (path : Path) (next : Option Inum → Code Inum) : Code Inum :=
  namex root cwd false path fun found => next (found.map Prod.fst)

def nameiparent (path : Path) (next : Option (Inum × Name) → Code Inum) : Code Inum := namex root cwd true path next

/-- sys_link's way out after it has counted a link it does not make. -/
def bad (ip : Inum) : Code Inum := ilock ip fun _ => .addLinks ip (-1) (iunlockput .iput ip .done)

def sysLink (old new : Path) : Code Inum :=
  namei root cwd old fun
    | none => .done
    | some ip =>
      ilock ip fun type =>
        if type = .dir then iunlockput .iput ip .done
        else .addLinks ip 1 (.release ip (nameiparent root cwd new fun
          | none => bad ip
          | some (dp, name) => ilock dp fun _ => dirlink .dirlink dp name ip fun made =>
            if made = true then iunlockput .iput dp (iput .iput ip .done)
            else iunlockput .iput dp (bad ip)))

/-- sys_unlink from its write of the empty entry. -/
def remove (dp ip : Inum) (off : Nat) (type : FileType) : Code Inum :=
  let put := iunlockput .parentput dp (.addLinks ip (-1) (iunlockput .iput ip .done))
  .erase dp off (if type = .dir then .addLinks dp (-1) put else put)

def sysUnlink (path : Path) : Code Inum :=
  nameiparent root cwd path fun
    | none => .done
    | some (dp, name) =>
      ilock dp fun _ =>
        if name = dot ∨ name = dotdot then iunlockput .iput dp .done
        else dirlookup .path dp name fun
          | none => iunlockput .iput dp .done
          | some (ip, off) =>
            ilock ip fun type => .links ip fun nlink =>
              if nlink < 1 then .panic
              else if type = .dir then .empty ip fun empty =>
                if empty = true then remove dp ip off type
                else iunlockput .iput ip (iunlockput .iput dp .done)
              else remove dp ip off type

/-- create's last steps: the entry in the parent, whose lock goes. -/
def install (dp : Inum) (name : Name) (ip : Inum) (next : Option Inum → Code Inum) : Code Inum :=
  dirlink .dirlink dp name ip fun made =>
    if made = true then iunlockput .parentput dp (next (some ip)) else .panic

/-- create(path, type, ...); the inode it returns is locked. -/
def create (path : Path) (type : FileType) (next : Option Inum → Code Inum) : Code Inum :=
  nameiparent root cwd path fun
    | none => next none
    | some (dp, name) =>
      ilock dp fun _ => dirlookup .path dp name fun
        | some (ip, _) =>
          iunlockput .iput dp (ilock ip fun found =>
            if type = .file ∧ found = .file then next (some ip) else iunlockput .iput ip (next none))
        | none =>
          .ialloc type fun ip => .iget ip (ilock ip fun _ => .setLinks ip 1 (
            if type = .dir then
              .addLinks dp 1 (dirlink .dots ip dot ip fun made =>
                if made = true then dirlink .dots ip dotdot dp fun made =>
                  if made = true then install dp name ip next else .panic
                else .panic)
            else install dp name ip next))

/-- sys_open once it has `ip` locked. -/
def opened (ip : Inum) : Code Inum :=
  .choose fun room => if room = true then .release ip .done else iunlockput .iput ip .done

def sysOpen (path : Path) (omode : UInt32) : Code Inum :=
  if omode &&& O_CREATE ≠ 0 then
    create root cwd path .file fun
      | none => .done
      | some ip => opened ip
  else
    namei root cwd path fun
      | none => .done
      | some ip => ilock ip fun type =>
        if type = .dir ∧ omode ≠ 0 then iunlockput .iput ip .done else opened ip

/-- sys_mkdir and sys_mknod. -/
def make (path : Path) (type : FileType) : Code Inum :=
  create root cwd path type fun
    | none => .done
    | some ip => iunlockput .iput ip .done

def sysMkdir (path : Path) : Code Inum := make root cwd path .dir

def sysMknod (path : Path) : Code Inum := make root cwd path .dev

def sysChdir (path : Path) : Code Inum :=
  namei root cwd path fun
    | none => .done
    | some ip => ilock ip fun type =>
      if type ≠ .dir then iunlockput .iput ip .done
      else .release ip (iput .iput cwd (.chdir ip .done))

end

def awaited : Code Inum → Option Inum
  | .waiting _ i _ => some i
  | _ => none

/-- In create or sys_unlink, `dp` has been unlocked and has still to be put, and `ip` is locked. -/
def backing : Code Inum → Bool
  | .acquire .parentput _ _ | .waiting .parentput _ _ => true
  | _ => false

end Code

inductive Call where
  | sysOpen (path : Path) (omode : UInt32)
  | sysLink (old new : Path)
  | sysUnlink (path : Path)
  | sysMkdir (path : Path)
  | sysMknod (path : Path)
  | sysChdir (path : Path)
deriving DecidableEq, Repr

def Call.code (root cwd : Inum) : Call → Code Inum
  | .sysOpen path omode => .sysOpen root cwd path omode
  | .sysLink old new => .sysLink root cwd old new
  | .sysUnlink path => .sysUnlink root cwd path
  | .sysMkdir path => .sysMkdir root cwd path
  | .sysMknod path => .sysMknod root cwd path
  | .sysChdir path => .sysChdir root cwd path

structure State (Proc Inum : Type) where
  root : Inum
  inode : Inum → Inode Inum
  lock : Inum → Option Proc := fun _ => none
  cwd : Proc → Inum
  code : Proc → Code Inum := fun _ => .done

/-- `pick` is the inode ialloc finds free, `room` what filealloc and fdalloc find. -/
inductive Event (Proc Inum : Type) where
  | call (p : Proc) (call : Call)
  | run (p : Proc) (pick : Inum) (room : Bool)
deriving DecidableEq, Repr

variable [DecidableEq Proc] [DecidableEq Inum]

namespace State

variable (s : State Proc Inum) (p : Proc)

def goto (code : Code Inum) : State Proc Inum := { s with code := update s.code p code }

def setLock (i : Inum) (holder : Option Proc) : State Proc Inum :=
  { s with lock := update s.lock i holder }

def modify (i : Inum) (change : Inode Inum → Inode Inum) : State Proc Inum :=
  { s with inode := update s.inode i (change (s.inode i)) }

/-- One command of `p`; none is a panic, or a process that sleeps on. -/
def exec (pick : Inum) (room : Bool) : Code Inum → Option (State Proc Inum)
  | .done | .panic => none
  | .iget i next => some ((s.modify i fun inode =>
    { inode with valid := if inode.ref = 0 then false else inode.valid, ref := inode.ref + 1 }).goto p next)
  | .acquire site i next =>
    match s.lock i with
    | none => some ((s.setLock i (some p)).goto p next)
    | some _ => some (s.goto p (.waiting site i next))
  | .waiting _ i next =>
    match s.lock i with
    | none => some ((s.setLock i (some p)).goto p next)
    | some _ => none
  | .load i next =>
    if (s.inode i).valid = false ∧ (s.inode i).type = .free then none
    else some ((s.modify i fun inode => { inode with valid := true }).goto p (next (s.inode i).type))
  | .release i next => some ((s.setLock i none).goto p next)
  | .lookup _ d name next =>
    if (s.inode d).type = .dir then some (s.goto p (next (dirlookup (s.inode d).content name))) else none
  | .ialloc type next =>
    if (s.inode pick).type = .free then
      some ((s.modify pick fun inode => { inode with type := type, nlink := 0, content := [] }).goto p (next pick))
    else none
  | .setLinks i nlink next => some ((s.modify i fun inode => { inode with nlink := nlink }).goto p next)
  | .addLinks i change next =>
    some ((s.modify i fun inode => { inode with nlink := inode.nlink + change }).goto p next)
  | .links i next => some (s.goto p (next (s.inode i).nlink))
  | .enter d name i next => some ((s.modify d fun inode =>
    { inode with content := writeEntry inode.content ⟨name, some i⟩ }).goto p next)
  | .erase d off next => some ((s.modify d fun inode =>
    { inode with content := inode.content.set off {} }).goto p next)
  | .empty d next => some (s.goto p (next (isdirempty (s.inode d).content)))
  | .last i next => some (s.goto p (next
      ((s.inode i).valid && decide ((s.inode i).nlink = 0) && decide ((s.inode i).ref = 1))))
  | .free i next => some ((s.modify i fun inode =>
    { inode with type := .free, content := [], valid := false }).goto p next)
  | .drop i next => some ((s.modify i fun inode => { inode with ref := inode.ref - 1 }).goto p next)
  | .choose next => some (s.goto p (next room))
  | .chdir i next => some ({ s with cwd := update s.cwd p i }.goto p next)

def step : Event Proc Inum → Option (State Proc Inum)
  | .call p call =>
    match s.code p with
    | .done => some (s.goto p (call.code s.root (s.cwd p)))
    | _ => none
  | .run p pick room => s.exec p pick room (s.code p)

end State

end Xv6.Fs
