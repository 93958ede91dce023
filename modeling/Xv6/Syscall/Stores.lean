import Xv6.Syscall.Arguments

namespace Xv6.Syscall

open Process Option UInt32
open Handler (fetch)

/-! What the kernel stores through addresses that a system call was given. Calls
that only read through their pointers, or use them to look up a path, store
nothing there; exec writes its arguments to pages of the new image. -/

/-- A store of `size` bytes at a user address. -/
structure Store where
  addr : UInt32
  size : Nat
deriving DecidableEq, Repr

def Store.Inside (store : Store) (sz : UInt32) : Prop := store.addr.toNat + store.size ≤ sz.toNat

instance (store : Store) (sz : UInt32) : Decidable (store.Inside sz) := inferInstanceAs (Decidable (_ ≤ _))

/-- The state a call finds. For calls that wait it is the state in which their
loop is left: what they see before that makes them sleep and store nothing. -/
structure Kernel where
  table : Table
  self : Slot
  nextpid : Int32 := 2
  ticks : UInt32 := 0
  /-- kalloc has a page for the kernel stack of a new process. -/
  kstack : Bool := true
  ofile : Files := fun _ => none
  pipealloc : Option (File × File) := none
  /-- The characters consoleread gets; it returns -1, being killed, when there are no more. -/
  input : List UInt8 := []

def NDEV : Int := 10

def CONSOLE : Int16 := 1

def BSIZE : Nat := 512

def pipereadLoop (nwrite addr : UInt32) : Nat → UInt32 → UInt32 → List Store
  | 0, _, _ => []
  | remaining + 1, i, nread =>
    if nread = nwrite then [] else ⟨addr + i, 1⟩ :: pipereadLoop nwrite addr remaining (i + 1) (nread + 1)

def piperead (p : Pipe) (addr : UInt32) (n : Int32) : List Store :=
  if p.nread = p.nwrite ∧ p.writeopen = true then [] else pipereadLoop p.nwrite addr n.toInt.toNat 0 p.nread

/-- The outer loop of consoleread, with `n` bytes wanted. -/
def consoleread (dst : UInt32) : Nat → List UInt8 → List Store
  | 0, _ => []
  | _ + 1, [] => []
  | n + 1, c :: rest =>
    if c = 4 then []
    else ⟨dst, 1⟩ :: if c = 10 then [] else consoleread (dst + 1) n rest

/-- The copying loop of readi, with `n` bytes left. -/
def readiLoop (dst : UInt32) (off n : Nat) : List Store :=
  if n = 0 then []
  else
    let m := min n (BSIZE - off % BSIZE)
    ⟨dst, m⟩ :: readiLoop (dst + .ofNat m) (off + m) (n - m)
termination_by n
decreasing_by
  have : off % BSIZE < BSIZE := Nat.mod_lt _ (by decide)
  omega

def readi (input : List UInt8) (ip : Inode) (dst off n : UInt32) : List Store :=
  match ip.type with
  | .dev =>
    if ip.major < 0 ∨ ip.major.toInt ≥ NDEV ∨ ip.major ≠ CONSOLE then [] else consoleread dst n.toNat input
  | .dir | .file =>
    if off > ip.size ∨ off + n < off then []
    else
      let n := if off + n > ip.size then ip.size - off else n
      readiLoop dst off.toNat n.toNat

def fileread (input : List UInt8) (f : File) (addr : UInt32) (n : Int32) : List Store :=
  if f.readable = false then []
  else
    match f.type with
    | .pipe p => piperead p addr n
    | .inode ip off => readi input ip addr off n.toUInt32
    | .none => []

/-- The fields of `struct stat` in the order stati writes them. -/
def stati (st : UInt32) : List Store := [⟨st + 4, 4⟩, ⟨st + 8, 4⟩, ⟨st, 2⟩, ⟨st + 12, 2⟩, ⟨st + 16, 4⟩]

def filestat (f : File) (st : UInt32) : List Store :=
  match f.type with
  | .inode _ _ => stati st
  | _ => []

/-- The fields of `struct proc_us` in the order getptable writes them. -/
def procUs (dst : UInt32) : List Store :=
  [⟨dst, 4⟩, ⟨dst + 4, 4⟩, ⟨dst + 8, 4⟩, ⟨dst + 12, 4⟩, ⟨dst + 16, 4⟩, ⟨dst + 20, 16⟩, ⟨dst + 36, 4⟩,
    ⟨dst + 40, 4⟩, ⟨dst + 44, 4⟩, ⟨dst + 48, 4⟩]

/-- `i` counts the entries written, and `p_dst` is `buffer + i`. -/
def getptableLoop (table : Table) (nproc size : Int32) (buffer : UInt32) : List Slot → Nat → List Store
  | [], _ => []
  | p :: rest, i =>
    if i < nproc.toInt ∧ ((i + 1) * procUsSize.toNat : Int) < size.toInt then
      if (table p).state = .unused then getptableLoop table nproc size buffer rest i
      else procUs (buffer + .ofNat i * procUsSize) ++ getptableLoop table nproc size buffer rest (i + 1)
    else []

def getptable (table : Table) (nproc size : Int32) (buffer : UInt32) : List Store :=
  if buffer = 0 then [] else getptableLoop table nproc size buffer slots 0

def wait2 (k : Kernel) (retime rutime stime : UInt32) : List Store :=
  match Reaper.wait2.scan k.table k.self with
  | .reap _ => [⟨retime, 4⟩, ⟨rutime, 4⟩, ⟨stime, 4⟩]
  | .fail | .block => []

def clone (k : Kernel) (stack : UInt32) : List Store :=
  match allocproc k.table k.nextpid k.ticks with
  | none => []
  | some _ => if k.kstack = true then [⟨stack + 4096 - 2 * 4, 4⟩, ⟨stack + 4096 - 4, 4⟩] else []

def join (k : Kernel) (stack : UInt32) : List Store :=
  match Reaper.join.scan k.table k.self with
  | .reap _ => [⟨stack, 4⟩]
  | .fail | .block => []

def fdalloc (ofile : Files) (f : File) : Option (Fin NOFILE × Files) :=
  ((List.finRange NOFILE).find? fun fd => (ofile fd).isNone).map fun fd => (fd, Function.update ofile fd (some f))

def pipe (k : Kernel) (fd : UInt32) : List Store :=
  match k.pipealloc with
  | none => []
  | some (rf, wf) =>
    match fdalloc k.ofile rf with
    | none => []
    | some (_, ofile) =>
      match fdalloc ofile wf with
      | none => []
      | some _ => [⟨fd, 4⟩, ⟨fd + 4, 4⟩]

def Call.stores (k : Kernel) : Call → List Store
  | .getptable nproc size buffer => Syscall.getptable k.table nproc size buffer
  | .clone _ _ stack => Syscall.clone k stack
  | .join stack => Syscall.join k stack
  | .wait2 retime rutime stime => Syscall.wait2 k retime rutime stime
  | .fileread f addr n => Syscall.fileread k.input f addr n
  | .filestat f st => Syscall.filestat f st
  | .pipe fd => Syscall.pipe k fd
  | .fork | .exit | .wait | .getpid | .uptime | .getppid | .getscheduler | .yield | .kill _ | .growproc _
  | .sleep _ | .setpriority _ _ | .semInit _ _ | .semDestroy _ | .semWait _ _ | .semSignal _ _
  | .setscheduler _ | .dup _ | .filewrite _ _ _ | .close _ _ | .link _ _ | .unlink _ | .open _ _ | .mkdir _
  | .mknod _ _ _ | .chdir _ | .exec _ _ => []

/-- The stores of a system call with the number `num`. -/
def syscall (u : User) (k : Kernel) (num : Int32) : List Store :=
  match lookup num with
  | none => []
  | some handler => ((handler.fetch u k.ofile).map (·.stores k)).getD []

/-- All stores of a list lie inside the process. -/
def AllInside (sz : UInt32) (stores : List Store) : Prop := ∀ store ∈ stores, store.Inside sz

section

variable {sz : UInt32} {input : List UInt8} {base off : UInt32}

theorem AllInside.nil : AllInside sz [] := by simp [AllInside]

theorem AllInside.cons {store : Store} {rest : List Store} (first : store.Inside sz) (later : AllInside sz rest) :
    AllInside sz (store :: rest) := List.forall_mem_cons.mpr ⟨first, later⟩

theorem toNat_add_offset (room : base.toNat + off.toNat < 2 ^ 32) :
    (base + off).toNat = base.toNat + off.toNat := by
  rw [UInt32.toNat_add, Nat.mod_eq_of_lt room]

theorem inside_offset {size : Nat} (room : base.toNat + (off.toNat + size) ≤ sz.toNat) :
    (Store.mk (base + off) size).Inside sz := by
  have bound : sz.toNat < 2 ^ 32 := sz.toNat_lt
  change (base + off).toNat + size ≤ sz.toNat
  rw [toNat_add_offset (by omega)]
  omega

theorem pipereadLoop_inside {nwrite addr nread : UInt32} (remaining : Nat) (i : UInt32)
    (room : addr.toNat + (i.toNat + remaining) ≤ sz.toNat) : AllInside sz (pipereadLoop nwrite addr remaining i nread) := by
  induction remaining generalizing i nread with
  | zero => exact .nil
  | succ _ ih =>
    have bound : sz.toNat < 2 ^ 32 := sz.toNat_lt
    have next : (i + 1).toNat = i.toNat + 1 := toNat_add_offset (by simp; omega)
    unfold pipereadLoop
    split
    · exact .nil
    · exact .cons (inside_offset (by omega)) (ih (i + 1) (by omega))

theorem consoleread_inside (dst : UInt32) (n : Nat) (input : List UInt8) (room : dst.toNat + n ≤ sz.toNat) :
    AllInside sz (consoleread dst n input) := by
  induction n generalizing dst input with
  | zero => exact .nil
  | succ _ ih =>
    have first : dst.toNat + 1 ≤ sz.toNat := by omega
    have bound : sz.toNat < 2 ^ 32 := sz.toNat_lt
    have next : (dst + 1).toNat = dst.toNat + 1 := toNat_add_offset (by simp; omega)
    cases input with
    | nil => exact .nil
    | cons _ rest =>
      unfold consoleread
      split
      · exact .nil
      · refine .cons first ?_
        split
        · exact .nil
        · exact ih (dst + 1) rest (by omega)

theorem readiLoop_inside (dst : UInt32) (off n : Nat) (room : dst.toNat + n ≤ sz.toNat) : AllInside sz (readiLoop dst off n) := by
  induction n using Nat.strong_induction_on generalizing dst off with
  | _ n ih =>
    unfold readiLoop
    split
    · exact .nil
    · rename_i left
      have inside : off % BSIZE < BSIZE := Nat.mod_lt _ (by decide)
      generalize size : min n (BSIZE - off % BSIZE) = m
      have first : dst.toNat + m ≤ sz.toNat := by omega
      have bound : sz.toNat < 2 ^ 32 := sz.toNat_lt
      have width : (ofNat m).toNat = m := toNat_ofNat_of_lt' (by change m < 2 ^ 32; omega)
      have next : (dst + .ofNat m).toNat = dst.toNat + m := by
        rw [toNat_add_offset (by omega), width]
      exact .cons first (ih (n - m) (by omega) _ _ (by omega))

theorem readi_inside {ip : Inode} {dst off n : UInt32} (room : dst.toNat + n.toNat ≤ sz.toNat) : AllInside sz
    (readi input ip dst off n) := by
  have blocks : AllInside sz (if off > ip.size ∨ off + n < off then []
      else readiLoop dst off.toNat (if off + n > ip.size then ip.size - off else n).toNat) := by
    split
    · exact .nil
    · rename_i sound
      simp only [not_or, gt_iff_lt, lt_iff_toNat_lt, not_lt] at sound
      refine readiLoop_inside dst off.toNat _ ?_
      split
      · rename_i past
        -- the end of the file shortens the transfer
        have limit : n.toNat < 2 ^ 32 := n.toNat_lt
        have start : off.toNat < 2 ^ 32 := off.toNat_lt
        have length : ip.size.toNat < 2 ^ 32 := ip.size.toNat_lt
        rw [gt_iff_lt, lt_iff_toNat_lt, UInt32.toNat_add] at past
        rw [UInt32.toNat_sub_of_le _ _ (UInt32.le_iff_toNat_le.mpr sound.1)]
        rw [UInt32.toNat_add] at sound
        omega
      · exact room
  unfold readi
  split
  · split
    · exact .nil
    · exact consoleread_inside dst n.toNat input room
  · exact blocks
  · exact blocks

theorem fileread_inside {f : File} {addr : UInt32} {n : Int32} (nonneg : 0 ≤ n.toInt)
    (room : addr.toNat + n.toInt.toNat ≤ sz.toNat) : AllInside sz (fileread input f addr n) := by
  unfold fileread
  split
  · exact .nil
  · split
    · unfold piperead
      split
      · exact .nil
      · exact pipereadLoop_inside _ 0 (by simpa using room)
    · exact readi_inside (by rw [toUInt32_toNat nonneg]; exact room)
    · exact .nil

theorem procUs_inside {dst : UInt32} (room : dst.toNat + 52 ≤ sz.toNat) : AllInside sz (procUs dst) := by
  have first : dst.toNat + 4 ≤ sz.toNat := by omega
  refine .cons first ?_
  iterate 9 refine .cons (inside_offset (by simp; omega)) ?_
  exact .nil

theorem getptableLoop_inside {table : Table} {nproc size : Int32} {buffer : UInt32} (order : List Slot) (i : Nat)
    (room : buffer.toNat + size.toInt.toNat ≤ sz.toNat) : AllInside sz (getptableLoop table nproc size buffer order i) := by
  induction order generalizing i with
  | nil => exact .nil
  | cons _ _ ih =>
    unfold getptableLoop
    split
    · rename_i more
      split
      · exact ih i
      · have bound : sz.toNat < 2 ^ 32 := sz.toNat_lt
        have width : procUsSize.toNat = 52 := rfl
        rw [width] at more
        have index : (ofNat i).toNat = i := toNat_ofNat_of_lt' (by change i < 2 ^ 32; omega)
        have product : (.ofNat i * procUsSize : UInt32).toNat = i * 52 := by
          rw [UInt32.toNat_mul, index, width, Nat.mod_eq_of_lt (by omega)]
        have entry : (buffer + .ofNat i * procUsSize).toNat = buffer.toNat + i * 52 := by
          rw [toNat_add_offset (by omega), product]
        intro store member
        rcases List.mem_append.mp member with here | later
        · exact procUs_inside (by omega) store here
        · exact ih (i + 1) store later
    · exact .nil

theorem filestat_inside {f : File} {st : UInt32} (room : st.toNat + 20 ≤ sz.toNat) : AllInside sz (filestat f st) := by
  unfold filestat
  split
  · have first : st.toNat + 2 ≤ sz.toNat := by omega
    refine .cons (inside_offset (by simp; omega)) (.cons (inside_offset (by simp; omega)) (.cons first ?_))
    exact .cons (inside_offset (by simp; omega)) (.cons (inside_offset (by simp; omega)) .nil)
  · exact .nil

theorem pipe_inside {k : Kernel} {fd : UInt32} (room : fd.toNat + 8 ≤ sz.toNat) : AllInside sz (pipe k fd) := by
  have first : fd.toNat + 4 ≤ sz.toNat := by omega
  have both : AllInside sz [⟨fd, 4⟩, ⟨fd + 4, 4⟩] := .cons first (.cons (inside_offset (by simp; omega)) .nil)
  unfold pipe
  split
  · exact .nil
  · split
    · exact .nil
    · split
      · exact .nil
      · exact both

end

/-- Room for the two words at the top of the stack page, and for the pointer join returns. -/
def cloneRoom (sz stack : UInt32) : Prop := (stack + 4088).toNat + 8 ≤ sz.toNat

def joinRoom (sz stack : UInt32) : Prop := stack.toNat + 4 ≤ sz.toNat

instance (sz stack : UInt32) : Decidable (cloneRoom sz stack) := inferInstanceAs (Decidable (_ ≤ _))

instance (sz stack : UInt32) : Decidable (joinRoom sz stack) := inferInstanceAs (Decidable (_ ≤ _))

/-- clone and join get a pointer into the process, unless they fail before they use it. -/
structure Checked (u : User) (k : Kernel) (num : Int32) : Prop where
  clone : lookup num = some .clone → k.kstack = true → (∃ q, (k.table q).state = .unused) →
    ∀ func arg stack, u.argint 0 = some func → u.argint 1 = some arg → u.argint 2 = some stack → cloneRoom u.sz stack.toUInt32
  join : lookup num = some .join → (∃ q, Reaper.join.child k.self (k.table q) ∧ (k.table q).state = .zombie) →
    ∀ stack, u.argint 0 = some stack → joinRoom u.sz stack.toUInt32

section

variable {u : User} {k : Kernel} {num : Int32} {stack : UInt32}

theorem clone_inside (small : u.sz.toNat < KERNBASE) : AllInside u.sz (clone k stack) ↔
      (k.kstack = true → (∃ q, (k.table q).state = .unused) → cloneRoom u.sz stack) := by
  have low : stack + 4096 - 2 * 4 = stack + 4088 := by grind
  have high : stack + 4096 - 4 = stack + 4088 + 4 := by grind
  unfold clone allocproc
  cases found : k.table.first fun proc => proc.state == .unused with
  | none =>
    have full (q : Slot) : (k.table q).state ≠ .unused := by simpa using Table.first_none found q
    exact ⟨fun _ _ ⟨q, unused⟩ => absurd unused (full q), fun _ => .nil⟩
  | some q =>
    have unused : ∃ q, (k.table q).state = .unused := ⟨q, by simpa using Table.first_some found⟩
    by_cases page : k.kstack = true
    · simp only [page, if_true, low, high, forall_const, unused]
      constructor
      · intro inside
        have first : (stack + 4088).toNat + 4 ≤ u.sz.toNat := inside ⟨stack + 4088, 4⟩ (by simp)
        have second : (stack + 4088 + 4).toNat + 4 ≤ u.sz.toNat := inside ⟨stack + 4088 + 4, 4⟩ (by simp)
        unfold KERNBASE at small
        rw [toNat_add_offset (by change (stack + 4088).toNat + 4 < 2 ^ 32; omega)] at second
        exact second
      · intro room
        unfold cloneRoom at room
        refine .cons ?_ (.cons (inside_offset (by simpa using room)) .nil)
        change (stack + 4088).toNat + 4 ≤ u.sz.toNat
        omega
    · simp only [page, if_false, Bool.false_eq_true]
      exact ⟨fun _ impossible => absurd impossible (by simp), fun _ => .nil⟩

theorem join_inside : AllInside u.sz (join k stack) ↔
      ((∃ q, Reaper.join.child k.self (k.table q) ∧ (k.table q).state = .zombie) → joinRoom u.sz stack) := by
  unfold join Reaper.scan
  cases found : k.table.first fun proc => Reaper.join.child k.self proc && proc.state == .zombie with
  | some q =>
    have zombie := Table.first_some found
    simp only [Bool.and_eq_true, beq_iff_eq] at zombie
    constructor
    · exact fun inside _ => inside _ List.mem_cons_self
    · exact fun room => .cons (room ⟨q, zombie⟩) .nil
  | none =>
    have missed (q : Slot) (child : Reaper.join.child k.self (k.table q) = true) :
        (k.table q).state ≠ .zombie := by
      have := Table.first_none found q
      simpa [child] using this
    refine ⟨fun _ ⟨q, child, zombie⟩ => absurd zombie (missed q child), fun _ => ?_⟩
    by_cases fails : k.table.first (Reaper.join.child k.self) = none ∨ (k.table k.self).killed = true
    · simp only [if_pos fails]
      exact .nil
    · simp only [if_neg fails]
      exact .nil

theorem fetch_inside {handler : Handler} {call : Call} (small : u.sz.toNat < KERNBASE)
    (fetched : handler.fetch u k.ofile = some call) (clone : handler ≠ .clone) (join : handler ≠ .join) :
    AllInside u.sz (call.stores k) := by
  cases handler with
  | clone | join => contradiction
  | read =>
    simp only [fetch, sysRead, bind_eq_bind, bind_eq_some_iff, some.injEq] at fetched
    obtain ⟨⟨_, f⟩, -, n, -, p, pointer, rfl⟩ := fetched
    obtain ⟨nonneg, room⟩ := argptr_room small pointer
    exact fileread_inside nonneg room
  | fstat =>
    simp only [fetch, sysFstat, bind_eq_bind, bind_eq_some_iff, some.injEq] at fetched
    obtain ⟨⟨_, f⟩, -, st, pointer, rfl⟩ := fetched
    exact filestat_inside (argptr_room small pointer).2
  | getptable =>
    simp only [fetch, sysGetptable, bind_eq_bind, bind_eq_some_iff, ite_none_left_eq_some, some.injEq] at fetched
    obtain ⟨_, -, _, -, _, pointer, -, rfl⟩ := fetched
    unfold Call.stores getptable
    dsimp only
    split
    · exact .nil
    · exact getptableLoop_inside slots 0 (argptr_room small pointer).2
  | wait2 =>
    simp only [fetch, sysWait2, bind_eq_bind, bind_eq_some_iff, some.injEq] at fetched
    obtain ⟨_, first, _, second, _, third, rfl⟩ := fetched
    unfold Call.stores wait2
    dsimp only
    split
    · exact .cons (argptr_room small first).2 (.cons (argptr_room small second).2 (.cons (argptr_room small third).2 .nil))
    · exact .nil
    · exact .nil
  | pipe =>
    simp only [fetch, sysPipe, bind_eq_bind, bind_eq_some_iff, some.injEq] at fetched
    obtain ⟨fd, pointer, rfl⟩ := fetched
    exact pipe_inside (argptr_room small pointer).2
  | _ =>
    have silent : call.stores k = [] := by
      simp only [fetch, sysKill, sysExec, sysChdir, sysDup, sysSbrk, sysSleep, sysOpen, sysWrite, sysMknod,
        sysUnlink, sysLink, sysMkdir, sysClose, sysSetpriority, sysSemInit, sysSemDestroy, sysSemWait,
        sysSemSignal, sysSetscheduler, bind_eq_bind, bind_eq_some_iff, some.injEq] at fetched
      grind [Call.stores]
    rw [silent]
    exact .nil

/-- The kernel writes only inside its caller, whatever the call and its
arguments are, exactly if clone and join are given addresses inside it. -/
theorem user_stores_inside_iff (u : User) (k : Kernel) (num : Int32) (small : u.sz.toNat < KERNBASE) :
    (∀ store ∈ syscall u k num, store.Inside u.sz) ↔ Checked u k num := by
  change AllInside u.sz (syscall u k num) ↔ Checked u k num
  cases number : lookup num with
  | none =>
    simp only [syscall, number]
    exact ⟨fun _ => ⟨by simp [number], by simp [number]⟩, fun _ => .nil⟩
  | some handler =>
    simp only [syscall, number]
    by_cases clone : handler = .clone
    · subst clone
      constructor
      · intro inside
        refine ⟨fun _ page slot func arg stack first second third => ?_, by simp [number]⟩
        simp only [fetch, sysClone, first, second, third] at inside
        exact (clone_inside small).mp inside page slot
      · intro checked
        cases fetched : Handler.clone.fetch u k.ofile with
        | none => exact .nil
        | some =>
          simp only [fetch, sysClone, bind_eq_bind, bind_eq_some_iff, some.injEq] at fetched
          obtain ⟨func, first, arg, second, stack, third, rfl⟩ := fetched
          exact (clone_inside small).mpr fun page slot =>
            checked.clone number page slot func arg stack first second third
    · by_cases join : handler = .join
      · subst join
        constructor
        · intro inside
          refine ⟨by simp [number], fun _ zombie stack first => ?_⟩
          simp only [fetch, sysJoin, first] at inside
          exact join_inside.mp inside zombie
        · intro checked
          cases fetched : Handler.join.fetch u k.ofile with
          | none => exact .nil
          | some =>
            simp only [fetch, sysJoin, bind_eq_bind, bind_eq_some_iff, some.injEq] at fetched
            obtain ⟨stack, first, rfl⟩ := fetched
            exact join_inside.mpr fun zombie => checked.join number zombie stack first
      · refine ⟨fun _ => ⟨by simp [number, clone], by simp [number, join]⟩, fun _ => ?_⟩
        cases fetched : handler.fetch u k.ofile with
        | none => exact .nil
        | some => exact fetch_inside small fetched clone join

end

/-- A process of two pages whose arguments are 0, 0 and `third`, or `first` alone. -/
def caller (first third : UInt32) : User where
  sz := 8192
  esp := 0
  memory := fun addr =>
    if 4 ≤ addr ∧ addr < 8 then (first >>> (8 * (addr - 4))).toUInt8
    else if 12 ≤ addr ∧ addr < 16 then (third >>> (8 * (addr - 12))).toUInt8
    else 0

/-- The caller is in slot 0, and a thread it made is a zombie in slot 1. -/
def zombieThread : Kernel where
  table := fun p =>
    if p = 0 then { state := .running, pid := 1 }
    else if p = 1 then { state := .zombie, pid := 2, parent := some 0, isthread := true }
    else {}
  self := 0

/-- clone with a stack in the first page. -/
theorem user_stores_inside_iff_clone :
    (caller 0 0).sz.toNat < KERNBASE ∧ syscall (caller 0 0) zombieThread 29 = [⟨4088, 4⟩, ⟨4092, 4⟩] ∧
      Checked (caller 0 0) zombieThread 29 := by
  have small : (caller 0 0).sz.toNat < KERNBASE := by decide
  have stores : syscall (caller 0 0) zombieThread 29 = [⟨4088, 4⟩, ⟨4092, 4⟩] := by decide +kernel
  have inside : ∀ store ∈ syscall (caller 0 0) zombieThread 29, store.Inside (caller 0 0).sz := by
    rw [stores]
    decide
  exact ⟨small, stores, (user_stores_inside_iff _ _ _ small).mp inside⟩

/-- clone and join write where they are told to: here to the first words of the kernel. -/
theorem kernel_overwritten : syscall (caller 0 0x7ffff008) zombieThread 29 = [⟨0x80000000, 4⟩, ⟨0x80000004, 4⟩] ∧
      syscall (caller 0x80000000 0) zombieThread 30 = [⟨0x80000000, 4⟩] ∧
      (¬ ∀ store ∈ syscall (caller 0 0x7ffff008) zombieThread 29, store.Inside (caller 0 0x7ffff008).sz) ∧
      ¬ ∀ store ∈ syscall (caller 0x80000000 0) zombieThread 30, store.Inside (caller 0x80000000 0).sz := by
  decide +kernel

end Xv6.Syscall
