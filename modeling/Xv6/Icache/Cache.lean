import Xv6.Volume.Layout
import Xv6.Data.Run

namespace Xv6.Icache

open Data Volume Function

/-! The inode cache. Each section under icache.lock is one step, and so is each
acquiresleep, releasesleep and access to the inode's block, which bread locks.
References are told apart by names `R`: what a pointer returned by iget, idup or
ialloc is stored in, be it an open file, a current directory or a variable. Any
number of processes may use one reference at the same time, but the one that
gives it to iput has it for itself. -/

def NINODE : Nat := 50

instance : NeZero NINODE := ⟨by decide⟩

abbrev Index := Fin NINODE

/-- `dev` and `inum`. -/
abbrev Key := UInt32 × UInt32

variable {P R : Type}

structure Inode (P R : Type) where
  key : Key := (0, 0)
  /-- Each count is a reference that exists, so that the `int` does not overflow. -/
  ref : Nat := 0
  /-- The process that has locked it, and through which reference. -/
  lock : Option (P × R) := none
  valid : Bool := false
  /-- type, major, minor, nlink, size and addrs. -/
  fields : Dinode := {}

/-- What is to be done next in ilock, in its first two stages, and in iput. -/
inductive Stage where
  | ilock
  | load
  | iput
  | test
  | count
  | trunc
  | clear
  | invalid
  | unlock
  | drop
deriving DecidableEq, Repr

inductive Pc (R : Type) where
  | idle
  | call (stage : Stage) (r : R)
  /-- The loop of ialloc, at `inum`; `r` is for the result. -/
  | ialloc (dev inum : UInt32) (type : UInt16) (r : R)
  /-- The call of iget at the end of ialloc. -/
  | iget (key : Key) (r : R)
deriving DecidableEq, Repr

structure Cache (P R : Type) where
  inode : Index → Inode P R := fun _ => {}
  /-- What each reference in existence points to. -/
  ref : R → Option Index := fun _ => none
  disk : Key → Dinode
  pc : P → Pc R := fun _ => .idle
  halted : Bool := false

/-- A process holds the locks it took with ilock while it is in other calls. -/
inductive Event (P R : Type) where
  | iget (p : P) (r : R) (key : Key)
  | idup (p : P) (r copy : R)
  | ilock (p : P) (r : R)
  | iunlock (p : P) (r : R)
  /-- The caller of ilock assigns to the fields. -/
  | modify (p : P) (r : R) (fields : Dinode)
  | iupdate (p : P) (r : R)
  | iput (p : P) (r : R)
  | ialloc (p : P) (r : R) (dev : UInt32) (type : UInt16)
  | step (p : P)

def Pc.Uses (r : R) (pc : Pc R) : Prop := ∃ stage, pc = .call stage r

def Stage.puts : Stage → Bool
  | .ilock | .load => false
  | _ => true

def Pc.Puts (r : R) (pc : Pc R) : Prop := ∃ stage, pc = .call stage r ∧ stage.puts = true

section

variable [DecidableEq R] (r : R) (pc : Pc R)

instance Pc.Uses.decidable : Decidable (pc.Uses r) :=
  match pc with
  | .call stage t =>
    if same : t = r then .isTrue ⟨stage, by rw [same]⟩ else .isFalse fun ⟨_, equal⟩ => same (Pc.call.inj equal).2
  | .idle => .isFalse nofun
  | .ialloc .. => .isFalse nofun
  | .iget .. => .isFalse nofun

instance Pc.Puts.decidable : Decidable (pc.Puts r) :=
  match pc with
  | .call stage t =>
    if both : t = r ∧ stage.puts = true then .isTrue ⟨stage, by rw [both.1], both.2⟩
    else .isFalse fun ⟨_, equal, puts⟩ => both ⟨(Pc.call.inj equal).2, (Pc.call.inj equal).1 ▸ puts⟩
  | .idle => .isFalse nofun
  | .ialloc .. => .isFalse nofun
  | .iget .. => .isFalse nofun

end

namespace Cache

variable (s : Cache P R)

def setInode (b : Index) (change : Inode P R → Inode P R) : Cache P R :=
  { s with inode := update s.inode b (change (s.inode b)) }

def panic : Cache P R := { s with halted := true }

/-- iupdate(ip): the inode's fields go to its dinode. -/
def iupdate (b : Index) : Cache P R :=
  { s with disk := update s.disk (s.inode b).key (s.inode b).fields }

variable [DecidableEq R]

def setRef (r : R) (target : Option Index) : Cache P R := { s with ref := update s.ref r target }

def share (b : Index) (r : R) : Cache P R :=
  (s.setInode b fun ip => { ip with ref := ip.ref + 1 }).setRef r (some b)

/-- The loop of iget returns at the first match, and remembers the first empty slot. -/
def iget (r : R) (key : Key) : Cache P R :=
  match (List.finRange NINODE).find? fun b => 0 < (s.inode b).ref ∧ (s.inode b).key = key with
  | some b => s.share b r
  | none =>
    match (List.finRange NINODE).find? fun b => (s.inode b).ref = 0 with
    | some b => (s.setInode b fun ip => { ip with key, ref := 1, valid := false }).setRef r (some b)
    | none => s.panic

variable [DecidableEq P]

def goto (p : P) (pc : Pc R) : Cache P R := { s with pc := update s.pc p pc }

/-- One step of ilock or iput on the entry `b` that the reference points to. -/
def work (p : P) (r : R) (b : Index) : Stage → Option (Cache P R)
  | .ilock =>
    if (s.inode b).lock = none then
      some ((s.setInode b fun ip => { ip with lock := some (p, r) }).goto p (.call .load r))
    else none
  | .load =>
    if (s.inode b).valid = true then some (s.goto p .idle)
    else if (s.disk (s.inode b).key).type = 0 then some s.panic
    else some ((s.setInode b fun ip => { ip with valid := true, fields := s.disk ip.key }).goto p .idle)
  | .iput =>
    if (s.inode b).lock = none then
      some ((s.setInode b fun ip => { ip with lock := some (p, r) }).goto p (.call .test r))
    else none
  | .test =>
    some (s.goto p (.call (if (s.inode b).valid = true ∧ (s.inode b).fields.nlink = 0 then .count else .unlock) r))
  | .count => some (s.goto p (.call (if (s.inode b).ref = 1 then .trunc else .unlock) r))
  | .trunc =>
    -- itrunc also frees the blocks
    some (((s.setInode b fun ip => { ip with fields := { ip.fields with size := 0, addrs := fun _ => 0 } }).iupdate b).goto p
      (.call .clear r))
  | .clear =>
    some (((s.setInode b fun ip => { ip with fields := { ip.fields with type := 0 } }).iupdate b).goto p
      (.call .invalid r))
  | .invalid => some ((s.setInode b fun ip => { ip with valid := false }).goto p (.call .unlock r))
  | .unlock => some ((s.setInode b fun ip => { ip with lock := none }).goto p (.call .drop r))
  | .drop => some (((s.setInode b fun ip => { ip with ref := ip.ref - 1 }).setRef r none).goto p .idle)

def advance (ninodes : UInt32) (p : P) : Option (Cache P R) :=
  match s.pc p with
  | .idle => none
  | .call stage r =>
    match s.ref r with
    | some b => s.work p r b stage
    | none => none
  | .ialloc dev inum type r =>
    if inum < ninodes then
      if (s.disk (dev, inum)).type = 0 then
        some ({ s with disk := update s.disk (dev, inum) { type } }.goto p (.iget (dev, inum) r))
      else some (s.goto p (.ialloc dev (inum + 1) type r))
    else some s.panic
  | .iget key r => if s.ref r = none then some ((s.iget r key).goto p .idle) else none

/-- The process has the entry locked, and is not in a call. -/
def Holds (p : P) (r : R) (b : Index) : Prop := s.pc p = .idle ∧ (s.inode b).lock = some (p, r)

instance (p : P) (r : R) (b : Index) : Decidable (s.Holds p r b) := inferInstanceAs (Decidable (_ ∧ _))

/-- Acts on the entry that a reference points to, under a condition. -/
def through (r : R) (allowed : Index → Bool) (next : Index → Cache P R) : Option (Cache P R) :=
  match s.ref r with
  | some b => if allowed b = true then some (next b) else none
  | none => none

end Cache

section

variable [DecidableEq P] [DecidableEq R] [Fintype P]

def Cache.act (ninodes : UInt32) (s : Cache P R) : Event P R → Option (Cache P R)
  | .iget p r key => if s.pc p = .idle ∧ s.ref r = none then some (s.iget r key) else none
  | .idup p r copy =>
    s.through r (fun _ => s.pc p = .idle ∧ s.ref copy = none ∧ ∀ q, ¬ (s.pc q).Puts r) fun b => s.share b copy
  | .ilock p r =>
    s.through r (fun _ => s.pc p = .idle ∧ ∀ q, ¬ (s.pc q).Puts r) fun _ => s.goto p (.call .ilock r)
  | .iunlock p r => s.through r (fun b => s.Holds p r b) fun b => s.setInode b fun ip => { ip with lock := none }
  | .modify p r fields => s.through r (fun b => s.Holds p r b) fun b => s.setInode b fun ip => { ip with fields }
  | .iupdate p r => s.through r (fun b => s.Holds p r b) s.iupdate
  | .iput p r =>
    s.through r (fun b => s.pc p = .idle ∧ (∀ q, ¬ (s.pc q).Uses r) ∧ (s.inode b).lock.map Prod.snd ≠ some r)
      fun _ => s.goto p (.call .iput r)
  | .ialloc p r dev type => if s.pc p = .idle then some (s.goto p (.ialloc dev 1 type r)) else none
  | .step p => s.advance ninodes p

def Cache.step (ninodes : UInt32) (s : Cache P R) (event : Event P R) : Option (Cache P R) :=
  if s.halted = true then none else s.act ninodes event

end

/-- The entries changed since the last iupdate. -/
def changed (s : Cache P R) (event : Event P R) (_ : Cache P R) (past : Index → Bool) : Index → Bool :=
  match event with
  | .modify _ r _ => fun b => past b || decide (s.ref r = some b)
  | .iupdate _ r => fun b => past b && !decide (s.ref r = some b)
  | _ => past

/-- A change is followed by iupdate, and does not free the inode; ialloc is given a type. -/
def Documented (before : Cache P R × (Index → Bool)) (event : Event P R) (_ : Cache P R × (Index → Bool)) : Prop :=
  match event with
  | .iunlock _ r => ∀ b ∈ before.1.ref r, before.2 b = false
  | .modify _ _ fields => fields.type ≠ 0
  | .ialloc _ _ _ type => type ≠ 0
  | _ => True

/-- iget is asked only for inodes that are allocated and have a link. -/
def Linked (before : Cache P R × (Index → Bool)) (event : Event P R) (_ : Cache P R × (Index → Bool)) : Prop :=
  match event with
  | .iget _ _ key => (before.1.disk key).type ≠ 0 ∧ (before.1.disk key).nlink ≠ 0
  | _ => True

instance (before after : Cache P R × (Index → Bool)) (event : Event P R) : Decidable (Documented before event after) :=
  match event with
  | .iunlock _ r => @Option.decidableForallMem _ (fun b => before.2 b = false) inferInstance (before.1.ref r)
  | .modify _ _ fields => inferInstanceAs (Decidable (fields.type ≠ 0))
  | .ialloc _ _ _ type => inferInstanceAs (Decidable (type ≠ 0))
  | .iget .. | .idup .. | .ilock .. | .iupdate .. | .iput .. | .step _ => .isTrue trivial

instance (before after : Cache P R × (Index → Bool)) (event : Event P R) : Decidable (Linked before event after) :=
  match event with
  | .iget _ _ key => inferInstanceAs (Decidable ((before.1.disk key).type ≠ 0 ∧ (before.1.disk key).nlink ≠ 0))
  | .idup .. | .ilock .. | .iunlock .. | .modify .. | .iupdate .. | .iput .. | .ialloc .. | .step _ => .isTrue trivial

end Xv6.Icache
