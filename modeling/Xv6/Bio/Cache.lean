import Mathlib.Algebra.Ring.Nat
import Xv6.Data.Circle
import Xv6.Data.Run

namespace Xv6.Bio

open Data Function

/-! The buffer cache. Each section under bcache.lock is one step; acquiresleep,
releasesleep and a disk transfer are steps of their own. A process may hold any
number of locked buffers, and works on one call at a time. The contents of a
block are of an arbitrary type. -/

def NBUF : Nat := 30

instance : NeZero NBUF := ⟨by decide⟩

abbrev Index := Fin NBUF

/-- `dev` and `blockno`. -/
abbrev Key := UInt32 × UInt32

variable {P β : Type}

structure Buf (P β : Type) where
  /-- B_VALID and B_DIRTY of the flags. -/
  valid : Bool := false
  dirty : Bool := false
  key : Key := (0, 0)
  /-- The process that has locked it. -/
  lock : Option P := none
  /-- Every reference belongs to a process, so that the `uint` of the source does not wrap. -/
  refcnt : Nat := 0
  data : β

inductive Pc where
  | idle
  /-- In bget, before acquiresleep has returned. -/
  | locking (b : Index) (key : Key)
  /-- In bread, after bget. -/
  | reading (b : Index) (key : Key)
  /-- In bwrite, before iderw. -/
  | writing (b : Index)
  /-- In brelse, after releasesleep. -/
  | releasing (b : Index)
deriving DecidableEq, Repr

/-- Why no step is taken any more: a loop of bget that does not end is one reason. -/
inductive Halt where
  | noBuffers
  | endless
deriving DecidableEq, Repr

structure Cache (P β : Type) where
  buf : Index → Buf P β
  /-- `none` is bcache.head. -/
  links : Links (Option Index)
  disk : Key → β
  pc : P → Pc := fun _ => .idle
  halt : Option Halt := none

def binit (blank : β) (disk : Key → β) : Cache P β where
  buf := fun _ => { data := blank }
  links := (List.finRange NBUF).foldl (fun links b => links.pushFront none (some b)) ⟨fun _ => none, fun _ => none⟩
  disk := disk

inductive Event (P β : Type) where
  | bread (p : P) (key : Key)
  | acquiresleep (p : P)
  /-- The end of bread: iderw where the buffer is not valid. -/
  | ready (p : P)
  | modify (p : P) (b : Index) (data : β)
  | logWrite (p : P) (b : Index)
  | bwrite (p : P) (b : Index)
  /-- The iderw of bwrite. -/
  | transfer (p : P)
  | brelse (p : P) (b : Index)
  | unref (p : P)

namespace Cache

variable (s : Cache P β)

/-- A loop of bget from the head along the links. -/
def find (follow : Option Index → Option Index) (test : Index → Bool) : Option (Option Index) :=
  (Links.search follow none (·.any test) NBUF (follow none)).map Option.join

def setBuf (b : Index) (change : Buf P β → Buf P β) : Cache P β :=
  { s with buf := update s.buf b (change (s.buf b)) }

def iderw (b : Index) : Cache P β :=
  if (s.buf b).dirty = true then
    { s.setBuf b fun buf => { buf with valid := true, dirty := false } with
      disk := update s.disk (s.buf b).key (s.buf b).data }
  else s.setBuf b fun buf => { buf with valid := true, dirty := false, data := s.disk buf.key }

def moveFront (b : Index) : Cache P β := { s with links := (s.links.unlink (some b)).pushFront none (some b) }

variable [DecidableEq P]

def goto (p : P) (pc : Pc) : Cache P β := { s with pc := update s.pc p pc }

/-- bget until it waits for the lock of the buffer. -/
def bget (p : P) (key : Key) : Cache P β :=
  match find s.links.next (fun b => (s.buf b).key = key) with
  | none => { s with halt := some .endless }
  | some (some b) => (s.setBuf b fun buf => { buf with refcnt := buf.refcnt + 1 }).goto p (.locking b key)
  | some none =>
    match find s.links.prev (fun b => (s.buf b).refcnt = 0 ∧ (s.buf b).dirty = false) with
    | none => { s with halt := some .endless }
    | some (some b) =>
      (s.setBuf b fun buf => { buf with key, valid := false, dirty := false, refcnt := 1 }).goto p (.locking b key)
    | some none => { s with halt := some .noBuffers }

/-- The process is in no call and has the buffer locked, so that holdingsleep is true. -/
def Holds (p : P) (b : Index) : Prop := s.pc p = .idle ∧ (s.buf b).lock = some p

instance (p : P) (b : Index) : Decidable (s.Holds p b) := inferInstanceAs (Decidable (_ ∧ _))

def unref (p : P) (b : Index) : Cache P β :=
  let s := s.setBuf b fun buf => { buf with refcnt := buf.refcnt - 1 }
  (if (s.buf b).refcnt = 0 then s.moveFront b else s).goto p .idle

def act : Event P β → Option (Cache P β)
  | .bread p key => if s.pc p = .idle then some (s.bget p key) else none
  | .acquiresleep p =>
    match s.pc p with
    | .locking b key =>
      if (s.buf b).lock = none then
        some ((s.setBuf b fun buf => { buf with lock := some p }).goto p (.reading b key))
      else none
    | _ => none
  | .ready p =>
    match s.pc p with
    | .reading b _ => some ((if (s.buf b).valid = true then s else s.iderw b).goto p .idle)
    | _ => none
  | .modify p b data => if s.Holds p b then some (s.setBuf b fun buf => { buf with data }) else none
  | .logWrite p b => if s.Holds p b then some (s.setBuf b fun buf => { buf with dirty := true }) else none
  | .bwrite p b =>
    if s.Holds p b then some ((s.setBuf b fun buf => { buf with dirty := true }).goto p (.writing b)) else none
  | .transfer p =>
    match s.pc p with
    | .writing b => some ((s.iderw b).goto p .idle)
    | _ => none
  | .brelse p b =>
    if s.Holds p b then some ((s.setBuf b fun buf => { buf with lock := none }).goto p (.releasing b)) else none
  | .unref p =>
    match s.pc p with
    | .releasing b => some (s.unref p b)
    | _ => none

end Cache

def Cache.step [DecidableEq P] (s : Cache P β) (event : Event P β) : Option (Cache P β) :=
  if s.halt = none then s.act event else none

/-- What the processes have done to the buffers and the blocks. -/
structure Past (β : Type) where
  /-- Changed since it was locked, logged or written. -/
  modified : Index → Bool := fun _ => false
  /-- The contents last written or logged. -/
  latest : Key → β
  breads : Index → Nat := fun _ => 0
  brelses : Index → Nat := fun _ => 0

namespace Past

variable (past : Past β)

def modify (b : Index) : Past β := { past with modified := update past.modified b true }

/-- The contents of the buffer become the contents of its block. -/
def save (b : Index) (key : Key) (data : β) : Past β :=
  { past with modified := update past.modified b false, latest := update past.latest key data }

def bread (b : Index) : Past β := { past with breads := update past.breads b (past.breads b + 1) }

def brelse (b : Index) : Past β := { past with brelses := update past.brelses b (past.brelses b + 1) }

end Past

def Past.observe (s : Cache P β) (event : Event P β) (next : Cache P β) (past : Past β) : Past β :=
  match event with
  | .bread p _ =>
    match next.pc p with
    | .locking b _ => past.bread b
    | _ => past
  | .modify _ b _ => past.modify b
  | .logWrite _ b => past.save b (s.buf b).key (s.buf b).data
  | .transfer p =>
    match s.pc p with
    | .writing b => past.save b (s.buf b).key (s.buf b).data
    | _ => past
  | .unref p =>
    match s.pc p with
    | .releasing b => past.brelse b
    | _ => past
  | _ => past

/-- A process gives back a buffer as it found it, logged it or wrote it. -/
def Disciplined (before : Cache P β × Past β) (event : Event P β) (_ : Cache P β × Past β) : Prop :=
  match event with
  | .brelse _ b => before.2.modified b = false
  | _ => True

instance (before after : Cache P β × Past β) (event : Event P β) : Decidable (Disciplined before event after) :=
  match event with
  | .brelse _ b => inferInstanceAs (Decidable (before.2.modified b = false))
  | .bread .. | .acquiresleep .. | .ready .. | .modify .. | .logWrite .. | .bwrite .. | .transfer .. | .unref .. =>
    .isTrue trivial

/-- What holds of the cache after every step, and of the step. -/
structure CacheSafe (before : Cache P β × Past β) (event : Event P β) (after : Cache P β × Past β) : Prop where
  ring : ∃ order : List Index, order.Perm (List.finRange NBUF) ∧ after.1.links.Circle none (order.map some)
  returns : after.1.halt ≠ some .endless
  unique : ∀ b c, (after.1.buf b).key = (after.1.buf c).key → (after.1.buf b).key.1 ≠ 0 → b = c
  counted : ∀ b, after.2.breads b = (after.1.buf b).refcnt + after.2.brelses b
  pinned : ∀ b, 0 < (before.1.buf b).refcnt ∨ (before.1.buf b).dirty = true → (after.1.buf b).key = (before.1.buf b).key
  clean : ∀ b, (after.1.buf b).lock = none → (after.1.buf b).valid = true → (after.1.buf b).dirty = false →
    (after.1.buf b).data = after.1.disk (after.1.buf b).key
  latest : ∀ p b key, event = .ready p → before.1.pc p = .reading b key →
    (after.1.buf b).lock = some p ∧ (after.1.buf b).key = key ∧ (after.1.buf b).data = after.2.latest key

end Xv6.Bio
