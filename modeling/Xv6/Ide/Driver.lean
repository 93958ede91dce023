import Xv6.Bio.Cache
import Xv6.Data.Linked
import Xv6.Sync.Sleep

namespace Xv6.Ide

open Process Data Sync Bio Function

/-! The disk driver: iderw queues a buffer and waits for it, ideintr takes the
first buffer off the queue. The registers of the disk are left out but for the
order of the requests given to it; so are the panics on a block number past the
end of the file system and on a disk that is not there. -/

structure Driver where
  idequeue : Option Index := none
  qnext : Index → Option Index := fun _ => none
  /-- B_VALID and B_DIRTY of `flags`. -/
  valid : Index → Bool := fun _ => false
  dirty : Index → Bool := fun _ => false
  /-- The buffers that were appended, given to the disk and taken off, in order: a
  record of the past that decides nothing. -/
  submitted : List Index := []
  started : List Index := []
  completed : List Index := []

namespace Driver

variable (d : Driver)

/-- `(b->flags & (B_VALID|B_DIRTY)) == B_VALID`. -/
def synced (b : Index) : Bool := d.valid b && !d.dirty b

/-- What the caller of iderw, who holds the lock of the buffer, made of the flags, and `b->qnext = 0`. -/
def prepare (b : Index) (valid dirty : Bool) : Driver :=
  { d with valid := update d.valid b valid, dirty := update d.dirty b dirty
           qnext := update d.qnext b none }

/-- `*pp = b`, where `pp` is `&idequeue` or the address of a `qnext`. -/
def store (pp : Option Index) (b : Index) : Driver :=
  match pp with
  | none => { d with idequeue := some b, submitted := d.submitted ++ [b] }
  | some last => { d with qnext := update d.qnext last (some b), submitted := d.submitted ++ [b] }

def idestart (b : Index) : Driver := { d with started := d.started ++ [b] }

/-- `idequeue = b->qnext; b->flags |= B_VALID; b->flags &= ~B_DIRTY;` -/
def finish (b : Index) : Driver :=
  { d with idequeue := d.qnext b, valid := update d.valid b true, dirty := update d.dirty b false
           completed := d.completed ++ [b] }

/-- The buffers submitted and not yet completed. -/
def pending : List Index := d.submitted.drop d.completed.length

end Driver

/-- The points of iderw, up to `done`, and of ideintr. -/
inductive Point where
  | append (b : Index) (valid dirty : Bool)
  | walk (b : Index) (pp : Option Index)
  | begin (b : Index)
  | wait (b : Index)
  | done (b : Index)
  | intr
  | next
  | finished
deriving DecidableEq, Repr

def bufChan (b : Index) : Chan := .object b

def code : Code Driver Point where
  lk := .other
  channels := (List.finRange NBUF).map bufChan
  entry
    -- otherwise the panic "iderw: nothing to do"
    | .append _ valid dirty => !(valid && !dirty)
    | .intr => true
    | _ => false
  run
    | .append b valid dirty, d => (d.prepare b valid dirty, .goto (.walk b none))
    | .walk b pp, d =>
      match link d.qnext d.idequeue pp with
      | some node => (d, .goto (.walk b (some node)))
      | none => (d.store pp b, .goto (.begin b))
    | .begin b, d => (if d.idequeue = some b then d.idestart b else d, .goto (.wait b))
    | .wait b, d => if d.synced b = true then (d, .goto (.done b)) else (d, .sleep (bufChan b) (.wait b))
    | .done _, d => (d, .leave)
    | .intr, d =>
      match d.idequeue with
      | none => (d, .goto .finished)
      | some b => (d.finish b, .wakeup (bufChan b) .next)
    | .next, d =>
      match d.idequeue with
      | none => (d, .goto .finished)
      | some b => (d.idestart b, .goto .finished)
    | .finished, d => (d, .leave)

def Point.buffer : Point → Option Index
  | .append b _ _ | .walk b _ | .begin b | .wait b | .done b => some b
  | _ => none

/-- Calls of iderw are on distinct buffers, which their callers have locked, and interrupt handlers make none. -/
def Distinct (before : State Driver Point) (event : Event Point) (_ : State Driver Point) : Prop :=
  match event with
  | .start (.proc _) k => ∀ b ∈ k.buffer, ∀ q, (before.pc (.proc q)).point.bind Point.buffer ≠ some b
  | .start (.handler _) k => k.buffer = none
  | _ => True

instance (before after : State Driver Point) (event : Sync.Event Point) : Decidable (Distinct before event after) := by
  unfold Distinct
  split
  · exact @Option.decidableForallMem _ (fun b => ∀ q, (before.pc (.proc q)).point.bind Point.buffer ≠ some b)
      (fun _ => inferInstance) _
  · infer_instance
  · infer_instance

structure Served (s : State Driver Point) : Prop where
  queue : Linked s.data.qnext s.data.idequeue s.data.pending ∧ s.data.pending.Nodup
  order : s.data.submitted = s.data.completed ++ s.data.pending
  head : s.locks .other = none → s.data.started = s.data.completed ++ s.data.pending.head?.toList
  returns : ∀ t b, s.pc t = .inside (.done b) → s.data.valid b = true ∧ s.data.dirty b = false ∧ b ∉ s.data.pending
  awake : s.locks .other = none → ∀ p b, (s.proc p).state = .sleeping → (s.proc p).chan = some (bufChan b) → b ∈ s.data.pending

/-- ideintr completes the first request, if there is one. -/
def Completes (before : State Driver Point) (event : Event Point) (after : State Driver Point) : Prop :=
  ∀ t b rest, event = .step t → before.pc t = .inside .intr → before.data.pending = b :: rest →
    after.data.completed = before.data.completed ++ [b] ∧ after.data.pending = rest ∧
      after.data.valid b = true ∧ after.data.dirty b = false

end Xv6.Ide
