import Xv6.Block.Calls
import Xv6.Data.Ring

namespace Xv6.Block

open Data Data.Ring Function List Option UInt32

/-! The transfers through one pipe. What pipewrite and piperead do between taking
the lock of the pipe and giving it up, to return or to sleep, is one section.
A call that sleeps may be resumed at any time. The page of a pipe whose ends are
both closed is not reused here, so a call may still find it. -/

namespace Pipe

variable (p : Pipe)

/-- `p->data[p->nwrite++ % PIPESIZE] = c`. -/
def store (c : UInt8) : Pipe :=
  { p with data := update p.data (p.nwrite % PIPESIZE) c, nwrite := p.nwrite + 1 }

/-- `p->nread++`. -/
def take : Pipe := { p with nread := p.nread + 1 }

/-- `p->data[p->nread % PIPESIZE]`. -/
def front : UInt8 := p.data (p.nread % PIPESIZE)

/-- pipeclose, but for kfree. -/
def close (writable : Bool) : Pipe :=
  if writable = true then { p with writeopen := false } else { p with readopen := false }

end Pipe

inductive Pause where
  | asleep
  | failed
  | finished
deriving DecidableEq, Repr

/-- The loop of pipewrite: `sent` are the bytes before index `i`, the rest is still to be stored. -/
def Pipe.writeLoop (killed : Bool) (p : Pipe) (sent : List UInt8) : List UInt8 → Pipe × List UInt8 × List UInt8 × Pause
  | [] => (p, sent, [], .finished)
  | c :: rest =>
    if p.nwrite = p.nread + PIPESIZE then
      (p, sent, c :: rest, if p.readopen = false ∨ killed = true then .failed else .asleep)
    else (p.store c).writeLoop killed (sent ++ [c]) rest

/-- The copying loop of piperead, with the number of bytes still wanted. -/
def Pipe.readLoop (p : Pipe) (got : List UInt8) : Nat → Pipe × List UInt8
  | 0 => (p, got)
  | left + 1 => if p.nread = p.nwrite then (p, got) else p.take.readLoop (got ++ [p.front]) left

def Pipe.read (killed : Bool) (p : Pipe) (n : Nat) : Pipe × List UInt8 × Pause :=
  if p.nread = p.nwrite ∧ p.writeopen = true then (p, [], if killed = true then .failed else .asleep)
  else ((p.readLoop [] n).1, (p.readLoop [] n).2, .finished)

/-- How far a call of pipewrite or piperead is. The size `n` of a write is the
length of its bytes; a returned call keeps its value. -/
inductive Progress where
  | idle
  | writing (sent rest : List UInt8)
  | wrote (sent rest : List UInt8) (value : Int)
  | reading (n : Nat)
  | read (n : Nat) (got : List UInt8) (value : Int)
deriving DecidableEq, Repr

namespace Progress

/-- The bytes a pipewrite has stored. -/
def sent : Progress → List UInt8
  | .writing sent _ | .wrote sent _ _ => sent
  | _ => []

/-- The bytes a piperead has returned. -/
def got : Progress → List UInt8
  | .read _ got _ => got
  | _ => []

end Progress

inductive Transfer where
  | write (bytes : List UInt8)
  | read (n : Nat)
deriving DecidableEq, Repr

def Transfer.start : Transfer → Progress
  | .write bytes => .writing [] bytes
  | .read n => .reading n

variable {C : Type}

/-- One pipe and all the calls ever made on it. -/
structure Traffic (C : Type) where
  pipe : Pipe
  call : C → Progress := fun _ => .idle

inductive TrafficEvent (C : Type) where
  | start (c : C) (transfer : Transfer)
  /-- `killed` is what the call would read in `myproc()->killed`. -/
  | resume (c : C) (killed : Bool)
  | close (writable : Bool)

namespace Traffic

variable [DecidableEq C] (s : Traffic C)

def goto (c : C) (pipe : Pipe) (progress : Progress) : Traffic C := { pipe, call := update s.call c progress }

/-- The section of pipewrite that starts with `sent` stored. -/
def write (c : C) (killed : Bool) (sent rest : List UInt8) : Traffic C :=
  match s.pipe.writeLoop killed sent rest with
  | (p, sent, rest, .asleep) => s.goto c p (.writing sent rest)
  | (p, sent, rest, .failed) => s.goto c p (.wrote sent rest (-1))
  | (p, sent, rest, .finished) => s.goto c p (.wrote sent rest (sent ++ rest).length)

def read (c : C) (killed : Bool) (n : Nat) : Traffic C :=
  match s.pipe.read killed n with
  | (p, _, .asleep) => s.goto c p (.reading n)
  | (p, got, .failed) => s.goto c p (.read n got (-1))
  | (p, got, .finished) => s.goto c p (.read n got got.length)

def step : TrafficEvent C → Option (Traffic C)
  | .start c transfer => if s.call c = .idle then some (s.goto c s.pipe transfer.start) else none
  | .resume c killed =>
    match s.call c with
    | .writing sent rest => some (s.write c killed sent rest)
    | .reading n => some (s.read c killed n)
    | _ => none
  | .close writable => some { s with pipe := s.pipe.close writable }

end Traffic

/-- What the calls were asked for, and what has passed through the pipe, in the order of the lock. -/
structure Passed (C : Type) where
  asked : C → Option Transfer := fun _ => none
  stored : List (C × UInt8) := []
  returned : List UInt8 := []

/-- The bytes that the call `c` has stored. -/
def Passed.storedBy [DecidableEq C] (passed : Passed C) (c : C) : List UInt8 :=
  (passed.stored.filter (·.1 = c)).map Prod.snd

def Passed.observe [DecidableEq C] (s : Traffic C) (event : TrafficEvent C) (next : Traffic C)
    (passed : Passed C) : Passed C :=
  match event with
  | .start c transfer => { passed with asked := update passed.asked c (some transfer) }
  | .resume c _ =>
    { passed with
      stored := passed.stored ++ ((next.call c).sent.drop (s.call c).sent.length).map (c, ·)
      returned := passed.returned ++ (next.call c).got }
  | .close _ => passed

/-- The pipe holds `unread`, oldest first. -/
def Pipe.Holds (p : Pipe) (unread : List UInt8) : Prop := Queue p.data PIPESIZE p.nread p.nwrite unread

section

variable {p : Pipe} {unread : List UInt8} (holds : p.Holds unread)
include holds

theorem Pipe.Holds.close (writable : Bool) : (p.close writable).Holds unread := by
  unfold Pipe.close
  split <;> exact holds

theorem Pipe.Holds.store (room : p.nwrite ≠ p.nread + PIPESIZE) (c : UInt8) :
    (p.store c).Holds (unread ++ [c]) := by
  refine Queue.push holds (by decide) (Nat.lt_of_le_of_ne holds.bounded fun full => room ?_) c
  rw [holds.last, full]
  rfl

theorem Pipe.Holds.take (some : p.nread ≠ p.nwrite) :
    ∃ rest, unread = p.front :: rest ∧ p.take.Holds rest := by
  cases unread with
  | nil => exact absurd (by simpa using holds.last.symm) some
  | cons _ rest =>
    obtain ⟨front, taken⟩ := Queue.pop holds
    exact ⟨rest, by rw [← front]; rfl, taken⟩

theorem Pipe.Holds.writeLoop (killed : Bool) (sent bytes : List UInt8) :
    ∃ q new rest pause, p.writeLoop killed sent bytes = (q, sent ++ new, rest, pause) ∧
      bytes = new ++ rest ∧ q.Holds (unread ++ new) ∧ (pause = .finished → rest = []) ∧
      (pause ≠ .finished → q.nwrite = q.nread + PIPESIZE) ∧
      (pause = .failed → killed = true ∨ q.readopen = false) := by
  induction bytes generalizing p unread sent with
  | nil => exact ⟨p, [], [], .finished, by simp [Pipe.writeLoop], rfl, by simpa using holds, by simp⟩
  | cons c bytes ih =>
    by_cases full : p.nwrite = p.nread + PIPESIZE
    · refine ⟨p, [], c :: bytes, _, by rw [Pipe.writeLoop, if_pos full, append_nil], rfl,
        by simpa using holds, ?_, fun _ => full, fun failed => ?_⟩
      · split <;> simp
      · by_contra neither
        rw [not_or, Bool.not_eq_false] at neither
        simp [neither] at failed
    · obtain ⟨q, new, rest, pause, looped, split, later, ends⟩ := ih (holds.store full c) (sent ++ [c])
      refine ⟨q, c :: new, rest, pause, ?_, by rw [split]; rfl, by simpa using later, ends⟩
      rw [Pipe.writeLoop, if_neg full, looped, append_assoc]
      rfl

theorem Pipe.Holds.readLoop (got : List UInt8) (n : Nat) :
    ∃ q new rest, p.readLoop got n = (q, got ++ new) ∧ unread = new ++ rest ∧ q.Holds rest ∧ new.length ≤ n := by
  induction n generalizing p unread got with
  | zero => exact ⟨p, [], unread, by simp [Pipe.readLoop], rfl, holds, Nat.le_refl _⟩
  | succ _ ih =>
    by_cases empty : p.nread = p.nwrite
    · exact ⟨p, [], unread, by simp [Pipe.readLoop, empty], rfl, holds, Nat.zero_le _⟩
    · obtain ⟨rest, front, taken⟩ := holds.take empty
      obtain ⟨q, new, rest, looped, split, later, short⟩ := ih taken (got ++ [p.front])
      refine ⟨q, p.front :: new, rest, ?_, by rw [front, split]; rfl, later, Nat.succ_le_succ short⟩
      rw [Pipe.readLoop, if_neg empty, looped, append_assoc]
      rfl

theorem Pipe.Holds.read (killed : Bool) (n : Nat) :
    ∃ q got rest pause, p.read killed n = (q, got, pause) ∧ unread = got ++ rest ∧ q.Holds rest ∧
      got.length ≤ n ∧ (pause ≠ .finished → got = []) ∧ (pause = .failed → killed = true) ∧
      (pause = .asleep → q.nread = q.nwrite ∧ q.writeopen = true) := by
  unfold Pipe.read
  split
  · rename_i waits
    refine ⟨p, [], unread, _, rfl, rfl, holds, Nat.zero_le _, fun _ => rfl, fun failed => ?_, fun _ => waits⟩
    by_contra alive
    simp [alive] at failed
  · obtain ⟨q, new, rest, looped, split, later, short⟩ := holds.readLoop [] n
    exact ⟨q, new, rest, .finished, by rw [looped]; rfl, split, later, short, by simp⟩

theorem Pipe.Holds.read_nothing {killed : Bool} {q : Pipe} {n : Nat} (positive : 0 < n)
    (read : p.read killed n = (q, [], .finished)) : q.nread = q.nwrite ∧ q.writeopen = false := by
  obtain ⟨n, rfl⟩ := Nat.exists_eq_succ_of_ne_zero positive.ne'
  unfold Pipe.read at read
  split at read
  · split at read <;> simp at read
  · rename_i closed
    by_cases empty : p.nread = p.nwrite
    · simp only [Pipe.readLoop, if_pos empty, Prod.mk.injEq] at read
      rw [← read.1]
      exact ⟨empty, by simpa [empty] using closed⟩
    · obtain ⟨rest, front, taken⟩ := holds.take empty
      obtain ⟨r, _, _, looped, -⟩ := taken.readLoop [p.front] n
      simp [Pipe.readLoop, if_neg empty, looped] at read

end

/-- How far a call has got with what it was asked for. A write is complete or returns -1. -/
def Progress.Serves (asked : Option Transfer) : Progress → Prop
  | .idle => asked = none
  | .writing sent rest => asked = some (.write (sent ++ rest))
  | .wrote sent rest value => asked = some (.write (sent ++ rest)) ∧ (value = -1 ∨ value = sent.length ∧ rest = [])
  | .reading n => asked = some (.read n)
  | .read n got value => asked = some (.read n) ∧ got.length ≤ n ∧ (value = -1 ∧ got = [] ∨ value = got.length)

/-- Why a call has given up the lock, and when it returns -1. -/
def Progress.Stops (killed : Bool) (p : Pipe) : Progress → Prop
  | .idle => True
  | .writing _ _ => p.nwrite = p.nread + PIPESIZE
  | .wrote _ _ value => value = -1 → p.nwrite = p.nread + PIPESIZE ∧ (killed = true ∨ p.readopen = false)
  | .reading _ => p.nread = p.nwrite ∧ p.writeopen = true
  | .read n _ value => (value = -1 → killed = true) ∧ (value = 0 → 0 < n → p.nread = p.nwrite ∧ p.writeopen = false)

/-- The pipe against the history, and the history against the calls. -/
structure Flows [DecidableEq C] (s : Traffic C) (passed : Passed C) : Prop where
  holds : ∃ unread, s.pipe.Holds unread ∧ passed.stored.map Prod.snd = passed.returned ++ unread
  stored : ∀ c, passed.storedBy c = (s.call c).sent
  serves : ∀ c, (s.call c).Serves (passed.asked c)

/-- What holds of the pipe and of its calls after a step. -/
structure BoundedFifo [DecidableEq C] (_ : Traffic C × Passed C) (event : TrafficEvent C)
    (after : Traffic C × Passed C) : Prop where
  fifo : ∃ unread, after.2.stored.map Prod.snd = after.2.returned ++ unread ∧
    (after.1.pipe.nwrite - after.1.pipe.nread).toNat = unread.length
  bounded : (after.1.pipe.nwrite - after.1.pipe.nread).toNat ≤ PIPESIZE.toNat
  ordered : ∀ c bytes, after.2.asked c = some (.write bytes) → after.2.storedBy c <+: bytes
  complete : ∀ c bytes sent rest value, after.2.asked c = some (.write bytes) →
    after.1.call c = .wrote sent rest value → value = bytes.length → after.2.storedBy c = bytes
  serves : ∀ c, (after.1.call c).Serves (after.2.asked c)
  stops : ∀ c killed, event = .resume c killed → (after.1.call c).Stops killed after.1.pipe

section

variable [DecidableEq C] {s next : Traffic C} {passed : Passed C} {c : C} {killed : Bool} {event : TrafficEvent C}

theorem Traffic.goto_call_self (p : Pipe) (progress : Progress) : (s.goto c p progress).call c = progress := update_self ..

theorem Passed.storedBy_append (new returned : List UInt8) (d : C) :
    Passed.storedBy { passed with stored := passed.stored ++ new.map (c, ·), returned } d =
      passed.storedBy d ++ if c = d then new else [] := shares_append passed.stored c d new

section

variable (flows : Flows s passed)
include flows

theorem Flows.goto {q : Pipe} {progress : Progress} {unread rest : List UInt8} (new : List UInt8)
    (history : passed.stored.map Prod.snd = passed.returned ++ unread)
    (sent : progress.sent = (s.call c).sent ++ new) (holds : q.Holds rest) (balance : unread ++ new = progress.got ++ rest)
    (serves : progress.Serves (passed.asked c)) :
    Flows (s.goto c q progress) (passed.observe s (.resume c killed) (s.goto c q progress)) := by
  have observed : passed.observe s (.resume c killed) (s.goto c q progress) =
      { passed with stored := passed.stored ++ new.map (c, ·), returned := passed.returned ++ progress.got } := by
    simp only [Passed.observe, Traffic.goto_call_self, sent, drop_left]
  rw [observed]
  refine ⟨⟨rest, holds, ?_⟩, fun d => ?_, fun d => ?_⟩
  · simp [comp_def, history, balance]
  · rw [Passed.storedBy_append, flows.stored d]
    by_cases same : c = d
    · subst same
      rw [if_pos rfl, Traffic.goto_call_self, sent]
    · rw [if_neg same, append_nil]
      simp only [Traffic.goto, update_of_ne (Ne.symm same)]
  · by_cases same : d = c
    · subst same
      rw [Traffic.goto_call_self]
      exact serves
    · simp only [Traffic.goto, update_of_ne same]
      exact flows.serves d

theorem Flows.write {sent bytes : List UInt8} (here : s.call c = .writing sent bytes) :
    let next := s.write c killed sent bytes
    Flows next (passed.observe s (.resume c killed) next) ∧ (next.call c).Stops killed next.pipe := by
  obtain ⟨_, holds, history⟩ := flows.holds
  obtain ⟨q, new, rest, pause, looped, split, later, finished, full, failed⟩ := holds.writeLoop killed sent bytes
  have before : (s.call c).sent = sent := by rw [here]; rfl
  have asked : passed.asked c = some (.write (sent ++ new ++ rest)) := by
    have serves := flows.serves c
    rw [here, split] at serves
    rw [append_assoc]
    exact serves
  unfold Traffic.write
  rw [looped]
  cases pause with
  | asleep =>
    refine ⟨flows.goto new history (by rw [before]; rfl) later rfl asked, ?_⟩
    rw [Traffic.goto_call_self]
    exact full (by simp)
  | failed =>
    refine ⟨flows.goto new history (by rw [before]; rfl) later rfl ⟨asked, .inl rfl⟩, ?_⟩
    rw [Traffic.goto_call_self]
    exact fun _ => ⟨full (by simp), failed rfl⟩
  | finished =>
    obtain rfl := finished rfl
    refine ⟨flows.goto new history (by rw [before]; rfl) later rfl ⟨asked, .inr ⟨by simp, rfl⟩⟩, ?_⟩
    rw [Traffic.goto_call_self]
    intro negative
    omega

theorem Flows.read {n : Nat} (here : s.call c = .reading n) :
    let next := s.read c killed n
    Flows next (passed.observe s (.resume c killed) next) ∧ (next.call c).Stops killed next.pipe := by
  obtain ⟨_, holds, history⟩ := flows.holds
  obtain ⟨q, got, _, pause, outcome, split, later, short, none, failed, asleep⟩ := holds.read killed n
  have before : (s.call c).sent = [] := by rw [here]; rfl
  have asked : passed.asked c = some (.read n) := by
    have serves := flows.serves c
    rwa [here] at serves
  unfold Traffic.read
  rw [outcome]
  cases pause with
  | asleep =>
    refine ⟨flows.goto [] history (by rw [before]; rfl) later ?_ asked, ?_⟩
    · rw [split, none (by simp), append_nil]
      rfl
    · rw [Traffic.goto_call_self]
      exact asleep rfl
  | failed =>
    obtain rfl := none (by simp)
    refine ⟨flows.goto [] history (by rw [before]; rfl) later (by rw [split, append_nil]; rfl)
      ⟨asked, short, .inl ⟨rfl, rfl⟩⟩, ?_⟩
    rw [Traffic.goto_call_self]
    exact ⟨fun _ => failed rfl, by simp⟩
  | finished =>
    refine ⟨flows.goto [] history (by rw [before]; rfl) later (by rw [split, append_nil]; rfl)
      ⟨asked, short, .inr rfl⟩, ?_⟩
    rw [Traffic.goto_call_self]
    refine ⟨fun negative => by omega, fun none positive => ?_⟩
    obtain rfl : got = [] := List.length_eq_zero_iff.mp (by omega)
    exact holds.read_nothing positive outcome

theorem Flows.start (here : s.call c = .idle) (transfer : Transfer) :
    Flows (s.goto c s.pipe transfer.start) { passed with asked := update passed.asked c (some transfer) } where
  holds := flows.holds
  stored := by
    intro d
    refine (flows.stored d).trans ?_
    by_cases same : d = c
    · subst same
      rw [here, Traffic.goto_call_self]
      cases transfer <;> rfl
    · simp only [Traffic.goto, update_of_ne same]
  serves := by
    intro d
    by_cases same : d = c
    · subst same
      simp only [Traffic.goto_call_self, update_self]
      cases transfer <;> rfl
    · simp only [Traffic.goto, update_of_ne same]
      exact flows.serves d

theorem Flows.close (writable : Bool) : Flows { s with pipe := s.pipe.close writable } passed :=
  let ⟨unread, holds, history⟩ := flows.holds
  ⟨⟨unread, holds.close writable, history⟩, flows.stored, flows.serves⟩

end

inductive TrafficMove (s : Traffic C) : TrafficEvent C → Traffic C → Prop
  | start (c : C) (transfer : Transfer) (here : s.call c = .idle) :
      TrafficMove s (.start c transfer) (s.goto c s.pipe transfer.start)
  | write (c : C) (killed : Bool) (sent rest : List UInt8) (here : s.call c = .writing sent rest) :
      TrafficMove s (.resume c killed) (s.write c killed sent rest)
  | read (c : C) (killed : Bool) (n : Nat) (here : s.call c = .reading n) : TrafficMove s (.resume c killed) (s.read c killed n)
  | close (writable : Bool) : TrafficMove s (.close writable) { s with pipe := s.pipe.close writable }

theorem Traffic.step_move (stepped : s.step event = some next) : TrafficMove s event next := by
  cases event with
  | start c transfer =>
    simp only [Traffic.step, guarded] at stepped
    obtain ⟨here, rfl⟩ := stepped
    exact .start c transfer here
  | resume c killed =>
    cases here : s.call c with
    | writing sent rest =>
      simp only [Traffic.step, here, some.injEq] at stepped
      exact stepped ▸ .write c killed sent rest here
    | reading n =>
      simp only [Traffic.step, here, some.injEq] at stepped
      exact stepped ▸ .read c killed n here
    | _ => simp [Traffic.step, here] at stepped
  | close writable =>
    simp only [Traffic.step, some.injEq] at stepped
    exact stepped ▸ .close writable

theorem Flows.step (flows : Flows s passed) (stepped : s.step event = some next) :
    Flows next (passed.observe s event next) := by
  cases Traffic.step_move stepped with
  | start _ transfer here => exact flows.start here transfer
  | write _ _ _ _ here => exact (flows.write here).1
  | read _ _ _ here => exact (flows.read here).1
  | close writable => exact flows.close writable

theorem Flows.storedBy {bytes : List UInt8} (flows : Flows s passed) (asked : passed.asked c = some (.write bytes)) :
    passed.storedBy c <+: bytes ∧
      ∀ sent rest value, s.call c = .wrote sent rest value → value = bytes.length → passed.storedBy c = bytes := by
  have serves := flows.serves c
  rw [flows.stored c]
  rw [asked] at serves
  cases here : s.call c with
  | idle | reading | read => simp [here, Progress.Serves] at serves
  | writing sent rest =>
    simp only [here, Progress.Serves, Option.some.injEq, Transfer.write.injEq] at serves
    exact ⟨serves ▸ prefix_append sent rest, nofun⟩
  | wrote sent rest value =>
    simp only [here, Progress.Serves, Option.some.injEq, Transfer.write.injEq] at serves
    obtain ⟨rfl, ends⟩ := serves
    refine ⟨prefix_append sent rest, ?_⟩
    rintro _ _ _ ⟨⟩ counted
    rcases ends with negative | ⟨-, none⟩
    · omega
    · rw [none, append_nil]
      rfl

theorem Flows.bounded (flows : Flows s passed) (stepped : s.step event = some next) :
    BoundedFifo (s, passed) event (next, passed.observe s event next) := by
  have later := flows.step stepped
  obtain ⟨unread, holds, history⟩ := later.holds
  refine ⟨⟨unread, history, holds.length_eq⟩, holds.length_eq.trans_le holds.bounded, fun _ _ asked => (later.storedBy asked).1,
    fun _ _ sent rest value asked => (later.storedBy asked).2 sent rest value, later.serves, fun c killed resumed => ?_⟩
  cases Traffic.step_move stepped with
  | start | close => contradiction
  | write _ _ _ _ here =>
    cases resumed
    exact (flows.write here).2
  | read _ _ _ here =>
    cases resumed
    exact (flows.read here).2

end

/-- Every run of calls on a pipe whose counters start equal. -/
theorem pipe_bounded_fifo [DecidableEq C] (p : Pipe) (same : p.nread = p.nwrite) (events : List (TrafficEvent C)) :
    EveryStep (withHistory Traffic.step Passed.observe) BoundedFifo ({ pipe := p }, {}) events := by
  have start : Flows ({ pipe := p } : Traffic C) {} := ⟨⟨[], .empty same, rfl⟩, fun _ => rfl, fun _ => rfl⟩
  refine (runs_along (fun s => Flows s.1 s.2) start (everyStep_true _ _ _)
    (fun before event after flows _ stepped => ?_)).1
  obtain ⟨moved, recorded⟩ := withHistory_step stepped
  have bounded := flows.bounded moved
  rw [← recorded] at bounded
  refine ⟨?_, bounded⟩
  rw [recorded]
  exact flows.step moved

/-- Two writers and a reader across the wrap of the counters, and a reader at the end of the input. -/
theorem pipe_bounded_fifo_wrap : let p : Pipe := { nread := 4294967295, nwrite := 4294967295 }
    let events : List (TrafficEvent (Fin 4)) :=
      [.start 0 (.write [1, 2]), .start 1 (.read 4), .start 2 (.write [3]), .resume 2 false, .resume 0 false,
        .resume 1 false, .close true, .start 3 (.read 1), .resume 3 false]
    (run (withHistory Traffic.step Passed.observe) ({ pipe := p }, {}) events).map
        (fun (s, passed) => (List.ofFn s.call, passed.stored, passed.returned)) =
        some ([.wrote [1, 2] [] 2, .read 4 [3, 1, 2] 3, .wrote [3] [] 1, .read 1 [] 0],
          [(2, 3), (0, 1), (0, 2)], [3, 1, 2]) ∧
      EveryStep (withHistory Traffic.step Passed.observe) BoundedFifo ({ pipe := p }, {}) events :=
  ⟨by decide +kernel, pipe_bounded_fifo _ rfl _⟩

end Xv6.Block
