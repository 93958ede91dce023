import Xv6.Block.Fifo
import Xv6.Sync.Outline

namespace Xv6.Sync

open Process Data Block

/-! The wakeups of a pipe. pipewrite wakes the readers before it sleeps and when
it is done, but not when it gives up because it was killed or because the read
end is closed. -/

/-- The points of piperead, pipewrite and pipeclose, with their local variables:
`n` is the size asked for, `rest` what pipewrite has still to store. -/
inductive PipePoint where
  | readEmpty (n : Nat)
  | readSleep (n : Nat)
  | readCopy (n : Nat) (got : List UInt8)
  | writeNext (n : Nat) (rest : List UInt8)
  | writeFull (n : Nat) (c : UInt8) (rest : List UInt8)
  | writeOpen (n : Nat) (c : UInt8) (rest : List UInt8)
  | writeWake (n : Nat) (c : UInt8) (rest : List UInt8)
  | writeSleep (n : Nat) (c : UInt8) (rest : List UInt8)
  | close (writable : Bool)
  /-- `release(&p->lock); return value;` -/
  | done (value : Int)
deriving DecidableEq, Repr

/-- The code under the lock of the pipe `index`. -/
def pipeCode (index : Nat) : Code Pipe PipePoint where
  lk := .other
  channels := [nreadChan index, nwriteChan index]
  entry
    | .readEmpty _ | .close _ => true
    | .writeNext n rest => n = rest.length
    | _ => false
  run
    | .readEmpty n, p =>
      if p.nread = p.nwrite ∧ p.writeopen = true then (p, .ifKilled (.done (-1)) (.readSleep n))
      else (p, .goto (.readCopy n []))
    | .readSleep n, p => (p, .sleep (nreadChan index) (.readEmpty n))
    | .readCopy n got, p =>
      if got.length < n ∧ p.nread ≠ p.nwrite then (p.take, .goto (.readCopy n (got ++ [p.front])))
      else (p, .wakeup (nwriteChan index) (.done got.length))
    | .writeNext n [], p => (p, .wakeup (nreadChan index) (.done n))
    | .writeNext n (c :: rest), p => (p, .goto (.writeFull n c rest))
    | .writeFull n c rest, p =>
      if p.nwrite = p.nread + PIPESIZE then (p, .goto (.writeOpen n c rest))
      else (p.store c, .goto (.writeNext n rest))
    | .writeOpen n c rest, p =>
      if p.readopen = false then (p, .goto (.done (-1))) else (p, .ifKilled (.done (-1)) (.writeWake n c rest))
    | .writeWake n c rest, p => (p, .wakeup (nreadChan index) (.writeSleep n c rest))
    | .writeSleep n c rest, p => (p, .sleep (nwriteChan index) (.writeFull n c rest))
    | .close writable, p =>
      (p.close writable, .wakeup (if writable = true then nreadChan index else nwriteChan index) (.done 0))
    | .done _, p => (p, .leave)

/-- What a reader and a writer wait for. -/
def pipeReady (index : Nat) (chan : Chan) (p : Pipe) : Bool :=
  if chan = nreadChan index then !(decide (p.nread = p.nwrite) && p.writeopen)
  else !(decide (p.nwrite = p.nread + PIPESIZE) && p.readopen)

structure PipeAwake (index : Nat) (s : State Pipe PipePoint) : Prop where
  readers : s.locks .other = none → ∀ p, (s.proc p).state = .sleeping → (s.proc p).chan = some (nreadChan index) →
    s.data.nread = s.data.nwrite ∧ s.data.writeopen = true
  writers : s.locks .other = none → ∀ p, (s.proc p).state = .sleeping → (s.proc p).chan = some (nwriteChan index) →
    s.data.nwrite = s.data.nread + PIPESIZE ∧ s.data.readopen = true

/-- A pipewrite that is about to give up did not find the pipe empty when it last
took the lock. The second component is the pipe at that time. -/
def GivesUpLate (before : State Pipe PipePoint × Pipe) (event : Event PipePoint) (_ : State Pipe PipePoint × Pipe) : Prop :=
  match event with
  | .step t =>
    match before.1.pc t with
    | .inside (.writeOpen ..) =>
      before.1.data.readopen = false ∨ before.1.killed t = true → before.2.nread ≠ before.2.nwrite
    | _ => True
  | _ => True

instance (before after : State Pipe PipePoint × Pipe) (event : Event PipePoint) : Decidable (GivesUpLate before event after) := by
  unfold GivesUpLate
  split
  · split <;> infer_instance
  · infer_instance

section

variable {index : Nat} {p : Pipe} {owed : List Chan} {chan : Chan}

theorem nwriteChan_ne : nwriteChan index ≠ nreadChan index := by
  simp [nwriteChan, nreadChan]

@[simp] theorem pipeReady_nread : pipeReady index (nreadChan index) p = !(decide (p.nread = p.nwrite) && p.writeopen) := by
  simp [pipeReady]

@[simp] theorem pipeReady_nwrite :
    pipeReady index (nwriteChan index) p = !(decide (p.nwrite = p.nread + PIPESIZE) && p.readopen) := by
  simp [pipeReady, nwriteChan_ne]

theorem store_nonempty {c : UInt8} (holds : ∃ unread, p.Holds unread) (room : p.nwrite ≠ p.nread + PIPESIZE) :
    (∃ unread, (p.store c).Holds unread) ∧ (p.store c).nread ≠ (p.store c).nwrite := by
  obtain ⟨_, holds⟩ := holds
  have stored := holds.store room c
  exact ⟨⟨_, stored⟩, fun same => by simpa using stored.first_eq_last.mp same⟩

@[simp] theorem raise_same (p : Pipe) : raise (pipeCode index) (pipeReady index) p p owed = owed := by
  simp [raise]

theorem mem_raise {p' : Pipe} : chan ∈ raise (pipeCode index) (pipeReady index) p p' owed ↔
    chan ∈ owed ∨ (chan = nreadChan index ∨ chan = nwriteChan index) ∧ pipeReady index chan p = false ∧
      pipeReady index chan p' = true := by
  simp [raise, pipeCode]

theorem filter_ne_nil (only : ∀ chan' ∈ owed, chan' = chan) : owed.filter (· ≠ chan) = [] := by
  simpa using only

end

/-- The wakeups that are owed at the points of the code. -/
def pipeOutline (index : Nat) : Outline Pipe PipePoint where
  free p := ∃ unread, p.Holds unread
  back
    | .readEmpty _ | .writeNext .. | .writeFull .. | .close _ => True
    | _ => False
  good old now owed k := (∃ unread, now.Holds unread) ∧
    match k with
    | .readEmpty _ | .close _ | .done _ => owed = []
    | .readSleep _ => owed = [] ∧ now.nread = now.nwrite ∧ now.writeopen = true
    | .readCopy .. => ∀ chan ∈ owed, chan = nwriteChan index
    | .writeNext .. | .writeFull .. =>
      (∀ chan ∈ owed, chan = nreadChan index) ∧ (old.nread ≠ old.nwrite → owed = [] ∧ now.nread ≠ now.nwrite)
    | .writeOpen .. =>
      (∀ chan ∈ owed, chan = nreadChan index) ∧ (old.nread ≠ old.nwrite → owed = []) ∧ now.nwrite = now.nread + PIPESIZE
    | .writeWake .. =>
      (∀ chan ∈ owed, chan = nreadChan index) ∧ now.nwrite = now.nread + PIPESIZE ∧ now.readopen = true
    | .writeSleep .. => owed = [] ∧ now.nwrite = now.nread + PIPESIZE ∧ now.readopen = true

section

variable {index : Nat}

theorem pipeOutline_sound : (pipeOutline index).Sound (pipeCode index) where
  other := rfl
  entry k entry := by cases k <;> simp_all [pipeCode, pipeOutline]

theorem pipeOutline_enter (k : PipePoint) (now : Pipe) (free : (pipeOutline index).free now)
    (back : (pipeOutline index).back k) : (pipeOutline index).good now now [] k := by
  refine ⟨free, ?_⟩
  cases k <;> simp_all [pipeOutline]

theorem pipeOutline_correct {old now : Pipe} {owed : List Chan} {killed : Bool} {k : PipePoint}
    (good : (pipeOutline index).good old now owed k)
    (late : ∀ n c rest, k = .writeOpen n c rest → now.readopen = false ∨ killed = true → old.nread ≠ old.nwrite) :
    (pipeOutline index).Correct (pipeCode index) (pipeReady index) killed old now owed k := by
  obtain ⟨holds, good⟩ := good
  unfold Outline.Correct
  cases k with
  | readEmpty n =>
    by_cases empty : now.nread = now.nwrite ∧ now.writeopen = true
    · have run : (pipeCode index).run (.readEmpty n) now = (now, .ifKilled (.done (-1)) (.readSleep n)) := if_pos empty
      simp only [run, raise_same]
      cases killed
      · exact ⟨holds, good, empty⟩
      · exact ⟨holds, good⟩
    · have run : (pipeCode index).run (.readEmpty n) now = (now, .goto (.readCopy n [])) := if_neg empty
      simp only [run, raise_same]
      have none : owed = [] := good
      exact ⟨holds, by simp [none]⟩
  | readSleep n =>
    obtain ⟨none, empty, opened⟩ := good
    have run : (pipeCode index).run (.readSleep n) now = (now, .sleep (nreadChan index) (.readEmpty n)) := rfl
    simp only [run, raise_same]
    exact ⟨by simp [empty, opened], none, holds, trivial, trivial⟩
  | readCopy n got =>
    by_cases more : got.length < n ∧ now.nread ≠ now.nwrite
    · have run : (pipeCode index).run (.readCopy n got) now = (now.take, .goto (.readCopy n (got ++ [now.front]))) :=
        if_pos more
      simp only [run]
      obtain ⟨unread, holds⟩ := holds
      obtain ⟨left, -, taken⟩ := holds.take more.2
      refine ⟨⟨left, taken⟩, fun chan owes => ?_⟩
      -- Readers are not kept waiting: the pipe was not empty.
      rcases mem_raise.mp owes with before | ⟨rfl | rfl, was, -⟩
      · exact good chan before
      · simp [more.2] at was
      · rfl
    · have run : (pipeCode index).run (.readCopy n got) now = (now, .wakeup (nwriteChan index) (.done got.length)) :=
        if_neg more
      simp only [run, raise_same]
      exact ⟨holds, filter_ne_nil good⟩
  | writeNext n rest =>
    cases rest with
    | nil =>
      have run : (pipeCode index).run (.writeNext n []) now = (now, .wakeup (nreadChan index) (.done n)) := rfl
      simp only [run, raise_same]
      exact ⟨holds, filter_ne_nil good.1⟩
    | cons c rest =>
      have run : (pipeCode index).run (.writeNext n (c :: rest)) now = (now, .goto (.writeFull n c rest)) := rfl
      simp only [run, raise_same]
      exact ⟨holds, good⟩
  | writeFull n c rest =>
    by_cases full : now.nwrite = now.nread + PIPESIZE
    · have run : (pipeCode index).run (.writeFull n c rest) now = (now, .goto (.writeOpen n c rest)) := if_pos full
      simp only [run, raise_same]
      exact ⟨holds, good.1, fun found => (good.2 found).1, full⟩
    · have run : (pipeCode index).run (.writeFull n c rest) now = (now.store c, .goto (.writeNext n rest)) := if_neg full
      simp only [run]
      obtain ⟨stored, nonempty⟩ := store_nonempty holds full
      have owes (chan : Chan) (member : chan ∈ raise (pipeCode index) (pipeReady index) now (now.store c) owed) :
          chan = nreadChan index ∧ (chan ∈ owed ∨ now.nread = now.nwrite) := by
        rcases mem_raise.mp member with before | ⟨rfl | rfl, was, -⟩
        · exact ⟨good.1 chan before, .inl before⟩
        · simp only [pipeReady_nread, Bool.not_eq_false', Bool.and_eq_true, decide_eq_true_eq] at was
          exact ⟨rfl, .inr was.1⟩
        · simp [full] at was
      refine ⟨stored, fun chan member => (owes chan member).1, fun found => ⟨?_, nonempty⟩⟩
      obtain ⟨none, was⟩ := good.2 found
      refine List.eq_nil_iff_forall_not_mem.mpr fun chan member => ?_
      rcases (owes chan member).2 with before | empty
      · simp [none] at before
      · exact was empty
  | writeOpen n c rest =>
    obtain ⟨only, found, full⟩ := good
    by_cases closed : now.readopen = false
    · have run : (pipeCode index).run (.writeOpen n c rest) now = (now, .goto (.done (-1))) := if_pos closed
      simp only [run, raise_same]
      exact ⟨holds, found (late n c rest rfl (.inl closed))⟩
    · have run : (pipeCode index).run (.writeOpen n c rest) now = (now, .ifKilled (.done (-1)) (.writeWake n c rest)) :=
        if_neg closed
      simp only [run, raise_same]
      cases killed
      · exact ⟨holds, only, full, by simpa using closed⟩
      · exact ⟨holds, found (late n c rest rfl (.inr rfl))⟩
  | writeWake n c rest =>
    have run : (pipeCode index).run (.writeWake n c rest) now = (now, .wakeup (nreadChan index) (.writeSleep n c rest)) :=
      rfl
    simp only [run, raise_same]
    exact ⟨holds, filter_ne_nil good.1, good.2⟩
  | writeSleep n c rest =>
    obtain ⟨none, full, opened⟩ := good
    have run : (pipeCode index).run (.writeSleep n c rest) now = (now, .sleep (nwriteChan index) (.writeFull n c rest)) :=
      rfl
    simp only [run, raise_same]
    exact ⟨by simp [full, opened], none, holds, trivial, trivial⟩
  | close writable =>
    have none : owed = [] := good
    subst none
    obtain ⟨unread, holds⟩ := holds
    refine ⟨⟨unread, holds.close writable⟩, filter_ne_nil fun chan owes => ?_⟩
    have run : ((pipeCode index).run (.close writable) now).1 = now.close writable := rfl
    rw [run] at owes
    -- The other end waits for something that does not change.
    rcases mem_raise.mp owes with before | ⟨rfl | rfl, was, ready⟩
    · simp at before
    · cases writable
      · rw [pipeReady_nread] at was ready
        exact absurd (was.symm.trans ready) (by decide)
      · rfl
    · cases writable
      · rfl
      · rw [pipeReady_nwrite] at was ready
        exact absurd (was.symm.trans ready) (by decide)
  | done value =>
    have run : (pipeCode index).run (.done value) now = (now, .leave) := rfl
    simp only [run, raise_same]
    exact ⟨good, holds⟩

theorem Outline.Follows.pipeAwake {s : State Pipe PipePoint} {old : Pipe} {owed : List Chan}
    (follows : (pipeOutline index).Follows (pipeCode index) (pipeReady index) s old owed) : PipeAwake index s := by
  have safe := follows.awaited.safe
  refine ⟨fun free p asleep on => ?_, fun free p asleep on => ?_⟩
  · simpa using safe.awake free p asleep _ (by simp [pipeCode]) on
  · simpa using safe.awake free p asleep _ (by simp [pipeCode]) on

end

/-- Every run of calls on a pipe that starts empty in which no pipewrite gives up
after it filled the pipe. -/
theorem pipe_loses_no_wakeup (index : Nat) (p : Pipe) (empty : p.nread = p.nwrite) (table : Table)
    (quiet : ∀ q, (table q).state = .sleeping → ∀ chan ∈ (pipeCode index).channels, (table q).chan ≠ some chan)
    (events : List (Event PipePoint))
    (late : EveryStep (withHistory (pipeCode index).step taken) GivesUpLate ({ proc := table, data := p }, p) events) :
    EveryStep (withHistory (pipeCode index).step taken) (fun _ _ after => PipeAwake index after.1)
      ({ proc := table, data := p }, p) events := by
  have correct (before after : State Pipe PipePoint × Pipe) (t : Thread) (k : PipePoint) (owed : List Chan)
      (late : GivesUpLate before (.step t) after) (here : before.1.pc t = .inside k)
      (good : (pipeOutline index).good before.2 before.1.data owed k) :
      (pipeOutline index).Correct (pipeCode index) (pipeReady index) (before.1.killed t) before.2 before.1.data owed k := by
    refine pipeOutline_correct good fun n c rest point gives => ?_
    subst point
    simp only [GivesUpLate, here] at late
    exact late gives
  exact pipeOutline_sound.every pipeOutline_enter correct (fun s old owed follows => follows.pipeAwake) ⟨[], .empty empty⟩ quiet late

/-- Two processes that run, the second of them killed. -/
def killedWriter : Table := fun p =>
  if p = 0 then { state := .running } else if p = 1 then { state := .running, killed := true } else {}

/-- piperead of one byte goes to sleep. -/
def readerSleeps : List (Event PipePoint) := .start (.proc 0) (.readEmpty 1) :: List.replicate 6 (.step (.proc 0)) ++ [.retire 0]

/-- pipewrite of more than the pipe can hold, up to its release of the lock. -/
def writerGivesUp : List (Event PipePoint) :=
  .start (.proc 1) (.writeNext 513 (List.replicate 513 0)) :: List.replicate 1029 (.step (.proc 1))

/-- The reader sleeps on, with 512 bytes in the pipe. -/
theorem killed_writer_loses_wakeup : ¬ EveryStep (withHistory (pipeCode 0).step taken) (fun _ _ after => PipeAwake 0 after.1)
      ({ proc := killedWriter, data := {} }, {}) (readerSleeps ++ writerGivesUp ++ [.step (.proc 1)]) := by
  intro awake
  have reached : ∃ before ∈ run (withHistory (pipeCode 0).step taken) ({ proc := killedWriter, data := {} }, {})
      (readerSleeps ++ writerGivesUp), ∃ after ∈ withHistory (pipeCode 0).step taken before (.step (.proc 1)),
      after.1.locks .other = none ∧ (after.1.proc 0).state = .sleeping ∧ (after.1.proc 0).chan = some (nreadChan 0) ∧
        after.1.data.nread ≠ after.1.data.nwrite := by
    decide +kernel
  obtain ⟨_, ran, _, stepped, free, asleep, on, unread⟩ := reached
  exact unread ((awake.last ran stepped).readers free 0 asleep on).1

/-- A writer fills the pipe for a reader that sleeps, and stops at its end. -/
theorem pipe_loses_no_wakeup_fill : let table : Table := fun p => if p = 0 ∨ p = 1 then { state := .running } else {}
    let events := readerSleeps ++ .start (.proc 1) (.writeNext 2 [7, 8]) :: List.replicate 11 (.step (.proc 1))
    (run (pipeCode 0).step { proc := table, data := {} } events).map
        (fun s => (s.locks .other, (s.proc 0).state, s.data.nwrite)) = some (none, .runnable, 2) ∧
      EveryStep (withHistory (pipeCode 0).step taken) (fun _ _ after => PipeAwake 0 after.1)
        ({ proc := table, data := {} }, {}) events :=
  ⟨by decide +kernel, pipe_loses_no_wakeup 0 {} rfl _ (by decide +kernel) _ (by decide +kernel)⟩

end Xv6.Sync
