import Xv6.Console.Input

namespace Xv6.Console

open Block Data Data.Ring Function List Option

/-! The line discipline: what is typed is edited as a line and committed at the
end of the line, at a ^D or when there is no more room; what is committed is read
in order. -/

/-- What the console is for, without the ring: the bytes committed so far, how many
of them have been consumed, and the line that is being typed. -/
structure Line where
  committed : List UInt8 := []
  consumed : Nat := 0
  line : List UInt8 := []

namespace Line

variable (l : Line)

def unread : List UInt8 := l.committed.drop l.consumed

def type (c : UInt8) : Line :=
  if c = ctrlP then l
  else if c = ctrlU then { l with line := [] }
  else if c = ctrlH ∨ c = delete then { l with line := l.line.dropLast }
  else if c = 0 ∨ INPUT_BUF.toNat ≤ l.unread.length + l.line.length then l
  else
    let c := if c = carriageReturn then newline else c
    if c = newline ∨ c = ctrlD ∨ l.unread.length + l.line.length + 1 = INPUT_BUF.toNat then
      { l with committed := l.committed ++ (l.line ++ [c]), line := [] }
    else { l with line := l.line ++ [c] }

end Line

/-- The past of the console: how much the calls were asked for, the line, and the bytes the calls
copied, in the order of the lock. -/
structure Past (C : Type) where
  asked : C → Option Nat := fun _ => none
  line : Line := {}
  taken : List (C × UInt8) := []

variable {C : Type} [DecidableEq C]

def Past.takenBy (past : Past C) (c : C) : List UInt8 := (past.taken.filter (·.1 = c)).map Prod.snd

def Past.observe (s : Device C) (event : Event C) (next : Device C) (past : Past C) : Past C :=
  match event with
  | .intr chars => { past with line := chars.foldl Line.type past.line }
  | .start c n => { past with asked := update past.asked c (some n) }
  | .resume c _ =>
    { past with
      line := { past.line with consumed := past.line.consumed + (next.input.r - s.input.r).toNat }
      taken := past.taken ++ ((next.call c).got.drop (s.call c).got.length).map (c, ·) }

/-- How a call of consoleread ended: with all it asked for, with a whole line, or
at a ^D, which it consumed if it came first and left for the next call otherwise. -/
def Ended (target : Nat) (got : List UInt8) (l : Line) : Prop :=
  got.length = target ∨ got.getLast? = some newline ∨
    got = [] ∧ (l.committed.take l.consumed).getLast? = some ctrlD ∨ got ≠ [] ∧ l.unread.head? = some ctrlD

def Reading.target : Reading → Option Nat
  | .idle => none
  | .reading target _ | .returned target _ _ => some target

/-- What a section of consoleread makes of its call `c`. -/
structure Gives (before : Device C × Past C) (c : C) (killed : Bool) (after : Device C × Past C) : Prop where
  ended : ∀ target got value, after.1.call c = .returned target got value →
    value = -1 ∧ killed = true ∨ value = got.length ∧ Ended target got after.2.line
  /-- A call that goes on sleeping or gives up has taken all there was, which ended no read. -/
  waits : ∀ target got, after.1.call c = .reading target got ∨ after.1.call c = .returned target got (-1) →
    after.2.line.unread = [] ∧ got.length < target ∧ ∀ b ∈ before.2.line.unread, b ≠ ctrlD ∧ b ≠ newline
  /-- A ^D before any byte gives an empty read and is consumed. -/
  eof : ∀ target rest, before.1.call c = .reading target [] → 0 < target → before.2.line.unread = ctrlD :: rest →
    after.1.call c = .returned target [] 0 ∧ after.2.line.unread = rest
  /-- No other ^D is consumed. -/
  kept : ctrlD ∈ before.2.line.unread.take (after.2.line.consumed - before.2.line.consumed) → (after.1.call c).got = []

structure Disciplined (before : Device C × Past C) (event : Event C) (after : Device C × Past C) : Prop where
  indices : (after.1.input.w - after.1.input.r).toNat ≤ (after.1.input.e - after.1.input.r).toNat ∧
    (after.1.input.e - after.1.input.r).toNat ≤ INPUT_BUF.toNat
  intact : ∀ i : Nat, (after.1.input.r - before.1.input.r).toNat ≤ i → i < (before.1.input.w - before.1.input.r).toNat →
    after.1.input.buf ((before.1.input.r + .ofNat i) % INPUT_BUF) =
      before.1.input.buf ((before.1.input.r + .ofNat i) % INPUT_BUF)
  grows : ∃ new, after.2.line.committed = before.2.line.committed ++ new
  stored : window after.1.input.buf INPUT_BUF after.1.input.r (after.1.input.w - after.1.input.r).toNat =
    after.2.line.unread
  delivered : after.2.taken.map Prod.snd = (after.2.line.committed.take after.2.line.consumed).filter (· ≠ ctrlD)
  calls : ∀ c, after.2.takenBy c = (after.1.call c).got
  asked : ∀ c, (after.1.call c).target = after.2.asked c
  gives : ∀ c killed, event = .resume c killed → Gives before c killed after

/-- The ring holds the committed bytes that are unread, and after them the line. -/
structure Input.Holds (input : Input) (unread line : List UInt8) : Prop where
  w : input.w = input.r + .ofNat unread.length
  all : Queue input.buf INPUT_BUF input.r input.e (unread ++ line)

section

variable {input : Input} {unread line : List UInt8} {c : UInt8}

theorem toNat_offset {r : UInt32} {count : Nat} (bounded : count ≤ INPUT_BUF.toNat) : (r + .ofNat count - r).toNat = count :=
  toNat_add_sub (Nat.lt_of_le_of_lt bounded (by decide))

namespace Input.Holds

section

variable (holds : input.Holds unread line)
include holds

theorem front : Queue input.buf INPUT_BUF input.r input.w unread := by
  rw [holds.w]
  exact holds.all.front

theorem e_eq_w : input.e = input.w ↔ line = [] := by
  refine ⟨fun same => ?_, fun none => by simp [holds.all.last, holds.w, none]⟩
  have count := holds.all.length_eq
  rw [same, holds.front.length_eq, length_append] at count
  exact List.length_eq_zero_iff.mp (by omega)

theorem commit : input.commit.Holds (unread ++ line) [] := by
  refine ⟨holds.all.last, ?_⟩
  rw [append_nil]
  exact holds.all

theorem put (room : (unread ++ line).length < INPUT_BUF.toNat) (c : UInt8) :
    (input.put c).Holds unread (line ++ [c]) := by
  refine ⟨holds.w, ?_⟩
  rw [← append_assoc]
  exact holds.all.push (by decide) room c

theorem count_line : (input.e - input.w).toNat = line.length := by
  have e : input.e = input.w + .ofNat line.length := by
    rw [holds.all.last, holds.w, length_append, UInt32.ofNat_add, UInt32.add_assoc]
  have bounded := holds.all.bounded
  rw [length_append] at bounded
  rw [e, toNat_offset (by omega)]

end

theorem last (holds : input.Holds unread (line ++ [c])) :
    input.buf ((input.e - 1) % INPUT_BUF) = c ∧ input.erase.Holds unread line := by
  obtain ⟨w, all⟩ := holds
  rw [← append_assoc] at all
  exact ⟨all.drop_back.1, w, all.drop_back.2⟩

theorem take (holds : input.Holds (c :: unread) line) : input.front = c ∧ input.take.Holds unread line := by
  obtain ⟨front, all⟩ := holds.all.pop
  refine ⟨front, ?_, all⟩
  rw [Input.take, holds.w, length_cons, add_ofNat_succ]

theorem killLoop (holds : input.Holds unread line) (flat : newline ∉ line) {more : Nat} (enough : line.length ≤ more) :
    (input.killLoop more).Holds unread [] := by
  induction more generalizing input line with
  | zero =>
    have none : line = [] := List.length_eq_zero_iff.mp (Nat.le_zero.mp enough)
    exact none ▸ holds
  | succ _ ih =>
    unfold Input.killLoop
    rcases eq_nil_or_concat line with none | ⟨front, c, split⟩
    · rw [if_neg (by simp [holds.e_eq_w.mpr none])]
      exact none ▸ holds
    · rw [concat_eq_append] at split
      subst split
      obtain ⟨last, erased⟩ := holds.last
      have some : input.e ≠ input.w := fun same => by simpa using holds.e_eq_w.mp same
      have other : c ≠ newline := fun same => flat (by simp [same])
      rw [if_pos ⟨some, last ▸ other⟩]
      exact ih erased (fun member => flat (mem_append_left _ member)) (by simpa using enough)

end Input.Holds

theorem Input.killLoop_r (input : Input) (more : Nat) : (input.killLoop more).r = input.r := by
  induction more generalizing input with
  | zero => rfl
  | succ _ ih =>
    unfold Input.killLoop
    split
    · exact ih _
    · rfl

theorem Input.type_r (input : Input) (c : UInt8) : (input.type c).r = input.r := by
  unfold Input.type
  dsimp only
  split
  · rfl
  split
  · exact input.killLoop_r _
  split
  · split <;> rfl
  split
  · split <;> split <;> rfl
  · rfl

end

structure Represents (input : Input) (l : Line) : Prop where
  holds : input.Holds l.unread l.line
  flat : newline ∉ l.line
  consumed : l.consumed ≤ l.committed.length

section

variable {input : Input} {l : Line}

theorem Line.unread_append (inside : l.consumed ≤ l.committed.length) (new : List UInt8) :
    Line.unread { l with committed := l.committed ++ new } = l.unread ++ new :=
  drop_append_of_le_length inside

theorem Represents.store (rep : Represents input l) (room : l.unread.length + l.line.length < INPUT_BUF.toNat) (c : UInt8) :
    Represents (if c = newline ∨ c = ctrlD ∨ (input.put c).e = (input.put c).r + INPUT_BUF then (input.put c).commit
        else input.put c) (if c = newline ∨ c = ctrlD ∨ l.unread.length + l.line.length + 1 = INPUT_BUF.toNat then
        { l with committed := l.committed ++ (l.line ++ [c]), line := [] } else { l with line := l.line ++ [c] }) := by
  have put := rep.holds.put (by rwa [length_append]) c
  have count : (l.unread ++ (l.line ++ [c])).length = l.unread.length + l.line.length + 1 := by simp [Nat.add_assoc]
  have full : (input.put c).e = (input.put c).r + INPUT_BUF ↔
      l.unread.length + l.line.length + 1 = INPUT_BUF.toNat := by
    refine ⟨fun same => ?_, fun same => ?_⟩
    · have reached := put.all.length_eq
      rw [same, count, UInt32.add_comm, UInt32.add_sub_cancel] at reached
      exact reached.symm
    · rw [put.all.last, count, same]
      rfl
  simp only [full]
  split
  · refine ⟨?_, not_mem_nil, ?_⟩
    · have committed := put.commit
      rwa [← Line.unread_append rep.consumed] at committed
    · rw [length_append]
      exact Nat.le_add_right_of_le rep.consumed
  · rename_i ends
    rw [not_or] at ends
    refine ⟨put, fun member => ?_, rep.consumed⟩
    rw [mem_append, mem_singleton] at member
    rcases member with member | same
    · exact rep.flat member
    · exact ends.1 same.symm

theorem Represents.type (rep : Represents input l) (c : UInt8) : Represents (input.type c) (l.type c) := by
  obtain ⟨holds, flat, consumed⟩ := rep
  unfold Input.type Line.type
  split
  · exact ⟨holds, flat, consumed⟩
  split
  · exact ⟨holds.killLoop flat holds.count_line.ge, not_mem_nil, consumed⟩
  split
  · rcases eq_nil_or_concat l.line with none | ⟨front, last, split⟩
    · rw [if_neg (by simp [holds.e_eq_w.mpr none])]
      have same : l.line.dropLast = l.line := by simp [none]
      rw [same]
      exact ⟨holds, flat, consumed⟩
    · rw [concat_eq_append] at split
      rw [split] at holds flat
      rw [if_pos fun same => by simpa using holds.e_eq_w.mp same]
      simp only [split, List.dropLast_concat]
      exact ⟨holds.last.2, fun member => flat (mem_append_left _ member), consumed⟩
  have fits : input.e - input.r < INPUT_BUF ↔ l.unread.length + l.line.length < INPUT_BUF.toNat := by
    rw [UInt32.lt_iff_toNat_lt, holds.all.length_eq, length_append]
  by_cases accepted : c ≠ 0 ∧ input.e - input.r < INPUT_BUF
  · have room := fits.mp accepted.2
    have refused : ¬ (c = 0 ∨ INPUT_BUF.toNat ≤ l.unread.length + l.line.length) := by
      rw [not_or, not_le]
      exact ⟨accepted.1, room⟩
    rw [if_pos accepted, if_neg refused]
    exact Represents.store ⟨holds, flat, consumed⟩ room _
  · rw [if_neg accepted, if_pos]
    · exact ⟨holds, flat, consumed⟩
    · rw [fits, ← not_le, ← not_or, not_not] at accepted
      exact accepted

theorem Line.type_committed (l : Line) (c : UInt8) :
    (l.type c).consumed = l.consumed ∧ ∃ new, (l.type c).committed = l.committed ++ new := by
  have none : ∃ new, l.committed = l.committed ++ new := ⟨[], by simp⟩
  unfold Line.type
  dsimp only
  split
  · exact ⟨rfl, none⟩
  split
  · exact ⟨rfl, none⟩
  split
  · exact ⟨rfl, none⟩
  split
  · exact ⟨rfl, none⟩
  split
  · split
    · exact ⟨rfl, _, rfl⟩
    · exact ⟨rfl, none⟩
  · split
    · exact ⟨rfl, _, rfl⟩
    · exact ⟨rfl, none⟩

theorem Represents.consoleintr (rep : Represents input l) (chars : List UInt8) :
    Represents (input.consoleintr chars) (chars.foldl Line.type l) ∧ (input.consoleintr chars).r = input.r ∧
      (chars.foldl Line.type l).consumed = l.consumed ∧ ∃ new, (chars.foldl Line.type l).committed = l.committed ++ new := by
  induction chars generalizing input l with
  | nil => exact ⟨rep, rfl, rfl, [], by simp⟩
  | cons c _ ih =>
    obtain ⟨later, r, consumed, new, committed⟩ := ih (rep.type c)
    obtain ⟨consumed', new', committed'⟩ := l.type_committed c
    refine ⟨later, r.trans (input.type_r c), consumed.trans consumed', new' ++ new, ?_⟩
    rw [← append_assoc, ← committed']
    exact committed

end

section

variable {input : Input} {l : Line} {killed : Bool} {target : Nat} {got : List UInt8}

def Line.consume (l : Line) (count : Nat) : Line := { l with consumed := l.consumed + count }

theorem Line.consume_consume (l : Line) (first second : Nat) : (l.consume first).consume second = l.consume (first + second) := by
  simp [Line.consume, Nat.add_assoc]

theorem Line.unread_consume (l : Line) (count : Nat) : (l.consume count).unread = l.unread.drop count := by
  simp [Line.unread, Line.consume, drop_drop, Nat.add_comm]

theorem Represents.take {c : UInt8} {rest : List UInt8} (rep : Represents input l) (unread : l.unread = c :: rest) :
    input.front = c ∧ Represents input.take (l.consume 1) := by
  obtain ⟨holds, flat, -⟩ := rep
  rw [unread] at holds
  refine ⟨holds.take.1, ?_, flat, ?_⟩
  · rw [Line.unread_consume, unread]
    exact holds.take.2
  · have more : 0 < l.unread.length := by simp [unread]
    rw [Line.unread, length_drop] at more
    change l.consumed + 1 ≤ l.committed.length
    omega

/-- What a section of consoleread makes of the line: it consumes `count` bytes and
copies those of them that are not ^D. -/
structure Reads (killed : Bool) (target : Nat) (input : Input) (l : Line) (got : List UInt8)
    (outcome : Input × List UInt8 × Pause) (count : Nat) : Prop where
  rep : Represents outcome.1 (l.consume count)
  r : outcome.1.r = input.r + .ofNat count
  inside : count ≤ l.unread.length
  got : outcome.2.1 = got ++ (l.unread.take count).filter (· ≠ ctrlD)
  short : outcome.2.1.length ≤ target
  failed : outcome.2.2 = .failed → killed = true
  waits : outcome.2.2 ≠ .finished → (l.consume count).unread = [] ∧ outcome.2.1.length < target ∧
    ∀ b ∈ l.unread, b ≠ ctrlD ∧ b ≠ newline
  kept : ctrlD ∈ l.unread.take count → outcome.2.1 = []
  finished : outcome.2.2 = .finished → Ended target outcome.2.1 (l.consume count)

theorem Reads.none {pause : Pause} (rep : Represents input l) (short : got.length ≤ target)
    (failed : pause = .failed → killed = true) (waits : pause ≠ .finished → l.unread = [] ∧ got.length < target)
    (finished : pause = .finished → Ended target got l) : Reads killed target input l got (input, got, pause) 0 := by
  refine ⟨rep, by simp, Nat.zero_le _, by simp, short, failed, fun still => ?_, by simp, finished⟩
  obtain ⟨empty, more⟩ := waits still
  exact ⟨empty, more, by simp [empty]⟩

theorem Represents.readLoop (rep : Represents input l) (killed : Bool) {n : Nat} (left : got.length + n = target) :
    ∃ count, Reads killed target input l got (input.readLoop killed target got n) count := by
  induction n generalizing input l got with
  | zero => exact ⟨0, .none rep left.le (by simp) (by simp) fun _ => .inl left⟩
  | succ n ih =>
    unfold Input.readLoop
    cases unread : l.unread with
    | nil =>
      rw [if_pos (rep.holds.front.first_eq_last.mpr unread)]
      refine ⟨0, .none rep (by omega) ?_ (fun _ => ⟨unread, by omega⟩) ?_⟩
      · split <;> simp_all
      · split <;> simp
    | cons c rest =>
      obtain ⟨front, taken⟩ := rep.take unread
      have consumed : l.committed.take (l.consumed + 1) = l.committed.take l.consumed ++ [c] := by
        rw [take_add, show l.committed.drop l.consumed = c :: rest from unread]
        rfl
      rw [if_neg fun same => by simp [rep.holds.front.first_eq_last.mp same] at unread, front]
      by_cases eof : c = ctrlD
      · rw [if_pos eof]
        by_cases later : n + 1 < target
        · rw [if_pos later]
          refine ⟨0, .none rep (by omega) (by simp) (by simp) fun _ => .inr (.inr (.inr ⟨?_, by simp [unread, eof]⟩))⟩
          exact ne_nil_of_length_pos (by omega)
        · rw [if_neg later]
          have first : got = [] := List.length_eq_zero_iff.mp (by omega)
          refine ⟨1, taken, rfl, by simp [unread], by simp [unread, eof], by simp [first], by simp, by simp,
            fun _ => first, fun _ => ?_⟩
          refine .inr (.inr (.inl ⟨first, ?_⟩))
          change (l.committed.take (l.consumed + 1)).getLast? = some ctrlD
          rw [consumed, eof, getLast?_concat]
      · rw [if_neg eof]
        by_cases ends : c = newline
        · rw [if_pos ends]
          refine ⟨1, taken, rfl, by simp [unread], by simp [unread, eof], by simp; omega, by simp, by simp,
            by simp [unread, Ne.symm eof], fun _ => ?_⟩
          exact .inr (.inl (by simp [ends]))
        · rw [if_neg ends]
          have still : (l.consume 1).unread = rest := by rw [Line.unread_consume, unread]; rfl
          have left' : (got ++ [c]).length + n = target := by
            rw [length_append, length_singleton]
            omega
          obtain ⟨count, reads⟩ := ih taken left'
          refine ⟨count + 1, ?_, ?_, ?_, ?_, reads.short, reads.failed, fun more => ?_, fun met => ?_, fun done => ?_⟩
          · rw [Nat.add_comm, ← Line.consume_consume]
            exact reads.rep
          · rw [reads.r, Nat.add_comm, UInt32.ofNat_add, ← UInt32.add_assoc]
            rfl
          · have inside := reads.inside
            rw [still] at inside
            simpa [unread] using inside
          · rw [reads.got, still]
            simp [unread, eof]
          · obtain ⟨none, more, plain⟩ := reads.waits more
            rw [still] at plain
            rw [Nat.add_comm, ← Line.consume_consume]
            exact ⟨none, more, by simpa [unread, eof, ends] using plain⟩
          · refine reads.kept ?_
            simpa [still, unread, Ne.symm eof] using met
          · rw [Nat.add_comm, ← Line.consume_consume]
            exact reads.finished done

end

structure Flows (s : Device C) (past : Past C) : Prop where
  rep : Represents s.input past.line
  delivered : past.taken.map Prod.snd = (past.line.committed.take past.line.consumed).filter (· ≠ ctrlD)
  calls : ∀ c, past.takenBy c = (s.call c).got
  short : ∀ c target got, s.call c = .reading target got → got.length ≤ target
  asked : ∀ c, (s.call c).target = past.asked c

section

variable {s next : Device C} {past : Past C} {c : C} {killed : Bool} {event : Event C} {count : Nat}

theorem Past.takenBy_append (new : List UInt8) (line : Line) (d : C) :
    Past.takenBy { past with line, taken := past.taken ++ new.map (c, ·) } d = past.takenBy d ++ if c = d then new else [] :=
  shares_append past.taken c d new

theorem Device.read_eq (s : Device C) (c : C) (killed : Bool) (target : Nat) (got : List UInt8) :
    let outcome := s.input.readLoop killed target got (target - got.length)
    ∃ reading, s.read c killed target got = s.goto c outcome.1 reading ∧ reading.got = outcome.2.1 ∧
      reading.target = some target ∧ (∀ target' got', reading = .reading target' got' → outcome.2.2 = .asleep) ∧
      ∀ target' got' value, reading = .returned target' got' value →
        value = -1 ∧ outcome.2.2 = .failed ∨ value = got'.length ∧ outcome.2.2 = .finished := by
  unfold Device.read
  obtain ⟨input, after, pause⟩ := s.input.readLoop killed target got (target - got.length)
  cases pause with
  | asleep => exact ⟨.reading target after, rfl, rfl, rfl, by simp, by simp⟩
  | failed => exact ⟨.returned target after (-1), rfl, rfl, rfl, by simp, by simp_all⟩
  | finished => exact ⟨.returned target after after.length, rfl, rfl, rfl, by simp, by simp_all⟩

/-- What one section of consoleread does to the console and its past. -/
structure Section (s : Device C) (past : Past C) (c : C) (killed : Bool) (next : Device C) (count : Nat) : Prop where
  flows : Flows next (past.observe s (.resume c killed) next)
  line : (past.observe s (.resume c killed) next).line = past.line.consume count
  r : next.input.r = s.input.r + .ofNat count
  bounded : count ≤ INPUT_BUF.toNat
  gives : Gives (s, past) c killed (next, past.observe s (.resume c killed) next)

theorem Flows.read_eof (flows : Flows s past) (killed : Bool) {target : Nat} {rest : List UInt8} (positive : 0 < target)
    (unread : past.line.unread = ctrlD :: rest) : (s.read c killed target []).call c = .returned target [] 0 ∧
      (past.observe s (.resume c killed) (s.read c killed target [])).line.unread = rest := by
  obtain ⟨n, rfl⟩ := Nat.exists_eq_succ_of_ne_zero positive.ne'
  have more : s.input.r ≠ s.input.w := fun same => by simp [flows.rep.holds.front.first_eq_last.mp same] at unread
  have read : s.read c killed (n + 1) [] = s.goto c s.input.take (.returned (n + 1) [] 0) := by
    simp [Device.read, Input.readLoop, more, (flows.rep.take unread).1]
  rw [read]
  refine ⟨update_self .., ?_⟩
  change (past.line.consume (s.input.r + .ofNat 1 - s.input.r).toNat).unread = rest
  rw [toNat_offset (by decide), Line.unread_consume, unread]
  rfl

theorem Flows.read (flows : Flows s past) (killed : Bool) {target : Nat} {got : List UInt8} (here : s.call c = .reading target got) :
    ∃ count, Section s past c killed (s.read c killed target got) count := by
  have short := flows.short c target got here
  obtain ⟨count, reads⟩ := flows.rep.readLoop killed (Nat.add_sub_cancel' short)
  obtain ⟨reading, result, copied, wanted, still, returned⟩ := s.read_eq c killed target got
  have asked : past.asked c = some target := by rw [← flows.asked c, here]; rfl
  rw [result]
  have mine : (s.goto c (s.input.readLoop killed target got (target - got.length)).1 reading).call c = reading := update_self ..
  have bounded : count ≤ INPUT_BUF.toNat := reads.inside.trans flows.rep.holds.front.bounded
  have before : (s.call c).got = got := by rw [here]; rfl
  have observed : past.observe s (.resume c killed)
      (s.goto c (s.input.readLoop killed target got (target - got.length)).1 reading) =
      { past with
        line := past.line.consume count
        taken := past.taken ++ ((past.line.unread.take count).filter (· ≠ ctrlD)).map (c, ·) } := by
    simp only [Past.observe, before, copied, reads.got, drop_left, Device.goto, update_self, reads.r, toNat_offset bounded]
    rfl
  have same_target {target' : Nat} {other : Reading} (is : reading = other) (wants : other.target = some target') :
      target' = target := some.inj (wants.symm.trans (is ▸ wanted))
  refine ⟨count, ⟨?_, ?_, fun d => ?_, fun d target' got' reads' => ?_, fun d => ?_⟩, by rw [observed], reads.r, bounded,
    fun target' got' value ends => ?_, fun target' got' either => ?_, fun target' rest first positive found => ?_,
    fun met => ?_⟩
  · rw [observed]
    exact reads.rep
  · rw [observed]
    change _ = (past.line.committed.take (past.line.consumed + count)).filter (· ≠ ctrlD)
    rw [take_add, filter_append, ← flows.delivered]
    simp [comp_def, Line.unread]
  · rw [observed, Past.takenBy_append, flows.calls d]
    by_cases same : c = d
    · subst same
      rw [if_pos rfl, mine, copied, reads.got, before]
    · rw [if_neg same, append_nil]
      simp only [Device.goto, update_of_ne (Ne.symm same)]
  · by_cases same : d = c
    · subst same
      rw [mine] at reads'
      have fits := reads.short
      rw [← copied, reads', ← same_target reads' rfl] at fits
      exact fits
    · simp only [Device.goto, update_of_ne same] at reads'
      exact flows.short d target' got' reads'
  · rw [observed]
    by_cases same : d = c
    · subst same
      rw [mine, wanted, asked]
    · simp only [Device.goto, update_of_ne same]
      exact flows.asked d
  · rw [mine] at ends
    obtain rfl := same_target ends rfl
    rcases returned target' got' value ends with failed | finished
    · exact .inl ⟨failed.1, reads.failed failed.2⟩
    · have done := reads.finished finished.2
      rw [← copied, ends] at done
      exact .inr ⟨finished.1, by rw [observed]; exact done⟩
  · rw [mine] at either
    rw [observed]
    have waiting := reads.waits
    rw [← copied] at waiting
    rcases either with sleeps | gives
    · obtain rfl := same_target sleeps rfl
      rw [still target' got' sleeps, sleeps] at waiting
      exact waiting (by simp)
    · obtain rfl := same_target gives rfl
      rcases returned target' got' (-1) gives with failed | finished
      · rw [failed.2, gives] at waiting
        exact waiting (by simp)
      · omega
  · obtain ⟨rfl, rfl⟩ : target' = target ∧ [] = got := by simpa [here] using first.symm
    rw [← result]
    exact flows.read_eof killed positive found
  · rw [mine, copied]
    refine reads.kept ?_
    rwa [observed, show (past.line.consume count).consumed = past.line.consumed + count from rfl,
      Nat.add_sub_cancel_left] at met

theorem Flows.start (flows : Flows s past) (idle : s.call c = .idle) (n : Nat) :
    Flows (s.goto c s.input (.reading n [])) { past with asked := update past.asked c (some n) } where
  rep := flows.rep
  delivered := flows.delivered
  calls d := by
    refine (flows.calls d).trans ?_
    by_cases same : d = c
    · subst same
      simp [Device.goto, idle, Reading.got]
    · simp [Device.goto, same]
  short d target got here := by
    by_cases same : d = c
    · subst same
      simp only [Device.goto, update_self, Reading.reading.injEq] at here
      rw [← here.2]
      exact Nat.zero_le _
    · simp only [Device.goto, update_of_ne same] at here
      exact flows.short d target got here
  asked d := by
    by_cases same : d = c
    · subst same
      simp [Device.goto, Reading.target]
    · simp only [Device.goto, update_of_ne same]
      exact flows.asked d

theorem Flows.intr (flows : Flows s past) (chars : List UInt8) :
    Flows { s with input := s.input.consoleintr chars } { past with line := chars.foldl Line.type past.line } := by
  obtain ⟨rep, -, consumed, _, committed⟩ := flows.rep.consoleintr chars
  refine ⟨rep, ?_, flows.calls, flows.short, flows.asked⟩
  rw [consumed, committed, take_append_of_le_length flows.rep.consumed]
  exact flows.delivered

theorem Represents.intact {input input' : Input} {l l' : Line} (rep : Represents input l) (rep' : Represents input' l')
    (r : input'.r = input.r + .ofNat count) (consumed : l'.consumed = l.consumed + count) {new : List UInt8}
    (committed : l'.committed = l.committed ++ new) {i : Nat} (ahead : count ≤ i) (inside : i < l.unread.length) :
    input'.buf ((input.r + .ofNat i) % INPUT_BUF) = input.buf ((input.r + .ofNat i) % INPUT_BUF) := by
  have cell : l.unread[i]? = some (input.buf ((input.r + .ofNat i) % INPUT_BUF)) := by
    rw [← rep.holds.front.data]
    simp [window, inside]
  have kept : l'.unread[i - count]? = l.unread[i]? := by
    have bound : l.consumed + i < l.committed.length := by
      rw [Line.unread, length_drop] at inside
      omega
    rw [Line.unread, Line.unread, List.getElem?_drop, List.getElem?_drop, consumed, committed,
      show l.consumed + count + (i - count) = l.consumed + i by omega, List.getElem?_append_left bound]
  have inside' : i - count < l'.unread.length := by
    refine (List.getElem?_eq_some_iff.mp (kept.trans cell)).1
  have cell' : l'.unread[i - count]? = some (input'.buf ((input'.r + .ofNat (i - count)) % INPUT_BUF)) := by
    rw [← rep'.holds.front.data]
    simp [window, inside']
  have place : input'.r + .ofNat (i - count) = input.r + .ofNat i := by
    rw [r, UInt32.add_assoc, ← UInt32.ofNat_add, Nat.add_sub_cancel' ahead]
  rw [kept, cell, place] at cell'
  exact (some.inj cell').symm

theorem Flows.disciplined {past' : Past C} (flows : Flows s past) (flows' : Flows next past')
    (r : next.input.r = s.input.r + .ofNat count) (consumed : past'.line.consumed = past.line.consumed + count)
    (bounded : count ≤ INPUT_BUF.toNat) (grows : ∃ new, past'.line.committed = past.line.committed ++ new)
    (gives : ∀ c killed, event = .resume c killed → Gives (s, past) c killed (next, past')) :
    Disciplined (s, past) event (next, past') := by
  have holds := flows'.rep.holds
  refine ⟨⟨?_, ?_⟩, fun i ahead inside => ?_, grows, ?_, flows'.delivered, flows'.calls, flows'.asked, gives⟩
  · rw [holds.front.length_eq, holds.all.length_eq, length_append]
    exact Nat.le_add_right ..
  · rw [holds.all.length_eq]
    exact holds.all.bounded
  · obtain ⟨_, committed⟩ := grows
    rw [flows.rep.holds.front.length_eq] at inside
    rw [r, toNat_offset bounded] at ahead
    exact flows.rep.intact flows'.rep r consumed committed ahead inside
  · rw [holds.front.length_eq]
    exact holds.front.data

theorem Flows.step (flows : Flows s past) (stepped : s.step event = some next) :
    Flows next (past.observe s event next) ∧ Disciplined (s, past) event (next, past.observe s event next) := by
  cases event with
  | intr chars =>
    simp only [Device.step, some.injEq] at stepped
    subst stepped
    obtain ⟨-, r, consumed, grows⟩ := flows.rep.consoleintr chars
    have flows' := flows.intr chars
    have still : (s.input.consoleintr chars).r = s.input.r + .ofNat 0 := by simpa using r
    exact ⟨flows', flows.disciplined flows' still consumed (Nat.zero_le _) grows nofun⟩
  | start _ n =>
    simp only [Device.step, guarded] at stepped
    obtain ⟨idle, rfl⟩ := stepped
    have flows' := flows.start idle n
    have still : s.input.r = s.input.r + .ofNat 0 := by simp
    exact ⟨flows', flows.disciplined flows' still rfl (Nat.zero_le _) ⟨[], by simp [Past.observe]⟩ nofun⟩
  | resume c killed =>
    cases here : s.call c with
    | reading =>
      simp only [Device.step, here, some.injEq] at stepped
      subst stepped
      obtain ⟨_, read⟩ := flows.read killed here
      refine ⟨read.flows, flows.disciplined read.flows read.r (by rw [read.line]; rfl) read.bounded ⟨[], ?_⟩ ?_⟩
      · simp [Past.observe]
      · rintro _ _ ⟨⟩
        exact read.gives
    | _ => simp [Device.step, here] at stepped

end

/-- Every run of the console from indices that are equal. -/
theorem console_line_discipline (input : Input) (same : input.r = input.w ∧ input.w = input.e) (events : List (Event C)) :
    EveryStep (withHistory Device.step Past.observe) Disciplined ({ input }, {}) events := by
  have start : Flows ({ input } : Device C) {} :=
    ⟨⟨⟨by simp [same, Line.unread], .empty (same.1.trans same.2)⟩, not_mem_nil, Nat.le_refl _⟩,
      rfl, fun _ => rfl, by simp, fun _ => rfl⟩
  refine (runs_along (fun s => Flows s.1 s.2) start (everyStep_true _ _ _) (fun before event after flows _ stepped => ?_)).1
  obtain ⟨moved, recorded⟩ := withHistory_step stepped
  have both := flows.step moved
  rwa [← recorded] at both

/-- The line "ab", a backspace, "c" and a ^D, typed in two calls across the wrap of the
indices, and two reads of it. -/
theorem console_line_discipline_eof : let input : Input := { r := 4294967294, w := 4294967294, e := 4294967294 }
    let events : List (Event Nat) :=
      [.start 0 5, .resume 0 false, .intr [97, 98], .intr [8, 99, 4], .resume 0 false, .start 1 5, .resume 1 false]
    (run (withHistory Device.step Past.observe) ({ input }, {}) events).map
        (fun (s, past) => (s.call 0, s.call 1, past.line.committed, past.line.consumed)) =
        some (.returned 5 [97, 99] 2, .returned 5 [] 0, [97, 99, 4], 3) ∧
      EveryStep (withHistory Device.step Past.observe) Disciplined ({ input }, {}) events :=
  ⟨by decide +kernel, console_line_discipline _ ⟨rfl, rfl⟩ _⟩

end Xv6.Console
