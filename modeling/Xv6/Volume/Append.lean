import Xv6.Log.Commit
import Xv6.Volume.Files

namespace Xv6.Volume

open Data Function List UInt32

/-! filewrite on a `struct file` that several processes share. A write is cut into
pieces, each of which is a transaction under the lock of the inode; between them
the other writers run. -/

variable {sb : Superblock}

/-- `int max`. -/
def maxWrite : Nat := ((Log.LOGSIZE - 1 - 1 - 2) / 2) * 512

/-- A call of filewrite: `src` are the `n` bytes at `addr`. -/
inductive Writing where
  | idle
  | writing (src : List UInt8) (i : Nat)
  | returned (src : List UInt8) (value : Int)
deriving DecidableEq, Repr

inductive Halt where
  | panic (reason : Panic)
  /-- "short filewrite" -/
  | short
deriving DecidableEq, Repr

/-- The open file, for the inode `inum`, and the calls on it. -/
structure Shared (C : Type) (sb : Superblock) where
  volume : Mount sb
  inum : Fin sb.ninodes
  writable : Bool := true
  off : UInt32
  call : C → Writing := fun _ => .idle
  halted : Option Halt := none

inductive SharedEvent (C : Type) where
  | start (c : C) (src : List UInt8)
  | resume (c : C)
deriving DecidableEq, Repr

variable {C : Type}

/-- The size `n1` of the next piece. -/
def piece (src : List UInt8) (i : Nat) : Nat := min (src.length - i) maxWrite

/-- The bytes from `addr + i` on. -/
def source (src : List UInt8) (i : Nat) : Bytes := fun k => src.getD (i + k) 0

namespace Shared

variable [DecidableEq C] (s : Shared C sb)

def goto (c : C) (writing : Writing) : Shared C sb := { s with call := update s.call c writing }

/-- From `begin_op` to the end of the round. The inode is not a device. -/
def round (c : C) (src : List UInt8) (i : Nat) : Option (Shared C sb) :=
  match writei s.inum (source src i) s.off (UInt32.ofNat (piece src i)) s.volume with
  | .error reason => some { s with halted := some (.panic reason) }
  | .ok (.count r, volume) =>
    let s := { s with volume, off := if 0 < r then s.off + UInt32.ofNat r else s.off }
    if r ≠ piece src i then some { s with halted := some .short } else some (s.goto c (.writing src (i + r)))
  | .ok (.failed, volume) => some ({ s with volume }.goto c (.returned src (-1)))
  | .ok (_, _) => none

def step (event : SharedEvent C) : Option (Shared C sb) :=
  if s.halted = none then
    match event with
    | .start c src =>
      if s.call c = .idle ∧ src.length < 2 ^ 31 then
        some (s.goto c (if s.writable = true then .writing src 0 else .returned src (-1)))
      else none
    | .resume c =>
      match s.call c with
      | .writing src i =>
        if i < src.length then s.round c src i else some (s.goto c (.returned src src.length))
      | _ => none
  else none

end Shared

variable [DecidableEq C]

/-- The pieces written, in the order of the inode lock. -/
def pieces (s : Shared C sb) (event : SharedEvent C) (next : Shared C sb) (log : List (C × List UInt8)) : List (C × List UInt8) :=
  match event with
  | .start .. => log
  | .resume c =>
    match s.call c, next.call c with
    | .writing src i, .writing _ i' => if i < i' then log ++ [(c, (src.drop i).take (i' - i))] else log
    | _, _ => log

/-- The bytes of the pieces of one call. -/
def writtenBy (log : List (C × List UInt8)) (c : C) : List UInt8 := (log.filter (·.1 = c)).flatMap Prod.snd

/-- What a call has written, in order, when it is where `writing` says. -/
def Writing.Wrote (bytes : List UInt8) : Writing → Prop
  | .idle => bytes = []
  | .writing src i => bytes = src.take i
  | .returned src value => bytes <+: src ∧ (value = src.length → bytes = src)

/-- The bytes that a call is to write. -/
def Writing.src : Writing → Option (List UInt8)
  | .idle => none
  | .writing src _ | .returned src _ => some src

/-- The next piece of a call, if there is one, fits in a file and on the disk. -/
def Fits (s : Shared C sb) (c : C) : Prop :=
  ∀ src i, s.call c = .writing src i → i < src.length → s.off.toNat + piece src i ≤ MAXFILE * BSIZE ∧
    (missing s.volume s.inum (span s.off.toNat (piece src i))).card ≤ (freeBlocks sb s.volume.disk).card

structure Appends (start : List UInt8) (before : Shared C sb × List (C × List UInt8)) (event : SharedEvent C)
    (after : Shared C sb × List (C × List UInt8)) : Prop where
  contents : after.1.volume.contents after.1.inum = start ++ after.2.flatMap Prod.snd
  off : after.1.off = (after.1.volume.inode after.1.inum).size
  advances : after.1.off.toNat = start.length + (after.2.flatMap Prod.snd).length
  grows : ∃ new, after.1.volume.contents after.1.inum = before.1.volume.contents before.1.inum ++ new
  calls : ∀ c, (after.1.call c).Wrote (writtenBy after.2 c)
  /-- A call writes the bytes it was started with. -/
  started : ∀ c src, event = .start c src → (after.1.call c).src = some src
  source : ∀ c, (∀ src, event ≠ .start c src) → (after.1.call c).src = (before.1.call c).src
  /-- A piece that fits is written, and the call goes on. -/
  succeeds : ∀ c src i, event = .resume c → Fits before.1 c → before.1.call c = .writing src i →
    after.1.halted = none ∧ after.1.call c = if i < src.length then .writing src (i + piece src i) else .returned src src.length

section

/-! writei leaves the type of every inode. -/

def Mount.types (v : Mount sb) (i : Fin sb.ninodes) : UInt16 := (v.inode i).type

theorem types_setInode {v : Mount sb} {i : Fin sb.ninodes} {d : Dinode} (same : d.type = (v.inode i).type) :
    (v.setInode i d).types = v.types := by
  funext j
  by_cases mine : j = i
  · subst mine
    simpa [Mount.types, Mount.setInode] using same
  · simp [Mount.types, Mount.setInode, mine]

theorem balloc_types : Preserves Mount.types (balloc : Kernel sb Nat) := by
  refine .bind .get fun v => ?_
  split
  · exact .bind (.modify fun _ => rfl) fun _ => .pure _
  · exact .throw _

theorem loadAddr_types (i : Fin sb.ninodes) (k : Nat) : Preserves Mount.types (loadAddr i k) :=
  .bind .get fun _ => .ite
    (.bind balloc_types fun _ => .bind (.modify fun _ => types_setInode rfl) fun _ => .pure _) (.pure _)

theorem loadEntry_types (indirect k : Nat) : Preserves Mount.types (loadEntry indirect k : Kernel sb Nat) :=
  .bind .get fun _ => .ite (.bind balloc_types fun _ => .bind (.modify fun _ => rfl) fun _ => .pure _) (.pure _)

section

variable (i : Fin sb.ninodes)
include i

theorem bmap_types (bn : Nat) : Preserves Mount.types (bmap i bn) :=
  .ite (loadAddr_types i bn) (.ite (.bind (loadAddr_types i NDIRECT) fun _ => loadEntry_types _ _) (.throw _))

theorem writeLoop_types (src : Bytes) (fuel tot off n : Nat) :
    Preserves Mount.types (writeLoop i src fuel tot off n) := by
  induction fuel generalizing tot off n with
  | zero => exact .pure _
  | succ _ ih =>
    exact .ite (.pure _) (.bind (bmap_types i _) fun _ => .bind (.modify fun _ => rfl) fun _ => ih _ _ _)

theorem extend_types (off n : UInt32) : Preserves Mount.types (extend i off n) :=
  .bind .get fun _ => .ite (.bind (.modify fun _ => types_setInode rfl) fun _ => .modify fun _ => rfl) (.pure _)

theorem writei_types (src : Bytes) (off n : UInt32) : Preserves Mount.types (writei i src off n) :=
  .bind .get fun _ => .ite (.pure _) (.ite (.pure _) (.ite (.pure _)
    (.bind (writeLoop_types i src _ _ _ _) fun _ => .bind (extend_types i _ _) fun _ => .pure _)))

end

end

section

variable {v : Mount sb} {inum : Fin sb.ninodes} {src : List UInt8} {i : Nat} {off n : UInt32}

theorem piece_le : piece src i ≤ src.length - i := Nat.min_le_left ..

theorem piece_pos (more : i < src.length) : 0 < piece src i :=
  Nat.lt_min.mpr ⟨Nat.sub_pos_of_lt more, by decide⟩

theorem toNat_piece : (UInt32.ofNat (piece src i)).toNat = piece src i := by
  have small : piece src i ≤ maxWrite := Nat.min_le_right ..
  have bound : maxWrite < 2 ^ 32 := by decide
  rw [toNat_ofNat', Nat.mod_eq_of_lt (Nat.lt_of_le_of_lt small bound)]

theorem slice_source {m : Nat} (inside : i + m ≤ src.length) : slice (source src i) 0 m = (src.drop i).take m := by
  apply ext_getElem?
  intro k
  by_cases short : k < m
  · rw [getElem?_slice short, List.getElem?_take, if_pos short, List.getElem?_drop, List.getElem?_eq_getElem (by omega),
      source, Nat.zero_add, getD_eq_getElem?_getD, List.getElem?_eq_getElem (by omega)]
    rfl
  · rw [List.getElem?_eq_none (by simpa using short), List.getElem?_eq_none (by simp; omega)]

/-- The file has its last byte before `off`. -/
structure AtEnd (v : Mount sb) (inum : Fin sb.ninodes) (off : UInt32) : Prop where
  wellFormed : WellFormed v
  regular : (v.inode inum).type ≠ T_DEV
  off : off = (v.inode inum).size

theorem AtEnd.length (atEnd : AtEnd v inum off) : (v.contents inum).length = off.toNat := by
  rw [length_contents, atEnd.off]

theorem AtEnd.writei_ends (atEnd : AtEnd v inum off) (bytes : Bytes) : Ends (writei inum bytes off n) v (fun reply w =>
        reply = .count n.toNat ∧ w.contents inum = v.contents inum ++ slice bytes 0 n.toNat ∧ AtEnd w inum (off + n) ∨
          reply = .failed ∧ w.contents inum = v.contents inum ∧ AtEnd w inum off ∧ MAXFILE * BSIZE < off.toNat + n.toNat)
      fun _ => Lacks v inum (span off.toNat n.toNat) := by
  have ends : Ends (writei inum bytes off n) v (Serves inum (.writei bytes off n) v)
      fun panic => panic = .balloc ∧ Lacks v inum (span off.toNat n.toNat) := Volume.writei_ends atEnd.wellFormed
  refine (ends.and (writei_types inum bytes off n v)).mono (fun reply w ⟨serves, types⟩ => ?_) fun _ => And.right
  have regular : (w.inode inum).type ≠ T_DEV := fun device => atEnd.regular ((congrFun types inum).symm.trans device)
  have stored := serves.contents
  have answer := serves.reply
  have device : v.device inum = false := by simpa [Mount.device] using atEnd.regular
  have small : MAXFILE * BSIZE < 2 ^ 32 := by decide
  simp only [Access.act, device, Bool.false_eq_true, if_false, atEnd.length] at stored answer
  by_cases room : off.toNat + n.toNat ≤ MAXFILE * BSIZE
  · rw [if_pos ⟨Nat.le_refl _, Nat.lt_of_le_of_lt room small, room⟩] at stored answer
    have whole : (v.contents inum).take off.toNat = v.contents inum := take_of_length_le atEnd.length.le
    have rest : (v.contents inum).drop (off.toNat + n.toNat) = [] := drop_eq_nil_of_le (by rw [atEnd.length]; omega)
    rw [whole, rest, append_nil] at stored
    refine .inl ⟨answer, stored, serves.wellFormed, regular, UInt32.toNat_inj.mp ?_⟩
    rw [← length_contents, stored, length_append, atEnd.length, length_slice, toNat_end (Nat.lt_of_le_of_lt room small)]
  · rw [if_neg fun all => room all.2.2] at stored answer
    refine .inr ⟨answer, stored, ⟨serves.wellFormed, regular, UInt32.toNat_inj.mp ?_⟩, Nat.lt_of_not_le room⟩
    rw [← length_contents, stored, atEnd.length]

variable {s next : Shared C sb} {c : C}

inductive Round (s : Shared C sb) (c : C) (src : List UInt8) (i : Nat) : Shared C sb → Prop where
  | wrote (volume : Mount sb) (atEnd : AtEnd volume s.inum (s.off + UInt32.ofNat (piece src i)))
      (contents : volume.contents s.inum = s.volume.contents s.inum ++ (src.drop i).take (piece src i)) :
      Round s c src i ({ s with volume, off := s.off + UInt32.ofNat (piece src i) }.goto c (.writing src (i + piece src i)))
  | refused (volume : Mount sb) (atEnd : AtEnd volume s.inum s.off)
      (contents : volume.contents s.inum = s.volume.contents s.inum) (full : ¬ Fits s c) :
      Round s c src i ({ s with volume }.goto c (.returned src (-1)))
  | panicked (reason : Halt) (full : ¬ Fits s c) : Round s c src i { s with halted := some reason }

theorem round_cases (atEnd : AtEnd s.volume s.inum s.off) (call : s.call c = .writing src i) (more : i < src.length)
    (ran : s.round c src i = some next) : Round s c src i next := by
  have ends := atEnd.writei_ends (n := ofNat (piece src i)) (source src i)
  rw [toNat_piece] at ends
  unfold Ends at ends
  unfold Shared.round at ran
  cases result : writei s.inum (source src i) s.off (ofNat (piece src i)) s.volume with
  | error =>
    rw [result] at ends ran
    cases ran
    exact .panicked _ fun fits => absurd (fits src i call more).2 (Nat.not_le_of_lt ends)
  | ok pair =>
    obtain ⟨_, volume⟩ := pair
    rw [result] at ends ran
    rcases ends with ⟨rfl, contents, ended⟩ | ⟨rfl, contents, ended, full⟩
    · simp only [if_pos (piece_pos more), ne_eq, not_true_eq_false, if_false] at ran
      cases ran
      have inside : i + piece src i ≤ src.length := by
        have : piece src i ≤ src.length - i := piece_le
        omega
      exact .wrote volume ended (by rw [contents, slice_source inside])
    · cases ran
      exact .refused volume ended contents fun fits => absurd (fits src i call more).1 (Nat.not_le_of_lt full)

end

section

variable {start : List UInt8} {s next : Shared C sb} {log : List (C × List UInt8)} {c : C} {src : List UInt8} {i : Nat}

/-- What holds between the rounds. -/
structure Appending (start : List UInt8) (s : Shared C sb) (log : List (C × List UInt8)) : Prop where
  atEnd : AtEnd s.volume s.inum s.off
  contents : s.volume.contents s.inum = start ++ log.flatMap Prod.snd
  calls : ∀ c, (s.call c).Wrote (writtenBy log c)

theorem writtenBy_self (bytes : List UInt8) : writtenBy (log ++ [(c, bytes)]) c = writtenBy log c ++ bytes := by
  simp [writtenBy]

section

variable (appending : Appending start s log)
include appending

theorem Appending.goto {writing : Writing} {log' : List (C × List UInt8)}
    (wrote : writing.Wrote (writtenBy log' c)) (others : ∀ d, d ≠ c → writtenBy log' d = writtenBy log d) (d : C) :
    (update s.call c writing d).Wrote (writtenBy log' d) := by
  by_cases mine : d = c
  · subst mine
    rw [update_self]
    exact wrote
  · rw [update_of_ne mine, others d mine]
    exact appending.calls d

theorem Appending.round (call : s.call c = .writing src i) (more : i < src.length) (round : Round s c src i next) :
    Appending start next (pieces s (.resume c) next log) := by
  have wrote : writtenBy log c = src.take i := by
    have := appending.calls c
    rwa [call] at this
  cases round with
  | wrote volume atEnd contents =>
    have taken : pieces s (.resume c)
        ({ s with volume, off := s.off + ofNat (piece src i) }.goto c (.writing src (i + piece src i))) log =
          log ++ [(c, (src.drop i).take (piece src i))] := by
      simp [pieces, call, Shared.goto, piece_pos more]
    rw [taken]
    refine ⟨atEnd, ?_, appending.goto ?_ fun d other => by simp [writtenBy, Ne.symm other]⟩
    · change volume.contents s.inum = _
      rw [contents, appending.contents]
      simp
    · change _ = src.take (i + piece src i)
      rw [writtenBy_self, take_add, wrote]
  | refused volume atEnd contents =>
    have same : pieces s (.resume c) ({ s with volume }.goto c (.returned src (-1))) log = log := by
      simp [pieces, call, Shared.goto]
    rw [same]
    refine ⟨atEnd, contents.trans appending.contents, appending.goto ⟨?_, ?_⟩ fun _ _ => rfl⟩
    · rw [wrote]
      exact take_prefix i src
    · omega
  | panicked reason =>
    have same : pieces s (.resume c) { s with halted := some reason } log = log := by
      simp [pieces, call]
    rw [same]
    exact ⟨appending.atEnd, appending.contents, appending.calls⟩

theorem Appending.begins (idle : s.call c = .idle) (src : List UInt8) :
    Appending start (s.goto c (if s.writable = true then .writing src 0 else .returned src (-1))) log := by
  have none : writtenBy log c = [] := by
    have := appending.calls c
    rwa [idle] at this
  refine ⟨appending.atEnd, appending.contents, appending.goto ?_ fun _ _ => rfl⟩
  rw [none]
  split
  · rfl
  · refine ⟨?_, by omega⟩
    exact List.nil_prefix

theorem Appending.returned (call : s.call c = .writing src i) (whole : src.length ≤ i) :
    Appending start (s.goto c (.returned src src.length)) log := by
  have wrote : writtenBy log c = src := by
    have := appending.calls c
    rw [call] at this
    exact this.trans (take_of_length_le whole)
  exact ⟨appending.atEnd, appending.contents, appending.goto ⟨wrote ▸ prefix_refl _, fun _ => wrote⟩ fun _ _ => rfl⟩

end

inductive Stepped (s : Shared C sb) : SharedEvent C → Shared C sb → Prop where
  | start (c : C) (src : List UInt8) (idle : s.call c = .idle) :
      Stepped s (.start c src) (s.goto c (if s.writable = true then .writing src 0 else .returned src (-1)))
  | round (c : C) (src : List UInt8) (i : Nat) (next : Shared C sb) (call : s.call c = .writing src i) (more : i < src.length)
      (round : Round s c src i next) : Stepped s (.resume c) next
  | returned (c : C) (src : List UInt8) (i : Nat) (call : s.call c = .writing src i) (whole : src.length ≤ i) :
      Stepped s (.resume c) (s.goto c (.returned src src.length))

theorem step_cases {event : SharedEvent C} (atEnd : AtEnd s.volume s.inum s.off) (stepped : s.step event = some next) :
    s.halted = none ∧ Stepped s event next := by
  unfold Shared.step at stepped
  split at stepped
  · rename_i running
    refine ⟨running, ?_⟩
    cases event with
    | start c src =>
      simp only at stepped
      split at stepped
      · rename_i ready
        cases stepped
        exact .start c src ready.1
      · contradiction
    | resume c =>
      cases call : s.call c with
      | writing src i =>
        simp only [call] at stepped
        split at stepped
        · rename_i more
          exact .round c src i next call more (round_cases atEnd call more stepped)
        · rename_i whole
          cases stepped
          exact .returned c src i call (Nat.le_of_not_lt whole)
      | idle | returned => simp [call] at stepped
  · contradiction

variable {event : SharedEvent C}

theorem Appending.step (appending : Appending start s log) (stepped : Stepped s event next) :
    Appending start next (pieces s event next log) := by
  cases stepped with
  | start _ src idle => exact appending.begins idle src
  | round _ _ _ _ call more round => exact appending.round call more round
  | returned c src _ call whole =>
    have same : pieces s (.resume c) (s.goto c (.returned src src.length)) log = log := by
      simp [pieces, call, Shared.goto]
    rw [same]
    exact appending.returned call whole

theorem Stepped.grows (stepped : Stepped s event next) :
    ∃ new, next.volume.contents next.inum = s.volume.contents s.inum ++ new := by
  cases stepped with
  | start | returned => exact ⟨[], (append_nil _).symm⟩
  | round _ _ _ _ _ _ round =>
    cases round with
    | wrote _ _ contents => exact ⟨_, contents⟩
    | refused _ _ contents => exact ⟨[], contents.trans (append_nil _).symm⟩
    | panicked => exact ⟨[], (append_nil _).symm⟩

theorem Stepped.started (stepped : Stepped s (.start c src) next) : (next.call c).src = some src := by
  cases stepped with
  | start =>
    simp only [Shared.goto, update_self]
    split <;> rfl

theorem Stepped.source (stepped : Stepped s event next) (other : ∀ src, event ≠ .start c src) :
    (next.call c).src = (s.call c).src := by
  have goto {d : C} {t : Shared C sb} {new : Writing} (call : t.call = s.call) (same : d = c → new.src = (s.call c).src) :
      ((t.goto d new).call c).src = (s.call c).src := by
    by_cases mine : c = d
    · subst mine
      simpa [Shared.goto] using same rfl
    · simp [Shared.goto, update_of_ne mine, call]
  cases stepped with
  | start d src => exact goto rfl fun same => absurd (same ▸ rfl) (other src)
  | returned d src _ call => exact goto rfl fun same => by rw [← same, call]; rfl
  | round d src _ _ call _ round =>
    cases round with
    | wrote => exact goto rfl fun same => by rw [← same, call]; rfl
    | refused => exact goto rfl fun same => by rw [← same, call]; rfl
    | panicked => rfl

theorem Stepped.succeeds (stepped : Stepped s (.resume c) next) (running : s.halted = none) (fits : Fits s c)
    (call : s.call c = .writing src i) :
    next.halted = none ∧ next.call c = if i < src.length then .writing src (i + piece src i) else .returned src src.length := by
  cases stepped with
  | returned _ _ _ call' whole =>
    cases call'.symm.trans call
    exact ⟨running, by simp [Shared.goto, Nat.not_lt_of_le whole]⟩
  | round _ _ _ _ call' more round =>
    cases call'.symm.trans call
    cases round with
    | wrote => exact ⟨running, by simp [Shared.goto, more]⟩
    | refused _ _ _ full | panicked _ full => exact absurd fits full

theorem Appending.safe {before after : Shared C sb × List (C × List UInt8)} (appending : Appending start before.1 before.2)
    (taken : withHistory Shared.step pieces before event = some after) :
    Appending start after.1 after.2 ∧ Appends start before event after := by
  obtain ⟨stepped, log⟩ := withHistory_step taken
  obtain ⟨running, stepped⟩ := step_cases appending.atEnd stepped
  have kept : Appending start after.1 after.2 := log ▸ appending.step stepped
  refine ⟨kept, kept.contents, kept.atEnd.off, ?_, stepped.grows, kept.calls, ?_,
    fun c => stepped.source, ?_⟩
  · rw [← kept.atEnd.length, kept.contents, length_append]
  · rintro c src rfl
    exact stepped.started
  · rintro c _ i rfl fits call
    exact stepped.succeeds running fits call

end

/-- Any number of calls of filewrite on one open file, in any order of their pieces. -/
theorem shared_writes_append (volume : Mount sb) (wellFormed : WellFormed volume) (inum : Fin sb.ninodes)
    (regular : (volume.inode inum).type ≠ T_DEV) (writable : Bool) (events : List (SharedEvent C)) :
    EveryStep (withHistory Shared.step pieces) (Appends (volume.contents inum))
      ({ volume, inum, writable, off := (volume.inode inum).size }, []) events := by
  refine (runs_along (fun s : Shared C sb × List (C × List UInt8) => Appending (volume.contents inum) s.1 s.2) ?_
    (everyStep_true _ _ events) (fun _ _ _ appending _ => appending.safe)).1
  exact ⟨⟨wellFormed, regular, rfl⟩, (append_nil _).symm, fun _ => rfl⟩

/-- Two writers, the first of which needs two pieces. -/
def twoWriters : List (SharedEvent Bool) :=
  [.start true (List.replicate 7000 1), .resume true, .start false [2, 3], .resume false, .resume true, .resume true, .resume false]

def emptyFile : Mount smallVolume := (mount smallVolume blankDisk).store firstFile { type := 2 }

theorem wellFormed_emptyFile : WellFormed emptyFile := wellFormed_blankDisk.store (.inr ⟨rfl, rfl⟩)

theorem shared_writes_append_twoWriters :
    (run (withHistory Shared.step pieces) ({ volume := emptyFile, inum := firstFile, off := 0 }, []) twoWriters).map
        (fun s => (s.1.off, s.2.map fun entry => (entry.1, entry.2.length), s.1.halted,
          ((s.1.volume.contents s.1.inum).drop 6654).take 6)) =
      some (7002, [(true, 6656), (false, 2), (true, 344)], none, [1, 1, 2, 3, 1, 1]) ∧
      EveryStep (withHistory Shared.step pieces) (Appends (emptyFile.contents firstFile))
        ({ volume := emptyFile, inum := firstFile, off := (emptyFile.inode firstFile).size }, []) twoWriters :=
  ⟨by decide +kernel, shared_writes_append emptyFile wellFormed_emptyFile firstFile (by decide +kernel) true twoWriters⟩

end Xv6.Volume
