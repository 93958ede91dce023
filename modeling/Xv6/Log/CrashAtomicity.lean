import Xv6.Log.Commit

namespace Xv6.Log

open Data Data.DiskProg Function List Option

variable {log : Region} {lh : LogHeader} {data : Nat → Block} {disk : Disk Block} {contents : Disk Block}
    {write : Nat × Block} {header : Block} {blockno : Nat}

/-- The home block numbers of a transaction. -/
def LogHeader.homes (lh : LogHeader) : List Nat := lh.block.map UInt32.toNat

/-- The cache at commit: the logged blocks are pinned and hold `data`. -/
def pinnedBy (lh : LogHeader) (data : Nat → Block) : Pinned := fun blockno =>
  if blockno ∈ lh.homes then some (data blockno) else none

/-- The disk with all blocks of the transaction updated. -/
def updated (lh : LogHeader) (data : Nat → Block) (disk : Disk Block) : Disk Block := fun blockno =>
  if blockno ∈ lh.homes then data blockno else disk blockno

@[simp] theorem writes_bread (pinned : Pinned) (blockno : Nat) : (bread pinned blockno).writes disk = [] := by
  unfold bread
  split <;> rfl

@[simp] theorem finish_bread (pinned : Pinned) (blockno : Nat) : (bread pinned blockno).finish disk = disk := by
  simp [finish, apply]

@[simp] theorem result_bread (pinned : Pinned) (blockno : Nat) :
    (bread pinned blockno).result disk = (pinned blockno).getD (disk blockno) := by
  unfold bread
  split <;> simp_all [result]

@[simp] theorem writes_bwrite (blockno : Nat) (block : Block) : (bwrite blockno block).writes disk = [(blockno, block)] := rfl

@[simp] theorem finish_bwrite (blockno : Nat) (block : Block) :
    (bwrite blockno block).finish disk = update disk blockno block := rfl

@[simp] theorem writes_writeHead (pinned : Pinned) (lh : LogHeader) : (writeHead log pinned lh).writes disk =
      [(log.start, encodeHeader ((pinned log.start).getD (disk log.start)) lh)] := by
  simp [writeHead, writes_bind]

/-- What write_log writes, in order: the log's data blocks from `tail` on. -/
def copies (log : Region) (data : Nat → Block) : List UInt32 → Nat → List (Nat × Block)
  | [], _ => []
  | home :: rest, tail => (log.start + tail + 1, data home.toNat) :: copies log data rest (tail + 1)

@[simp] theorem length_copies (rest : List UInt32) (tail : Nat) : (copies log data rest tail).length = rest.length := by
  induction rest generalizing tail with
  | nil => rfl
  | cons _ _ ih => simp only [copies, length_cons, ih]

theorem mem_copies {rest : List UInt32} {tail : Nat} (member : write ∈ copies log data rest tail) :
    log.start + tail < write.1 ∧ write.1 ≤ log.start + tail + rest.length := by
  induction rest generalizing tail with
  | nil => simp [copies] at member
  | cons _ _ ih =>
    simp only [copies, mem_cons] at member
    simp only [length_cons]
    rcases member with rfl | later
    · omega
    · have bounds := ih later
      omega

theorem writeLogLoop_writes (rest : List UInt32) (tail : Nat) (disk : Disk Block) (logged : ∀ home ∈ rest, home ∈ lh.block) :
    (writeLogLoop log (pinnedBy lh data) rest tail).writes disk = copies log data rest tail := by
  induction rest generalizing tail disk with
  | nil => rfl
  | cons home _ ih =>
    have pinned : pinnedBy lh data home.toNat = some (data home.toNat) := by
      have member : home.toNat ∈ lh.homes := mem_map_of_mem (logged home (by simp))
      simp only [pinnedBy, if_pos member]
    have tailWrites := fun after => ih (tail + 1) after (fun other member => logged other (by simp [member]))
    simp [writeLogLoop, writes_bind, pinned, copies, tailWrites]

/-- What install_trans writes: each home block gets its logged contents. -/
def installs (lh : LogHeader) (data : Nat → Block) : List (Nat × Block) :=
  lh.block.map fun home => (home.toNat, data home.toNat)

theorem mem_installs (member : write ∈ installs lh data) : write.1 ∈ lh.homes ∧ write.2 = data write.1 := by
  obtain ⟨_, logged, rfl⟩ := List.mem_map.mp member
  exact ⟨mem_map_of_mem logged, rfl⟩

/-- Reading the log while installing from it: home blocks lie outside the log,
so the blocks still to be copied keep their contents. -/
theorem installLoop_writes (pinned : Pinned) (unpinned : ∀ blockno, log.Contains blockno → pinned blockno = none)
    (rest : List UInt32) (tail : Nat) (disk : Disk Block) (room : tail + rest.length < log.size)
    (outside : ∀ home ∈ rest, ¬ log.Contains home.toNat)
    (logged : ∀ i home, rest[i]? = some home → disk (log.start + (tail + i) + 1) = data home.toNat) :
    (installLoop log pinned rest tail).writes disk = rest.map fun home => (home.toNat, data home.toNat) := by
  induction rest generalizing tail disk with
  | nil => rfl
  | cons home rest ih =>
    simp only [length_cons] at room
    have inside : log.Contains (log.start + tail + 1) := ⟨by omega, by omega⟩
    have source : (pinned (log.start + tail + 1)).getD (disk (log.start + tail + 1)) = data home.toNat := by
      rw [unpinned _ inside]
      exact logged 0 home rfl
    have remaining := ih (tail + 1) (update disk home.toNat (data home.toNat)) (by omega)
      (fun other member => outside other (by simp [member])) (by
        intro i other found
        have here : log.Contains (log.start + (tail + 1 + i) + 1) := by
          have bound : i < rest.length := (List.getElem?_eq_some_iff.mp found).1
          exact ⟨by omega, by omega⟩
        have elsewhere : log.start + (tail + 1 + i) + 1 ≠ home.toNat := by
          intro same
          rw [same] at here
          exact outside home (by simp) here
        have shift : tail + 1 + i = tail + (i + 1) := by omega
        rw [update_of_ne elsewhere, shift]
        exact logged (i + 1) other (by simpa using found))
    simp [installLoop, writes_bind, source, remaining]

/-- An idle log over a file system whose blocks outside the log are those of `contents`. -/
structure Clean (log : Region) (contents disk : Disk Block) : Prop where
  header : count (disk log.start) = 0
  agree : ∀ blockno, ¬ log.Contains blockno → disk blockno = contents blockno

/-- A committed transaction that is not known to be installed: the header and the
log blocks are complete, and only the home blocks of the transaction may differ
from `contents`, in any way. -/
structure Committed (log : Region) (lh : LogHeader) (data : Nat → Block) (contents disk : Disk Block) : Prop where
  header : decodeHeader (disk log.start) = some lh
  logged : ∀ i home, lh.block[i]? = some home → disk (log.start + i + 1) = data home.toNat
  agree : ∀ blockno, ¬ log.Contains blockno → blockno ∉ lh.homes → disk blockno = contents blockno

/-- A transaction that write_log and install_trans can handle. -/
structure Fits (log : Region) (lh : LogHeader) : Prop where
  room : lh.block.length ≤ log.size - 1
  outside : ∀ home ∈ lh.block, ¬ log.Contains home.toNat

theorem Region.contains_start (log : Region) : log.Contains log.start :=
  ⟨Nat.le_refl _, by have := log.header; omega⟩

section

variable (fits : Fits log lh)
include fits

theorem Fits.home_outside (home : blockno ∈ lh.homes) : ¬ log.Contains blockno := by
  obtain ⟨number, logged, rfl⟩ := List.mem_map.mp home
  exact fits.outside number logged

theorem Fits.installs_outside (member : write ∈ installs lh data) (inside : log.Contains blockno) : write.1 ≠ blockno := by
  intro same
  exact fits.home_outside (mem_installs member).1 (same ▸ inside)

theorem Fits.log_inside {i : Nat} {home : UInt32} (found : lh.block[i]? = some home) :
    log.Contains (log.start + i + 1) := by
  have bound : i < lh.block.length := (List.getElem?_eq_some_iff.mp found).1
  have room := fits.room
  exact ⟨by omega, by omega⟩

theorem Committed.installTrans_writes (committed : Committed log lh data contents disk) (pinned : Pinned)
    (unpinned : ∀ blockno, log.Contains blockno → pinned blockno = none) :
    (installTrans log pinned lh).writes disk = installs lh data := by
  have room : 0 + lh.block.length < log.size := by
    have := fits.room
    have := log.header
    omega
  apply installLoop_writes pinned unpinned lh.block 0 disk room fits.outside
  intro i home found
  rw [Nat.zero_add]
  exact committed.logged i home found

theorem Committed.install_part (committed : Committed log lh data contents disk) {part : List (Nat × Block)}
    (isPart : ∀ write ∈ part, write ∈ installs lh data) : Committed log lh data contents (apply disk part) where
  header := by
    rw [apply_unwritten fun write member => fits.installs_outside (isPart write member) log.contains_start]
    exact committed.header
  logged := by
    intro i home found
    rw [apply_unwritten fun write member => fits.installs_outside (isPart write member) (fits.log_inside found)]
    exact committed.logged i home found
  agree := by
    intro blockno outside notHome
    rw [apply_unwritten]
    · exact committed.agree blockno outside notHome
    · intro write member same
      exact notHome (same ▸ (mem_installs (isPart write member)).1)

end

theorem Committed.install_all (committed : Committed log lh data contents disk) (cleared : count header = 0) :
    Clean log (updated lh data contents) (update (apply disk (installs lh data)) log.start header) where
  header := by rw [update_self]; exact cleared
  agree := by
    intro blockno outside
    have different : blockno ≠ log.start := by
      rintro rfl
      exact outside log.contains_start
    rw [update_of_ne different]
    by_cases home : blockno ∈ lh.homes
    · simp only [updated, if_pos home]
      apply apply_written
      · intro write member same
        rw [(mem_installs member).2, same]
      · obtain ⟨number, logged, same⟩ := List.mem_map.mp home
        exact ⟨(number.toNat, data number.toNat), mem_map_of_mem logged, same⟩
    · simp only [updated, if_neg home]
      have untouched : ∀ write ∈ installs lh data, write.1 ≠ blockno := by
        intro write member same
        exact home (same ▸ (mem_installs member).1)
      rw [apply_unwritten untouched]
      exact committed.agree blockno outside home

theorem count_clear (buf : Block) : count (encodeHeader buf .empty) = 0 := by
  rw [count_encodeHeader]
  rfl

theorem recover_writes_of_head {head : LogHeader} (decoded : decodeHeader (disk log.start) = some head) :
    (recoverFromLog log).writes disk = (installTrans log (fun _ => none) head).writes disk ++
      [(log.start, encodeHeader ((installTrans log (fun _ => none) head).finish disk log.start) .empty)] := by
  have silent : (readHead log fun _ => none).writes disk = [] := by simp [readHead, writes_bind]
  have unchanged : (readHead log fun _ => none).finish disk = disk := by
    simp only [finish, silent, apply]
  have read : (readHead log fun _ => none).result disk = some head := by
    simp only [readHead, result_bind, result_bread, finish_bread, getD_none, decoded]
    rfl
  rw [recoverFromLog, writes_bind, silent, unchanged, read]
  simp [writes_bind]

/-- Wherever the installation of a committed transaction is cut off, the
transaction is still committed or completely installed. -/
theorem Committed.install_crash (fits : Fits log lh)
    (committed : Committed log lh data contents disk) (cleared : count header = 0) (point : Nat) :
    Committed log lh data contents (apply disk ((installs lh data ++ [(log.start, header)]).take point)) ∨
      Clean log (updated lh data contents) (apply disk ((installs lh data ++ [(log.start, header)]).take point)) := by
  rw [apply_take_append]
  cases left : point - (installs lh data).length with
  | zero =>
    left
    exact committed.install_part fits (fun write member => mem_of_mem_take member)
  | succ =>
    right
    rw [take_of_length_le (by omega), take_succ_cons, take_nil]
    exact committed.install_all cleared

theorem Committed.recover_crash (fits : Fits log lh) (committed : Committed log lh data contents disk) (point : Nat) :
    Committed log lh data contents ((recoverFromLog log).crashAfter point disk) ∨
      Clean log (updated lh data contents) ((recoverFromLog log).crashAfter point disk) := by
  have installed := committed.installTrans_writes fits (fun _ => none) (fun _ _ => rfl)
  rw [crashAfter, recover_writes_of_head committed.header, installed]
  exact committed.install_crash fits (count_clear _) point

theorem Committed.recover_finish (fits : Fits log lh) (committed : Committed log lh data contents disk) :
    Clean log (updated lh data contents) ((recoverFromLog log).finish disk) := by
  have installed := committed.installTrans_writes fits (fun _ => none) (fun _ _ => rfl)
  rw [finish, recover_writes_of_head committed.header, apply_append, installed]
  exact committed.install_all (count_clear _)

section

variable (clean : Clean log contents disk)
include clean

theorem Clean.recover_writes :
    (recoverFromLog log).writes disk = [(log.start, encodeHeader (disk log.start) .empty)] := by
  rw [recover_writes_of_head (decodeHeader_of_count_zero clean.header)]
  rfl

theorem Clean.clear (buf : Block) :
    Clean log contents (update disk log.start (encodeHeader buf .empty)) where
  header := by rw [update_self]; exact count_clear buf
  agree := by
    intro blockno outside
    have different : blockno ≠ log.start := by
      rintro rfl
      exact outside log.contains_start
    rw [update_of_ne different]
    exact clean.agree blockno outside

theorem Clean.recover_crash (point : Nat) :
    Clean log contents ((recoverFromLog log).crashAfter point disk) := by
  rw [crashAfter, clean.recover_writes]
  cases point with
  | zero => exact clean
  | succ =>
    rw [take_succ_cons, take_nil]
    exact clean.clear _

theorem Clean.recover_finish :
    Clean log contents ((recoverFromLog log).finish disk) := by
  rw [finish, clean.recover_writes]
  exact clean.clear _

end

/-- A series of recoveries that are cut off after the given numbers of writes,
followed by one that completes. -/
def recoveries (log : Region) (points : List Nat) (disk : Disk Block) : Disk Block :=
  (recoverFromLog log).finish
    (points.foldl (fun disk point => (recoverFromLog log).crashAfter point disk) disk)

theorem Clean.recoveries (points : List Nat) (clean : Clean log contents disk) :
    Clean log contents (recoveries log points disk) := by
  induction points generalizing disk with
  | nil => exact clean.recover_finish
  | cons point _ ih => exact ih (clean.recover_crash point)

theorem Committed.recoveries (fits : Fits log lh) (points : List Nat) (committed : Committed log lh data contents disk) :
    Clean log (updated lh data contents) (recoveries log points disk) := by
  induction points generalizing disk with
  | nil => exact committed.recover_finish fits
  | cons point rest ih =>
    rcases committed.recover_crash fits point with still | complete
    · exact ih still
    · exact complete.recoveries rest

theorem pinnedBy_inside (fits : Fits log lh) (inside : log.Contains blockno) :
    pinnedBy lh data blockno = none := by
  have notHome : blockno ∉ lh.homes := fun home => fits.home_outside home inside
  simp only [pinnedBy, if_neg notHome]

theorem apply_copies (log : Region) (data : Nat → Block) (rest : List UInt32) (tail : Nat)
    (disk : Disk Block) (i : Nat) (home : UInt32) (found : rest[i]? = some home) :
    apply disk (copies log data rest tail) (log.start + (tail + i) + 1) = data home.toNat := by
  induction rest generalizing tail disk i with
  | nil => simp at found
  | cons _ rest ih =>
    rw [copies, apply]
    cases i with
    | zero =>
      simp only [List.getElem?_cons_zero, some.injEq] at found
      subst found
      have later : ∀ write ∈ copies log data rest (tail + 1), write.1 ≠ log.start + (tail + 0) + 1 := by
        intro write member same
        have := (mem_copies member).1
        omega
      rw [apply_unwritten later]
      exact update_self _ _ _
    | succ i =>
      have shift : tail + (i + 1) = tail + 1 + i := by omega
      rw [shift]
      exact ih (tail + 1) _ i (by simpa using found)

/-- The write of the header is the commit point: it turns the log blocks written
so far into a committed transaction. -/
theorem committed_by_head (fits : Fits log lh) (decoded : decodeHeader header = some lh) :
    Committed log lh data disk (update (apply disk (copies log data lh.block 0)) log.start header) where
  header := by rw [update_self]; exact decoded
  logged := by
    intro i home found
    have different : log.start + i + 1 ≠ log.start := by omega
    rw [update_of_ne different]
    have copied := apply_copies log data lh.block 0 disk i home found
    rwa [Nat.zero_add] at copied
  agree := by
    intro blockno outside notHome
    have different : blockno ≠ log.start := by
      rintro rfl
      exact outside log.contains_start
    rw [update_of_ne different, apply_unwritten]
    intro write member same
    have bounds := mem_copies member
    have room := fits.room
    exact outside (same ▸ ⟨by omega, by omega⟩)

theorem commit_writes (data : Nat → Block) (disk : Disk Block) (fits : Fits log lh) (nonempty : 0 < lh.block.length) :
    ∃ header cleared, decodeHeader header = some lh ∧ count cleared = 0 ∧ (commit log (pinnedBy lh data) lh).writes disk =
        copies log data lh.block 0 ++ (log.start, header) :: (installs lh data ++ [(log.start, cleared)]) := by
  let copied := apply disk (copies log data lh.block 0)
  let header := encodeHeader (copied log.start) lh
  have decoded : decodeHeader header = some lh := decodeHeader_encodeHeader _ _
  have committed : Committed log lh data disk (update copied log.start header) := committed_by_head fits decoded
  have installed := committed.installTrans_writes fits (pinnedBy lh data) (fun blockno inside => pinnedBy_inside fits inside)
  have logWrites : (writeLog log (pinnedBy lh data) lh).writes disk = copies log data lh.block 0 :=
    writeLogLoop_writes lh.block 0 disk (fun _ member => member)
  have unpinned : pinnedBy lh data log.start = none := pinnedBy_inside fits log.contains_start
  refine ⟨header, _, decoded, count_clear (apply (update copied log.start header) (installs lh data) log.start), ?_⟩
  simp only [commit, if_pos nonempty, writes_bind, writes_writeHead, finish, logWrites, apply, unpinned,
    getD_none, cons_append, nil_append]
  rw [show (installTrans log (pinnedBy lh data) lh).writes
    (update (apply disk (copies log data lh.block 0)) log.start
      (encodeHeader (apply disk (copies log data lh.block 0) log.start) lh)) = installs lh data from installed]

/-- The first write_head of commit() reached the disk: it is the first write to the header block. -/
def HeadReached (log : Region) (writes : List (Nat × Block)) : Prop := ∃ write ∈ writes, write.1 = log.start

theorem commit_crash_cases (data : Nat → Block) (fits : Fits log lh) (clean : count (disk log.start) = 0) (point : Nat) :
    let program := commit log (pinnedBy lh data) lh
    let reached := HeadReached log ((program.writes disk).take point)
    (¬ reached ∧ Clean log disk (program.crashAfter point disk)) ∨
      (reached ∧ (Committed log lh data disk (program.crashAfter point disk) ∨
        Clean log (updated lh data disk) (program.crashAfter point disk))) := by
  intro program reached
  rcases Nat.eq_zero_or_pos lh.block.length with empty | nonempty
  · left
    have silent : program.writes disk = [] := by
      simp [program, commit, empty]
    refine ⟨by simp [reached, HeadReached, silent], ?_⟩
    rw [crashAfter, silent, take_nil]
    exact ⟨clean, fun _ _ => rfl⟩
  · obtain ⟨header, _, decoded, zero, writes⟩ := commit_writes data disk fits nonempty
    have width : (copies log data lh.block 0).length = lh.block.length := length_copies lh.block 0
    rcases Nat.lt_or_ge lh.block.length point with late | early
    · right
      have split : point - (copies log data lh.block 0).length = (point - lh.block.length - 1) + 1 := by omega
      refine ⟨⟨(log.start, header), ?_, rfl⟩, ?_⟩
      · rw [show program.writes disk = _ from writes, take_append, split, take_succ_cons]
        simp
      · rw [crashAfter, show program.writes disk = _ from writes, apply_take_append, split, take_succ_cons,
          take_of_length_le (by omega)]
        exact (committed_by_head fits decoded).install_crash fits zero _
    · left
      have inLog : (program.writes disk).take point = (copies log data lh.block 0).take point := by
        rw [show program.writes disk = _ from writes, take_append_of_le_length (by omega)]
      have beyond : ∀ write ∈ (copies log data lh.block 0).take point,
          log.start < write.1 ∧ write.1 ≤ log.start + lh.block.length := by
        intro write member
        have bounds := mem_copies (mem_of_mem_take member)
        omega
      refine ⟨?_, ?_⟩
      · rintro ⟨write, member, same⟩
        rw [inLog] at member
        have := (beyond write member).1
        omega
      · rw [crashAfter, inLog]
        refine ⟨?_, ?_⟩
        · rw [apply_unwritten fun write member => by have := beyond write member; omega]
          exact clean
        · intro blockno outside
          apply apply_unwritten
          intro write member same
          have bounds := beyond write member
          have room := fits.room
          exact outside (same ▸ ⟨by omega, by omega⟩)

/-- Crash atomicity of the redo log. Whatever write of commit() is the last to
reach the disk, and however often recovery is itself cut off, the recovered file
system is the one before the transaction or the one after all of it, according to
whether the header write got through, and the log is empty again. -/
theorem commit_crash_atomic (log : Region) (lh : LogHeader) (data : Nat → Block) (disk : Disk Block)
    (room : lh.block.length ≤ log.size - 1) (outside : ∀ home ∈ lh.block, ¬ log.Contains home.toNat)
    (clean : count (disk log.start) = 0) (point : Nat) (points : List Nat) : let program := commit log (pinnedBy lh data) lh
    let recovered := recoveries log points (program.crashAfter point disk)
    (HeadReached log ((program.writes disk).take point) →
      ∀ blockno, ¬ log.Contains blockno → recovered blockno = updated lh data disk blockno) ∧
    (¬ HeadReached log ((program.writes disk).take point) →
      ∀ blockno, ¬ log.Contains blockno → recovered blockno = disk blockno) ∧
    count (recovered log.start) = 0 := by
  intro program recovered
  have fits : Fits log lh := ⟨room, outside⟩
  rcases commit_crash_cases data fits clean point with ⟨missed, before⟩ | ⟨reached, after⟩
  · have final : Clean log disk recovered := before.recoveries points
    exact ⟨fun reached => absurd reached missed, fun _ => final.agree, final.header⟩
  · have final : Clean log (updated lh data disk) recovered := by
      rcases after with committed | installed
      · exact committed.recoveries fits points
      · exact installed.recoveries points
    exact ⟨fun _ => final.agree, fun missed => absurd reached missed, final.header⟩

/-- Two blocks are committed and the power fails with one of them installed;
the first recovery is cut off after a single write. -/
theorem commit_crash_atomic_two_blocks : let lh : LogHeader := ⟨[70, 90], by decide⟩
    let program := commit mkfsRegion (pinnedBy lh fun _ _ => 7) lh
    let recovered := recoveries mkfsRegion [1] (program.crashAfter 4 fun _ _ => 0)
    recovered 90 = (fun _ => 7) ∧ count (recovered mkfsRegion.start) = 0 := by
  intro lh program recovered
  have outside : ∀ home ∈ lh.block, ¬ mkfsRegion.Contains home.toNat := by
    intro home member
    simp only [lh, mem_cons, not_mem_nil, or_false] at member
    rcases member with rfl | rfl
    · simp [Region.Contains, mkfsRegion, LOGSIZE, MAXOPBLOCKS]
    · simp [Region.Contains, mkfsRegion, LOGSIZE, MAXOPBLOCKS]
  obtain ⟨reached, _, header⟩ := commit_crash_atomic mkfsRegion lh (fun _ _ => 7) (fun _ _ => 0) (by decide) outside rfl 4 [1]
  refine ⟨?_, header⟩
  have installed := reached ⟨(2, _), mem_of_getElem? (i := 2) rfl, rfl⟩ 90
    (by simp [Region.Contains, mkfsRegion, LOGSIZE, MAXOPBLOCKS])
  simpa [updated, LogHeader.homes, lh] using installed

/-- A transaction in whose commit() the power fails, after `point` writes. -/
structure Attempt (log : Region) where
  lh : LogHeader
  fits : Fits log lh
  data : Nat → Block
  point : Nat
  points : List Nat

instance (writes : List (Nat × Block)) : Decidable (HeadReached log writes) := decidableBEx _ _

/-- The disk after the recoveries, and the file system as the committed transactions make it, one after the other. -/
def Attempt.run (s : Disk Block × Disk Block) (t : Attempt log) : Disk Block × Disk Block :=
  let program := commit log (pinnedBy t.lh t.data) t.lh
  (recoveries log t.points (program.crashAfter t.point s.1),
    if HeadReached log ((program.writes s.1).take t.point) then updated t.lh t.data s.2 else s.2)

theorem Clean.congr {other : Disk Block} (clean : Clean log contents disk)
    (same : ∀ blockno, ¬ log.Contains blockno → contents blockno = other blockno) : Clean log other disk :=
  ⟨clean.header, fun blockno outside => (clean.agree blockno outside).trans (same blockno outside)⟩

theorem Attempt.clean (t : Attempt log) {s : Disk Block × Disk Block} (clean : Clean log s.2 s.1) :
    Clean log (run s t).2 (run s t).1 := by
  rcases commit_crash_cases t.data t.fits clean.header t.point with ⟨missed, kept⟩ | ⟨reached, done⟩
  · simp only [run, if_neg missed]
    exact (kept.recoveries t.points).congr clean.agree
  · have final : Clean log (updated t.lh t.data s.1) _ := done.elim (·.recoveries t.fits t.points) (·.recoveries t.points)
    simp only [run, if_pos reached]
    refine final.congr fun blockno outside => ?_
    rw [updated, updated, clean.agree blockno outside]

/-- However often the power fails, no committed transaction is lost and no other leaves a trace. -/
theorem reboots_lose_nothing (log : Region) (disk : Disk Block) (idle : count (disk log.start) = 0) (attempts : List (Attempt log)) :
    Clean log (attempts.foldl Attempt.run (disk, disk)).2 (attempts.foldl Attempt.run (disk, disk)).1 := by
  refine foldlRecOn (motive := fun s => Clean log s.2 s.1) attempts Attempt.run ?_ fun _ clean t _ => t.clean clean
  exact ⟨idle, fun _ _ => rfl⟩

/-- The second of three transactions reaches its commit; its recovery is cut off once. -/
theorem reboots_lose_nothing_cutOff : ∃ fits : Fits mkfsRegion ⟨[70], by decide⟩,
    let attempts := [Attempt.mk _ fits (fun _ _ => 7) 1 [1], Attempt.mk _ fits (fun _ _ => 8) 2 [0, 1],
      Attempt.mk _ fits (fun _ _ => 9) 1 []]
    let s := attempts.foldl Attempt.run (fun _ _ => 0, fun _ _ => 0)
    s.2 70 0 = 8 ∧ s.1 70 0 = 8 ∧ Clean mkfsRegion s.2 s.1 :=
  ⟨⟨by decide, by simp [Region.Contains, mkfsRegion, LOGSIZE, MAXOPBLOCKS]⟩, by decide +kernel, by decide +kernel,
    reboots_lose_nothing mkfsRegion _ rfl _⟩

end Xv6.Log
