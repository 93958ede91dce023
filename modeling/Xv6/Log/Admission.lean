import Xv6.Log.Coherence

namespace Xv6.Log

open Data Function List

/-! begin_op reserves `MAXOPBLOCKS` log blocks for each operation out of
`LOGSIZE`, but a log of `LOGSIZE` blocks has one block less for data, and
log_write refuses to start when the last of those is taken, even for a block
it would absorb. The reservation is sound for operations that leave one block
of their share unused. -/

variable {P : Type} {s next : LogState P} {p : P} {log : Region} {new : LogPc}

/-- The distinct blocks the operation of `p` has passed to log_write. -/
def LogState.logged (s : LogState P) (p : P) : List UInt32 :=
  match s.pc p with
  | .inOp logged => logged
  | _ => []

def LogsAtMost (limit : Nat) (s : LogState P) (event : LogEvent P) (_ : LogState P) : Prop :=
  match event with
  | .test p blockno => ((s.logged p).insert blockno).length ≤ limit
  | _ => True

instance (limit : Nat) (s : LogState P) (event : LogEvent P) (next : LogState P) : Decidable (LogsAtMost limit s event next) :=
  match event with
  | .test p blockno => inferInstanceAs (Decidable (((s.logged p).insert blockno).length ≤ limit))
  | .call _ | .enter _ | .wake _ | .append _ | .endOp _ | .commit _ => .isTrue trivial

/-- Log blocks a process may still take, if it logs at most `limit` distinct blocks. -/
def LogPc.share (limit : Nat) (block : List UInt32) : LogPc → Nat
  | .inOp logged => limit - logged.length
  | .appending logged blockno => limit - logged.length + if blockno ∈ block then 0 else 1
  | _ => 0

open LogPc (share)

structure Recorded (s : LogState P) : Prop where
  inOp : ∀ q logged, s.pc q = .inOp logged → ∀ b ∈ logged, b ∈ s.block
  appending : ∀ q logged blockno, s.pc q = .appending logged blockno → blockno ∈ logged ∧ ∀ b ∈ logged, b ∈ s.block ∨ b = blockno

theorem share_mono {limit : Nat} {block longer : List UInt32} (grown : block ⊆ longer) (pc : LogPc) :
    pc.share limit longer ≤ pc.share limit block := by
  cases pc with
  | appending _ blockno =>
    by_cases present : blockno ∈ block
    · simp [share, present, grown present]
    · simp only [share, present, if_false]
      split <;> omega
  | _ => exact Nat.le_refl _

theorem share_le {limit : Nat} (positive : 0 < limit) (recorded : Recorded s) (q : P) :
    (s.pc q).share limit s.block ≤ limit * (if (s.pc q).active = true then 1 else 0) := by
  cases here : s.pc q with
  | inOp => simp [share, LogPc.active]
  | appending logged blockno =>
    have some_ := length_pos_of_mem (recorded.appending q logged blockno here).1
    simp only [share, LogPc.active, if_true]
    split <;> omega
  | _ => exact Nat.zero_le _

theorem Recorded.initial : Recorded ({} : LogState P) := ⟨by simp, by simp⟩

theorem Recorded.of_le (recorded : Recorded s) (grown : s.block ⊆ next.block)
    (kept : ∀ q, (next.pc q).active = true → next.pc q = s.pc q) : Recorded next := by
  constructor
  · intro q logged here b member
    have same := kept q (by rw [here]; rfl)
    exact grown (recorded.inOp q logged (same.symm.trans here) b member)
  · intro q logged blockno here
    have same := kept q (by rw [here]; rfl)
    obtain ⟨own, others⟩ := recorded.appending q logged blockno (same.symm.trans here)
    refine ⟨own, fun b member => ?_⟩
    cases others b member with
    | inl stored => exact .inl (grown stored)
    | inr same => exact .inr same

theorem Recorded.goto [DecidableEq P] (recorded : Recorded s) (grown : s.block ⊆ next.block)
    (moved : next.pc = update s.pc p new) (inOp : ∀ logged, new = .inOp logged → ∀ b ∈ logged, b ∈ next.block)
    (appending : ∀ logged blockno, new = .appending logged blockno →
      blockno ∈ logged ∧ ∀ b ∈ logged, b ∈ next.block ∨ b = blockno) : Recorded next := by
  constructor
  · intro q logged here b member
    rw [moved] at here
    by_cases same : q = p
    · subst same
      rw [update_self] at here
      exact inOp logged here b member
    · rw [update_of_ne same] at here
      exact grown (recorded.inOp q logged here b member)
  · intro q logged blockno here
    rw [moved] at here
    by_cases same : q = p
    · subst same
      rw [update_self] at here
      exact appending logged blockno here
    · rw [update_of_ne same] at here
      obtain ⟨own, others⟩ := recorded.appending q logged blockno here
      exact ⟨own, fun b member => (others b member).imp_left fun stored => grown stored⟩

theorem Recorded.quiet (idle : ∀ q, (next.pc q).active = false) : Recorded next := by
  constructor
  · intro q logged here
    have := idle q
    rw [here] at this
    contradiction
  · intro q logged blockno here
    have := idle q
    rw [here] at this
    contradiction

theorem active_goto [DecidableEq P] (inactive : new.active = false) (q : P)
    (active : ((s.goto p new).pc q).active = true) : (s.goto p new).pc q = s.pc q := by
  by_cases same : q = p
  · subst same
    rw [goto_pc, update_self, inactive] at active
    contradiction
  · rw [goto_pc, update_of_ne same]

theorem active_wakeup (q : P) (active : (s.wakeup.pc q).active = true) : s.wakeup.pc q = s.pc q := by
  cases wakeup_pc s q with
  | inl kept => exact kept
  | inr moved =>
    rw [moved.2] at active
    contradiction

theorem Recorded.step [Fintype P] [DecidableEq P] {event : LogEvent P} (coherent : Coherent s)
    (recorded : Recorded s) (stepped : logStep log s event = some next) : Recorded next := by
  obtain ⟨-, move⟩ := logStep_move stepped
  cases move with
  | call | sleep | wake | last | write | written => exact recorded.of_le (List.Subset.refl _) (active_goto rfl)
  | enter => exact recorded.goto (List.Subset.refl _) rfl (by simp) (by simp)
  | test p _ logged here =>
    refine recorded.goto (List.Subset.refl _) rfl (by simp) ?_
    intro _ _ same
    cases same
    refine ⟨mem_insert_self, fun b member => ?_⟩
    cases List.mem_insert_iff.mp member with
    | inl same => exact .inr same
    | inr old => exact .inl (recorded.inOp p logged here b old)
  | tooBig | outside | committing => exact ⟨recorded.inOp, recorded.appending⟩
  | absorb p logged blockno here present =>
    refine recorded.goto (List.Subset.refl _) rfl ?_ (by simp)
    intro _ same b member
    cases same
    cases (recorded.appending p logged blockno here).2 b member with
    | inl stored => exact stored
    | inr same => exact same ▸ present
  | append p logged blockno here =>
    refine recorded.goto (subset_append_left _ _) rfl ?_ (by simp)
    intro _ same b member
    cases same
    have := (recorded.appending p logged blockno here).2 b member
    simpa using this
  | leave | close =>
    refine recorded.of_le (List.Subset.refl _) fun q active => ?_
    have moved := active_goto (s := s.wakeup) rfl q active
    exact moved.trans (active_wakeup q (moved ▸ active))
  | install p here =>
    -- the only step that empties the header runs while no operation is active
    refine .quiet fun q => ?_
    by_contra active
    have same := active_goto (s := s) rfl q (by simpa using active)
    have idle := coherent.idle_of_active (p := q) (same ▸ by simpa using active)
    have busy := coherent.busy_of_committer (p := p) (by rw [here]; rfl)
    exact absurd (idle.symm.trans busy) (by simp)

section

variable [Fintype P] {limit : Nat}

/-- Entries in the header and entries the active operations may still add. -/
def LogState.demand (limit : Nat) (s : LogState P) : Nat := s.block.length + total (share limit s.block) s.pc

theorem demand_le_ops (limit : Nat) (positive : 0 < limit) (recorded : Recorded s) :
    s.demand limit ≤ s.block.length + limit * s.ops := by
  have shares : total (share limit s.block) s.pc ≤
      total (fun pc => limit * (if pc.active = true then 1 else 0)) s.pc :=
    total_le_total fun q => share_le positive recorded q
  simp only [total, ← Finset.mul_sum] at shares
  exact Nat.add_le_add_left shares _

theorem demand_wakeup : s.wakeup.demand limit = s.demand limit := by
  simp only [LogState.demand, wakeup_block, total_wakeup (share limit s.block) rfl]

variable [DecidableEq P] {logged : List UInt32} {blockno : UInt32}

theorem demand_goto (limit : Nat) (new : LogPc) {old : LogPc} (here : s.pc p = old)
    (less : new.share limit s.block ≤ old.share limit s.block) : (s.goto p new).demand limit ≤ s.demand limit := by
  have moved := total_goto (share limit s.block) new here
  simp only [LogState.demand, goto_block]
  omega

theorem demand_append (here : s.pc p = .appending logged blockno) (absent : blockno ∉ s.block) :
    ({ s with block := s.block ++ [blockno] }.goto p (.inOp logged)).demand limit ≤ s.demand limit := by
  have moved := total_goto (share limit s.block) (.inOp logged) here
  have shrunk : total (share limit (s.block ++ [blockno])) (s.goto p (.inOp logged)).pc ≤
      total (share limit s.block) (s.goto p (.inOp logged)).pc :=
    total_le_total fun q => share_mono (subset_append_left _ _) _
  simp only [share, absent, if_false] at moved
  change (s.block ++ [blockno]).length + total (share limit (s.block ++ [blockno]))
    (s.goto p (.inOp logged)).pc ≤ s.block.length + total (share limit s.block) s.pc
  rw [length_append, length_singleton]
  omega

/-- An operation that begins, when every operation uses at most one block less
than begin_op reserves for it. The first one finds the header empty. -/
theorem demand_enter (coherent : Coherent s) (recorded : Recorded s) (here : s.pc p = .beginning) (idle : s.committing = false)
    (room : (s.block.length : Int) + (s.outstanding + 1) * MAXOPBLOCKS ≤ LOGSIZE) :
    ({ s with outstanding := s.outstanding + 1 }.goto p (.inOp [])).demand (MAXOPBLOCKS - 1) ≤ LOGSIZE - 2 := by
  have moved := total_goto (share (MAXOPBLOCKS - 1) s.block) (.inOp []) here
  have shares := demand_le_ops (MAXOPBLOCKS - 1) (by decide) recorded
  have counted := coherent.outstanding
  change s.block.length + total (share (MAXOPBLOCKS - 1) s.block) (s.goto p (.inOp [])).pc ≤ LOGSIZE - 2
  simp only [share, length_nil, MAXOPBLOCKS, LOGSIZE, LogState.demand] at *
  by_cases first : s.ops = 0
  · rw [coherent.empty first idle, length_nil] at *
    omega
  · omega

theorem demand_test (recorded : Recorded s)
    (here : s.pc p = .inOp logged) (few : (logged.insert blockno).length ≤ limit) :
    (s.goto p (.appending (logged.insert blockno) blockno)).demand limit ≤ s.demand limit := by
  refine demand_goto limit _ here ?_
  by_cases again : blockno ∈ logged
  · -- a block the operation has logged before is in the header and will be absorbed
    simp [share, again, recorded.inOp p logged here blockno again]
  · simp only [length_insert_of_not_mem again] at few
    simp only [share, length_insert_of_not_mem again]
    split <;> omega

structure Sound (log : Region) (s : LogState P) : Prop where
  coherent : Coherent s
  recorded : Recorded s
  room : s.demand (MAXOPBLOCKS - 1) ≤ LOGSIZE - 2
  calm : s.panic = none
  inside : ∀ b ∈ s.written, log.Contains b

omit [DecidableEq P] in
theorem Sound.entries (sound : Sound log s) : s.block.length ≤ LOGSIZE - 2 := Nat.le_trans (Nat.le_add_right _ _) sound.room

theorem Sound.step {event : LogEvent P} (size : log.size = LOGSIZE) (sound : Sound log s)
    (few : LogsAtMost (MAXOPBLOCKS - 1) s event next) (stepped : logStep log s event = some next) : Sound log next := by
  have coherent := sound.coherent.step stepped
  have recorded := sound.recorded.step sound.coherent stepped
  have quiet {p : P} {new : LogPc} {old : LogPc} (here : s.pc p = old) (less : new.share (MAXOPBLOCKS - 1) s.block = 0) :
      (s.goto p new).demand (MAXOPBLOCKS - 1) ≤ LOGSIZE - 2 :=
    Nat.le_trans (demand_goto _ _ here (by rw [less]; exact Nat.zero_le _)) sound.room
  have dropped (p : P) : (s.wakeup.goto p .idle).demand (MAXOPBLOCKS - 1) ≤ s.demand (MAXOPBLOCKS - 1) := by
    have lower := demand_goto (MAXOPBLOCKS - 1) .idle (rfl : s.wakeup.pc p = _) (Nat.zero_le _)
    rwa [demand_wakeup] at lower
  have entries := sound.entries
  obtain ⟨calm, move⟩ := logStep_move stepped
  cases move with
  | call _ here | sleep _ here | wake _ here | last _ _ here | written _ _ here =>
    exact ⟨coherent, recorded, quiet here rfl, calm, sound.inside⟩
  | enter _ here idle room =>
    exact ⟨coherent, recorded, demand_enter sound.coherent sound.recorded here idle room, calm, sound.inside⟩
  | test _ blockno logged here =>
    have within : (logged.insert blockno).length ≤ MAXOPBLOCKS - 1 := by
      simpa only [LogsAtMost, LogState.logged, here] using few
    exact ⟨coherent, recorded, Nat.le_trans (demand_test sound.recorded here within) sound.room, calm, sound.inside⟩
  | tooBig _ _ _ _ full =>
    simp only [size, LOGSIZE, MAXOPBLOCKS] at full entries
    omega
  | outside p _ _ here =>
    have := ops_pos (s := s) (p := p) (by rw [here]; rfl)
    have := sound.coherent.outstanding
    omega
  | absorb _ _ _ here =>
    refine ⟨coherent, recorded, Nat.le_trans (demand_goto _ _ here ?_) sound.room, calm, sound.inside⟩
    simp [share]
  | append _ _ _ here absent =>
    exact ⟨coherent, recorded, Nat.le_trans (demand_append here absent) sound.room, calm, sound.inside⟩
  | committing p _ here busy =>
    have idle := sound.coherent.idle_of_active (p := p) (by rw [here]; rfl)
    exact absurd (idle.symm.trans busy) (by simp)
  | write _ _ here inside =>
    refine ⟨coherent, recorded, quiet here rfl, calm, fun b member => ?_⟩
    cases List.mem_append.mp member with
    | inl old => exact sound.inside b old
    | inr new =>
      simp only [mem_singleton] at new
      simp only [Region.Contains, size, LOGSIZE, MAXOPBLOCKS] at entries ⊢
      omega
  | install p here =>
    have busy := sound.coherent.busy_of_committer (p := p) (by rw [here]; rfl)
    have none := coherent.committing busy
    have shares := demand_le_ops (MAXOPBLOCKS - 1) (by decide) recorded
    rw [none] at shares
    exact ⟨coherent, recorded, Nat.le_trans shares (Nat.zero_le _), calm, sound.inside⟩
  | leave p | close p => exact ⟨coherent, recorded, Nat.le_trans (dropped p) sound.room, calm, sound.inside⟩

omit [DecidableEq P] in
theorem Sound.initial : Sound log ({} : LogState P) where
  coherent := .initial
  recorded := .initial
  room := by
    have shares := demand_le_ops (MAXOPBLOCKS - 1) (by decide) (Recorded.initial (P := P))
    have none : ({} : LogState P).ops = 0 := tally_eq_zero fun _ => by simp [LogPc.active]
    rw [none] at shares
    exact Nat.le_trans shares (Nat.zero_le _)
  calm := rfl
  inside := by simp

/-- The log region is large enough for every interleaving of operations that log
at most `MAXOPBLOCKS - 1` distinct blocks each. -/
theorem log_space_suffices (size : log.size = LOGSIZE) {events : List (LogEvent P)}
    (few : EveryStep (logStep log) (LogsAtMost (MAXOPBLOCKS - 1)) {} events) (ran : run (logStep log) {} events = some s) :
    s.panic ≠ some .tooBigATransaction ∧ ∀ b ∈ s.written, log.Contains b := by
  have sound := (runs_along (Sound log) .initial few fun _ _ _ sound few stepped => ⟨sound.step size few stepped, trivial⟩).2 s ran
  exact ⟨by simp [sound.calm], sound.inside⟩

end

/-! The runs below have three operations in one transaction: begin_op lets them in because
`0 + 3 * MAXOPBLOCKS` does not exceed `LOGSIZE`. -/

def beginThree : List (LogEvent (Fin 3)) :=
  [0, 1, 2].flatMap fun p => [.call p, .enter p]

def logBlocks (p : Fin 3) (blocks : List UInt32) : List (LogEvent (Fin 3)) :=
  blocks.flatMap fun blockno => [.test p blockno, .append p]

/-- Ten distinct blocks each, one call after the other. -/
def fullShares : List (LogEvent (Fin 3)) :=
  beginThree ++ logBlocks 0 [100, 101, 102, 103, 104, 105, 106, 107, 108, 109] ++
    logBlocks 1 [110, 111, 112, 113, 114, 115, 116, 117, 118, 119] ++
    logBlocks 2 [120, 121, 122, 123, 124, 125, 126, 127, 128] ++ [.test 2 129]

/-- Nine distinct blocks each, then the commit. -/
def lighterShares : List (LogEvent (Fin 3)) :=
  beginThree ++ logBlocks 0 [100, 101, 102, 103, 104, 105, 106, 107, 108] ++
    logBlocks 1 [110, 111, 112, 113, 114, 115, 116, 117, 118] ++
    logBlocks 2 [120, 121, 122, 123, 124, 125, 126, 127, 128] ++
    [.endOp 0, .endOp 1, .endOp 2] ++ List.replicate 30 (.commit 2)

theorem log_space_suffices_lighter : mkfsRegion.size = LOGSIZE ∧
    EveryStep (logStep mkfsRegion) (LogsAtMost (MAXOPBLOCKS - 1)) {} lighterShares ∧
    ∃ s, run (logStep mkfsRegion) {} lighterShares = some s ∧
      s.panic ≠ some .tooBigATransaction ∧ ∀ b ∈ s.written, mkfsRegion.Contains b := by
  have few : EveryStep (logStep mkfsRegion) (LogsAtMost (MAXOPBLOCKS - 1)) {} lighterShares := by
    decide +kernel
  have enabled : (run (logStep mkfsRegion) {} lighterShares).isSome = true := by decide +kernel
  obtain ⟨s, ran⟩ := Option.isSome_iff_exists.mp enabled
  exact ⟨rfl, few, s, ran, log_space_suffices rfl few ran⟩

theorem full_shares_exceed_log : EveryStep (logStep mkfsRegion) (LogsAtMost MAXOPBLOCKS) {} fullShares ∧
    (run (logStep mkfsRegion) {} fullShares).map (·.panic) = some (some .tooBigATransaction) := by
  decide +kernel

end Xv6.Log
