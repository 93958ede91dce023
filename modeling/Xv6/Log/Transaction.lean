import Xv6.Log.Coherence

namespace Xv6.Log

open Data Function List

/-! What the in-memory header holds while operations share a transaction, and
who may wait for it. -/

variable {P : Type}

section

variable [DecidableEq P]

/-- The blocks passed to log_write since the last commit, newest first. -/
def sinceCommit (s : LogState P) (event : LogEvent P) (_ : LogState P) (logged : List UInt32) : List UInt32 :=
  match event with
  | .append p =>
    match s.pc p with
    | .appending _ blockno => blockno :: logged
    | _ => logged
  | .commit p => if s.pc p = .installing then [] else logged
  | _ => logged

end

/-- begin_op has a reason to sleep. -/
def LogState.Full (s : LogState P) : Prop :=
  s.committing = true ∨ (s.block.length : Int) + (s.outstanding + 1) * MAXOPBLOCKS > LOGSIZE

structure GroupSafe [Fintype P] (before : LogState P × List UInt32) (event : LogEvent P)
    (after : LogState P × List UInt32) : Prop where
  exclusive : after.1.committing = true → after.1.outstanding = 0
  counted : after.1.outstanding = after.1.ops
  distinct : after.1.block.Nodup
  logged : ∀ b, b ∈ after.1.block ↔ b ∈ after.2
  empty : after.1.outstanding = 0 → after.1.committing = false → after.1.block = []
  frozen : before.1.committing = true → (∀ p, event ≠ .commit p) → after.1.block = before.1.block
  panic : after.1.panic ≠ some .logCommitting ∧ after.1.panic ≠ some .logWriteOutsideOfTrans
  awaited : ∀ p, after.1.pc p = .sleeping → after.1.Full

/-- The header against the history, and the sleepers against the header. -/
structure Absorbed (s : LogState P) (logged : List UInt32) : Prop where
  distinct : s.block.Nodup
  logged : ∀ b, b ∈ s.block ↔ b ∈ logged
  panic : s.panic ≠ some .logCommitting ∧ s.panic ≠ some .logWriteOutsideOfTrans
  awaited : ∀ p, s.pc p = .sleeping → s.Full

theorem Absorbed.initial : Absorbed ({} : LogState P) [] where
  distinct := nodup_nil
  logged := fun _ => Iff.rfl
  panic := by simp
  awaited := by simp

section

variable [DecidableEq P] {s next : LogState P} {logged : List UInt32} {p : P} {new : LogPc}

theorem Absorbed.goto (absorbed : Absorbed s logged) (moved : next.pc = update s.pc p new)
    (block : next.block = s.block) (panic : next.panic = s.panic) (full : s.Full → next.Full)
    (mine : new = .sleeping → next.Full) : Absorbed next logged where
  distinct := by
    rw [block]
    exact absorbed.distinct
  logged := by
    rw [block]
    exact absorbed.logged
  panic := by
    rw [panic]
    exact absorbed.panic
  awaited := by
    intro q asleep
    rw [moved] at asleep
    by_cases same : q = p
    · subst same
      rw [update_self] at asleep
      exact mine asleep
    · rw [update_of_ne same] at asleep
      exact full (absorbed.awaited q asleep)

theorem awake_of_wakeup (s : LogState P) (awake : new ≠ .sleeping) (q : P) :
    (s.wakeup.goto p new).pc q ≠ .sleeping := by
  rw [goto_pc]
  by_cases same : q = p
  · subst same
    rw [update_self]
    exact awake
  · rw [update_of_ne same]
    cases wakeup_pc s q with
    | inl kept =>
      intro asleep
      have before : s.pc q = .sleeping := kept.symm.trans asleep
      simp [LogState.wakeup, before] at asleep
    | inr moved => simp [moved.2]

variable [Fintype P] {event : LogEvent P} {log : Region}

theorem Absorbed.step (coherent : Coherent s) (absorbed : Absorbed s logged) (stepped : logStep log s event = some next) :
    Absorbed next (sinceCommit s event next logged) := by
  obtain ⟨-, move⟩ := logStep_move stepped
  cases move with
  | call | wake | test => exact absorbed.goto rfl rfl rfl id (by simp)
  | sleep _ _ full => exact absorbed.goto rfl rfl rfl id fun _ => full
  | enter =>
    refine absorbed.goto rfl rfl rfl (fun full => ?_) (by simp)
    rcases full with busy | full
    · exact .inl busy
    · right
      omega
  | tooBig _ _ logged =>
    exact ⟨absorbed.distinct, absorbed.logged, by simp, absorbed.awaited⟩
  | outside p _ _ here =>
    have := ops_pos (s := s) (p := p) (by rw [here]; rfl)
    have := coherent.outstanding
    omega
  | absorb p logged _ here present =>
    have kept : Absorbed (s.goto p (.inOp logged)) _ := absorbed.goto rfl rfl rfl id (by simp)
    refine ⟨kept.distinct, fun b => ?_, kept.panic, kept.awaited⟩
    simp only [sinceCommit, here, mem_cons]
    rw [← absorbed.logged b]
    exact ⟨.inr, fun member => member.elim (fun same => same ▸ present) id⟩
  | append p logged _ here absent =>
    refine ⟨?_, fun b => ?_, absorbed.panic, ?_⟩
    · exact List.nodup_append'.mpr ⟨absorbed.distinct, nodup_singleton _, by simpa using absent⟩
    · simp only [sinceCommit, here, goto_block, mem_append, mem_cons, not_mem_nil, or_false]
      rw [← absorbed.logged b]
      exact or_comm
    · intro q asleep
      have before : s.pc q = .sleeping := by
        by_cases same : q = p
        · subst same
          simp at asleep
        · simpa [update_of_ne same] using asleep
      rcases absorbed.awaited q before with busy | full
      · exact .inl busy
      · right
        simp only [goto_block, goto_outstanding, length_append, length_singleton]
        omega
  | committing p _ here busy =>
    have idle := coherent.idle_of_active (p := p) (by rw [here]; rfl)
    exact absurd (idle.symm.trans busy) (by simp)
  | last => exact absorbed.goto rfl rfl rfl (fun _ => .inl rfl) (by simp)
  | leave _ logged =>
    refine ⟨absorbed.distinct, absorbed.logged, absorbed.panic, fun q asleep => ?_⟩
    exact absurd asleep (awake_of_wakeup _ (by simp) q)
  | write p tail here =>
    have kept : Absorbed ({ s with written := s.written ++ [log.start + tail + 1] }.goto p (.writing (tail + 1)))
        logged := absorbed.goto rfl rfl rfl id (by simp)
    simpa [sinceCommit, here] using kept
  | written p _ here =>
    have kept : Absorbed (s.goto p .installing) logged := absorbed.goto rfl rfl rfl id (by simp)
    simpa [sinceCommit, here] using kept
  | install p here =>
    have busy := coherent.busy_of_committer (p := p) (by rw [here]; rfl)
    refine ⟨nodup_nil, by simp [sinceCommit, here], absorbed.panic, fun q _ => .inl busy⟩
  | close p here =>
    have same : sinceCommit s (.commit p) ({ s with committing := false }.wakeup.goto p .idle) logged = logged := by
      simp [sinceCommit, here]
    rw [same]
    refine ⟨absorbed.distinct, absorbed.logged, absorbed.panic, fun q asleep => ?_⟩
    exact absurd asleep (awake_of_wakeup _ (by simp) q)

theorem Coherent.frozen (coherent : Coherent s)
    (stepped : logStep log s event = some next) (busy : s.committing = true) (other : ∀ p, event ≠ .commit p) :
    next.block = s.block := by
  obtain ⟨-, move⟩ := logStep_move stepped
  cases move with
  | append p _ _ here =>
    have idle := coherent.idle_of_active (p := p) (by rw [here]; rfl)
    exact absurd (idle.symm.trans busy) (by simp)
  | install p => exact absurd rfl (other p)
  | _ => rfl

theorem Absorbed.safe (coherent : Coherent s) (absorbed : Absorbed s logged) (stepped : logStep log s event = some next) :
    GroupSafe (s, logged) event (next, sinceCommit s event next logged) := by
  have later := coherent.step stepped
  have kept := absorbed.step coherent stepped
  have counted := later.outstanding
  refine ⟨fun busy => ?_, counted, kept.distinct, kept.logged, fun none => later.empty ?_, coherent.frozen stepped,
    kept.panic, kept.awaited⟩
  · have none := later.committing busy
    dsimp only at none ⊢
    omega
  · dsimp only at none
    omega

end

end Xv6.Log
