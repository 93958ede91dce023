import Xv6.Icache.Cache
import Xv6.Data.Count

namespace Xv6.Icache

open Data Volume Function List Option Cache
open Cache (step)

/-! Why the entries of the cache agree with the disk, and why the number of an
inode is not given out again while somebody uses it. -/

variable {P R : Type}

/-- The stages in which the process has the lock. -/
def Stage.holds : Stage → Bool
  | .ilock | .iput | .drop => false
  | _ => true

/-- The stages after the dinode has been freed, if it has. -/
def Stage.drops : Stage → Bool
  | .invalid | .unlock | .drop => true
  | _ => false

/-- The reference is on its way out: iput will not look at the inode again. -/
def Cache.Dropping (s : Cache P R) (r : R) : Prop := ∃ p stage, s.pc p = .call stage r ∧ stage.drops = true

structure InodeSafe [Fintype R] (before : Cache P R × (Index → Bool)) (event : Event P R)
    (after : Cache P R × (Index → Bool)) : Prop where
  unique : ∀ b c, 0 < (after.1.inode b).ref → 0 < (after.1.inode c).ref → (after.1.inode b).key = (after.1.inode c).key → b = c
  counted : ∀ b, (after.1.inode b).ref = tally (· = some b) after.1.ref
  written : ∀ b, 0 < (after.1.inode b).ref → (after.1.inode b).valid = true → (after.1.inode b).lock = none →
    (after.1.inode b).fields = after.1.disk (after.1.inode b).key
  freed : ∀ key, (before.1.disk key).type ≠ 0 → (after.1.disk key).type = 0 →
    ∃ p r b, event = .step p ∧ before.1.pc p = .call .clear r ∧ before.1.ref r = some b ∧
      (before.1.inode b).key = key ∧ (before.1.inode b).ref = 1 ∧ (before.1.disk key).nlink = 0
  fresh : ∀ p r key b, event = .step p → before.1.pc p = .iget key r → after.1.ref r = some b →
    ∀ other, other ≠ r → after.1.ref other = some b → after.1.Dropping other

/-- Who refers to which entry, and who has it locked. -/
structure Refs [Fintype R] (s : Cache P R) : Prop where
  unique : ∀ b c, 0 < (s.inode b).ref → 0 < (s.inode c).ref → (s.inode b).key = (s.inode c).key → b = c
  counted : ∀ b, (s.inode b).ref = tally (· = some b) s.ref
  lock : ∀ b p r, (s.inode b).lock = some (p, r) → s.ref r = some b
  calls : ∀ p stage r, s.pc p = .call stage r → ∃ b, s.ref r = some b ∧ (stage.holds = true → (s.inode b).lock = some (p, r)) ∧
    (stage.puts = true → stage.holds = false → ∀ q, (s.inode b).lock ≠ some (q, r))
  exclusive : ∀ p q stage other r, s.pc p = .call stage r → s.pc q = .call other r → stage.puts = true → p = q

/-- What a process has locked is valid, unless it is still inside ilock or already inside iput. -/
def Cache.Loaded (s : Cache P R) : Prop :=
  ∀ b p r, (s.inode b).lock = some (p, r) → (s.inode b).valid = true ∨ ∃ stage, s.pc p = .call stage r ∧ stage.holds = true

/-- Nobody but ialloc may touch the dinode: it is free, or ialloc has just taken it. -/
def Cache.Unowned (s : Cache P R) (key : Key) : Prop := (s.disk key).type = 0 ∨ ∃ q r, s.pc q = .iget key r

/-- The entry and the dinode, unless iput is about to mark the entry invalid. -/
def Cache.Agrees (s : Cache P R) (past : Index → Bool) (b : Index) : Prop :=
  (s.disk (s.inode b).key).type ≠ 0 ∧ (s.inode b).fields.type ≠ 0 ∧ (past b = false → (s.inode b).fields = s.disk (s.inode b).key)

structure Contents (s : Cache P R) (past : Index → Bool) : Prop where
  agrees : ∀ b, 0 < (s.inode b).ref → (s.inode b).valid = true →
    (∀ p r, (s.inode b).lock = some (p, r) → s.pc p ≠ .call .invalid r) → s.Agrees past b
  changed : ∀ b, past b = true → ∃ p r, (s.inode b).lock = some (p, r) ∧ ∀ stage, stage.holds = true → s.pc p ≠ .call stage r
  counting : ∀ p r b, s.pc p = .call .count r → s.ref r = some b → (s.inode b).valid = true ∧ (s.inode b).fields.nlink = 0
  freeing : ∀ p r b, s.pc p = .call .trunc r ∨ s.pc p = .call .clear r → s.ref r = some b →
    (s.inode b).valid = true ∧ (s.inode b).fields.nlink = 0 ∧ (s.inode b).ref = 1
  unowned : ∀ r b, s.ref r = some b → s.Unowned (s.inode b).key → s.Dropping r
  taken : ∀ p key r, s.pc p = .iget key r → (s.disk key).type ≠ 0 ∧ (s.disk key).nlink = 0
  single : ∀ p q key r t, s.pc p = .iget key r → s.pc q = .iget key t → p = q
  types : ∀ p dev inum type r, s.pc p = .ialloc dev inum type r → type ≠ 0

section

theorem through_some {s next : Cache P R} {r : R} {allowed : Index → Bool} {act : Index → Cache P R}
    (acted : s.through r allowed act = some next) : ∃ b, s.ref r = some b ∧ allowed b = true ∧ act b = next := by
  unfold Cache.through at acted
  cases here : s.ref r with
  | none => simp [here] at acted
  | some b =>
    simp only [here, guarded] at acted
    exact ⟨b, rfl, acted⟩

variable [DecidableEq P] [DecidableEq R] {ninodes : UInt32}

/-- The steps, grouped by what they touch. -/
inductive Move (ninodes : UInt32) (s : Cache P R) : Event P R → Cache P R → Prop
  | iget (p : P) (r : R) (key : Key) (idle : s.pc p = .idle) (new : s.ref r = none) :
      Move ninodes s (.iget p r key) (s.iget r key)
  | idup (p : P) (r copy : R) (b : Index) (here : s.ref r = some b) (new : s.ref copy = none)
      (kept : ∀ q, ¬ (s.pc q).Puts r) : Move ninodes s (.idup p r copy) (s.share b copy)
  | ilock (p : P) (r : R) (b : Index) (idle : s.pc p = .idle) (here : s.ref r = some b)
      (kept : ∀ q, ¬ (s.pc q).Puts r) : Move ninodes s (.ilock p r) (s.goto p (.call .ilock r))
  | iunlock (p : P) (r : R) (b : Index) (here : s.ref r = some b) (holds : s.Holds p r b) :
      Move ninodes s (.iunlock p r) (s.setInode b fun ip => { ip with lock := none })
  | modify (p : P) (r : R) (b : Index) (fields : Dinode) (here : s.ref r = some b) (holds : s.Holds p r b) :
      Move ninodes s (.modify p r fields) (s.setInode b fun ip => { ip with fields })
  | iupdate (p : P) (r : R) (b : Index) (here : s.ref r = some b) (holds : s.Holds p r b) :
      Move ninodes s (.iupdate p r) (s.iupdate b)
  | iput (p : P) (r : R) (b : Index) (idle : s.pc p = .idle) (here : s.ref r = some b)
      (unused : ∀ q, ¬ (s.pc q).Uses r) (unlocked : ∀ q, (s.inode b).lock ≠ some (q, r)) :
      Move ninodes s (.iput p r) (s.goto p (.call .iput r))
  | ialloc (p : P) (r : R) (dev : UInt32) (type : UInt16) (idle : s.pc p = .idle) :
      Move ninodes s (.ialloc p r dev type) (s.goto p (.ialloc dev 1 type r))
  | work (p : P) (r : R) (b : Index) (stage : Stage) (next : Cache P R) (at' : s.pc p = .call stage r)
      (here : s.ref r = some b) (worked : s.work p r b stage = some next) : Move ninodes s (.step p) next
  | mark (p : P) (dev inum : UInt32) (type : UInt16) (r : R) (at' : s.pc p = .ialloc dev inum type r)
      (free : (s.disk (dev, inum)).type = 0) :
      Move ninodes s (.step p)
        ({ s with disk := update s.disk (dev, inum) { type } }.goto p (.iget (dev, inum) r))
  | skip (p : P) (dev inum : UInt32) (type : UInt16) (r : R) (at' : s.pc p = .ialloc dev inum type r) :
      Move ninodes s (.step p) (s.goto p (.ialloc dev (inum + 1) type r))
  | none (p : P) (dev inum : UInt32) (type : UInt16) (r : R) (at' : s.pc p = .ialloc dev inum type r) :
      Move ninodes s (.step p) s.panic
  | got (p : P) (key : Key) (r : R) (at' : s.pc p = .iget key r) (new : s.ref r = none) :
      Move ninodes s (.step p) ((s.iget r key).goto p .idle)

variable {s next : Cache P R} {p : P} {event : Event P R}

theorem advance_move (stepped : s.advance ninodes p = some next) : Move ninodes s (.step p) next := by
  unfold advance at stepped
  cases at' : s.pc p with
  | idle => simp [at'] at stepped
  | call stage r =>
    cases here : s.ref r with
    | none => simp [at', here] at stepped
    | some b => exact .work p r b stage next at' here (by simpa only [at', here] using stepped)
  | ialloc dev inum type r =>
    simp only [at'] at stepped
    split at stepped
    · split at stepped
      · cases stepped
        exact .mark p dev inum type r at' ‹_›
      · cases stepped
        exact .skip p dev inum type r at'
    · cases stepped
      exact .none p dev inum type r at'
  | iget key r =>
    simp only [at', guarded] at stepped
    exact stepped.2 ▸ .got p key r at' stepped.1

variable [Fintype P]

theorem step_move (stepped : s.step ninodes event = some next) : Move ninodes s event next := by
  unfold step at stepped
  split at stepped
  · contradiction
  cases event with
  | iget p r key =>
    simp only [Cache.act, guarded] at stepped
    exact stepped.2 ▸ .iget p r key stepped.1.1 stepped.1.2
  | idup p r copy =>
    obtain ⟨b, here, allowed, rfl⟩ := through_some stepped
    have allowed : s.pc p = .idle ∧ s.ref copy = none ∧ ∀ q, ¬ (s.pc q).Puts r := by simpa using allowed
    exact .idup p r copy b here allowed.2.1 allowed.2.2
  | ilock p r =>
    obtain ⟨b, here, allowed, rfl⟩ := through_some stepped
    have allowed : s.pc p = .idle ∧ ∀ q, ¬ (s.pc q).Puts r := by simpa using allowed
    exact .ilock p r b allowed.1 here allowed.2
  | iunlock p r =>
    obtain ⟨b, here, allowed, rfl⟩ := through_some stepped
    exact .iunlock p r b here (by simpa using allowed)
  | modify p r fields =>
    obtain ⟨b, here, allowed, rfl⟩ := through_some stepped
    exact .modify p r b fields here (by simpa using allowed)
  | iupdate p r =>
    obtain ⟨b, here, allowed, rfl⟩ := through_some stepped
    exact .iupdate p r b here (by simpa using allowed)
  | iput p r =>
    obtain ⟨b, here, allowed, rfl⟩ := through_some stepped
    have allowed : s.pc p = .idle ∧ (∀ q, ¬ (s.pc q).Uses r) ∧ (s.inode b).lock.map Prod.snd ≠ some r := by
      simpa using allowed
    refine .iput p r b allowed.1 here allowed.2.1 fun q locked => allowed.2.2 ?_
    rw [locked]
    rfl
  | ialloc p r dev type =>
    simp only [Cache.act, guarded] at stepped
    exact stepped.2 ▸ .ialloc p r dev type stepped.1
  | step => exact advance_move stepped

end

/-! ## References and locks -/

section

variable [Fintype R] {s next : Cache P R} {b : Index} {p : P} {r : R}

theorem Refs.positive (refs : Refs s) (here : s.ref r = some b) : 0 < (s.inode b).ref := by
  rw [refs.counted b]
  exact tally_pos_of_kind here

theorem Refs.unlocked (refs : Refs s) (empty : (s.inode b).ref = 0) : (s.inode b).lock = none := by
  cases locked : (s.inode b).lock with
  | none => rfl
  | some holder =>
    have := refs.positive (refs.lock b holder.1 holder.2 locked)
    omega

/-- The place of `p` among the references and the locks. -/
def Cache.Fits (s : Cache P R) (p : P) (new : Pc R) : Prop :=
  ∀ stage r, new = .call stage r → ∃ b, s.ref r = some b ∧ (stage.holds = true → (s.inode b).lock = some (p, r)) ∧
    (stage.puts = true → stage.holds = false → ∀ q, (s.inode b).lock ≠ some (q, r)) ∧
    ∀ q other, q ≠ p → s.pc q = .call other r → stage.puts = false ∧ other.puts = false

variable [DecidableEq P]

theorem Refs.relock (refs : Refs s) {new : Pc R} (pc : next.pc = update s.pc p new) (same : next.ref = s.ref)
    (keys : ∀ c, (next.inode c).key = (s.inode c).key ∧ (next.inode c).ref = (s.inode c).ref)
    (locks : ∀ c, c ≠ b → (next.inode c).lock = (s.inode c).lock)
    (target : ∀ q r, (next.inode b).lock = some (q, r) → s.ref r = some b)
    (others : ∀ q stage r, q ≠ p → s.pc q = .call stage r → s.ref r = some b →
      (stage.holds = true → (next.inode b).lock = some (q, r)) ∧
      (stage.puts = true → stage.holds = false → ∀ t, (next.inode b).lock ≠ some (t, r)))
    (fits : next.Fits p new) : Refs next where
  unique := by
    intro c d
    rw [(keys c).1, (keys d).1, (keys c).2, (keys d).2]
    exact refs.unique c d
  counted := by
    intro c
    rw [(keys c).2, same]
    exact refs.counted c
  lock := by
    intro c q r
    rw [same]
    by_cases here : c = b
    · rw [here]
      exact target q r
    · rw [locks c here]
      exact refs.lock c q r
  calls := by
    intro q stage r
    rw [pc, same]
    by_cases mine : q = p
    · rw [mine, update_self]
      intro now
      obtain ⟨c, here, holds, puts, -⟩ := fits stage r now
      exact ⟨c, same ▸ here, holds, puts⟩
    · rw [update_of_ne mine]
      intro theirs
      obtain ⟨c, here, holds, puts⟩ := refs.calls q stage r theirs
      by_cases there : c = b
      · rw [there] at here
        exact ⟨b, here, others q stage r mine theirs here⟩
      · rw [← locks c there] at holds puts
        exact ⟨c, here, holds, puts⟩
  exclusive := by
    intro q t stage other r
    rw [pc]
    by_cases first : q = p
    · rw [first, update_self]
      by_cases second : t = p
      · exact fun _ _ _ => second.symm
      · rw [update_of_ne second]
        intro now theirs puts
        obtain ⟨c, here, -, -, apart⟩ := fits stage r now
        have theirs' : next.pc t = .call other r := by rw [pc, update_of_ne second, theirs]
        exact absurd puts (by simp [(apart t other second theirs').1])
    · rw [update_of_ne first]
      by_cases second : t = p
      · rw [second, update_self]
        intro theirs now puts
        obtain ⟨c, _, -, -, apart⟩ := fits other r now
        have theirs' : next.pc q = .call stage r := by rw [pc, update_of_ne first, theirs]
        exact absurd puts (by simp [(apart q stage first theirs').2])
      · rw [update_of_ne second]
        exact refs.exclusive q t stage other r

theorem Refs.goto (refs : Refs s) {new : Pc R} (pc : next.pc = update s.pc p new) (same : next.ref = s.ref)
    (keys : ∀ c, (next.inode c).key = (s.inode c).key ∧ (next.inode c).ref = (s.inode c).ref)
    (locks : ∀ c, (next.inode c).lock = (s.inode c).lock) (fits : next.Fits p new) : Refs next := by
  refine refs.relock (b := 0) pc same keys (fun c _ => locks c) ?_ ?_ fits
  · rw [locks]
    exact refs.lock 0
  · intro q stage r _ theirs here
    obtain ⟨c, there, holds, puts⟩ := refs.calls q stage r theirs
    cases here.symm.trans there
    rw [locks]
    exact ⟨holds, puts⟩

section

variable [DecidableEq R]

omit [DecidableEq P] in
theorem tally_setRef (target : Option Index) (c : Index) :
    tally (· = some c) (update s.ref r target) + (if s.ref r = some c then 1 else 0) =
      tally (· = some c) s.ref + if target = some c then 1 else 0 :=
  total_update (fun target => if target = some c then 1 else 0) s.ref r target

omit [DecidableEq P] in
theorem Refs.point (refs : Refs s) (ref : next.ref = update s.ref r (some b)) (new : s.ref r = none)
    (calls : ∀ q stage t, next.pc q = .call stage t → s.pc q = .call stage t)
    (others : ∀ c, c ≠ b → next.inode c = s.inode c) (count : (next.inode b).ref = (s.inode b).ref + 1)
    (lock : (next.inode b).lock = (s.inode b).lock)
    (apart : ∀ c, c ≠ b → 0 < (s.inode c).ref → (s.inode c).key ≠ (next.inode b).key) : Refs next := by
  have kept {t : R} {c : Index} (there : s.ref t = some c) : next.ref t = some c := by
    have differs : t ≠ r := fun same => by rw [same, new] at there; contradiction
    rw [ref, update_of_ne differs, there]
  have locks (c : Index) : (next.inode c).lock = (s.inode c).lock := by
    by_cases here : c = b
    · rw [here, lock]
    · rw [others c here]
  refine ⟨fun c d usedC usedD same => ?_, fun c => ?_, fun c q t locked => ?_, fun q stage t theirs => ?_,
    fun q q' stage other t first second => ?_⟩
  · by_cases left : c = b
    · by_cases right : d = b
      · rw [left, right]
      · rw [left, others d right] at same
        exact absurd same.symm (apart d right (others d right ▸ usedD))
    · by_cases right : d = b
      · rw [right, others c left] at same
        exact absurd same (apart c left (others c left ▸ usedC))
      · rw [others c left] at usedC same
        rw [others d right] at usedD same
        exact refs.unique c d usedC usedD same
  · have balance := tally_setRef (s := s) (r := r) (some b) c
    have before := refs.counted c
    rw [new, if_neg (by simp)] at balance
    rw [ref]
    by_cases here : c = b
    · rw [if_pos (by rw [here])] at balance
      rw [here] at before balance ⊢
      omega
    · rw [if_neg (fun same => here (some.inj same).symm)] at balance
      rw [others c here]
      omega
  · exact kept (refs.lock c q t (locks c ▸ locked))
  · obtain ⟨c, there, holds, puts⟩ := refs.calls q stage t (calls q stage t theirs)
    exact ⟨c, kept there, locks c ▸ holds, locks c ▸ puts⟩
  · exact refs.exclusive q q' stage other t (calls q stage t first) (calls q' other t second)

theorem Refs.drop (refs : Refs s) (at' : s.pc p = .call .drop r) (here : s.ref r = some b)
    (ref : next.ref = update s.ref r none) (pc : next.pc = update s.pc p .idle)
    (others : ∀ c, c ≠ b → next.inode c = s.inode c) (count : (next.inode b).ref = (s.inode b).ref - 1)
    (lock : (next.inode b).lock = (s.inode b).lock) (key : (next.inode b).key = (s.inode b).key) : Refs next := by
  have positive := refs.positive here
  obtain ⟨b', there, -, unlocked⟩ := refs.calls p .drop r at'
  cases here.symm.trans there
  have fields (c : Index) : (next.inode c).key = (s.inode c).key ∧ (next.inode c).lock = (s.inode c).lock ∧
      (0 < (next.inode c).ref → 0 < (s.inode c).ref) := by
    by_cases same : c = b
    · rw [same]
      exact ⟨key, lock, fun _ => positive⟩
    · rw [others c same]
      exact ⟨rfl, rfl, id⟩
  have calls {q : P} {stage : Stage} {t : R} (theirs : next.pc q = .call stage t) :
      s.pc q = .call stage t ∧ t ≠ r := by
    rw [pc] at theirs
    by_cases mine : q = p
    · rw [mine, update_self] at theirs
      contradiction
    · rw [update_of_ne mine] at theirs
      refine ⟨theirs, fun same => mine ?_⟩
      exact (refs.exclusive p q .drop stage r at' (same ▸ theirs) rfl).symm
  refine ⟨fun c d usedC usedD same => ?_, fun c => ?_, fun c q t locked => ?_, fun q stage t theirs => ?_,
    fun q q' stage other t first second => ?_⟩
  · rw [(fields c).1, (fields d).1] at same
    exact refs.unique c d ((fields c).2.2 usedC) ((fields d).2.2 usedD) same
  · have balance := tally_setRef (s := s) (r := r) none c
    have before := refs.counted c
    rw [here, if_neg (show ¬ (none : Option Index) = some c by simp)] at balance
    rw [ref]
    by_cases same : c = b
    · rw [same] at before balance ⊢
      rw [if_pos rfl] at balance
      omega
    · rw [if_neg (fun equal => same (some.inj equal).symm)] at balance
      rw [others c same]
      omega
  · rw [(fields c).2.1] at locked
    have there := refs.lock c q t locked
    have differs : t ≠ r := by
      intro same
      rw [same] at there locked
      cases here.symm.trans there
      exact unlocked rfl rfl q locked
    rw [ref, update_of_ne differs, there]
  · obtain ⟨before, differs⟩ := calls theirs
    obtain ⟨c, there, holds, puts⟩ := refs.calls q stage t before
    refine ⟨c, ?_, (fields c).2.1 ▸ holds, (fields c).2.1 ▸ puts⟩
    rw [ref, update_of_ne differs, there]
  · exact refs.exclusive q q' stage other t (calls first).1 (calls second).1

end

end

/-! ## Contents -/

/-- Nothing happens to the processes but that one may leave ialloc, and nothing to the disk. -/
structure Cache.Leaves (s next : Cache P R) : Prop where
  disk : next.disk = s.disk
  calls : ∀ q stage t, next.pc q = .call stage t ↔ s.pc q = .call stage t
  allocs : ∀ q key t, next.pc q = .iget key t → s.pc q = .iget key t
  scans : ∀ q dev inum type t, next.pc q = .ialloc dev inum type t → s.pc q = .ialloc dev inum type t

section

variable {s next : Cache P R} {past later : Index → Bool} {b : Index} {p q : P} {r t : R} {stage : Stage}

theorem Cache.Unowned.earlier {key : Key} (unowned : next.Unowned key) (disk : (next.disk key).type = 0 → (s.disk key).type = 0)
    (allocs : ∀ q t, next.pc q = .iget key t → s.pc q = .iget key t) : s.Unowned key :=
  unowned.imp disk fun ⟨q, t, theirs⟩ => ⟨q, t, allocs q t theirs⟩

theorem Contents.unchanged (contents : Contents s past) (unlocked : (s.inode b).lock = none) : past b = false := by
  cases changed : past b with
  | false => rfl
  | true =>
    obtain ⟨p, r, locked, -⟩ := contents.changed b changed
    simp [unlocked] at locked

theorem Contents.inside (contents : Contents s past) (locked : (s.inode b).lock = some (p, r))
    (here : s.pc p = .call stage r) (holds : stage.holds = true) : past b = false := by
  cases changed : past b with
  | false => rfl
  | true =>
    obtain ⟨q, t, locked', elsewhere⟩ := contents.changed b changed
    cases locked.symm.trans locked'
    exact absurd here (elsewhere stage holds)

section

variable [DecidableEq P]

theorem Contents.goto (contents : Contents s past) {new : Pc R} (pc : next.pc = update s.pc p new)
    (inode : next.inode = s.inode) (ref : next.ref = s.ref) (disk : next.disk = s.disk)
    (staying : ∀ stage r, s.pc p = .call stage r → stage.drops = false)
    (inside : ∀ stage r, new = .call stage r → stage.holds = true → ∃ before, s.pc p = .call before r ∧ before.holds = true)
    (counting : ∀ r b, new = .call .count r → s.ref r = some b → (s.inode b).valid = true ∧ (s.inode b).fields.nlink = 0)
    (freeing : ∀ r b, new = .call .trunc r ∨ new = .call .clear r → s.ref r = some b →
      (s.inode b).valid = true ∧ (s.inode b).fields.nlink = 0 ∧ (s.inode b).ref = 1) (alloc : ∀ key r, new ≠ .iget key r)
    (types : ∀ dev inum type r, new = .ialloc dev inum type r → type ≠ 0) : Contents next past := by
  have mine : next.pc p = new := by rw [pc, update_self]
  have other {q : P} (differs : q ≠ p) : next.pc q = s.pc q := by rw [pc, update_of_ne differs]
  have allocs {q : P} {key : Key} {r : R} (theirs : next.pc q = .iget key r) : s.pc q = .iget key r := by
    by_cases same : q = p
    · rw [same, mine] at theirs
      exact absurd theirs (alloc key r)
    · rwa [other same] at theirs
  refine ⟨fun b used valid safe => ?_, fun b changed => ?_, fun q r b theirs here => ?_, fun q r b theirs here => ?_,
    fun r b here unowned => ?_, fun q key r theirs => ?_, fun q q' key r t first second => ?_,
    fun q dev inum type r theirs => ?_⟩
  · rw [inode] at used valid safe
    unfold Cache.Agrees
    rw [inode, disk]
    refine contents.agrees b used valid fun q r locked theirs => ?_
    by_cases same : q = p
    · have := staying _ _ (same ▸ theirs)
      contradiction
    · exact safe q r locked (by rw [other same, theirs])
  · rw [inode]
    obtain ⟨q, r, locked, elsewhere⟩ := contents.changed b changed
    refine ⟨q, r, locked, fun stage holds theirs => ?_⟩
    by_cases same : q = p
    · rw [same, mine] at theirs
      obtain ⟨before, here, held⟩ := inside stage r theirs holds
      exact elsewhere before held (same ▸ here)
    · rw [other same] at theirs
      exact elsewhere stage holds theirs
  · rw [ref] at here
    rw [inode]
    by_cases same : q = p
    · rw [same, mine] at theirs
      exact counting r b theirs here
    · rw [other same] at theirs
      exact contents.counting q r b theirs here
  · rw [ref] at here
    rw [inode]
    by_cases same : q = p
    · rw [same, mine] at theirs
      exact freeing r b theirs here
    · rw [other same] at theirs
      exact contents.freeing q r b theirs here
  · rw [ref] at here
    have before : s.Unowned (s.inode b).key := by
      rw [inode] at unowned
      exact unowned.earlier (by simp [disk]) fun _ _ => allocs
    obtain ⟨q, stage, theirs, drops⟩ := contents.unowned r b here before
    have differs : q ≠ p := fun same => by simp [staying stage r (same ▸ theirs)] at drops
    exact ⟨q, stage, (other differs).trans theirs, drops⟩
  · rw [disk]
    exact contents.taken q key r (allocs theirs)
  · exact contents.single q q' key r t (allocs first) (allocs second)
  · by_cases same : q = p
    · rw [same, mine] at theirs
      exact types dev inum type r theirs
    · rw [other same] at theirs
      exact contents.types q dev inum type r theirs

end

variable [Fintype R]

theorem Refs.worker (refs : Refs s) (theirs : s.pc q = .call stage t) (holds : stage.holds = true)
    (there : s.ref t = some b) (locked : (s.inode b).lock = some (p, r)) : q = p ∧ t = r := by
  obtain ⟨c, here, locks, -⟩ := refs.calls q stage t theirs
  cases here.symm.trans there
  have both := (locks holds).symm.trans locked
  simpa using both

theorem Refs.idler (refs : Refs s) (locked : (s.inode b).lock = some (p, r)) (differs : q ≠ p)
    (theirs : s.pc q = .call stage t) (there : s.ref t = some b) : stage.holds = false := by
  cases holds : stage.holds with
  | false => rfl
  | true => exact absurd (refs.worker theirs holds there locked).1 differs

theorem Refs.apart (refs : Refs s) {stage old other : Stage} (mine : s.pc p = .call old t) (theirs : s.pc q = .call other t)
    (puts : old.puts = stage.puts) (differs : q ≠ p) : stage.puts = false ∧ other.puts = false := by
  constructor
  · cases putting : stage.puts with
    | false => rfl
    | true => exact absurd (refs.exclusive p q old other t mine theirs (puts.trans putting)).symm differs
  · cases putting : other.puts with
    | false => rfl
    | true => exact absurd (refs.exclusive q p other old t theirs mine putting) differs

omit [Fintype R] in
theorem relock_fields {lock : Option (P × R)} (inode : next.inode = update s.inode b { s.inode b with lock }) (c : Index) :
    (next.inode c).key = (s.inode c).key ∧ (next.inode c).ref = (s.inode c).ref := by
  rw [inode]
  by_cases same : c = b
  · rw [same, update_self]
    exact ⟨rfl, rfl⟩
  · rw [update_of_ne same]
    exact ⟨rfl, rfl⟩

/-- A reference through which the entry is locked is not on its way out, unless its holder is. -/
theorem Refs.not_dropping (refs : Refs s) (locked : (s.inode b).lock = some (p, r))
    (staying : ∀ stage, s.pc p = .call stage r → stage.drops = false) : ¬ s.Dropping r := by
  rintro ⟨q, stage, theirs, drops⟩
  have here := refs.lock b p r locked
  cases holds : stage.holds with
  | true =>
    obtain ⟨same, -⟩ := refs.worker theirs holds here locked
    rw [staying stage (same ▸ theirs)] at drops
    contradiction
  | false =>
    obtain ⟨c, there, -, unlocked⟩ := refs.calls q stage r theirs
    cases here.symm.trans there
    have puts : stage.puts = true := by cases stage <;> simp_all [Stage.drops, Stage.puts]
    exact unlocked puts holds p locked

theorem Contents.owned (contents : Contents s past) (refs : Refs s) (locked : (s.inode b).lock = some (p, r))
    (staying : ∀ stage, s.pc p = .call stage r → stage.drops = false) : ¬ s.Unowned (s.inode b).key :=
  fun unowned => refs.not_dropping locked staying (contents.unowned r b (refs.lock b p r locked) unowned)

variable [DecidableEq P]

theorem Contents.work (contents : Contents s past) (refs : Refs s) {new : Pc R}
    (pc : next.pc = update s.pc p new) (ref : next.ref = s.ref)
    (others : ∀ c, c ≠ b → next.inode c = s.inode c ∧ later c = past c)
    (key : (next.inode b).key = (s.inode b).key) (used : 0 < (s.inode b).ref)
    (blocks : ∀ key, key ≠ (s.inode b).key → next.disk key = s.disk key)
    (pending : next.disk = s.disk ∨ ∀ q r, s.pc q ≠ .iget (s.inode b).key r)
    (sole : ∀ q stage t, q ≠ p → s.pc q = .call stage t → s.ref t = some b → stage.holds = false)
    (mine : ∀ stage t, s.pc p = .call stage t → s.ref t = some b) (new' : ∀ stage t, new = .call stage t → s.ref t = some b)
    (quiet : (∀ key r, new ≠ .iget key r) ∧ ∀ dev inum type r, new ≠ .ialloc dev inum type r)
    (agrees : (next.inode b).valid = true → (∀ p r, (next.inode b).lock = some (p, r) → next.pc p ≠ .call .invalid r) →
      next.Agrees later b) (changed : later b = true →
      ∃ p r, (next.inode b).lock = some (p, r) ∧ ∀ stage, stage.holds = true → next.pc p ≠ .call stage r)
    (counting : ∀ r, new = .call .count r → (next.inode b).valid = true ∧ (next.inode b).fields.nlink = 0)
    (freeing : ∀ r, new = .call .trunc r ∨ new = .call .clear r →
      (next.inode b).valid = true ∧ (next.inode b).fields.nlink = 0 ∧ (next.inode b).ref = 1)
    (unowned : ∀ r, s.ref r = some b → next.Unowned (s.inode b).key → next.Dropping r) : Contents next later := by
  have self : next.pc p = new := by rw [pc, update_self]
  have other {q : P} (differs : q ≠ p) : next.pc q = s.pc q := by rw [pc, update_of_ne differs]
  have allocs {q : P} {key : Key} {r : R} (theirs : next.pc q = .iget key r) : s.pc q = .iget key r := by
    by_cases same : q = p
    · rw [same, self] at theirs
      exact absurd theirs (quiet.1 key r)
    · rwa [other same] at theirs
  have apart {c : Index} (differs : c ≠ b) (positive : 0 < (s.inode c).ref) : (s.inode c).key ≠ (s.inode b).key :=
    fun same => differs (refs.unique c b positive used same)
  -- a call that works on another entry is the same call before and after
  have call {q : P} {stage : Stage} {t : R} {c : Index} (differs : c ≠ b) (there : s.ref t = some c) :
      next.pc q = .call stage t ↔ s.pc q = .call stage t := by
    by_cases same : q = p
    · rw [same, self]
      constructor
      · intro now
        cases there.symm.trans (new' stage t now)
        contradiction
      · intro before
        cases there.symm.trans (mine stage t before)
        contradiction
    · rw [other same]
  -- and a call that works on this one, with the lock, is that of p
  have caller {q : P} {stage : Stage} {t : R} (there : s.ref t = some b) (holds : stage.holds = true)
      (theirs : next.pc q = .call stage t) : new = .call stage t := by
    by_cases same : q = p
    · rwa [same, self] at theirs
    · rw [other same] at theirs
      exact absurd (sole q stage t same theirs there) (by simp [holds])
  refine ⟨fun c positive valid safe => ?_, fun c altered => ?_, fun q r c theirs there => ?_, fun q r c theirs there => ?_,
    fun r c there free => ?_, fun q key r theirs => ?_, fun q q' key r t first second => ?_,
    fun q dev inum type r theirs => ?_⟩
  · by_cases here : c = b
    · rw [here] at valid safe ⊢
      exact agrees valid safe
    · rw [(others c here).1] at positive valid safe
      unfold Cache.Agrees
      rw [(others c here).1, (others c here).2, blocks _ (apart here positive)]
      refine contents.agrees c positive valid fun q r locked theirs => ?_
      exact safe q r locked ((call here (refs.lock c q r locked)).mpr theirs)
  · by_cases here : c = b
    · rw [here] at altered ⊢
      exact changed altered
    · rw [(others c here).2] at altered
      rw [(others c here).1]
      obtain ⟨q, r, locked, elsewhere⟩ := contents.changed c altered
      refine ⟨q, r, locked, fun stage holds theirs => ?_⟩
      exact elsewhere stage holds ((call here (refs.lock c q r locked)).mp theirs)
  · rw [ref] at there
    by_cases here : c = b
    · rw [here] at there ⊢
      exact counting r (caller there rfl theirs)
    · rw [(others c here).1]
      exact contents.counting q r c ((call here there).mp theirs) there
  · rw [ref] at there
    by_cases here : c = b
    · rw [here] at there ⊢
      exact freeing r (theirs.imp (caller there rfl) (caller there rfl))
    · rw [(others c here).1]
      exact contents.freeing q r c (theirs.imp (call here there).mp (call here there).mp) there
  · rw [ref] at there
    by_cases here : c = b
    · rw [here] at there free
      exact unowned r there (key ▸ free)
    · rw [(others c here).1] at free
      have before : s.Unowned (s.inode c).key := by
        exact free.earlier (by simp [blocks _ (apart here (refs.positive there))]) fun _ _ => allocs
      obtain ⟨q, stage, theirs, drops⟩ := contents.unowned r c there before
      exact ⟨q, stage, (call here there).mpr theirs, drops⟩
  · have before := allocs theirs
    have same : next.disk key = s.disk key := by
      rcases pending with same | apart
      · rw [same]
      · exact blocks key fun equal => apart q r (equal ▸ before)
    rw [same]
    exact contents.taken q key r before
  · exact contents.single q q' key r t (allocs first) (allocs second)
  · by_cases same : q = p
    · rw [same, self] at theirs
      exact absurd theirs (quiet.2 dev inum type r)
    · rw [other same] at theirs
      exact contents.types q dev inum type r theirs

omit [Fintype R] in
theorem Contents.mark (contents : Contents s past) {dev inum : UInt32} {type : UInt16}
    (here : s.pc p = .ialloc dev inum type r) (free : (s.disk (dev, inum)).type = 0)
    (pc : next.pc = update s.pc p (.iget (dev, inum) r)) (inode : next.inode = s.inode) (ref : next.ref = s.ref)
    (disk : next.disk = update s.disk (dev, inum) { type }) : Contents next past := by
  have self : next.pc p = .iget (dev, inum) r := by rw [pc, update_self]
  have other {q : P} (differs : q ≠ p) : next.pc q = s.pc q := by rw [pc, update_of_ne differs]
  have call {q : P} {stage : Stage} {t : R} : next.pc q = .call stage t ↔ s.pc q = .call stage t := by
    by_cases same : q = p
    · rw [same, self, here]
      simp
    · rw [other same]
  have block {key : Key} (differs : key ≠ (dev, inum)) : next.disk key = s.disk key := by
    rw [disk, update_of_ne differs]
  -- another ialloc is not at the same number, since it would have marked it
  have alloc {q : P} {key : Key} {t : R} (theirs : next.pc q = .iget key t) :
      (q = p ∧ key = (dev, inum)) ∨ (s.pc q = .iget key t ∧ key ≠ (dev, inum)) := by
    by_cases same : q = p
    · rw [same, self] at theirs
      exact .inl ⟨same, (Pc.iget.inj theirs).1.symm⟩
    · rw [other same] at theirs
      refine .inr ⟨theirs, fun equal => ?_⟩
      exact (contents.taken q key t theirs).1 (equal ▸ free)
  refine ⟨fun b used valid safe => ?_, fun b altered => ?_, fun q t b theirs there => ?_, fun q t b theirs there => ?_,
    fun t b there unowned => ?_, fun q key t theirs => ?_, fun q q' key t t' first second => ?_,
    fun q dev' inum' type' t theirs => ?_⟩
  · rw [inode] at used valid safe
    have agrees := contents.agrees b used valid fun q t locked theirs => safe q t locked (call.mpr theirs)
    have differs : (s.inode b).key ≠ (dev, inum) := fun equal => agrees.1 (equal ▸ free)
    unfold Cache.Agrees
    rw [inode, block differs]
    exact agrees
  · obtain ⟨q, t, locked, elsewhere⟩ := contents.changed b altered
    rw [inode]
    exact ⟨q, t, locked, fun stage holds theirs => elsewhere stage holds (call.mp theirs)⟩
  · rw [ref] at there
    rw [inode]
    exact contents.counting q t b (call.mp theirs) there
  · rw [ref] at there
    rw [inode]
    exact contents.freeing q t b (theirs.imp call.mp call.mp) there
  · rw [ref] at there
    rw [inode] at unowned
    have before : s.Unowned (s.inode b).key := by
      by_cases same : (s.inode b).key = (dev, inum)
      · exact .inl (same ▸ free)
      · rw [Cache.Unowned, block same] at unowned
        rcases unowned with free | ⟨q, t, theirs⟩
        · exact .inl free
        · rcases alloc theirs with ⟨-, equal⟩ | ⟨theirs, -⟩
          · exact absurd equal same
          · exact .inr ⟨q, t, theirs⟩
    obtain ⟨q, stage, theirs, drops⟩ := contents.unowned t b there before
    exact ⟨q, stage, call.mpr theirs, drops⟩
  · rcases alloc theirs with ⟨-, equal⟩ | ⟨theirs, differs⟩
    · rw [equal, disk, update_self]
      exact ⟨contents.types p dev inum type r here, rfl⟩
    · rw [block differs]
      exact contents.taken q key t theirs
  · rcases alloc first with ⟨mine, equal⟩ | ⟨first, differs⟩
    · rcases alloc second with ⟨mine', -⟩ | ⟨-, differs⟩
      · rw [mine, mine']
      · exact absurd equal differs
    · rcases alloc second with ⟨-, equal⟩ | ⟨second, -⟩
      · exact absurd equal differs
      · exact contents.single q q' key t t' first second
  · by_cases same : q = p
    · rw [same, self] at theirs
      contradiction
    · rw [other same] at theirs
      exact contents.types q dev' inum' type' t theirs

section

variable [DecidableEq R]

omit [DecidableEq P] in
theorem Contents.point (contents : Contents s past) (refs : Refs s) (leaves : s.Leaves next)
    (ref : next.ref = update s.ref r (some b)) (new : s.ref r = none) (others : ∀ c, c ≠ b → next.inode c = s.inode c)
    (lock : (next.inode b).lock = (s.inode b).lock)
    (same : ((next.inode b).key = (s.inode b).key ∧ 0 < (s.inode b).ref ∧ (next.inode b).valid = (s.inode b).valid ∧
        (next.inode b).fields = (s.inode b).fields) ∨ (s.inode b).ref = 0 ∧ (next.inode b).valid = false)
    (quiet : ∀ q t, s.ref t = some b → s.pc q ≠ .call .trunc t ∧ s.pc q ≠ .call .clear t)
    (owned : ¬ next.Unowned (next.inode b).key) : Contents next past := by
  obtain ⟨disk, calls, allocs, scans⟩ := leaves
  have kept {t : R} {c : Index} (differs : t ≠ r) : next.ref t = some c ↔ s.ref t = some c := by
    rw [ref, update_of_ne differs]
  have caller {q : P} {stage : Stage} {t : R} (theirs : s.pc q = .call stage t) : t ≠ r := by
    intro equal
    obtain ⟨c, there, -⟩ := refs.calls q stage t theirs
    rw [equal, new] at there
    contradiction
  have locks (c : Index) : (next.inode c).lock = (s.inode c).lock := by
    by_cases here : c = b
    · rw [here, lock]
    · rw [others c here]
  refine ⟨fun c used valid safe => ?_, fun c altered => ?_, fun q t c theirs there => ?_, fun q t c theirs there => ?_,
    fun t c there unowned => ?_, fun q key t theirs => ?_, fun q q' key t t' first second => ?_,
    fun q dev inum type t theirs => contents.types q dev inum type t (scans q dev inum type t theirs)⟩
  · have safe' : ∀ q t, (s.inode c).lock = some (q, t) → s.pc q ≠ .call .invalid t := fun q t locked theirs =>
      safe q t (locks c ▸ locked) ((calls q .invalid t).mpr theirs)
    unfold Cache.Agrees
    rw [disk]
    by_cases here : c = b
    · rw [here] at used valid safe' ⊢
      rcases same with ⟨key, used, valid', fields⟩ | ⟨-, invalid⟩
      · rw [key, fields]
        exact contents.agrees b used (valid' ▸ valid) safe'
      · rw [invalid] at valid
        contradiction
    · rw [others c here] at used valid ⊢
      exact contents.agrees c used valid safe'
  · obtain ⟨q, t, locked, elsewhere⟩ := contents.changed c altered
    exact ⟨q, t, (locks c).trans locked, fun stage holds theirs => elsewhere stage holds ((calls q stage t).mp theirs)⟩
  · have before := (calls q .count t).mp theirs
    have there' := (kept (caller before)).mp there
    have counting := contents.counting q t c before there'
    by_cases here : c = b
    · rw [here] at there' counting ⊢
      rcases same with ⟨-, -, valid, fields⟩ | ⟨empty, -⟩
      · rw [valid, fields]
        exact counting
      · have := refs.positive there'
        omega
    · rw [others c here]
      exact counting
  · have before := theirs.imp (calls q .trunc t).mp (calls q .clear t).mp
    have there' : s.ref t = some c := (kept (before.elim caller caller)).mp there
    have differs : c ≠ b := by
      intro here
      rw [here] at there'
      rcases before with before | before
      · exact (quiet q t there').1 before
      · exact (quiet q t there').2 before
    rw [others c differs]
    exact contents.freeing q t c before there'
  · by_cases mine : t = r
    · rw [mine, ref, update_self, some.injEq] at there
      exact absurd (there ▸ unowned) owned
    · have differs : c ≠ b := fun here => owned (here ▸ unowned)
      rw [others c differs] at unowned
      have before : s.Unowned (s.inode c).key := by
        exact unowned.earlier (by simp [disk]) fun q t => allocs q _ t
      obtain ⟨q, stage, theirs, drops⟩ := contents.unowned t c ((kept mine).mp there) before
      exact ⟨q, stage, (calls q stage t).mpr theirs, drops⟩
  · rw [disk]
    exact contents.taken q key t (allocs q key t theirs)
  · exact contents.single q q' key t t' (allocs q key t first) (allocs q' key t' second)

theorem Contents.drop (contents : Contents s past) (refs : Refs s) (at' : s.pc p = .call .drop r) (here : s.ref r = some b)
    (ref : next.ref = update s.ref r none) (pc : next.pc = update s.pc p .idle) (disk : next.disk = s.disk)
    (others : ∀ c, c ≠ b → next.inode c = s.inode c) (key : (next.inode b).key = (s.inode b).key)
    (lock : (next.inode b).lock = (s.inode b).lock) (valid : (next.inode b).valid = (s.inode b).valid)
    (fields : (next.inode b).fields = (s.inode b).fields) : Contents next past := by
  have call {q : P} {stage : Stage} {t : R} (differs : t ≠ r) : next.pc q = .call stage t ↔ s.pc q = .call stage t := by
    rw [pc]
    by_cases mine : q = p
    · rw [mine, update_self, at']
      simp [differs.symm]
    · rw [update_of_ne mine]
  have kept {t : R} {c : Index} (there : next.ref t = some c) : t ≠ r ∧ s.ref t = some c := by
    have differs : t ≠ r := fun same => by simp [same, ref] at there
    rw [ref, update_of_ne differs] at there
    exact ⟨differs, there⟩
  have same (c : Index) : (next.inode c).key = (s.inode c).key ∧ (next.inode c).lock = (s.inode c).lock ∧
      (next.inode c).valid = (s.inode c).valid ∧ (next.inode c).fields = (s.inode c).fields := by
    by_cases this : c = b
    · rw [this]
      exact ⟨key, lock, valid, fields⟩
    · rw [others c this]
      exact ⟨rfl, rfl, rfl, rfl⟩
  have positive (c : Index) (used : 0 < (next.inode c).ref) : 0 < (s.inode c).ref := by
    by_cases this : c = b
    · rw [this]
      exact refs.positive here
    · rwa [others c this] at used
  have unlocked {c : Index} {q : P} {t : R} (locked : (s.inode c).lock = some (q, t)) : t ≠ r := by
    intro equal
    rw [equal] at locked
    obtain ⟨b', there, -, free⟩ := refs.calls p .drop r at'
    cases there.symm.trans (refs.lock c q r locked)
    exact free rfl rfl q locked
  have alloc {q : P} {key : Key} {t : R} (theirs : next.pc q = .iget key t) : s.pc q = .iget key t := by
    rw [pc] at theirs
    by_cases mine : q = p
    · simp [mine] at theirs
    · rwa [update_of_ne mine] at theirs
  refine ⟨fun c used isValid safe => ?_, fun c altered => ?_, fun q t c theirs there => ?_, fun q t c theirs there => ?_,
    fun t c there unowned => ?_, fun q key t theirs => ?_, fun q q' key t t' first second => ?_,
    fun q dev inum type t theirs => ?_⟩
  · unfold Cache.Agrees
    rw [(same c).1, (same c).2.2.2, disk]
    rw [(same c).2.2.1] at isValid
    refine contents.agrees c (positive c used) isValid fun q t locked theirs => ?_
    exact safe q t ((same c).2.1.trans locked) ((call (unlocked locked)).mpr theirs)
  · obtain ⟨q, t, locked, elsewhere⟩ := contents.changed c altered
    refine ⟨q, t, (same c).2.1.trans locked, fun stage holds theirs => ?_⟩
    exact elsewhere stage holds ((call (unlocked locked)).mp theirs)
  · obtain ⟨differs, there⟩ := kept there
    rw [(same c).2.2.1, (same c).2.2.2]
    exact contents.counting q t c ((call differs).mp theirs) there
  · obtain ⟨differs, there⟩ := kept there
    have freeing := contents.freeing q t c (theirs.imp (call differs).mp (call differs).mp) there
    have apart : c ≠ b := by
      intro this
      rw [this] at there freeing
      have single : tally (· = some b) s.ref ≤ 1 := by rw [← refs.counted b, freeing.2.2]
      exact differs (eq_of_tally_le_one single there here)
    rw [others c apart]
    exact freeing
  · obtain ⟨differs, there⟩ := kept there
    have before : s.Unowned (s.inode c).key := by
      rw [(same c).1] at unowned
      exact unowned.earlier (by simp [disk]) fun _ _ => alloc
    obtain ⟨q, stage, theirs, drops⟩ := contents.unowned t c there before
    exact ⟨q, stage, (call differs).mpr theirs, drops⟩
  · rw [disk]
    exact contents.taken q key t (alloc theirs)
  · exact contents.single q q' key t t' (alloc first) (alloc second)
  · rw [pc] at theirs
    by_cases mine : q = p
    · simp [mine] at theirs
    · rw [update_of_ne mine] at theirs
      exact contents.types q dev inum type t theirs

end

end

/-! ## Steps -/

structure Sound [Fintype R] (s : Cache P R) (past : Index → Bool) : Prop where
  refs : Refs s
  contents : Contents s past

section

variable {s next : Cache P R} {past : Index → Bool} {b : Index} {p : P} {r : R}

variable [Fintype R]

theorem Sound.leave (sound : Sound s past) (inode : next.inode = s.inode) (ref : next.ref = s.ref) (leaves : s.Leaves next) :
    Sound next past := by
  obtain ⟨refs, contents⟩ := sound
  obtain ⟨disk, calls, allocs, scans⟩ := leaves
  constructor
  · refine ⟨?_, ?_, ?_, ?_, ?_⟩
    · rw [inode]
      exact refs.unique
    · rw [inode, ref]
      exact refs.counted
    · rw [inode, ref]
      exact refs.lock
    · simp only [inode, ref, calls]
      exact refs.calls
    · simp only [calls]
      exact refs.exclusive
  · refine ⟨?_, ?_, ?_, ?_, fun t b there unowned => ?_, fun q key t theirs => ?_, fun q q' key t t' first second => ?_,
      fun q dev inum type t theirs => contents.types q dev inum type t (scans q dev inum type t theirs)⟩
    · simp only [Cache.Agrees, inode, disk, ne_eq, calls]
      exact contents.agrees
    · simp only [inode, ne_eq, calls]
      exact contents.changed
    · simp only [inode, ref, calls]
      exact contents.counting
    · simp only [inode, ref, calls]
      exact contents.freeing
    · rw [ref] at there
      have before : s.Unowned (s.inode b).key := by
        rw [inode] at unowned
        exact unowned.earlier (by simp [disk]) fun q t => allocs q _ t
      obtain ⟨q, stage, theirs, drops⟩ := contents.unowned t b there before
      exact ⟨q, stage, (calls q stage t).mpr theirs, drops⟩
    · rw [disk]
      exact contents.taken q key t (allocs q key t theirs)
    · exact contents.single q q' key t t' (allocs q key t first) (allocs q' key t' second)

variable [DecidableEq R] {key : Key}

omit [Fintype R] in
theorem iget_cases (s : Cache P R) (r : R) (key : Key) :
    (∃ b, 0 < (s.inode b).ref ∧ (s.inode b).key = key ∧ s.iget r key = s.share b r) ∨
    (∃ b, (s.inode b).ref = 0 ∧ (∀ c, 0 < (s.inode c).ref → (s.inode c).key ≠ key) ∧
      s.iget r key = (s.setInode b fun ip => { ip with key, ref := 1, valid := false }).setRef r (some b)) ∨
    s.iget r key = s.panic := by
  unfold Cache.iget
  cases cached : (finRange NINODE).find? (fun b => 0 < (s.inode b).ref ∧ (s.inode b).key = key) with
  | some b =>
    have found : 0 < (s.inode b).ref ∧ (s.inode b).key = key := by simpa using List.find?_some cached
    exact .inl ⟨b, found.1, found.2, rfl⟩
  | none =>
    have absent (c : Index) (used : 0 < (s.inode c).ref) : (s.inode c).key ≠ key := by
      have skipped := List.find?_eq_none.mp cached c (mem_finRange c)
      simpa [used] using skipped
    cases empty : (finRange NINODE).find? (fun b => (s.inode b).ref = 0) with
    | some b =>
      have free : (s.inode b).ref = 0 := by simpa using List.find?_some empty
      exact .inr (.inl ⟨b, free, absent, rfl⟩)
    | none => exact .inr (.inr rfl)

theorem Sound.point (sound : Sound s past) (leaves : s.Leaves next) (new : s.ref r = none) {ip : Inode P R}
    (ref : next.ref = update s.ref r (some b)) (inode : next.inode = update s.inode b ip)
    (kept : ip.ref = (s.inode b).ref + 1 ∧ ip.lock = (s.inode b).lock)
    (apart : ∀ c, c ≠ b → 0 < (s.inode c).ref → (s.inode c).key ≠ ip.key)
    (same : (ip.key = (s.inode b).key ∧ 0 < (s.inode b).ref ∧ ip.valid = (s.inode b).valid ∧
      ip.fields = (s.inode b).fields) ∨ (s.inode b).ref = 0 ∧ ip.valid = false)
    (quiet : ∀ q t, s.ref t = some b → s.pc q ≠ .call .trunc t ∧ s.pc q ≠ .call .clear t)
    (owned : ¬ next.Unowned ip.key) : Sound next past := by
  have self : next.inode b = ip := by rw [inode, update_self]
  have others (c : Index) (differs : c ≠ b) : next.inode c = s.inode c := by rw [inode, update_of_ne differs]
  rw [← self] at kept apart same owned
  exact ⟨sound.refs.point ref new (fun q stage t => (leaves.calls q stage t).mp) others kept.1 kept.2 apart,
    sound.contents.point sound.refs leaves ref new others kept.2 same quiet owned⟩

theorem Sound.share (sound : Sound s past) (leaves : s.Leaves next) (new : s.ref r = none) (used : 0 < (s.inode b).ref)
    (quiet : ∀ q t, s.ref t = some b → s.pc q ≠ .call .trunc t ∧ s.pc q ≠ .call .clear t)
    (inode : next.inode = (s.share b r).inode) (ref : next.ref = (s.share b r).ref)
    (owned : ¬ next.Unowned (s.inode b).key) : Sound next past := by
  refine sound.point leaves new ref inode ⟨rfl, rfl⟩ (fun c differs positive same => ?_) (.inl ⟨rfl, used, rfl, rfl⟩) quiet owned
  exact differs (sound.refs.unique c b positive used same)

theorem Sound.iget (sound : Sound s past) (leaves : s.Leaves next) (new : s.ref r = none)
    (quiet : ∀ b q t, (s.inode b).key = key → s.ref t = some b → s.pc q ≠ .call .trunc t ∧ s.pc q ≠ .call .clear t)
    (inode : next.inode = (s.iget r key).inode) (ref : next.ref = (s.iget r key).ref)
    (owned : ¬ next.Unowned key) : Sound next past := by
  rcases iget_cases s r key with ⟨b, used, same, result⟩ | ⟨b, empty, absent, result⟩ | result
  · rw [result] at inode ref
    exact sound.share leaves new used (quiet b · · same) inode ref (same ▸ owned)
  · rw [result] at inode ref
    refine sound.point leaves new ref inode ⟨by rw [empty], rfl⟩ (fun c _ => absent c) (.inr ⟨empty, rfl⟩) (fun q t there => ?_) owned
    have := sound.refs.positive there
    omega
  · rw [result] at inode ref
    exact sound.leave inode ref leaves

variable [DecidableEq P] {new : Pc R}

omit [Fintype R] [DecidableEq R] in
theorem Cache.Unowned.before (unowned : next.Unowned key) (pc : next.pc = update s.pc p new)
    (quiet : ∀ key t, new ≠ .iget key t) (disk : (next.disk key).type = 0 → (s.disk key).type = 0) : s.Unowned key := by
  refine unowned.earlier disk fun q t theirs => ?_
  rw [pc] at theirs
  by_cases mine : q = p
  · rw [mine, update_self] at theirs
    exact absurd theirs (quiet key t)
  · rwa [update_of_ne mine] at theirs

omit [DecidableEq R] in
theorem Sound.work (sound : Sound s past) {later : Index → Bool} {ip : Inode P R}
    (locked : (s.inode b).lock = some (p, r)) (before : s.pc p = .idle ∧ new = .idle ∨ ∃ stage, s.pc p = .call stage r ∧
      (new = .idle ∨ ∃ after, new = .call after r ∧ after.holds = true ∧ after.puts = stage.puts))
    (pc : next.pc = update s.pc p new) (ref : next.ref = s.ref) (inode : next.inode = update s.inode b ip)
    (kept : ip.key = (s.inode b).key ∧ ip.ref = (s.inode b).ref ∧ ip.lock = (s.inode b).lock)
    (past' : ∀ c, c ≠ b → later c = past c) (blocks : ∀ key, key ≠ (s.inode b).key → next.disk key = s.disk key)
    (pending : next.disk = s.disk ∨ ∀ stage, s.pc p = .call stage r → stage.drops = false)
    (agrees : ip.valid = true → new ≠ .call .invalid r → next.Agrees later b) (changed : later b = true → new = .idle)
    (counting : new = .call .count r → ip.valid = true ∧ ip.fields.nlink = 0)
    (freeing : new = .call .trunc r ∨ new = .call .clear r → ip.valid = true ∧ ip.fields.nlink = 0 ∧ ip.ref = 1)
    (unowned : ∀ t, s.ref t = some b → next.Unowned (s.inode b).key → next.Dropping t) : Sound next later := by
  have here := sound.refs.lock b p r locked
  have self : next.inode b = ip := by rw [inode, update_self]
  have others (c : Index) (differs : c ≠ b) : next.inode c = s.inode c := by rw [inode, update_of_ne differs]
  have fields (c : Index) : ((next.inode c).key = (s.inode c).key ∧ (next.inode c).ref = (s.inode c).ref) ∧
      (next.inode c).lock = (s.inode c).lock := by
    by_cases same : c = b
    · rw [same, self]
      exact ⟨⟨kept.1, kept.2.1⟩, kept.2.2⟩
    · rw [others c same]
      exact ⟨⟨rfl, rfl⟩, rfl⟩
  have calls {stage : Stage} {t : R} (now : new = .call stage t) : t = r ∧ stage.holds = true ∧
      ∃ old, s.pc p = .call old r ∧ old.puts = stage.puts := by
    rcases before with ⟨-, idle⟩ | ⟨old, theirs, idle | ⟨after, call, holds, puts⟩⟩
    · rw [idle] at now
      contradiction
    · rw [idle] at now
      contradiction
    · rw [call] at now
      cases now
      exact ⟨rfl, holds, old, theirs, puts.symm⟩
  constructor
  · refine sound.refs.goto pc ref (fun c => (fields c).1) (fun c => (fields c).2) fun stage t now => ?_
    obtain ⟨rfl, holds, old, mine, puts⟩ := calls now
    refine ⟨b, ref ▸ here, fun _ => (fields b).2.trans locked, fun _ no => by simp [holds] at no, fun q other differs theirs => ?_⟩
    rw [pc, update_of_ne differs] at theirs
    exact sound.refs.apart mine theirs puts differs
  · have mine (stage : Stage) (t : R) (now : s.pc p = .call stage t) : s.ref t = some b := by
      rcases before with ⟨idle, -⟩ | ⟨old, theirs, -⟩
      · rw [idle] at now
        contradiction
      · cases theirs.symm.trans now
        exact here
    have only {q : P} {t : R} (lock : (next.inode b).lock = some (q, t)) : q = p ∧ t = r := by
      rw [(fields b).2, locked] at lock
      cases lock
      exact ⟨rfl, rfl⟩
    have now : next.pc p = new := by rw [pc, update_self]
    refine sound.contents.work (b := b) sound.refs pc ref (fun c differs => ⟨others c differs, past' c differs⟩) (fields b).1.1
      (sound.refs.positive here) blocks ?_ (fun _ _ _ => sound.refs.idler locked) mine ?_ ?_ ?_ ?_ ?_ ?_ unowned
    · refine pending.imp_right fun staying q t theirs => ?_
      exact sound.contents.owned sound.refs locked staying (.inr ⟨q, t, theirs⟩)
    · intro stage t call
      rw [(calls call).1]
      exact here
    · rcases before with ⟨-, idle⟩ | ⟨-, -, idle | ⟨after, call, -⟩⟩
      · simp [idle]
      · simp [idle]
      · simp [call]
    · intro valid safe
      rw [self] at valid
      refine agrees valid fun call => ?_
      exact safe p r ((fields b).2.trans locked) (now.trans call)
    · intro altered
      refine ⟨p, r, (fields b).2.trans locked, fun stage _ call => ?_⟩
      rw [now, changed altered] at call
      contradiction
    · intro t call
      rw [self]
      exact counting ((calls call).1 ▸ call)
    · intro t call
      rw [self]
      have same : t = r := call.elim (fun call => (calls call).1) fun call => (calls call).1
      exact freeing (same ▸ call)

omit [DecidableEq R] in
theorem Sound.acquire (sound : Sound s past) {stage after : Stage} (at' : s.pc p = .call stage r) (here : s.ref r = some b)
    (free : (s.inode b).lock = none) (waits : stage = .ilock ∧ after = .load ∨ stage = .iput ∧ after = .test)
    (pc : next.pc = update s.pc p (.call after r)) (ref : next.ref = s.ref) (disk : next.disk = s.disk)
    (inode : next.inode = update s.inode b { s.inode b with lock := some (p, r) }) : Sound next past := by
  have self : next.inode b = { s.inode b with lock := some (p, r) } := by rw [inode, update_self]
  have others (c : Index) (differs : c ≠ b) : next.inode c = s.inode c := by rw [inode, update_of_ne differs]
  have fields := relock_fields inode
  have stages : after.holds = true ∧ after.puts = stage.puts ∧ stage.drops = false ∧ after ≠ .invalid ∧ after ≠ .count ∧
      after ≠ .trunc ∧ after ≠ .clear := by
    rcases waits with ⟨rfl, rfl⟩ | ⟨rfl, rfl⟩ <;> decide
  -- nobody has the lock, so nobody is in a stage that has it
  have sole (q : P) (other : Stage) (t : R) (theirs : s.pc q = .call other t) (there : s.ref t = some b) :
      other.holds = false := by
    obtain ⟨c, same, holds, -⟩ := sound.refs.calls q other t theirs
    cases there.symm.trans same
    cases held : other.holds with
    | false => rfl
    | true => exact absurd ((holds held).symm.trans free) (by simp)
  constructor
  · refine sound.refs.relock (b := b) pc ref fields (fun c differs => by rw [others c differs]) ?_ ?_ ?_
    · intro q t locked
      rw [self] at locked
      cases locked
      exact here
    · intro q other t differs theirs there
      refine ⟨fun holds => by simp [sole q other t theirs there] at holds, fun puts _ q' locked => ?_⟩
      rw [self] at locked
      cases locked
      exact differs (sound.refs.exclusive q p other stage r theirs at' puts)
    · intro now t call
      cases call
      refine ⟨b, ref ▸ here, fun _ => by rw [self], fun _ no => by simp [stages.1] at no, fun q other differs theirs => ?_⟩
      rw [pc, update_of_ne differs] at theirs
      exact sound.refs.apart at' theirs stages.2.1.symm differs
  · refine sound.contents.work (b := b) sound.refs pc ref (fun c differs => ⟨others c differs, rfl⟩) (fields b).1
      (sound.refs.positive here) (fun key _ => by rw [disk]) (.inl disk) (fun q other t _ => sole q other t) ?_ ?_ (by simp)
      ?_ ?_ ?_ ?_ ?_
    · intro now t call
      cases at'.symm.trans call
      exact here
    · intro now t call
      cases call
      exact here
    · intro valid _
      unfold Cache.Agrees
      rw [self, disk]
      rw [self] at valid
      exact sound.contents.agrees b (sound.refs.positive here) valid (by simp [free])
    · intro altered
      simp [sound.contents.unchanged free] at altered
    · intro t call
      cases call
      exact absurd rfl stages.2.2.2.2.1
    · intro t call
      rcases call with call | call
      · cases call
        exact absurd rfl stages.2.2.2.2.2.1
      · cases call
        exact absurd rfl stages.2.2.2.2.2.2
    · intro t there unowned
      obtain ⟨q, other, theirs, drops⟩ := sound.contents.unowned t b there (unowned.before pc (by simp) (by simp [disk]))
      have differs : q ≠ p := by
        intro same
        cases at'.symm.trans (same ▸ theirs)
        simp [stages.2.2.1] at drops
      exact ⟨q, other, by rw [pc, update_of_ne differs, theirs], drops⟩

omit [DecidableEq R] in
theorem Sound.release (sound : Sound s past) (locked : (s.inode b).lock = some (p, r))
    (unchanged : past b = false) (before : s.pc p = .idle ∧ new = .idle ∨ s.pc p = .call .unlock r ∧ new = .call .drop r)
    (pc : next.pc = update s.pc p new) (ref : next.ref = s.ref) (disk : next.disk = s.disk)
    (inode : next.inode = update s.inode b { s.inode b with lock := none }) : Sound next past := by
  have here := sound.refs.lock b p r locked
  have self : next.inode b = { s.inode b with lock := none } := by rw [inode, update_self]
  have others (c : Index) (differs : c ≠ b) : next.inode c = s.inode c := by rw [inode, update_of_ne differs]
  have fields := relock_fields inode
  have sole (q : P) (other : Stage) (t : R) (differs : q ≠ p) (theirs : s.pc q = .call other t)
      (there : s.ref t = some b) : other.holds = false := sound.refs.idler locked differs theirs there
  have calls {stage : Stage} {t : R} (now : new = .call stage t) : stage = .drop ∧ t = r ∧ s.pc p = .call .unlock r := by
    rcases before with ⟨-, idle⟩ | ⟨mine, call⟩
    · rw [idle] at now
      contradiction
    · rw [call] at now
      cases now
      exact ⟨rfl, rfl, mine⟩
  have quiet : (∀ key r, new ≠ .iget key r) ∧ ∀ dev inum type r, new ≠ .ialloc dev inum type r := by
    rcases before with ⟨-, idle⟩ | ⟨-, call⟩
    · simp [idle]
    · simp [call]
  constructor
  · refine sound.refs.relock (b := b) pc ref fields (fun c differs => by rw [others c differs]) (by simp [self]) ?_ ?_
    · intro q other t differs theirs there
      exact ⟨fun holds => by simp [sole q other t differs theirs there] at holds, fun _ _ => by simp [self]⟩
    · intro stage t now
      obtain ⟨rfl, rfl, mine⟩ := calls now
      refine ⟨b, ref ▸ here, by simp [Stage.holds], fun _ _ => by simp [self], fun q other differs theirs => ?_⟩
      rw [pc, update_of_ne differs] at theirs
      exact absurd (sound.refs.exclusive p q .unlock other t mine theirs rfl).symm differs
  · refine sound.contents.work (b := b) sound.refs pc ref (fun c differs => ⟨others c differs, rfl⟩) (fields b).1
      (sound.refs.positive here) (fun key _ => by rw [disk]) (.inl disk) sole ?_ ?_ ?_ ?_ (by simp [unchanged]) ?_ ?_ ?_
    · intro stage t mine
      rcases before with ⟨idle, -⟩ | ⟨call, -⟩
      · rw [idle] at mine
        contradiction
      · cases call.symm.trans mine
        exact here
    · intro stage t now
      rw [(calls now).2.1]
      exact here
    · exact quiet
    · intro valid _
      unfold Cache.Agrees
      rw [self, disk]
      rw [self] at valid
      refine sound.contents.agrees b (sound.refs.positive here) valid fun q t lock theirs => ?_
      cases locked.symm.trans lock
      rcases before with ⟨idle, -⟩ | ⟨call, -⟩
      · exact absurd (idle.symm.trans theirs) (by simp)
      · exact absurd (call.symm.trans theirs) (by simp)
    · intro t now
      exact absurd (calls now).1 (by simp)
    · intro t now
      exact now.elim (fun now => absurd (calls now).1 (by simp)) fun now => absurd (calls now).1 (by simp)
    · intro t there unowned
      obtain ⟨q, other, theirs, drops⟩ := sound.contents.unowned t b there (unowned.before pc quiet.1 (by simp [disk]))
      by_cases mine : q = p
      · rw [mine] at theirs
        rcases before with ⟨idle, -⟩ | ⟨call, now⟩
        · exact absurd (idle.symm.trans theirs) (by simp)
        · cases call.symm.trans theirs
          exact ⟨p, .drop, by rw [pc, update_self, now], rfl⟩
      · exact ⟨q, other, by rw [pc, update_of_ne mine, theirs], drops⟩

omit [DecidableEq R] in
theorem Sound.call (sound : Sound s past) {stage : Stage} (here : s.ref r = some b)
    (before : s.pc p = .idle ∨ ∃ old, s.pc p = .call old r ∧ old.drops = false)
    (holds : stage.holds = true → ∃ old, s.pc p = .call old r ∧ old.holds = true)
    (unlocked : stage.puts = true → stage.holds = false → ∀ q, (s.inode b).lock ≠ some (q, r))
    (apart : ∀ q other, q ≠ p → s.pc q = .call other r → stage.puts = false ∧ other.puts = false)
    (counting : stage = .count → (s.inode b).valid = true ∧ (s.inode b).fields.nlink = 0)
    (freeing : stage = .trunc → (s.inode b).valid = true ∧ (s.inode b).fields.nlink = 0 ∧ (s.inode b).ref = 1)
    (clear : stage ≠ .clear) : Sound (s.goto p (.call stage r)) past := by
  constructor
  · refine sound.refs.goto rfl rfl (fun _ => ⟨rfl, rfl⟩) (fun _ => rfl) fun after t call => ?_
    cases call
    refine ⟨b, here, fun held => ?_, unlocked, fun q other differs theirs => apart q other differs ?_⟩
    · obtain ⟨old, mine, held⟩ := holds held
      obtain ⟨c, there, locked, -⟩ := sound.refs.calls p old r mine
      cases here.symm.trans there
      exact locked held
    · change update s.pc p _ q = _ at theirs
      rwa [update_of_ne differs] at theirs
  · refine sound.contents.goto rfl rfl rfl rfl (fun old t mine => ?_) (fun after t call held => ?_) (fun t c call there => ?_)
      (fun t c call there => ?_) (by simp) (by simp)
    · rcases before with idle | ⟨old', mine', staying⟩
      · rw [idle] at mine
        contradiction
      · cases mine'.symm.trans mine
        exact staying
    · cases call
      exact holds held
    · cases call
      cases here.symm.trans there
      exact counting rfl
    · rcases call with call | call
      · cases call
        cases here.symm.trans there
        exact freeing rfl
      · cases call
        exact absurd rfl clear

omit [DecidableEq R] in
theorem Sound.goto (sound : Sound s past) (staying : ∀ stage t, s.pc p = .call stage t → stage.drops = false)
    (quiet : (∀ stage t, new ≠ .call stage t) ∧ ∀ key t, new ≠ .iget key t)
    (types : ∀ dev inum type t, new = .ialloc dev inum type t → type ≠ 0) : Sound (s.goto p new) past := by
  constructor
  · exact sound.refs.goto rfl rfl (fun _ => ⟨rfl, rfl⟩) (fun _ => rfl) fun stage t call => absurd call (quiet.1 stage t)
  · exact sound.contents.goto rfl rfl rfl rfl staying (fun stage t call => absurd call (quiet.1 stage t))
      (fun t c call => absurd call (quiet.1 _ t)) (fun t c call => call.elim (fun call => absurd call (quiet.1 _ t))
        fun call => absurd call (quiet.1 _ t)) quiet.2 types

omit [DecidableEq R] [DecidableEq P] in
theorem Sound.agrees (sound : Sound s past) {stage : Stage} (locked : (s.inode b).lock = some (p, r))
    (here : s.pc p = .call stage r) (valid : (s.inode b).valid = true) (early : stage ≠ .invalid) : s.Agrees past b := by
  refine sound.contents.agrees b (sound.refs.positive (sound.refs.lock b p r locked)) valid fun q t lock theirs => ?_
  cases locked.symm.trans lock
  cases here.symm.trans theirs
  exact early rfl

omit [Fintype R] [DecidableEq R] [DecidableEq P] in
theorem iupdate_disk {change : Inode P R → Inode P R} (kept : (change (s.inode b)).key = (s.inode b).key) :
    ((s.setInode b change).iupdate b).disk = update s.disk (s.inode b).key (change (s.inode b)).fields := by
  simp only [Cache.iupdate, setInode, update_self, kept]

omit [Fintype R] in
theorem trunc_disk (worked : s.work p r b .trunc = some next) : next.disk =
    update s.disk (s.inode b).key { (s.inode b).fields with size := 0, addrs := fun _ => 0 } := by
  cases worked
  exact iupdate_disk rfl

omit [Fintype R] in
theorem clear_disk (worked : s.work p r b .clear = some next) : next.disk =
    update s.disk (s.inode b).key { (s.inode b).fields with type := 0 } := by
  cases worked
  exact iupdate_disk rfl

theorem Sound.stage (sound : Sound s past) {stage : Stage} (at' : s.pc p = .call stage r) (here : s.ref r = some b)
    (worked : s.work p r b stage = some next) : Sound next past := by
  obtain ⟨b', there, locked, -⟩ := sound.refs.calls p stage r at'
  cases here.symm.trans there
  have exclusive (puts : stage.puts = true) (after : Stage) (q : P) (other : Stage) (differs : q ≠ p)
      (theirs : s.pc q = .call other r) : after.puts = false ∧ other.puts = false :=
    absurd (sound.refs.exclusive p q stage other r at' theirs puts).symm differs
  cases stage with
  | ilock =>
    simp only [Cache.work, guarded] at worked
    obtain ⟨free, rfl⟩ := worked
    exact sound.acquire at' here free (.inl ⟨rfl, rfl⟩) rfl rfl rfl rfl
  | load =>
    simp only [Cache.work] at worked
    have staying (other : Stage) (t : R) (theirs : s.pc p = .call other t) : other.drops = false := by
      cases at'.symm.trans theirs
      rfl
    split at worked
    · cases worked
      exact sound.goto staying (by simp) (by simp)
    split at worked
    · cases worked
      exact sound.leave rfl rfl ⟨rfl, fun _ _ _ => Iff.rfl, fun _ _ _ => id, fun _ _ _ _ _ => id⟩
    rename_i allocated
    cases worked
    refine sound.work (b := b) (locked rfl) (.inr ⟨.load, at', .inl rfl⟩) rfl rfl rfl ⟨rfl, rfl, rfl⟩ (fun _ _ => rfl)
      (fun _ _ => rfl) (.inl rfl) (fun _ _ => ?_) ?_ (by simp) (by simp) ?_
    · unfold Cache.Agrees
      rw [show Cache.inode _ b = _ from update_self ..]
      exact ⟨allocated, allocated, fun _ => rfl⟩
    · simp [sound.contents.inside (locked rfl) at' rfl]
    · intro t _ unowned
      exact absurd (unowned.before rfl (by simp) id) (sound.contents.owned sound.refs (locked rfl) fun other => staying other r)
  | iput =>
    simp only [Cache.work, guarded] at worked
    obtain ⟨free, rfl⟩ := worked
    exact sound.acquire at' here free (.inr ⟨rfl, rfl⟩) rfl rfl rfl rfl
  | test =>
    cases worked
    refine sound.call here (.inr ⟨.test, at', rfl⟩) (fun _ => ⟨.test, at', rfl⟩) ?_ (exclusive rfl _) ?_ ?_ ?_
    · intro _ no
      split at no <;> contradiction
    · intro count
      split at count
      · assumption
      · contradiction
    · intro trunc
      split at trunc <;> contradiction
    · split <;> simp
  | count =>
    cases worked
    refine sound.call here (.inr ⟨.count, at', rfl⟩) (fun _ => ⟨.count, at', rfl⟩) ?_ (exclusive rfl _) ?_ ?_ ?_
    · intro _ no
      split at no <;> contradiction
    · intro count
      split at count <;> contradiction
    · intro trunc
      split at trunc
      · obtain ⟨valid, nlink⟩ := sound.contents.counting p r b at' here
        exact ⟨valid, nlink, ‹_›⟩
      · contradiction
    · split <;> simp
  | trunc =>
    obtain ⟨valid, nlink, single⟩ := sound.contents.freeing p r b (.inl at') here
    have agrees := sound.agrees (locked rfl) at' valid (by decide)
    have staying (other : Stage) (theirs : s.pc p = .call other r) : other.drops = false := by
      cases at'.symm.trans theirs
      rfl
    have disk := trunc_disk worked
    simp only [Cache.work, some.injEq] at worked
    have inode : next.inode = update s.inode b
        { s.inode b with fields := { (s.inode b).fields with size := 0, addrs := fun _ => 0 } } := worked ▸ rfl
    have pc : next.pc = update s.pc p (.call .clear r) := worked ▸ rfl
    refine sound.work (b := b) (locked rfl) (.inr ⟨.trunc, at', .inr ⟨.clear, rfl, rfl, rfl⟩⟩) pc (worked ▸ rfl) inode
      ⟨rfl, rfl, rfl⟩ (fun _ _ => rfl) (fun key differs => ?_) (.inr staying) (fun _ _ => ?_) ?_ (by simp)
      (fun _ => ⟨valid, nlink, single⟩) ?_
    · rw [disk, update_of_ne differs]
    · unfold Cache.Agrees
      rw [inode, update_self, disk, update_self]
      exact ⟨agrees.2.1, agrees.2.1, fun _ => rfl⟩
    · simp [sound.contents.inside (locked rfl) at' rfl]
    · intro t _ unowned
      refine absurd (unowned.before pc (by simp) fun free => ?_) (sound.contents.owned sound.refs (locked rfl) staying)
      rw [disk, update_self] at free
      exact absurd free agrees.2.1
  | clear =>
    cases worked
    obtain ⟨_, _, single⟩ := sound.contents.freeing p r b (.inr at') here
    have staying (other : Stage) (theirs : s.pc p = .call other r) : other.drops = false := by
      cases at'.symm.trans theirs
      rfl
    refine sound.work (b := b) (locked rfl) (.inr ⟨.clear, at', .inr ⟨.invalid, rfl, rfl, rfl⟩⟩) rfl rfl rfl ⟨rfl, rfl, rfl⟩
      (fun _ _ => rfl) (fun key differs => ?_) (.inr staying) (fun _ early => absurd rfl early) ?_ (by simp) (by simp) ?_
    · change Cache.disk (Cache.iupdate _ b) key = _
      rw [iupdate_disk rfl, update_of_ne differs]
    · simp [sound.contents.inside (locked rfl) at' rfl]
    · -- the last reference is the one that is given up
      intro t there _
      have last : tally (· = some b) s.ref ≤ 1 := by rw [← sound.refs.counted b, single]
      cases eq_of_tally_le_one last there here
      exact ⟨p, .invalid, update_self .., rfl⟩
  | invalid =>
    cases worked
    refine sound.work (b := b) (locked rfl) (.inr ⟨.invalid, at', .inr ⟨.unlock, rfl, rfl, rfl⟩⟩) rfl rfl rfl ⟨rfl, rfl, rfl⟩
      (fun _ _ => rfl) (fun _ _ => rfl) (.inl rfl) (by simp) ?_ (by simp) (by simp) ?_
    · simp [sound.contents.inside (locked rfl) at' rfl]
    · intro t there unowned
      obtain ⟨q, other, theirs, drops⟩ := sound.contents.unowned t b there (unowned.before rfl (by simp) id)
      by_cases mine : q = p
      · cases at'.symm.trans (mine ▸ theirs)
        exact ⟨p, .unlock, update_self .., rfl⟩
      · exact ⟨q, other, (update_of_ne mine ..).trans theirs, drops⟩
  | unlock =>
    cases worked
    exact sound.release (locked rfl) (sound.contents.inside (locked rfl) at' rfl) (.inr ⟨at', rfl⟩) rfl rfl rfl rfl
  | drop =>
    cases worked
    have others (c : Index) (differs : c ≠ b) : update s.inode b { s.inode b with ref := (s.inode b).ref - 1 } c = s.inode c :=
      update_of_ne differs ..
    refine ⟨sound.refs.drop at' here rfl rfl others ?_ ?_ ?_,
      sound.contents.drop sound.refs at' here rfl rfl rfl others ?_ ?_ ?_ ?_⟩ <;> simp [Cache.setInode, Cache.setRef, Cache.goto]

omit [Fintype R] [DecidableEq P] in
theorem iget_disk_pc (s : Cache P R) (r : R) (key : Key) : (s.iget r key).disk = s.disk ∧ (s.iget r key).pc = s.pc := by
  rcases iget_cases s r key with ⟨b, -, -, result⟩ | ⟨b, -, -, result⟩ | result <;> rw [result] <;> exact ⟨rfl, rfl⟩

omit [DecidableEq R] [DecidableEq P] in
theorem Sound.freeing_nlink (sound : Sound s past) (here : s.ref r = some b)
    (freeing : s.pc p = .call .trunc r ∨ s.pc p = .call .clear r) : (s.disk (s.inode b).key).nlink = 0 := by
  obtain ⟨valid, nlink, -⟩ := sound.contents.freeing p r b freeing here
  have holder {stage : Stage} (at' : s.pc p = .call stage r) (holds : stage.holds = true) (early : stage ≠ .invalid) :
      (s.inode b).fields = s.disk (s.inode b).key := by
    obtain ⟨b', there, locked, -⟩ := sound.refs.calls p stage r at'
    cases here.symm.trans there
    exact (sound.agrees (locked holds) at' valid early).2.2 (sound.contents.inside (locked holds) at' holds)
  rcases freeing with at' | at'
  · rw [← holder at' rfl (by decide), nlink]
  · rw [← holder at' rfl (by decide), nlink]

section

omit [Fintype R] [DecidableEq R] [DecidableEq P] in
theorem Cache.Loaded.stay (loaded : s.Loaded)
    (locks : ∀ c holder, (next.inode c).lock = some holder → (s.inode c).lock = some holder ∧
      (next.inode c).valid = (s.inode c).valid)
    (calls : ∀ q stage t, s.pc q = .call stage t → stage.holds = true → next.pc q = .call stage t) : next.Loaded := by
  intro c q t locked
  obtain ⟨before, same⟩ := locks c (q, t) locked
  rw [same]
  exact (loaded c q t before).imp_right fun ⟨stage, theirs, holds⟩ => ⟨stage, calls q stage t theirs holds, holds⟩

omit [Fintype R] [DecidableEq R] [DecidableEq P] in
theorem locks_update {ip : Inode P R} (inode : next.inode = update s.inode b ip)
    (kept : ∀ holder, ip.lock = some holder → (s.inode b).lock = some holder ∧ ip.valid = (s.inode b).valid)
    (c : Index) (holder : P × R) (locked : (next.inode c).lock = some holder) :
    (s.inode c).lock = some holder ∧ (next.inode c).valid = (s.inode c).valid := by
  rw [inode] at locked ⊢
  by_cases same : c = b
  · rw [same, update_self] at locked ⊢
    exact kept holder locked
  · rw [update_of_ne same] at locked ⊢
    exact ⟨locked, rfl⟩

omit [DecidableEq R] in
theorem Cache.Loaded.at (loaded : s.Loaded) (refs : Refs s) {stage : Stage} {new : Pc R} {ip : Inode P R}
    (at' : s.pc p = .call stage r) (here : s.ref r = some b) (pc : next.pc = update s.pc p new)
    (inode : next.inode = update s.inode b ip) (inside : ip.lock = none ∨ ip.lock = some (p, r) ∧
      (ip.valid = true ∨ ∃ after, new = .call after r ∧ after.holds = true)) : next.Loaded := by
  intro c q t locked
  by_cases same : c = b
  · rw [same, inode, update_self] at locked ⊢
    rcases inside with free | ⟨mine, valid⟩
    · exact absurd (free.symm.trans locked) (by simp)
    · cases mine.symm.trans locked
      rwa [pc, update_self]
  · rw [inode, update_of_ne same] at locked ⊢
    refine (loaded c q t locked).imp_right fun ⟨other, theirs, holds⟩ => ⟨other, ?_, holds⟩
    have differs : q ≠ p := by
      intro mine
      rw [mine] at theirs
      cases at'.symm.trans theirs
      cases here.symm.trans (refs.lock c q r locked)
      contradiction
    rw [pc, update_of_ne differs, theirs]

theorem Cache.Loaded.work (loaded : s.Loaded) (refs : Refs s) {stage : Stage} (at' : s.pc p = .call stage r)
    (here : s.ref r = some b) (worked : s.work p r b stage = some next) : next.Loaded := by
  obtain ⟨b', there, locked, _⟩ := refs.calls p stage r at'
  cases here.symm.trans there
  have still : s.inode = update s.inode b (s.inode b) := (update_eq_self ..).symm
  cases stage with
  | ilock =>
    simp only [Cache.work, guarded] at worked
    obtain ⟨-, rfl⟩ := worked
    exact loaded.at refs at' here rfl rfl (.inr ⟨rfl, .inr ⟨.load, rfl, rfl⟩⟩)
  | load =>
    simp only [Cache.work] at worked
    split at worked
    · rename_i valid
      cases worked
      exact loaded.at refs at' here rfl still (.inr ⟨locked rfl, .inl valid⟩)
    split at worked
    · cases worked
      exact loaded
    · cases worked
      exact loaded.at refs at' here rfl rfl (.inr ⟨locked rfl, .inl rfl⟩)
  | iput =>
    simp only [Cache.work, guarded] at worked
    obtain ⟨-, rfl⟩ := worked
    exact loaded.at refs at' here rfl rfl (.inr ⟨rfl, .inr ⟨.test, rfl, rfl⟩⟩)
  | test | count =>
    cases worked
    refine loaded.at refs at' here rfl still (.inr ⟨locked rfl, .inr ⟨_, rfl, ?_⟩⟩)
    split <;> rfl
  | trunc =>
    cases worked
    exact loaded.at refs at' here rfl rfl (.inr ⟨locked rfl, .inr ⟨.clear, rfl, rfl⟩⟩)
  | clear =>
    cases worked
    exact loaded.at refs at' here rfl rfl (.inr ⟨locked rfl, .inr ⟨.invalid, rfl, rfl⟩⟩)
  | invalid =>
    cases worked
    exact loaded.at refs at' here rfl rfl (.inr ⟨locked rfl, .inr ⟨.unlock, rfl, rfl⟩⟩)
  | unlock =>
    cases worked
    exact loaded.at refs at' here rfl rfl (.inl rfl)
  | drop =>
    cases worked
    refine loaded.stay (locks_update rfl fun _ locked => ⟨locked, rfl⟩) fun q stage t theirs holds => ?_
    have differs : q ≠ p := by
      intro mine
      cases at'.symm.trans (mine ▸ theirs)
      contradiction
    exact (update_of_ne differs ..).trans theirs

omit [DecidableEq P] in
theorem Refs.iget_locks (refs : Refs s) (key : Key) (c : Index) (holder : P × R)
    (locked : ((s.iget r key).inode c).lock = some holder) :
    (s.inode c).lock = some holder ∧ ((s.iget r key).inode c).valid = (s.inode c).valid := by
  rcases iget_cases s r key with ⟨b, -, -, result⟩ | ⟨b, empty, -, result⟩ | result
  · rw [result] at locked ⊢
    have inode : (s.share b r).inode = update s.inode b { s.inode b with ref := (s.inode b).ref + 1 } := rfl
    exact locks_update inode (fun _ locked => ⟨locked, rfl⟩) c holder locked
  · rw [result] at locked ⊢
    refine locks_update rfl (fun _ locked => ?_) c holder locked
    exact absurd ((refs.unlocked empty).symm.trans locked) (by simp)
  · rw [result] at locked ⊢
    exact ⟨locked, rfl⟩

theorem Cache.Loaded.step {ninodes : UInt32} {event : Event P R} (loaded : s.Loaded) (refs : Refs s)
    (move : Move ninodes s event next) :
    next.Loaded := by
  have outside {p : P} {new : Pc R} (quiet : ∀ stage t, s.pc p ≠ .call stage t) (q : P) (stage : Stage) (t : R)
      (theirs : s.pc q = .call stage t) (_ : stage.holds = true) : update s.pc p new q = .call stage t := by
    have differs : q ≠ p := fun same => quiet stage t (same ▸ theirs)
    rw [update_of_ne differs, theirs]
  cases move with
  | iget _ r key =>
    exact loaded.stay (refs.iget_locks key) fun q stage t theirs _ => by rw [(iget_disk_pc s r key).2, theirs]
  | idup | modify => exact loaded.stay (locks_update rfl fun _ locked => ⟨locked, rfl⟩) fun _ _ _ theirs _ => theirs
  | ilock _ _ _ idle | iput _ _ _ idle | ialloc _ _ _ _ idle =>
    exact loaded.stay (fun _ _ locked => ⟨locked, rfl⟩) (outside (by simp [idle]))
  | iunlock => exact loaded.stay (locks_update rfl (by simp)) fun _ _ _ theirs _ => theirs
  | iupdate | none => exact loaded
  | work _ _ _ _ _ at' here worked => exact loaded.work refs at' here worked
  | mark _ _ _ _ _ at' | skip _ _ _ _ _ at' => exact loaded.stay (fun _ _ locked => ⟨locked, rfl⟩) (outside (by simp [at']))
  | got p key r at' =>
    refine loaded.stay (refs.iget_locks key) fun q stage t theirs holds => ?_
    change update (s.iget r key).pc p .idle q = _
    rw [(iget_disk_pc s r key).2]
    exact outside (by simp [at']) q stage t theirs holds

end

omit [Fintype R] [DecidableEq R] in
theorem resting (idle : s.pc p = .idle) : s.pc = update s.pc p .idle := by
  rw [← idle, update_eq_self]

omit [DecidableEq R] [DecidableEq P] in
theorem Sound.holder (sound : Sound s past) (loaded : s.Loaded) (holds : s.Holds p r b) : s.Agrees past b := by
  refine sound.contents.agrees b (sound.refs.positive (sound.refs.lock b p r holds.2)) ?_ fun q t lock theirs => ?_
  · rcases loaded b p r holds.2 with valid | ⟨stage, call, -⟩
    · exact valid
    · exact absurd (holds.1.symm.trans call) (by simp)
  · cases holds.2.symm.trans lock
    exact absurd (holds.1.symm.trans theirs) (by simp)

variable {ninodes : UInt32} {event : Event P R}

section

variable (sound : Sound s past)
include sound

theorem Sound.step (loaded : s.Loaded) (documented : Documented (s, past) event (next, changed s event next past))
    (linked : Linked (s, past) event (next, changed s event next past)) (move : Move ninodes s event next) :
    Sound next (changed s event next past) := by
  cases move with
  | iget _ r key _ new =>
    have leaves : s.Leaves (s.iget r key) := by constructor <;> simp [iget_disk_pc]
    refine sound.iget leaves new (fun b q t same there => ?_) rfl rfl ?_
    · constructor <;> intro theirs
      · exact linked.2 (same ▸ sound.freeing_nlink there (.inl theirs))
      · exact linked.2 (same ▸ sound.freeing_nlink there (.inr theirs))
    · rw [Cache.Unowned, (iget_disk_pc s r key).1, (iget_disk_pc s r key).2]
      rintro (free | ⟨q, t, theirs⟩)
      · exact linked.1 free
      · exact linked.2 (sound.contents.taken q key t theirs).2
  | idup _ r _ b here new kept =>
    have unput {q : P} {stage : Stage} (theirs : s.pc q = .call stage r) (puts : stage.puts = true) : False :=
      kept q ⟨stage, theirs, puts⟩
    refine sound.share ⟨rfl, fun _ _ _ => Iff.rfl, fun _ _ _ => id, fun _ _ _ _ _ => id⟩ new (sound.refs.positive here)
      (fun q t there => ?_) rfl rfl fun unowned => ?_
    · have last (freeing : s.pc q = .call .trunc t ∨ s.pc q = .call .clear t) : t = r := by
        obtain ⟨-, -, single⟩ := sound.contents.freeing q t b freeing there
        have one : tally (· = some b) s.ref ≤ 1 := by rw [← sound.refs.counted b, single]
        exact eq_of_tally_le_one one there here
      constructor <;> intro theirs
      · exact unput (last (.inl theirs) ▸ theirs) rfl
      · exact unput (last (.inr theirs) ▸ theirs) rfl
    · obtain ⟨q, stage, theirs, drops⟩ := sound.contents.unowned r b here unowned
      refine unput theirs ?_
      cases stage <;> first | rfl | contradiction
  | ilock _ _ _ idle here kept =>
    refine sound.call here (.inl idle) (by simp [Stage.holds]) (by simp [Stage.puts]) (fun q other _ theirs => ⟨rfl, ?_⟩)
      (by simp) (by simp) (by simp)
    cases puts : other.puts with
    | false => rfl
    | true => exact absurd ⟨other, theirs, puts⟩ (kept q)
  | iunlock _ _ b here holds =>
    exact sound.release holds.2 (documented b here) (.inl ⟨holds.1, rfl⟩) (resting holds.1) rfl rfl rfl
  | modify p r b _ here holds =>
    have staying (stage : Stage) (call : s.pc p = .call stage r) : stage.drops = false := by simp [holds.1] at call
    have agrees := sound.holder loaded holds
    refine sound.work (b := b) holds.2 (.inl ⟨holds.1, rfl⟩) (resting holds.1) rfl rfl ⟨rfl, rfl, rfl⟩ (fun c differs => ?_)
      (fun _ _ => rfl) (.inl rfl) (fun valid _ => ?_) (fun _ => rfl) (by simp) (by simp) ?_
    · simp [changed, here, differs.symm]
    · unfold Cache.Agrees
      rw [show Cache.inode _ b = _ from update_self ..]
      exact ⟨agrees.1, documented, by simp [changed, here]⟩
    · intro t _ unowned
      exact absurd unowned (sound.contents.owned sound.refs holds.2 staying)
  | iupdate p r b here holds =>
    have staying (stage : Stage) (call : s.pc p = .call stage r) : stage.drops = false := by simp [holds.1] at call
    have agrees := sound.holder loaded holds
    refine sound.work (b := b) holds.2 (.inl ⟨holds.1, rfl⟩) (resting holds.1) rfl (update_eq_self ..).symm ⟨rfl, rfl, rfl⟩
      (fun c differs => ?_) (fun key differs => update_of_ne differs ..) (.inr staying) (fun valid _ => ?_) (fun _ => rfl)
      (by simp) (by simp) ?_
    · simp [changed, here, differs.symm]
    · unfold Cache.Agrees
      rw [show (s.iupdate b).disk ((s.iupdate b).inode b).key = _ from update_self ..]
      exact ⟨agrees.2.1, agrees.2.1, fun _ => rfl⟩
    · intro t _ unowned
      refine absurd (unowned.imp_left fun free => ?_) (sound.contents.owned sound.refs holds.2 staying)
      rw [show Cache.disk (s.iupdate b) _ = _ from update_self ..] at free
      exact absurd free agrees.2.1
  | iput _ _ _ idle here unused unlocked =>
    refine sound.call here (.inl idle) (by simp [Stage.holds]) (fun _ _ => unlocked) (fun q other _ theirs => ?_)
      (by simp) (by simp) (by simp)
    exact absurd ⟨other, theirs⟩ (unused q)
  | ialloc _ _ _ _ idle =>
    refine sound.goto (by simp [idle]) (by simp) fun _ _ _ _ same => ?_
    cases same
    exact documented
  | work _ _ _ stage _ at' here worked => exact sound.stage at' here worked
  | mark _ _ _ _ _ at' free =>
    exact ⟨sound.refs.goto rfl rfl (fun _ => ⟨rfl, rfl⟩) (fun _ => rfl) (by simp [Cache.Fits]),
      sound.contents.mark at' free rfl rfl rfl rfl⟩
  | skip p dev inum type r at' =>
    refine sound.goto (by simp [at']) (by simp) fun _ _ _ _ same => ?_
    cases same
    exact sound.contents.types p dev inum type r at'
  | none =>
    exact sound.leave rfl rfl ⟨rfl, fun _ _ _ => Iff.rfl, fun _ _ _ => id, fun _ _ _ _ _ => id⟩
  | got p key r at' new =>
    have pc (q : P) : ((s.iget r key).goto p .idle).pc q = update s.pc p .idle q :=
      congrFun (congrArg (update · p _) (iget_disk_pc s r key).2) q
    have allocs {q : P} {key' : Key} {t : R} (theirs : ((s.iget r key).goto p .idle).pc q = .iget key' t) :
        s.pc q = .iget key' t := by
      rw [pc] at theirs
      by_cases mine : q = p
      · simp [mine] at theirs
      · rwa [update_of_ne mine] at theirs
    refine sound.iget ⟨(iget_disk_pc s r key).1, fun q stage t => ?_, fun q key t => ?_, fun q dev inum type t => ?_⟩ new
      (fun b q t same there => ?_) rfl rfl ?_
    · rw [pc]
      by_cases mine : q = p
      · rw [mine, update_self, at']
        simp
      · rw [update_of_ne mine]
    · exact allocs
    · rw [pc]
      by_cases mine : q = p
      · simp [mine]
      · simp [update_of_ne mine]
    · -- the references to the number that ialloc has taken are on their way out
      obtain ⟨q', stage, theirs, _⟩ := sound.contents.unowned t b there (.inr ⟨p, r, same ▸ at'⟩)
      constructor <;> intro call
      · cases sound.refs.exclusive q q' .trunc stage t call theirs rfl
        cases call.symm.trans theirs
        contradiction
      · cases sound.refs.exclusive q q' .clear stage t call theirs rfl
        cases call.symm.trans theirs
        contradiction
    · rintro (free | ⟨q, t, theirs⟩)
      · change ((s.iget r key).disk key).type = 0 at free
        rw [(iget_disk_pc s r key).1] at free
        exact (sound.contents.taken p key r at').1 free
      · cases sound.contents.single p q key r t at' (allocs theirs)
        rw [pc, update_self] at theirs
        contradiction

/-- Only iput frees a dinode, and only the one that has the last reference to an inode without links. -/
theorem Sound.freed (loaded : s.Loaded) (move : Move ninodes s event next)
    (before : (s.disk key).type ≠ 0) (after : (next.disk key).type = 0) :
    ∃ p r b, event = .step p ∧ s.pc p = .call .clear r ∧ s.ref r = some b ∧ (s.inode b).key = key ∧
      (s.inode b).ref = 1 ∧ (s.disk key).nlink = 0 := by
  -- a write of the fields of an entry that agrees with the disk
  have write {b : Index} {fields : Dinode} (disk : next.disk = update s.disk (s.inode b).key fields)
      (allocated : fields.type ≠ 0) : False := by
    rw [disk] at after
    by_cases same : key = (s.inode b).key
    · rw [same, update_self] at after
      exact allocated after
    · rw [update_of_ne same] at after
      exact before after
  cases move with
  | iget _ r key' =>
    rw [(iget_disk_pc s r key').1] at after
    contradiction
  | idup | ilock | iunlock | modify | iput | ialloc | skip | none => contradiction
  | iupdate _ _ _ _ holds => exact (write rfl (sound.holder loaded holds).2.1).elim
  | work p r b stage _ at' here worked =>
    obtain ⟨b', there, locked, -⟩ := sound.refs.calls p stage r at'
    cases here.symm.trans there
    cases stage with
    | trunc =>
      obtain ⟨valid, -⟩ := sound.contents.freeing p r b (.inl at') here
      exact (write (trunc_disk worked) (sound.agrees (locked rfl) at' valid (by decide)).2.1).elim
    | clear =>
      have nlink := sound.freeing_nlink here (.inr at')
      obtain ⟨-, -, single⟩ := sound.contents.freeing p r b (.inr at') here
      have same : (s.inode b).key = key := by
        by_contra differs
        rw [clear_disk worked, update_of_ne (Ne.symm differs)] at after
        exact before after
      exact ⟨p, r, b, rfl, at', here, same, single, same ▸ nlink⟩
    | ilock | iput =>
      simp only [Cache.work, guarded] at worked
      obtain ⟨-, rfl⟩ := worked
      contradiction
    | load =>
      simp only [Cache.work] at worked
      split at worked
      · cases worked
        contradiction
      split at worked <;> cases worked <;> contradiction
    | test | count | invalid | unlock | drop =>
      cases worked
      contradiction
  | mark _ dev inum type _ _ free =>
    have differs : key ≠ (dev, inum) := fun same => before (same ▸ free)
    change (update s.disk (dev, inum) _ key).type = 0 at after
    rw [update_of_ne differs] at after
    contradiction
  | got _ key' r =>
    change ((s.iget r key').disk key).type = 0 at after
    rw [(iget_disk_pc s r key').1] at after
    contradiction

theorem Sound.fresh (at' : s.pc p = .iget key r) (new : s.ref r = none) (result : next = (s.iget r key).goto p .idle)
    (here : next.ref r = some b) {other : R} (differs : other ≠ r) (there : next.ref other = some b) : next.Dropping other := by
  have pc : next.pc = update s.pc p .idle := by
    rw [result]
    exact congrArg (update · p _) (iget_disk_pc s r key).2
  have ref : next.ref = (s.iget r key).ref := by rw [result]; rfl
  have found : s.ref other = some b ∧ (s.inode b).key = key := by
    rw [ref] at here there
    rcases iget_cases s r key with ⟨c, -, same, result⟩ | ⟨c, empty, -, result⟩ | result
    · rw [result] at here there
      change update s.ref r (some c) _ = _ at here there
      rw [update_self, some.injEq] at here
      rw [update_of_ne differs] at there
      exact ⟨there, here ▸ same⟩
    · rw [result] at here there
      change update s.ref r (some c) _ = _ at here there
      rw [update_self, some.injEq] at here
      rw [update_of_ne differs] at there
      have := sound.refs.positive there
      rw [here] at empty
      omega
    · rw [result] at here
      exact absurd (new.symm.trans here) (by simp)
  obtain ⟨q, stage, theirs, drops⟩ := sound.contents.unowned other b found.1 (.inr ⟨p, r, found.2 ▸ at'⟩)
  have apart : q ≠ p := by
    intro same
    rw [same, at'] at theirs
    contradiction
  exact ⟨q, stage, by rw [pc, update_of_ne apart, theirs], drops⟩

theorem Sound.safe (loaded : s.Loaded) (move : Move ninodes s event next) {later : Index → Bool}
    (after : Sound next later) : InodeSafe (s, past) event (next, later) := by
  refine ⟨after.refs.unique, after.refs.counted, fun b used valid free => ?_, fun key => sound.freed loaded move, ?_⟩
  · change (next.inode b).lock = none at free
    exact (after.contents.agrees b used valid (by simp [free])).2.2 (after.contents.unchanged free)
  · intro p r key b step at' here other differs there
    cases move with
    | got _ _ _ theirs new =>
      cases step
      cases theirs.symm.trans at'
      exact sound.fresh at' new rfl here differs there
    | work _ _ _ _ _ theirs | mark _ _ _ _ _ theirs | skip _ _ _ _ _ theirs | none _ _ _ _ _ theirs =>
      cases step
      exact absurd (theirs.symm.trans at') (by simp)
    | iget | idup | ilock | iunlock | modify | iupdate | iput | ialloc => contradiction

end

omit [DecidableEq R] [DecidableEq P] in
theorem sound_init (disk : Key → Dinode) : Sound ({ disk } : Cache P R) (fun _ => false) where
  refs := by
    refine ⟨by simp, fun b => ?_, by simp, by simp, by simp⟩
    exact (tally_eq_zero (by simp)).symm
  contents := by
    constructor <;> simp

end

section

variable [DecidableEq P] [DecidableEq R] [Fintype P] [Fintype R]

/-- Every run of the cache, from the boot on, in which nobody asks for an inode that may be on its way out. -/
theorem inode_cache_coherent (ninodes : UInt32) (disk : Key → Dinode) (events : List (Event P R))
    (documented : EveryStep (withHistory (step ninodes) changed) Documented ({ disk }, fun _ => false) events)
    (linked : EveryStep (withHistory (step ninodes) changed) Linked ({ disk }, fun _ => false) events) :
    EveryStep (withHistory (step ninodes) changed) InodeSafe ({ disk }, fun _ => false) events := by
  refine (runs_along (fun s : Cache P R × (Index → Bool) => Sound s.1 s.2 ∧ s.1.Loaded)
    ⟨sound_init disk, by simp [Cache.Loaded]⟩ (documented.and linked) (fun before event after sound used stepped => ?_)).1
  obtain ⟨moved, recorded⟩ := withHistory_step stepped
  have move := step_move moved
  obtain ⟨next, later⟩ := after
  cases recorded
  have kept := sound.1.step sound.2 used.1 used.2 move
  exact ⟨⟨kept, sound.2.step sound.1.refs move⟩, sound.1.safe sound.2 move kept⟩

end

instance neZero_three : NeZero 3 := ⟨by decide⟩

/-- A file that is unlinked and closed: the process gives up the last reference. -/
def unlinkLast : List (Event Bool (Fin 3)) :=
  [.iget true 0 (1, 2), .ilock true 0, .step true, .step true, .modify true 0 { type := 2 }, .iupdate true 0, .iunlock true 0,
    .iput true 0, .step true, .step true, .step true]

/-- The rest of iput, and ialloc in another process. -/
def freeAndReuse : List (Event Bool (Fin 3)) :=
  [.step true, .step true, .step true, .ialloc false 2 1 1, .step false, .step false, .step false]

def oneLink : Dinode := { type := 2, nlink := 1 }

theorem inode_cache_coherent_reuse :
    (run (withHistory (step 8) changed) ({ disk := fun _ => oneLink }, fun _ => false) (unlinkLast ++ freeAndReuse)).map
        (fun (s, _) => (s.pc true, s.ref 0, s.ref 2, (s.inode 0).ref)) = some (.call .unlock 0, some 0, some 0, 2) ∧
      EveryStep (withHistory (step 8) changed) InodeSafe ({ disk := fun _ => oneLink }, fun _ => false)
        (unlinkLast ++ freeAndReuse) :=
  ⟨by decide +kernel, inode_cache_coherent 8 (fun _ => oneLink) _ (by decide +kernel) (by decide +kernel)⟩

/-- Another process looks the inode up, through the ".." of a directory that is itself unlinked, between the
test of the count and the release of the dinode. -/
def lookupInIput : List (Event Bool (Fin 3)) := unlinkLast ++ .iget false 1 (1, 2) :: freeAndReuse.dropLast

/-- iput frees a dinode that has a second reference, and ialloc returns the entry while the second reference is there. -/
theorem iput_frees_shared_inode :
    EveryStep (withHistory (step 8) changed) Documented ({ disk := fun _ => oneLink }, fun _ => false)
        (lookupInIput ++ [.step false]) ∧
      ¬ EveryStep (withHistory (step 8) changed) InodeSafe ({ disk := fun _ => oneLink }, fun _ => false)
        (lookupInIput ++ [.step false]) := by
  refine ⟨by decide +kernel, fun safe => ?_⟩
  have reached : ∃ before ∈ run (withHistory (step 8) changed) ({ disk := fun _ => oneLink }, fun _ => false) lookupInIput,
      before.1.pc false = .iget (1, 2) 2 ∧ ∃ after ∈ withHistory (step 8) changed before (.step false),
        after.1.ref 1 = some 0 ∧ after.1.ref 2 = some 0 ∧ after.1.pc false = .idle ∧ after.1.pc true = .call .unlock 0 := by
    decide +kernel
  obtain ⟨_, ran, pc, _, stepped, first, second, idle, freeing⟩ := reached
  obtain ⟨p, _, call, -⟩ := (safe.last ran stepped).fresh false 2 (1, 2) 0 rfl pc second 1 (by decide) first
  cases p with
  | false => simp [idle] at call
  | true => simp [freeing] at call

end Xv6.Icache
