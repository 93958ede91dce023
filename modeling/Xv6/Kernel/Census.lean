import Xv6.Kernel.Life

namespace Xv6.Kernel

open Process Data Function Int32

/-! Who the processes are. A slot is used by one process after the other; the
census numbers them in the order of their allocation, userinit's being number 0. -/

def Creation.isClone : Creation → Bool
  | .fork => false
  | .clone _ => true

/-- `tenant`, `pid`, `creator` and `cloned` are about the process that a slot was
last allocated for, `exited` and `reaped` about processes by their number. -/
structure Census where
  count : Nat
  tenant : Slot → Nat
  pid : Slot → Int32
  creator : Slot → Nat
  cloned : Slot → Bool
  exited : Nat → Bool
  reaped : Nat → Bool

namespace Census

def boot : Census where
  count := 1
  tenant := fun _ => 0
  pid := fun _ => 1
  creator := fun _ => 0
  cloned := fun _ => false
  exited := fun _ => false
  reaped := fun _ => false

variable (h : Census)

def record (nextpid : Int32) : Option LifeOp → Census
  | some (.allocate p np kind) => { h with
      count := h.count + 1
      tenant := update h.tenant np h.count
      pid := update h.pid np nextpid
      creator := update h.creator np (h.tenant p)
      cloned := update h.cloned np kind.isClone }
  | some (.exit p) => { h with exited := update h.exited (h.tenant p) true }
  | some (.reap _ _ z) => { h with reaped := update h.reaped (h.tenant z) true }
  | _ => h

end Census

open Census (record)

/-- Numbers and pids of the slots in use. -/
structure Registered (table : Table) (nextpid : Int32) (h : Census) : Prop where
  next : nextpid = Int32.ofNat (h.count + 1)
  known : ∀ q, (table q).state ≠ .unused → h.tenant q < h.count
  distinct : ∀ q r, (table q).state ≠ .unused → (table r).state ≠ .unused → h.tenant q = h.tenant r → q = r
  pid : ∀ q, (table q).state ≠ .unused → (table q).pid = Int32.ofNat (h.tenant q + 1) ∧ h.pid q = (table q).pid
  exited : ∀ q, (table q).state ≠ .unused → (h.exited (h.tenant q) = true ↔ (table q).state = .zombie)
  unreaped : ∀ q, (table q).state ≠ .unused → h.reaped (h.tenant q) = false
  future : ∀ number, h.count ≤ number → h.exited number = false ∧ h.reaped number = false

namespace Registered

variable {table after : Table} {nextpid : Int32} {h : Census}

section

variable (registered : Registered table nextpid h)
include registered

theorem retable
    (kept : ∀ q, (after q).state ≠ .unused → (table q).state ≠ .unused ∧ (after q).pid = (table q).pid ∧
      ((after q).state = .zombie ↔ (table q).state = .zombie)) : Registered after nextpid h where
  next := registered.next
  known := fun q used => registered.known q (kept q used).1
  distinct := fun q r left right => registered.distinct q r (kept q left).1 (kept r right).1
  pid := by
    intro q used
    obtain ⟨before, same, _⟩ := kept q used
    rw [same]
    exact registered.pid q before
  exited := by
    intro q used
    obtain ⟨before, _, zombie⟩ := kept q used
    rw [zombie]
    exact registered.exited q before
  unreaped := fun q used => registered.unreaped q (kept q used).1
  future := registered.future

theorem revise {np : Slot} {new : Proc}
    (kept : new.state ≠ .unused → (table np).state ≠ .unused ∧ new.pid = (table np).pid ∧
      (new.state = .zombie ↔ (table np).state = .zombie)) : Registered (update table np new) nextpid h := by
  refine registered.retable ((forall_update_iff table fun q now => now.state ≠ .unused →
    (table q).state ≠ .unused ∧ now.pid = (table q).pid ∧ (now.state = .zombie ↔ (table q).state = .zombie)).mpr
    ⟨kept, fun q _ used => ⟨used, rfl, Iff.rfl⟩⟩)

theorem allocate {p np : Slot} {kind : Creation} {new : Proc} (state : new.state = .embryo) (pid : new.pid = nextpid) :
    Registered (update table np new) (nextpid + 1) (h.record nextpid (some (.allocate p np kind))) where
  next := by
    rw [registered.next]
    exact (ofNat_add (h.count + 1) 1).symm
  known := by
    intro q used
    by_cases same : q = np
    · subst same
      simp [record]
    · rw [update_of_ne same] at used
      simp only [record, update_of_ne same]
      exact Nat.lt_succ_of_lt (registered.known q used)
  distinct := by
    intro q r left right equal
    simp only [record] at equal
    by_cases mine : q = np
    · subst mine
      by_cases also : r = q
      · exact also.symm
      · rw [update_self, update_of_ne also] at equal
        rw [update_of_ne also] at right
        exact absurd (registered.known r right) (by omega)
    · rw [update_of_ne mine] at left equal
      by_cases also : r = np
      · subst also
        rw [update_self] at equal
        exact absurd (registered.known q left) (by omega)
      · rw [update_of_ne also] at right equal
        exact registered.distinct q r left right equal
  pid := by
    intro q used
    simp only [record]
    by_cases same : q = np
    · subst same
      rw [update_self, update_self, update_self, pid]
      exact ⟨registered.next, rfl⟩
    · rw [update_of_ne same] at used ⊢
      rw [update_of_ne same, update_of_ne same]
      exact registered.pid q used
  exited := by
    intro q used
    simp only [record]
    by_cases same : q = np
    · subst same
      rw [update_self, update_self, state, (registered.future h.count le_rfl).1]
      simp
    · rw [update_of_ne same] at used ⊢
      rw [update_of_ne same]
      exact registered.exited q used
  unreaped := by
    intro q used
    simp only [record]
    by_cases same : q = np
    · subst same
      rw [update_self]
      exact (registered.future h.count le_rfl).2
    · rw [update_of_ne same] at used
      rw [update_of_ne same]
      exact registered.unreaped q used
  future := fun number later => registered.future number (Nat.le_of_succ_le later)

theorem exit (initproc : Slot) {p : Slot} (running : (table p).state = .running) :
    Registered (exitTable table initproc p) nextpid (h.record nextpid (some (.exit p))) := by
  have used : (table p).state ≠ .unused := by simp [running]
  have mine := exitTable_self table initproc p
  have back {q : Slot} (now : (exitTable table initproc p q).state ≠ .unused) : (table q).state ≠ .unused := by
    by_cases same : q = p
    · rw [same]
      exact used
    · intro before
      cases (exitTable_other table initproc same).state with
      | inl kept => exact now (kept.trans before)
      | inr woken => exact absurd (before.symm.trans woken.1) (by simp)
  refine ⟨registered.next, fun q now => registered.known q (back now),
    fun q r left right => registered.distinct q r (back left) (back right), fun q now => ?_, fun q now => ?_,
    fun q now => registered.unreaped q (back now), fun number later => ⟨?_, (registered.future number later).2⟩⟩
  · have pid : (exitTable table initproc p q).pid = (table q).pid := by
      by_cases same : q = p
      · subst same
        rw [mine.2]
      · rw [(exitTable_other table initproc same).fields]
    rw [pid]
    exact registered.pid q (back now)
  · simp only [record]
    by_cases same : q = p
    · subst same
      simp [mine.1]
    · -- The other slots have other numbers, and exit only wakes them.
      have apart : h.tenant q ≠ h.tenant p := fun equal => same (registered.distinct q p (back now) used equal)
      rw [update_of_ne apart, registered.exited q (back now)]
      cases (exitTable_other table initproc same).state with
      | inl kept => rw [kept]
      | inr woken => simp [woken.1, woken.2]
  · have beyond : h.count ≤ number := later
    have apart : number ≠ h.tenant p := fun equal => absurd (registered.known p used) (by omega)
    simp only [record, update_of_ne apart]
    exact (registered.future number later).1

theorem reap {kind : Reaper} {p z : Slot} {new : Proc}
    (zombie : (table z).state = .zombie) (unused : new.state = .unused) :
    Registered (update table z new) nextpid (h.record nextpid (some (.reap kind p z))) := by
  have cleared : Registered (update table z new) nextpid h := registered.revise fun used => absurd unused used
  have used : (table z).state ≠ .unused := by simp [zombie]
  refine ⟨cleared.next, cleared.known, cleared.distinct, cleared.pid, cleared.exited, fun q now => ?_,
    fun number later => ⟨(cleared.future number later).1, ?_⟩⟩
  · have other : q ≠ z := by
      rintro rfl
      exact now (by rw [update_self, unused])
    have before : (table q).state ≠ .unused := by rwa [update_of_ne other] at now
    have apart : h.tenant q ≠ h.tenant z := fun equal => other (registered.distinct q z before used equal)
    simp only [record, update_of_ne apart]
    exact registered.unreaped q before
  · have beyond : h.count ≤ number := later
    have apart : number ≠ h.tenant z := fun equal => absurd (registered.known z used) (by omega)
    simp only [record, update_of_ne apart]
    exact (registered.future number later).2

end

end Registered

theorem Registered.step {s next : Procs} {h : Census} {op : Option LifeOp} (registered : Registered s.proc s.nextpid h)
    (step : LifeStep s op next) : Registered next.proc next.nextpid (h.record s.nextpid op) := by
  cases step with
  | calm _ calm =>
    rw [calm.nextpid]
    refine registered.retable fun q used => ⟨?_, (calm.fields q).pid, calm.zombie q⟩
    exact mt (calm.unused q).mpr used
  | allocate => exact registered.allocate rfl rfl
  | abandon _ _ _ _ _ unused => exact registered.revise fun used => absurd unused used
  | fork _ _ _ _ _ embryo | clone _ _ _ _ _ embryo =>
    exact registered.revise fun _ => ⟨by simp [embryo], rfl, Iff.rfl⟩
  | publish _ _ _ _ embryo =>
    exact registered.revise fun _ => ⟨by simp [embryo], rfl, by simp [embryo]⟩
  | exit _ running => exact registered.exit s.initproc running
  | reap kind _ _ _ _ _ zombie => exact registered.reap zombie (clear_state kind _)
  | fail => exact registered
  | statistics =>
    have state (q : Slot) := updateStatistics_state s.proc q
    have pid (q : Slot) : (updateStatistics s.proc q).pid = (s.proc q).pid := by rw [updateStatistics_fields]
    exact registered.retable fun q used => ⟨state q ▸ used, pid q, by rw [state q]⟩

/-- `c` is another process, alive, and made the one in `q`, or is initproc and the maker has exited. -/
structure Guards (s : Procs) (h : Census) (c q : Slot) : Prop where
  other : c ≠ q
  live : Live (s.proc c).state
  made : h.tenant c = h.creator q ∨ c = s.initproc ∧ h.exited (h.creator q) = true

/-- Parents. A call that has filled its new slot has made its caller the parent. -/
structure Kinship (s : Procs) (h : Census) : Prop where
  init : Live (s.proc s.initproc).state
  parent : ∀ q, Born (s.proc q).state → q ≠ s.initproc → ∃ c, (s.proc q).parent = some c ∧ Guards s h c q
  making : ∀ p np, (s.task p).child = some np → Live (s.proc p).state ∧ h.creator np = h.tenant p
  filled : ∀ p np, (s.task p).child = some np → (s.task p).maker = none → (s.proc np).parent = some p

theorem Guards.keep {s next : Procs} {h now : Census} {c q : Slot} (guards : Guards s h c q)
    (initproc : next.initproc = s.initproc) (live : Live (next.proc c).state) (tenant : now.tenant c = h.tenant c)
    (creator : now.creator q = h.creator q) (exited : h.exited (h.creator q) = true → now.exited (h.creator q) = true) :
    Guards next now c q := by
  refine ⟨guards.other, live, ?_⟩
  rw [tenant, creator, initproc]
  exact guards.made.imp_right fun orphan => ⟨orphan.1, exited orphan.2⟩

namespace Kinship

variable {s next : Procs} {h : Census} {new : Proc} {p np : Slot} {task : Slot → Task}

theorem calm (kin : Kinship s h) (calm : Calm s next) : Kinship next h where
  init := by
    rw [calm.initproc]
    exact calm.live kin.init
  parent := by
    intro q born other
    rw [calm.initproc] at other
    obtain ⟨c, parent, guards⟩ := kin.parent q ((calm.born q).mp born) other
    refine ⟨c, (calm.fields q).parent.trans parent, ?_⟩
    exact guards.keep calm.initproc (calm.live guards.live) rfl rfl id
  making := by
    intro p np child
    rw [(calm.task p).1] at child
    obtain ⟨live, made⟩ := kin.making p np child
    exact ⟨calm.live live, made⟩
  filled := by
    intro p np child maker
    rw [(calm.task p).1] at child
    rw [(calm.task p).2] at maker
    exact (calm.fields np).parent.trans (kin.filled p np child maker)

theorem revise (kin : Kinship s h) {np : Slot} (dead : ¬ Live (s.proc np).state)
    (parent : Born new.state → ∃ c, new.parent = some c ∧ Guards s h c np)
    (children : ∀ p q, (task p).child = some q → (s.task p).child = some q)
    (filled : ∀ p q, (task p).child = some q → (task p).maker = none → (update s.proc np new q).parent = some p) :
    Kinship { s with proc := update s.proc np new, task := task } h := by
  have live {c : Slot} (live : Live (s.proc c).state) : Live (update s.proc np new c).state := by
    have other : c ≠ np := fun same => dead (same ▸ live)
    rwa [update_of_ne other]
  refine ⟨live kin.init, fun q born other => ?_, fun p q child => ?_, filled⟩
  · by_cases same : q = np
    · subst same
      dsimp only at born ⊢
      rw [update_self] at born ⊢
      obtain ⟨c, mine, guards⟩ := parent born
      exact ⟨c, mine, guards.keep rfl (live guards.live) rfl rfl id⟩
    · dsimp only at born ⊢
      rw [update_of_ne same] at born ⊢
      obtain ⟨c, mine, guards⟩ := kin.parent q born other
      exact ⟨c, mine, guards.keep rfl (live guards.live) rfl rfl id⟩
  · obtain ⟨up, made⟩ := kin.making p q (children p q child)
    exact ⟨live up, made⟩

theorem returned (kin : Kinship s h) (parent : ∀ q, q ≠ p → (s.task q).child ≠ some np)
    (q r : Slot) (child : (update s.task p .user q).child = some r)
    (maker : (update s.task p .user q).maker = none) : (update s.proc np new r).parent = some q := by
  have caller : q ≠ p := by
    rintro rfl
    simp [Task.child] at child
  rw [update_of_ne caller] at child maker
  have other : r ≠ np := fun same => parent q caller (same ▸ child)
  rw [update_of_ne other]
  exact kin.filled q r child maker

theorem children_return {p : Slot} (q r : Slot) (child : (update task p .user q).child = some r) :
    (task q).child = some r := by
  have caller : q ≠ p := by
    rintro rfl
    simp [Task.child] at child
  rwa [update_of_ne caller] at child

section

variable (kin : Kinship s h)
include kin

theorem fill (child : (s.task p).child = some np) (embryo : (s.proc np).state = .embryo)
    (state : new.state = .embryo) (parent : new.parent = some p) (only : ∀ q, (s.task q).child = some np → q = p) : Kinship { s with
      proc := update s.proc np new, task := update s.task p (.filled np) } h := by
  refine kin.revise (by simp [embryo, Live]) (by simp [Born, state]) (fun q r mine => ?_) fun q r mine maker => ?_
  · by_cases same : q = p
    · subst same
      rw [update_self] at mine
      exact child.trans mine
    · rwa [update_of_ne same] at mine
  · by_cases same : q = p
    · subst same
      rw [update_self] at mine
      cases mine
      rw [update_self, parent]
    · rw [update_of_ne same] at mine maker
      have other : r ≠ np := fun equal => same (only q (equal ▸ mine))
      rw [update_of_ne other]
      exact kin.filled q r mine maker

theorem allocate {kind : Creation} {nextpid : Int32} (running : (s.proc p).state = .running)
    (unused : (s.proc np).state = .unused) (state : new.state = .embryo) (nobody : ∀ q, (s.task q).child ≠ some np) :
    Kinship { s with proc := update s.proc np new, task := update s.task p (.allocated kind np),
                     nextpid := nextpid } (h.record s.nextpid (some (.allocate p np kind))) := by
  have apart {c : Slot} (live : Live (s.proc c).state) : c ≠ np := by
    rintro rfl
    simp [unused, Live] at live
  have live {c : Slot} (live : Live (s.proc c).state) : Live (update s.proc np new c).state := by
    rwa [update_of_ne (apart live)]
  have tenant {c : Slot} (live : Live (s.proc c).state) : update h.tenant np h.count c = h.tenant c :=
    update_of_ne (apart live) _ _
  refine ⟨live kin.init, fun q born other => ?_, fun q r child => ?_, fun q r child maker => ?_⟩
  · dsimp only at born ⊢
    have same : q ≠ np := by
      rintro rfl
      simp [state, Born] at born
    rw [update_of_ne same] at born ⊢
    obtain ⟨c, parent, guards⟩ := kin.parent q born other
    exact ⟨c, parent, guards.keep rfl (live guards.live) (tenant guards.live) (update_of_ne same _ _) id⟩
  · dsimp only [record] at child ⊢
    by_cases same : q = p
    · subst same
      rw [update_self] at child
      cases child
      rw [update_self, tenant (.inl running)]
      exact ⟨live (.inl running), rfl⟩
    · rw [update_of_ne same] at child
      obtain ⟨up, made⟩ := kin.making q r child
      have other : r ≠ np := fun equal => nobody q (equal ▸ child)
      rw [update_of_ne other, tenant up]
      exact ⟨live up, made⟩
  · dsimp only at child maker ⊢
    by_cases same : q = p
    · subst same
      rw [update_self] at maker
      cases maker
    · rw [update_of_ne same] at child maker
      have other : r ≠ np := fun equal => nobody q (equal ▸ child)
      rw [update_of_ne other]
      exact kin.filled q r child maker

theorem exit {p : Slot} (running : (s.proc p).state = .running) (task : s.task p = .user)
    (mortal : p ≠ s.initproc) :
    Kinship { s with proc := exitTable s.proc s.initproc p } (h.record s.nextpid (some (.exit p))) := by
  have live {c : Slot} (other : c ≠ p) (live : Live (s.proc c).state) :
      Live (exitTable s.proc s.initproc p c).state :=
    live_woken (exitTable_other s.proc s.initproc other).state live
  have init := live mortal.symm kin.init
  refine ⟨init, fun q born other => ?_, fun q r child => ?_, fun q r child maker => ?_⟩
  · have before : Born (s.proc q).state := by
      by_cases same : q = p
      · simp [Born, same, running]
      · cases (exitTable_other s.proc s.initproc same).state with
        | inl kept => exact kept ▸ born
        | inr woken => simp [Born, woken.1]
    obtain ⟨c, parent, guards⟩ := kin.parent q before other
    rw [exitTable_parent]
    by_cases mine : (s.proc q).parent = some p
    · rw [if_pos mine]
      cases Option.some.inj (parent.symm.trans mine)
      refine ⟨s.initproc, rfl, Ne.symm other, init, .inr ⟨rfl, ?_⟩⟩
      cases guards.made with
      | inl made =>
        simp only [record, ← made]
        exact update_self ..
      | inr orphan => exact absurd orphan.1 mortal
    · rw [if_neg mine]
      have another : c ≠ p := fun same => mine (same ▸ parent)
      refine ⟨c, parent, guards.keep rfl (live another guards.live) rfl rfl fun gone => ?_⟩
      by_cases same : h.creator q = h.tenant p
      · simp only [record, same]
        exact update_self ..
      · simp only [record, update_of_ne same]
        exact gone
  · obtain ⟨up, made⟩ := kin.making q r child
    have caller : q ≠ p := by
      rintro rfl
      rw [show ({ s with proc := exitTable s.proc s.initproc q } : Procs).task q = .user from task] at child
      simp [Task.child] at child
    exact ⟨live caller up, made⟩
  · have caller : q ≠ p := by
      rintro rfl
      rw [show ({ s with proc := exitTable s.proc s.initproc q } : Procs).task q = .user from task] at child
      simp [Task.child] at child
    have parent := kin.filled q r child maker
    dsimp only
    rw [exitTable_parent, if_neg (by simp [parent, caller])]
    exact parent

theorem step {op : Option LifeOp} (step : LifeStep s op next) : Kinship next (h.record s.nextpid op) := by
  cases step with
  | calm _ calm => exact kin.calm calm
  | allocate _ _ _ _ running _ unused nobody => exact kin.allocate running unused rfl nobody
  | abandon _ _ _ _ embryo unused only =>
    refine kin.revise (by simp [embryo, Live]) (by simp [Born, unused]) children_return ?_
    exact kin.returned fun q other mine => other (only q mine)
  | fork _ _ _ _ task embryo only | clone _ _ _ _ task embryo only =>
    exact kin.fill (congrArg Task.child task) embryo embryo rfl only
  | publish p np running task embryo only =>
    have child : (s.task p).child = some np := congrArg Task.child task
    have parent := kin.filled p np child (congrArg Task.maker task)
    have apart : p ≠ np := fun same => absurd (running.symm.trans (same ▸ embryo)) (by simp)
    refine kin.revise (by simp [embryo, Live]) (fun _ => ⟨p, parent, apart, .inl running, .inl ?_⟩) children_return ?_
    · exact (kin.making p np child).2.symm
    · exact kin.returned fun q other mine => other (only q mine)
  | exit _ running task mortal => exact kin.exit running task mortal
  | reap kind p z _ _ _ zombie nobody =>
    have freed : Kinship { s with
        proc := update s.proc z (kind.clear (s.proc z)), task := update s.task p .user } h :=
      kin.revise (by simp [zombie, Live]) (by simp [Born, clear_state]) children_return
        (kin.returned fun q _ => nobody q)
    refine ⟨freed.init, fun q born other => ?_, freed.making, freed.filled⟩
    obtain ⟨c, parent, guards⟩ := freed.parent q born other
    exact ⟨c, parent, guards.other, guards.live, guards.made⟩
  | fail _ _ idle => exact kin.calm (.retask idle.child.symm idle.maker.symm (by simp))
  | statistics =>
    have state (q : Slot) := updateStatistics_state s.proc q
    have parent (q : Slot) : (updateStatistics s.proc q).parent = (s.proc q).parent := by
      rw [updateStatistics_fields]
    refine ⟨(state _).symm ▸ kin.init, fun q born other => ?_, fun p np child => ?_, fun p np child maker => ?_⟩
    · obtain ⟨c, mine, guards⟩ := kin.parent q (state q ▸ born) other
      exact ⟨c, (parent q).trans mine, guards.keep rfl ((state c).symm ▸ guards.live) rfl rfl id⟩
    · obtain ⟨live, made⟩ := kin.making p np child
      exact ⟨(state p).symm ▸ live, made⟩
    · exact (parent np).trans (kin.filled p np child maker)

end

end Kinship

variable {Cpu : Type} [DecidableEq Cpu]

def census (m : Machine Cpu) (event : Event Cpu) (_ : Machine Cpu) (h : Census) : Census := h.record m.nextpid (m.lifeOp event)

structure Enrolled (state : Machine Cpu × Census) : Prop where
  orderly : Orderly state.1
  registered : Registered state.1.proc state.1.nextpid state.2
  kin : Kinship state.1.procs state.2

/-- setscheduler is not called with the number of policies, in a machine with a history. -/
def SelectsKnown {γ : Type} (before : Machine Cpu × γ) (event : Event Cpu) (after : Machine Cpu × γ) : Prop :=
  KnownPolicy before.1 event after.1

section

variable {before after : Machine Cpu × Census} {event : Event Cpu}

/-- The one event in the life of the processes that a step is, in a state that
differs from the one before in no identity, parent or number. -/
theorem Enrolled.life (enrolled : Enrolled before) (stepped : withHistory Machine.step census before event = some after) :
    ∃ middle, Calm before.1.procs middle ∧ (∀ q, middle.proc q = { before.1.proc q with chan := (middle.proc q).chan }) ∧
      LifeStep middle (before.1.lifeOp event) after.1.procs ∧ Registered middle.proc middle.nextpid before.2 ∧ Kinship middle before.2 ∧
      after.2 = before.2.record middle.nextpid (before.1.lifeOp event) := by
  obtain ⟨moved, recorded⟩ := withHistory_step stepped
  obtain ⟨middle, calm, fields, step⟩ := step_life enrolled.orderly moved
  refine ⟨middle, calm, fields, step, enrolled.registered.step (.calm middle calm), enrolled.kin.calm calm, ?_⟩
  rw [recorded, calm.nextpid]
  rfl

theorem Enrolled.step (enrolled : Enrolled before) (known : SelectsKnown before event after)
    (stepped : withHistory Machine.step census before event = some after) : Enrolled after := by
  obtain ⟨_, _, _, step, registered, kin, recorded⟩ := enrolled.life stepped
  refine ⟨enrolled.orderly.step known (withHistory_step stepped).1, ?_, ?_⟩
  · rw [recorded]
    exact registered.step step
  · rw [recorded]
    exact kin.step step

end

omit [DecidableEq Cpu] in
theorem Enrolled.boot (policy : Scheduler.Policy) : Enrolled ((boot policy, .boot) : Machine Cpu × Census) := by
  have only (q : Slot) (used : ((Kernel.boot policy : Machine Cpu).proc q).state ≠ .unused) : q = 0 := by
    by_contra other
    exact used (by simp [Kernel.boot, other])
  refine ⟨.boot policy, ?_, ?_⟩
  · refine ⟨rfl, fun _ _ => Nat.one_pos, fun q r left right _ => (only q left).trans (only r right).symm,
      fun q used => ?_, fun q used => ?_, fun _ _ => rfl, fun _ _ => ⟨rfl, rfl⟩⟩
    · rw [only q used]
      exact ⟨rfl, rfl⟩
    · rw [only q used]
      simp [Census.boot, Kernel.boot]
  · refine ⟨.inr (.inl rfl), fun q born other => absurd (only q born.1) other, fun p np child => ?_,
      fun p np child => ?_⟩
    · cases child
    · cases child

/-- Processes are told apart by their pids, and parents are processes that have not exited. -/
structure Identified (m : Machine Cpu) : Prop where
  distinct : ∀ q r, (m.proc q).state ≠ .unused → (m.proc r).state ≠ .unused → q ≠ r → (m.proc q).pid ≠ (m.proc r).pid
  below : ∀ q, (m.proc q).state ≠ .unused → (m.proc q).pid < m.nextpid
  parent : ∀ q, Born (m.proc q).state → q ≠ m.initproc → ∃ c, (m.proc q).parent = some c ∧ Live (m.proc c).state
  init : Live (m.proc m.initproc).state

omit [DecidableEq Cpu] in
theorem Enrolled.identified {m : Machine Cpu} {h : Census} (enrolled : Enrolled (m, h)) (few : h.count < 2 ^ 31 - 1) :
    Identified m := by
  have registered := enrolled.registered
  have number (q : Slot) (used : (m.proc q).state ≠ .unused) : (m.proc q).pid.toInt = (h.tenant q : Int) + 1 := by
    have known : h.tenant q < h.count := registered.known q used
    have wide : h.tenant q + 1 < 2 ^ 31 := by omega
    rw [(registered.pid q used).1]
    exact toInt_ofNat_of_lt wide
  refine ⟨fun q r left right other same => ?_, fun q used => ?_, fun q born other => ?_, enrolled.kin.init⟩
  · refine other (registered.distinct q r left right ?_)
    have numbers := congrArg toInt same
    rw [number q left, number r right] at numbers
    change h.tenant q = h.tenant r
    omega
  · have next : m.nextpid.toInt = (h.count : Int) + 1 := by
      rw [registered.next]
      exact toInt_ofNat_of_lt (by change h.count + 1 < 2 ^ 31; omega)
    have known : h.tenant q < h.count := registered.known q used
    rw [lt_iff_toInt_lt, number q used, next]
    omega
  · obtain ⟨c, parent, guards⟩ := enrolled.kin.parent q born other
    exact ⟨c, parent, guards.live⟩

/-- In every run with fewer than 2^31 - 1 allocations, userinit's included, pids
tell the processes apart and every parent pointer leads to a live process. -/
theorem process_identity {policy : Scheduler.Policy} {events : List (Event Cpu)} {m : Machine Cpu} {h : Census}
    (known : EveryStep (withHistory Machine.step census) SelectsKnown (boot policy, .boot) events)
    (ran : run (withHistory Machine.step census) (boot policy, .boot) events = some (m, h))
    (few : h.count < 2 ^ 31 - 1) : Identified m := by
  have enrolled := (runs_along Enrolled (.boot policy) known
    fun _ _ _ enrolled known stepped => ⟨enrolled.step known stepped, trivial⟩).2 (m, h) ran
  exact enrolled.identified few

instance {γ : Type} (before after : Machine Cpu × γ) (event : Event Cpu) : Decidable (SelectsKnown before event after) :=
  inferInstanceAs (Decidable (KnownPolicy before.1 event after.1))

/-- init forks process 2, which forks process 3 on the other CPU and exits while init waits. -/
def orphan : List (Event Bool) :=
  [.dispatch false none, .resume false, .act false .fork, .act false (.kstack (some 3)),
    .act false (.copyuvm (some 4)), .act false .ready, .dispatch true none, .resume true, .act true .fork,
    .act true (.kstack (some 5)), .act true (.copyuvm (some 6)), .act true .ready, .act false (.wait .wait),
    .retire false, .act true .exit, .retire true]

theorem process_identity_orphan : EveryStep (withHistory Machine.step census) SelectsKnown (boot .default, .boot) orphan ∧
    ∃ m h, run (withHistory Machine.step census) (boot .default, .boot) orphan = some (m, h) ∧
      h.count = 3 ∧ m.lock = none ∧ (m.proc 1).state = .zombie ∧ (m.proc 2).parent = some 0 ∧ Identified m := by
  have known : EveryStep (withHistory Machine.step census) SelectsKnown (boot .default, .boot) orphan := by
    decide +kernel
  have reached : (run (withHistory Machine.step census) (boot .default, .boot) orphan).map
      (fun state => (state.2.count, state.1.lock, (state.1.proc 1).state, (state.1.proc 2).parent)) =
        some (3, none, .zombie, some 0) := by decide +kernel
  obtain ⟨⟨m, h⟩, ran, same⟩ := Option.map_eq_some_iff.mp reached
  simp only [Prod.mk.injEq] at same
  obtain ⟨count, free, dead, adopted⟩ := same
  exact ⟨known, m, h, ran, count, free, dead, adopted, process_identity known ran (by omega)⟩

end Xv6.Kernel
