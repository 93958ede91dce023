import Xv6.Data.Sharing
import Xv6.Kernel.Stacks

namespace Xv6.Kernel

open Process Data Function Option Prod
open Machine (step)

/-! Who owns which address space. clone gives the new process the page directory
of its caller, wait and wait2 free that of any child, join frees none, and exec
frees the old one of its caller. -/

/-- The processes that share an address space, as fork, clone and exec made them
share it, form a family. An exec in progress owns the page directory it builds. -/
structure Ledger where
  space : Slot → Option (Nat × Page)
  image : Slot → Option (Nat × Page)
  thread : Slot → Bool
  next : Nat

namespace Ledger

def boot : Ledger where
  space := fun p => if p = 0 then some (0, 1) else none
  image := fun _ => none
  thread := fun _ => false
  next := 1

variable (h : Ledger)

def held : Slot ⊕ Slot → Option (Nat × Page) := Sum.elim h.space h.image

def family (q : Slot) : Option Nat := (h.space q).map Prod.fst

def apply : SpaceOp → Ledger
  | .fork np dir => { h with
      space := update h.space np (some (h.next, dir)), thread := update h.thread np false,
      next := h.next + 1 }
  | .clone p np => { h with
      space := update h.space np (h.space p), thread := update h.thread np true }
  | .exit _ => h
  | .reap _ z => { h with space := update h.space z none }
  | .load p dir => { h with image := update h.image p (some (h.next, dir)), next := h.next + 1 }
  | .unload p => { h with image := update h.image p none }
  | .switch p => { h with
      space := update h.space p (h.image p), image := update h.image p none,
      thread := update h.thread p false }

def record : Option SpaceOp → Ledger
  | none => h
  | some op => h.apply op

theorem held_fork (np : Slot) (dir : Page) : (h.apply (.fork np dir)).held = update h.held (.inl np) (some (h.next, dir)) :=
  Sum.update_elim_inl.symm

theorem held_clone (p np : Slot) : (h.apply (.clone p np)).held = update h.held (.inl np) (h.held (.inl p)) :=
  Sum.update_elim_inl.symm

theorem held_reap (kind : Reaper) (z : Slot) : (h.apply (.reap kind z)).held = update h.held (.inl z) none :=
  Sum.update_elim_inl.symm

theorem held_load (p : Slot) (dir : Page) : (h.apply (.load p dir)).held = update h.held (.inr p) (some (h.next, dir)) :=
  Sum.update_elim_inr.symm

theorem held_unload (p : Slot) : (h.apply (.unload p)).held = update h.held (.inr p) none := Sum.update_elim_inr.symm

theorem held_switch (p : Slot) : (h.apply (.switch p)).held =
    update (update h.held (.inl p) (h.held (.inr p))) (.inr p) none := by
  unfold held
  rw [Sum.update_elim_inl, Sum.update_elim_inr]
  rfl

/-- No other process is in the family of `p`. -/
def Single (p : Slot) : Prop := ∀ q, q ≠ p → h.family q ≠ h.family p

end Ledger

/-- State and page directory of a slot against its entry. -/
structure Housed (state : Slot → ProcState) (pgdir : Slot → Page) (space : Slot → Option (Nat × Page)) : Prop where
  holds : ∀ q family dir, space q = some (family, dir) → pgdir q = dir ∧ state q ≠ .unused
  born : ∀ q, Born (state q) → space q ≠ none

/-- Calls in progress against the entries they are about. -/
structure Called (task : Slot → Task) (space image : Slot → Option (Nat × Page)) : Prop where
  exec : ∀ p, (image p).map Prod.snd = (task p).image
  child : ∀ p np, (task p).child = some np → (space np ≠ none ↔ (task p).hasSpace = true)

/-- A page directory under construction belongs to one exec, and a zombie that
clone did not make is the last of its family. -/
structure Solitary (state : Slot → ProcState) (h : Ledger) : Prop where
  image : ∀ p, Alone h.held (.inr p)
  zombie : ∀ z, state z = .zombie → h.thread z = false → Alone h.held (.inl z)

variable {pgdir : Slot → Page} {new : ProcState}

theorem Housed.revise {state : Slot → ProcState} {space : Slot → Option (Nat × Page)}
    (housed : Housed state pgdir space) {s : Slot} {page : Page} {entry : Option (Nat × Page)}
    (holds : ∀ family dir, entry = some (family, dir) → page = dir ∧ new ≠ .unused) (born : Born new → entry ≠ none) :
    Housed (update state s new) (update pgdir s page) (update space s entry) := by
  constructor
  · intro q family dir entered
    by_cases same : q = s
    · subst same
      rw [update_self] at entered ⊢
      rw [update_self]
      exact holds family dir entered
    · rw [update_of_ne same] at entered ⊢
      rw [update_of_ne same]
      exact housed.holds q family dir entered
  · intro q alive
    by_cases same : q = s
    · subst same
      rw [update_self] at alive ⊢
      exact born alive
    · rw [update_of_ne same] at alive ⊢
      exact housed.born q alive

theorem Housed.restate {state : Slot → ProcState} {space : Slot → Option (Nat × Page)}
    (housed : Housed state pgdir space) {s : Slot} (used : space s ≠ none → new ≠ .unused)
    (born : Born new → space s ≠ none) : Housed (update state s new) pgdir space := by
  have moved : Housed (update state s new) (update pgdir s (pgdir s))
      (update space s (space s)) := by
    refine housed.revise (fun family dir entered => ⟨(housed.holds s family dir entered).1, used ?_⟩) born
    simp [entered]
  simpa only [update_eq_self] using moved

variable {space image : Slot → Option (Nat × Page)} {task : Slot → Task} {now : Task}

section

variable (called : Called task space image)
include called

theorem Called.revise {p s : Slot} {entry picture : Option (Nat × Page)} (exec : picture.map Prod.snd = now.image)
    (child : ∀ np, now.child = some np → (update space s entry np ≠ none ↔ now.hasSpace = true))
    (others : ∀ q, q ≠ p → (task q).child = some s → (entry ≠ none ↔ (task q).hasSpace = true)) :
    Called (update task p now) (update space s entry) (update image p picture) := by
  constructor
  · intro q
    by_cases same : q = p
    · subst same
      rw [update_self, update_self]
      exact exec
    · rw [update_of_ne same, update_of_ne same]
      exact called.exec q
  · intro q np mine
    by_cases same : q = p
    · subst same
      rw [update_self] at mine ⊢
      exact child np mine
    · rw [update_of_ne same] at mine ⊢
      by_cases target : np = s
      · subst target
        rw [update_self]
        exact others q same mine
      · rw [update_of_ne target]
        exact called.child q np mine

theorem Called.building {p : Slot} {dir : Page} (exec : task p = .exec dir) :
    ∃ family, image p = some (family, dir) := by
  have built := called.exec p
  rw [exec] at built
  obtain ⟨⟨family, _⟩, entered, same⟩ := Option.map_eq_some_iff.mp built
  cases same
  exact ⟨family, entered⟩

theorem Called.retask {p : Slot} (exec : now.image = (task p).image)
    (child : ∀ np, now.child = some np → (space np ≠ none ↔ now.hasSpace = true)) :
    Called (update task p now) space image := by
  have moved : Called (update task p now) (update space p (space p))
      (update image p (image p)) := by
    refine called.revise ((called.exec p).trans exec.symm) ?_ fun q _ mine => called.child q p mine
    rwa [update_eq_self]
  simpa only [update_eq_self] using moved

end

namespace Solitary

variable {state after : Slot → ProcState} {h : Ledger} {valid : Page → Prop} {p np : Slot} {dir : Page}

section

variable (solitary : Solitary state h)
include solitary

theorem restate (zombie : ∀ z, after z = .zombie → state z = .zombie ∨ (h.thread z = false → Alone h.held (.inl z))) :
    Solitary after h where
  image := solitary.image
  zombie := by
    intro z dead root
    cases zombie z dead with
    | inl before => exact solitary.zombie z before root
    | inr alone => exact alone root

theorem alone (single : h.Single p) : Alone h.held (.inl p) := by
  intro other different group mine theirs holds also
  cases other with
  | inl q =>
    have apart : q ≠ p := fun same => different (congrArg Sum.inl same)
    have left : h.space p = some (group, mine) := holds
    have right : h.space q = some (group, theirs) := also
    exact single q apart (by simp [Ledger.family, left, right])
  | inr r => exact solitary.image r (.inl p) (by simp) group theirs mine also holds

theorem last {z : Slot} (zombie : state z = .zombie) (joined : h.thread z = true → h.Single z) : Alone h.held (.inl z) := by
  cases thread : h.thread z with
  | false => exact solitary.zombie z zombie thread
  | true => exact solitary.alone (joined thread)

theorem fork (sharing : Sharing valid h.held h.next) (young : state np ≠ .zombie) :
    Solitary state (h.apply (.fork np dir)) := by
  constructor
  · intro r
    rw [Ledger.held_fork]
    exact (solitary.image r).acquire sharing (by simp)
  · intro z dead root
    have other : z ≠ np := fun same => young (same ▸ dead)
    rw [Ledger.held_fork]
    have before : h.thread z = false := by
      simpa [Ledger.apply, update_of_ne other] using root
    exact (solitary.zombie z dead before).acquire sharing (by simpa using other.symm)

theorem clone (alive : state p ≠ .zombie) (young : state np ≠ .zombie) :
    Solitary state (h.apply (.clone p np)) := by
  constructor
  · intro r
    rw [Ledger.held_clone]
    exact (solitary.image r).share (by simp) (by simp)
  · intro z dead root
    have other : z ≠ np := fun same => young (same ▸ dead)
    have source : p ≠ z := fun same => alive (same ▸ dead)
    rw [Ledger.held_clone]
    have before : h.thread z = false := by
      simpa [Ledger.apply, update_of_ne other] using root
    exact (solitary.zombie z dead before).share (by simpa using source) (by simpa using other.symm)

theorem reap (kind : Reaper) (z : Slot) : Solitary state (h.apply (.reap kind z)) := by
  constructor
  · intro r
    rw [Ledger.held_reap]
    exact (solitary.image r).drop _
  · intro q dead root
    rw [Ledger.held_reap]
    exact (solitary.zombie q dead root).drop _

theorem load (sharing : Sharing valid h.held h.next) : Solitary state (h.apply (.load p dir)) := by
  constructor
  · intro r
    rw [Ledger.held_load]
    by_cases same : r = p
    · subst same
      exact .of_acquire sharing
    · exact (solitary.image r).acquire sharing (by simpa using Ne.symm same)
  · intro z dead root
    rw [Ledger.held_load]
    exact (solitary.zombie z dead root).acquire sharing (by simp)

theorem unload : Solitary state (h.apply (.unload p)) := by
  constructor
  · intro r
    rw [Ledger.held_unload]
    exact (solitary.image r).drop _
  · intro z dead root
    rw [Ledger.held_unload]
    exact (solitary.zombie z dead root).drop _

theorem switch (alive : state p ≠ .zombie) : Solitary state (h.apply (.switch p)) := by
  constructor
  · intro r
    rw [Ledger.held_switch]
    by_cases same : r = p
    · subst same
      intro other _ group mine theirs holds
      simp at holds
    · exact ((solitary.image r).share (by simpa using Ne.symm same) (by simp)).drop _
  · intro z dead root
    have other : z ≠ p := fun same => alive (same ▸ dead)
    rw [Ledger.held_switch]
    have before : h.thread z = false := by
      simpa [Ledger.apply, update_of_ne other] using root
    exact ((solitary.zombie z dead before).share (by simp) (by simpa using other.symm)).drop _

end

end Solitary

variable {Cpu : Type}

structure Books (m : Machine Cpu) (h : Ledger) : Prop where
  sharing : Sharing (fun page => m.pages page = .dir) h.held h.next
  housed : Housed m.states m.pgdirs h.space
  called : Called m.task h.space h.image
  solitary : Solitary m.states h
  stacked : Stacked m

/-- Every fork or clone in progress has set the page directory of its new slot. -/
def Settled (m : Machine Cpu) (h : Ledger) : Prop := ∀ q, m.states q = .embryo → h.family q ≠ none

/-- A process that clone did not make exits, and any process calls exec, only as
the last of its family, and wait and wait2 meet a zombie that clone made only if it
is the last. While freevm runs no fork or clone is between its allocproc and its
page directory. -/
def Ledger.Permits (h : Ledger) (m : Machine Cpu) : Option SpaceOp → Prop
  | some (.reap kind z) => kind.freesSpace = true → (h.thread z = true → h.Single z) ∧ Settled m h
  | some (.exit p) => h.thread p = false → h.Single p
  | some (.unload _) => Settled m h
  | some (.switch p) => h.Single p ∧ Settled m h
  | _ => True

namespace Books

variable {m next : Machine Cpu} {h : Ledger} {op : Option SpaceOp} {page : Page} {q : Slot}

section

variable (books : Books m h)
include books

theorem entry (held : h.space q ≠ none) : ∃ family, h.space q = some (family, m.pgdirs q) := by
  obtain ⟨⟨family, dir⟩, entered⟩ := Option.ne_none_iff_exists'.mp held
  have same := (books.housed.holds q family dir entered).1
  exact ⟨family, by rw [same]; exact entered⟩

theorem resident (q : Slot) (born : Born (m.states q)) :
    ∃ family, h.space q = some (family, m.pgdirs q) := books.entry (books.housed.born q born)

/-- When everybody has a page directory, nobody else points at one that has a single owner. -/
theorem unshared (settled : Settled m h) {owner : Slot ⊕ Slot} (alone : Alone h.held owner) {family : Nat}
    (holds : h.held owner = some (family, page)) (other : Sum.inl q ≠ owner) (used : m.states q ≠ .unused) : m.pgdirs q ≠ page := by
  have held : h.space q ≠ none := by
    -- An EMBRYO slot is in use but has an entry only once its page directory is set.
    by_cases embryo : m.states q = .embryo
    · simpa [Ledger.family] using settled q embryo
    · exact books.housed.born q ⟨used, embryo⟩
  obtain ⟨_, entered⟩ := books.entry held
  rintro rfl
  exact books.sharing.exclusive alone holds other entered

theorem freed {taken : SpaceOp} (change : SpaceChange m (some taken) next)
    (permits : h.Permits m (some taken)) {who : Option Slot} (frees : m.freevm taken = some (who, page)) :
    Settled m h ∧ ∃ owner family, h.held owner = some (family, page) ∧ Alone h.held owner ∧
      ∀ q, who ≠ some q → Sum.inl q ≠ owner := by
  cases change with
  | reap _ z zombie =>
    simp only [Machine.freevm, guarded, mk.injEq] at frees
    obtain ⟨given, rfl, rfl⟩ := frees
    obtain ⟨joined, settled⟩ := permits given
    obtain ⟨family, entered⟩ := books.resident z (by simp [Born, zombie])
    exact ⟨settled, .inl z, family, entered, books.solitary.last zombie joined, by simp [eq_comm]⟩
  | unload p _ task =>
    simp only [Machine.freevm, task, Task.image, map_some, some.injEq, mk.injEq] at frees
    obtain ⟨rfl, rfl⟩ := frees
    obtain ⟨family, entered⟩ := books.called.building task
    exact ⟨permits, .inr p, family, entered, books.solitary.image p, by simp⟩
  | switch p _ _ running =>
    obtain ⟨rfl, rfl⟩ := frees
    obtain ⟨single, settled⟩ := permits
    obtain ⟨family, entered⟩ := books.resident p (by simp [Born, running])
    exact ⟨settled, .inl p, family, entered, books.solitary.alone single, by simp [eq_comm]⟩
  | fork | clone | exit | load => simp [Machine.freevm] at frees

theorem dirs (change : SpaceChange m op next) (permits : h.Permits m op) (taken : SpaceOp)
    (took : op = some taken) (who : Option Slot) (page : Page) (frees : m.freevm taken = some (who, page)) :
    m.pages page = .dir := by
  subst took
  obtain ⟨-, owner, family, holds, -⟩ := books.freed change permits frees
  exact books.sharing.valid owner family page holds

theorem quiet (quiet : Quiet m next) : Books next h where
  sharing := by
    rw [quiet.pages]
    exact books.sharing
  housed := by
    constructor
    · intro q family dir entered
      obtain ⟨same, used⟩ := books.housed.holds q family dir entered
      exact ⟨(quiet.pgdir q).trans same, mt (quiet.unused q).mp used⟩
    · intro q born
      exact books.housed.born q ⟨mt (quiet.unused q).mpr born.1, mt (quiet.embryo q).mpr born.2⟩
  called := by
    constructor
    · intro p
      rw [(quiet.tasks p).2.1]
      exact books.called.exec p
    · intro p np child
      obtain ⟨children, -, -, space⟩ := quiet.tasks p
      rw [children] at child
      rw [space]
      exact books.called.child p np child
  solitary := books.solitary.restate fun z dead => .inl ((quiet.zombie z).mp dead)
  stacked := books.stacked.quiet quiet

theorem repage {use : PageUse} (plain : m.pages page ≠ .dir) :
    Sharing (fun other => update m.pages page use other = .dir) h.held h.next := by
  refine books.sharing.imp fun _ _ other _ dir => ?_
  have different : other ≠ page := fun same => plain (same ▸ dir)
  rwa [update_of_ne different]

section

variable (change : SpaceChange m op next)
include change

theorem sharing_change (permits : h.Permits m op) :
    Sharing (fun page => next.pages page = .dir) (h.record op).held (h.record op).next := by
  have acquired {dir : Page} (fresh : m.pages dir = .free) (other : Page) (before : m.pages other = .dir) :
      update m.pages dir .dir other = .dir := by
    by_cases same : other = dir
    · rw [same, update_self]
    · rwa [update_of_ne same]
  cases change with
  | same | allocate | noStack | ready | exit => exact books.sharing
  | page _ _ plain =>
    refine books.repage ?_
    obtain ⟨before, -⟩ | ⟨before, -⟩ := plain
    · simp [before]
    · simp [before]
  | stack _ _ _ _ _ _ fresh => exact books.repage (by simp [fresh])
  | noCopy p np task =>
    have given := books.stacked.based.child p np (by rw [task]; rfl) (by rw [task]; rfl)
    exact books.repage (by simp [books.stacked.owned.role np given])
  | fork _ _ _ _ _ _ fresh =>
    change Sharing _ (h.apply _).held _
    rw [Ledger.held_fork]
    exact books.sharing.acquire (by simp [fresh]) (acquired fresh) (update_self ..)
  | clone =>
    change Sharing _ (h.apply _).held _
    rw [Ledger.held_clone]
    exact books.sharing.share _
  | reap kind z zombie =>
    have role := books.stacked.owned.role z (books.stacked.based.born z (by simp [Born, zombie]))
    have unstacked : Sharing (fun page => update m.pages (m.kstacks z) .free page = .dir) h.held h.next :=
      books.repage (by simp [role])
    change Sharing (fun page => (m.freeZombie kind z).pages page = .dir) (h.apply _).held h.next
    rw [Ledger.held_reap, freeZombie_pages]
    by_cases frees : kind.freesSpace = true
    · obtain ⟨family, entered⟩ := books.resident z (by simp [Born, zombie])
      have alone := books.solitary.last zombie (permits frees).1
      simp only [if_pos frees]
      refine unstacked.release alone entered fun other different dir => ?_
      rwa [update_of_ne different]
    · simp only [if_neg frees]
      exact unstacked.drop
  | load _ _ _ fresh =>
    change Sharing _ (h.apply _).held _
    rw [Ledger.held_load]
    exact books.sharing.acquire (by simp [fresh]) (acquired fresh) (update_self ..)
  | unload p dir task =>
    obtain ⟨family, entered⟩ := books.called.building task
    change Sharing _ (h.apply _).held _
    rw [Ledger.held_unload]
    refine books.sharing.release (books.solitary.image p) entered fun other different valid => ?_
    change update m.pages dir .free other = .dir
    rwa [update_of_ne different]
  | switch p dir _ running =>
    obtain ⟨_, entered⟩ := books.resident p (by simp [Born, running])
    have alone := books.solitary.alone permits.1
    -- The old directory is given up first, then `p` takes over the one exec built.
    have released : Sharing (fun page => update m.pages (m.pgdirs p) .free page = .dir)
        (update h.held (.inl p) none) h.next :=
      books.sharing.release alone entered fun other different dir => by rwa [update_of_ne different]
    have joined : Sharing (fun page => update m.pages (m.pgdirs p) .free page = .dir)
        (update (update (update h.held (.inl p) none) (.inl p)
          (update h.held (.inl p) none (.inr p))) (.inr p) none) h.next :=
      (released.share (.inr p)).drop
    rw [update_idem, update_of_ne (by simp)] at joined
    change Sharing _ (h.apply _).held _
    rw [Ledger.held_switch]
    exact joined

theorem solitary_change (permits : h.Permits m op) :
    Solitary next.states (h.record op) := by
  have solitary := books.solitary
  have young {s : Slot} {new : ProcState} (young : new ≠ .zombie) (z : Slot)
      (dead : update m.states s new z = .zombie) : m.states z = .zombie := by
    have other : z ≠ s := by
      rintro rfl
      exact young (by simpa using dead)
    rwa [update_of_ne other] at dead
  cases change with
  | same | page => exact solitary
  | allocate | noStack | noCopy | ready =>
    rw [states_setTask, states_setProc]
    exact solitary.restate fun z dead => .inl (young (by simp) z dead)
  | stack =>
    rw [states_setTask, states_setProc_same _ _ rfl]
    exact solitary
  | fork _ _ _ _ embryo =>
    rw [states_setTask, states_setProc_same _ _ rfl]
    exact solitary.fork books.sharing (by simp [embryo])
  | clone _ _ _ _ embryo _ running =>
    rw [states_setTask, states_setProc_same _ _ rfl]
    exact solitary.clone (by simp [running]) (by simp [embryo])
  | exit p =>
    rw [states_setProc]
    refine solitary.restate fun z dead => ?_
    by_cases same : z = p
    · subst same
      exact .inr fun root => solitary.alone (permits root)
    · rw [update_of_ne same] at dead
      exact .inl dead
  | reap kind z =>
    rw [states_reap]
    exact (solitary.reap kind z).restate fun q dead => .inl (young (by simp) q dead)
  | load => exact solitary.load books.sharing
  | unload => exact solitary.unload
  | switch _ _ _ running =>
    rw [states_setTask, states_setProc_same _ _ rfl]
    exact solitary.switch (by simp [running])

theorem housed_change :
    Housed next.states next.pgdirs (h.record op).space := by
  have housed := books.housed
  have missing {p np : Slot} (child : (m.task p).child = some np) (early : (m.task p).hasSpace = false) :
      h.space np = none := by
    by_contra held
    exact absurd ((books.called.child p np child).mp held) (by simp [early])
  cases change with
  | same | page | load | unload => exact housed
  | allocate _ np =>
    rw [states_setTask, states_setProc, pgdirs_setTask, pgdirs_setProc_same m np rfl]
    exact housed.restate (by simp) (by simp [Born])
  | noStack _ np _ task =>
    have none : h.space np = none := missing (by rw [task]; rfl) (by rw [task]; rfl)
    rw [states_setTask, states_setProc, pgdirs_setTask, pgdirs_setProc_same m np rfl]
    exact housed.restate (absurd none) (by simp [Born])
  | stack =>
    rw [states_setTask, states_setProc_same _ _ rfl, pgdirs_setTask, pgdirs_setProc_same _ _ rfl]
    exact housed
  | noCopy _ np task =>
    have none : h.space np = none := missing (by rw [task]; rfl) (by rw [task]; rfl)
    rw [states_setTask, states_setProc, pgdirs_setTask, pgdirs_setProc]
    have moved : Housed (update m.states np .unused) (update m.pgdirs np 0)
        (update h.space np (h.space np)) :=
      housed.revise (by simp [none]) (by simp [Born])
    rwa [update_eq_self] at moved
  | fork _ np dir _ embryo =>
    rw [states_setTask, states_setProc, pgdirs_setTask, pgdirs_setProc]
    refine housed.revise (fun family page entered => ?_) (by simp)
    cases entered
    exact ⟨rfl, by rw [show ((m.setPage dir .dir).proc np).state = .embryo from embryo]; simp⟩
  | clone p np _ _ embryo _ running =>
    rw [states_setTask, states_setProc, pgdirs_setTask, pgdirs_setProc]
    refine housed.revise (fun family page entered => ?_) fun _ => housed.born p (by simp [Born, running])
    refine ⟨(housed.holds p family page entered).1, ?_⟩
    rw [show (m.proc np).state = .embryo from embryo]
    simp
  | ready p np task =>
    have held := (books.called.child p np (by rw [task]; rfl)).mpr (by rw [task]; rfl)
    rw [states_setTask, states_setProc, pgdirs_setTask, pgdirs_setProc_same m np rfl]
    exact housed.restate (by simp) fun _ => held
  | exit p running =>
    rw [states_setProc, pgdirs_setProc_same m p rfl]
    exact housed.restate (by simp) fun _ => housed.born p (by simp [Born, running])
  | reap _ z =>
    rw [states_reap, pgdirs_reap]
    have moved : Housed (update m.states z .unused) (update m.pgdirs z (m.pgdirs z))
        (update h.space z none) := housed.revise (by simp) (by simp [Born])
    rwa [update_eq_self] at moved
  | switch p _ task running =>
    rw [states_setTask, states_setProc, pgdirs_setTask, pgdirs_setProc]
    obtain ⟨_, entered⟩ := books.called.building task
    refine housed.revise (fun other page again => ?_) (by simp [entered])
    rw [entered] at again
    cases again
    exact ⟨rfl, by rw [show ((m.setPage (m.pgdirs p) .free).proc p).state = .running from running]; simp⟩

theorem called_change :
    Called next.task (h.record op).space (h.record op).image := by
  have called := books.called
  cases change with
  | same | page | exit => exact called
  | allocate _ np _ task unused =>
    refine called.retask (by rw [task]; rfl) fun c child => ?_
    cases child
    have none : h.space np = none := by
      by_contra held
      obtain ⟨⟨family, dir⟩, entered⟩ := Option.ne_none_iff_exists'.mp held
      exact (books.housed.holds np family dir entered).2 unused
    simp [none, Task.hasSpace]
  | noStack _ _ _ task | noCopy _ _ task | ready _ _ task => exact called.retask (by rw [task]; rfl) (by simp [Task.child])
  | stack p np _ _ task =>
    refine called.retask (by rw [task]; rfl) fun c child => ?_
    cases child
    have before := called.child p np (by rw [task]; rfl)
    rw [task] at before
    exact before
  | fork p np dir task _ only =>
    have moved : Called (update m.task p (.filled np))
        (update h.space np (some (h.next, dir))) (update h.image p (h.image p)) := by
      refine called.revise ?_ (fun c child => ?_) fun q other child => absurd (only q child) other
      · rw [called.exec p, task]
        rfl
      · cases child
        simp [Task.hasSpace]
    rwa [update_eq_self] at moved
  | clone p np _ task _ only running =>
    have held := books.housed.born p (by simp [Born, running])
    have moved : Called (update m.task p (.filled np))
        (update h.space np (h.space p)) (update h.image p (h.image p)) := by
      refine called.revise ?_ (fun c child => ?_) fun q other child => absurd (only q child) other
      · rw [called.exec p, task]
        rfl
      · cases child
        simp [Task.hasSpace, held]
    rwa [update_eq_self] at moved
  | reap kind z zombie nobody =>
    change Called (m.freeZombie kind z).task (update h.space z none) h.image
    rw [(freeZombie_same m z kind).2]
    refine ⟨called.exec, fun p np child => ?_⟩
    -- A slot that a call is setting up is EMBRYO and not the zombie.
    have other : np ≠ z := fun same => nobody p (same ▸ child)
    rw [update_of_ne other]
    exact called.child p np child
  | load p dir task =>
    have moved : Called (update m.task p (.exec dir)) (update h.space p (h.space p))
        (update h.image p (some (h.next, dir))) :=
      called.revise rfl (by simp [Task.child]) fun q _ child => called.child q p child
    rwa [update_eq_self] at moved
  | unload p _ task =>
    have moved : Called (update m.task p .user) (update h.space p (h.space p))
        (update h.image p none) :=
      called.revise rfl (by simp [Task.child]) fun q _ child => called.child q p child
    rwa [update_eq_self] at moved
  | switch p _ task running =>
    refine called.revise rfl (by simp [Task.child]) fun q _ child => ?_
    obtain ⟨_, entered⟩ := called.building task
    rw [← called.child q p child]
    have held := books.housed.born p (by simp [Born, running])
    simp [entered, held]

end

theorem change (change : SpaceChange m op next) (permits : h.Permits m op) : Books next (h.record op) where
  sharing := books.sharing_change change permits
  housed := books.housed_change change
  called := books.called_change change
  solitary := books.solitary_change change permits
  stacked := ⟨books.stacked.owned_change change (books.dirs change permits), books.stacked.based_change change⟩

theorem live (live : Live (m.states q)) : m.pages (m.pgdirs q) = .dir := by
  have born : Born (m.states q) := by
    obtain state | state | state := live
    · simp [Born, state]
    · simp [Born, state]
    · simp [Born, state]
  obtain ⟨family, entered⟩ := books.resident q born
  exact books.sharing.valid (.inl q) family _ entered

end

end Books

section

variable {m start : Machine Cpu} {h : Ledger} {op : Option SpaceOp}

theorem Quiet.settled (quiet : Quiet m start) (settled : Settled m h) : Settled start h :=
  fun q embryo => settled q ((quiet.embryo q).mp embryo)

theorem Quiet.permits (quiet : Quiet m start) (permits : h.Permits m op) : h.Permits start op := by
  cases op with
  | none => trivial
  | some op =>
    cases op with
    | reap => exact fun frees => ⟨(permits frees).1, quiet.settled (permits frees).2⟩
    | exit => exact permits
    | unload => exact quiet.settled permits
    | switch => exact ⟨permits.1, quiet.settled permits.2⟩
    | fork | clone | load => trivial

theorem Quiet.freevm (quiet : Quiet m start) (op : SpaceOp) : start.freevm op = m.freevm op := by
  cases op with
  | reap | switch => simp only [Machine.freevm, quiet.pgdir]
  | unload p => simp only [Machine.freevm, (quiet.tasks p).2.1]
  | fork | clone | exit | load => rfl

end

variable [DecidableEq Cpu]

def ledger (m : Machine Cpu) (event : Event Cpu) (_ : Machine Cpu) (h : Ledger) : Ledger := h.record (m.spaceOp event)

/-- The discipline of `Permits`, with setscheduler selecting installed policies. -/
def JoinsThreads (before : Machine Cpu × Ledger) (event : Event Cpu) (after : Machine Cpu × Ledger) : Prop :=
  KnownPolicy before.1 event after.1 ∧ before.2.Permits before.1 (before.1.spaceOp event)

/-- freevm gets a page directory in use that no other slot points at, and after
the step no live process is on a freed one. -/
structure SpaceSafe (before : Machine Cpu × Ledger) (event : Event Cpu) (after : Machine Cpu × Ledger) : Prop where
  dir : ∀ op who page, before.1.spaceOp event = some op → before.1.freevm op = some (who, page) → before.1.pages page = .dir
  unheld : ∀ op who page, before.1.spaceOp event = some op → before.1.freevm op = some (who, page) →
    ∀ q, who ≠ some q → (before.1.proc q).state ≠ .unused → (before.1.proc q).pgdir ≠ page
  live : ∀ q, Live (after.1.proc q).state → after.1.pages (after.1.proc q).pgdir = .dir

section

variable {before after : Machine Cpu × Ledger} {event : Event Cpu}

theorem Books.step (orderly : Orderly before.1) (books : Books before.1 before.2) (joins : JoinsThreads before event after)
    (stepped : withHistory step ledger before event = some after) : Books after.1 after.2 := by
  obtain ⟨moved, recorded⟩ := withHistory_step stepped
  rw [recorded]
  cases (step_move moved).space orderly with
  | intro _ _ prior change last =>
    exact ((books.quiet prior).change change (prior.permits joins.2)).quiet last

theorem Books.safe (orderly : Orderly before.1) (books : Books before.1 before.2) (joins : JoinsThreads before event after)
    (stepped : withHistory Machine.step ledger before event = some after) : SpaceSafe before event after := by
  obtain ⟨moved, -⟩ := withHistory_step stepped
  cases (step_move moved).space orderly with
  | intro _ _ prior change =>
    have permits := prior.permits joins.2
    refine ⟨fun op who page taken frees => ?_, fun op who page taken frees q other used => ?_, fun q live => ?_⟩
    · rw [taken] at change permits
      have valid := (books.quiet prior).dirs change permits op rfl who page ((prior.freevm op).trans frees)
      rwa [prior.pages] at valid
    · rw [taken] at change permits
      obtain ⟨settled, _, _, holds, alone, apart⟩ :=
        (books.quiet prior).freed change permits ((prior.freevm op).trans frees)
      have unheld := (books.quiet prior).unshared settled alone holds (apart q other) (mt (prior.unused q).mp used)
      rwa [prior.pgdir] at unheld
    · exact (books.step orderly joins stepped).live live

end

omit [DecidableEq Cpu] in
theorem Books.boot (policy : Scheduler.Policy) : Books (boot policy : Machine Cpu) .boot := by
  have only {owner : Slot ⊕ Slot} {family : Nat} {dir : Page} (holds : Ledger.boot.held owner = some (family, dir)) :
      owner = .inl 0 ∧ family = 0 ∧ dir = 1 := by
    cases owner with
    | inl q =>
      by_cases first : q = 0
      · have entered : some ((0 : Nat), (1 : Page)) = some (family, dir) := by
          simpa [Ledger.held, Ledger.boot, first] using holds
        cases entered
        exact ⟨by rw [first], rfl, rfl⟩
      · simp [Ledger.held, Ledger.boot, first] at holds
    | inr => simp [Ledger.held, Ledger.boot] at holds
  have first (q : Slot) (other : q ≠ 0) : (Kernel.boot policy : Machine Cpu).proc q = {} := by
    simp [Kernel.boot, other]
  constructor
  · constructor
    · intro owner family dir holds
      obtain ⟨-, -, rfl⟩ := only holds
      rfl
    · intro owner other family rival dir holds also
      exact (only holds).2.1.trans (only also).2.1.symm
    · intro owner family dir holds
      rw [(only holds).2.1]
      exact Nat.one_pos
  · constructor
    · intro q family dir entered
      have holds : Ledger.boot.held (.inl q) = some (family, dir) := entered
      obtain ⟨same, -, rfl⟩ := only holds
      cases same
      exact ⟨rfl, by simp [Machine.states, Kernel.boot]⟩
    · intro q born
      by_cases same : q = 0
      · simp [Ledger.boot, same]
      · exact absurd (by simp [Machine.states, first q same]) born.1
  · exact ⟨fun _ => rfl, by simp [Kernel.boot, Task.child]⟩
  · constructor
    · intro p other _ family mine theirs holds
      exact absurd (only holds).1 (by simp)
    · intro z _ _ other different family mine theirs holds also
      exact absurd ((only also).1.trans (only holds).1.symm) different
  · exact .boot policy

/-- In every run in which a process exits or calls exec only after its threads are
gone, and leaves reaping them to join, freevm is called on page directories that
nobody else points at, never twice on one, and no live process is left on a freed one. -/
theorem freevm_exclusive {policy : Scheduler.Policy} {events : List (Event Cpu)}
    (joins : EveryStep (withHistory Machine.step ledger) JoinsThreads (boot policy, .boot) events) :
    EveryStep (withHistory Machine.step ledger) SpaceSafe (boot policy, .boot) events := by
  exact (runs_along (fun s : Machine Cpu × Ledger => Orderly s.1 ∧ Books s.1 s.2) ⟨.boot policy, .boot policy⟩ joins
    (fun _ _ _ sound joins stepped =>
      ⟨⟨sound.1.step joins.1 (withHistory_step stepped).1, sound.2.step sound.1 joins stepped⟩,
       sound.2.safe sound.1 joins stepped⟩)).1

instance (h : Ledger) (p : Slot) : Decidable (h.Single p) := inferInstanceAs (Decidable (∀ q, q ≠ p → h.family q ≠ h.family p))

instance (m : Machine Cpu) (h : Ledger) : Decidable (Settled m h) :=
  inferInstanceAs (Decidable (∀ q, m.states q = .embryo → h.family q ≠ none))

instance (h : Ledger) (m : Machine Cpu) (op : Option SpaceOp) : Decidable (h.Permits m op) :=
  match op with
  | some (.reap kind z) => inferInstanceAs (Decidable
      (kind.freesSpace = true → (h.thread z = true → h.Single z) ∧ Settled m h))
  | some (.exit p) => inferInstanceAs (Decidable (h.thread p = false → h.Single p))
  | some (.unload _) => inferInstanceAs (Decidable (Settled m h))
  | some (.switch p) => inferInstanceAs (Decidable (h.Single p ∧ Settled m h))
  | some (.fork _ _) | some (.clone _ _) | some (.load _ _) | none => .isTrue trivial

instance (before after : Machine Cpu × Ledger) (event : Event Cpu) : Decidable (JoinsThreads before event after) :=
  inferInstanceAs (Decidable (_ ∧ _))

/-- init clones a thread and joins it, then forks a child that calls exec, exits and is waited for. -/
def joinAndWait : List (Event Unit) :=
  [.dispatch () none, .resume (), .act () (.clone 8192), .act () (.kstack (some 3)), .act () .shareuvm,
    .act () .ready, .act () (.wait .join), .retire (), .dispatch () none, .resume (), .act () .exit, .retire (),
    .dispatch () none, .resume (), .act () .fork, .act () (.kstack (some 3)), .act () (.copyuvm (some 4)),
    .act () .ready, .act () (.wait .wait), .retire (), .dispatch () none, .resume (),
    .act () (.execAlloc (some 5)), .act () (.execCommit 4096 [115, 104]), .act () .exit, .retire (),
    .dispatch () none, .resume ()]

theorem freevm_exclusive_join : EveryStep (withHistory step ledger) JoinsThreads (boot .default, .boot) joinAndWait ∧
    (run (withHistory step ledger) (boot .default, .boot) joinAndWait).map
      (fun state => (state.1.pages 1, state.1.pages 4, state.1.pages 5, (state.1.proc 1).state)) =
        some (.dir, .free, .free, .unused) ∧
    EveryStep (withHistory step ledger) SpaceSafe (boot .default, .boot) joinAndWait := by
  have joins : EveryStep (withHistory step ledger) JoinsThreads (boot .default, .boot) joinAndWait := by
    decide +kernel
  exact ⟨joins, by decide +kernel, freevm_exclusive joins⟩

/-- init clones a thread in slot 1 and waits. The thread runs and exits, and init is about to find it. -/
def waitForThread : List (Event Unit) :=
  [.dispatch () none, .resume (), .act () (.clone 8192), .act () (.kstack (some 3)), .act () .shareuvm,
    .act () .ready, .act () (.wait .wait), .retire (), .dispatch () none, .resume (), .act () .exit, .retire (),
    .dispatch () none]

/-- init clones a thread that runs on the other of two CPUs and calls exec. -/
def execInThread : List (Event Bool) :=
  [.dispatch false none, .resume false, .act false (.clone 8192), .act false (.kstack (some 3)),
    .act false .shareuvm, .act false .ready, .dispatch true none, .resume true, .act true (.execAlloc (some 4))]

/-- wait frees the page directory that init itself runs on, and frees it again
when it reaps a second thread; exec in a thread frees it as well. -/
theorem freevm_shared : (run step (boot .default) waitForThread).map
      (fun m => ((m.spaceOp (.resume ())).bind m.freevm, (m.proc 0).state, (m.proc 0).pgdir)) =
        some (some (some 1, 1), .running, 1) ∧ (run step (boot .default) (waitForThread ++ [.resume ()])).map
      (fun m => (m.pages 1, (m.proc 0).state, (m.proc 0).pgdir)) = some (.free, .running, 1) ∧
    (run step (boot .default) (waitForThread ++ .resume () :: waitForThread.drop 2)).map
      (fun m => ((m.spaceOp (.resume ())).bind m.freevm, m.pages 1)) = some (some (some 1, 1), .free) ∧
    (run step (boot .default) (execInThread ++ [.act true (.execCommit 4096 [115, 104])])).map
      (fun m => (m.pages 1, (m.proc 0).state, (m.proc 0).pgdir)) = some (.free, .running, 1) := by
  decide +kernel

end Xv6.Kernel
