import Xv6.Data.Count
import Xv6.Data.Cycle
import Xv6.Data.Run
import Xv6.Fs.Discipline
import Xv6.Fs.Entries

namespace Xv6.Fs

open Data Relation Function List Multiset Option State Context
open Held (locks)
open State (step)
open Context (count)

/-! Who waits for whom in acquiresleep. Inodes are ordered by depth: a directory
entry leads to a deeper directory, and an inode that is allocated becomes deeper
than all others. -/

variable {Proc Inum : Type}

/-- `p` sleeps for an inode lock that `q` holds. -/
def Waits (s : State Proc Inum) (p q : Proc) : Prop := ∃ i, (s.code p).awaited = some i ∧ s.lock i = some q

def NoCycle (_ : State Proc Inum) (_ : Event Proc Inum) (next : State Proc Inum) : Prop := ∀ p, ¬ TransGen (Waits next) p p

/-- Entries other than "." and ".." lead from a directory to deeper directories. -/
def Deeper (s : State Proc Inum) (depth : Inum → Nat) : Prop :=
  ∀ d, ∀ entry ∈ (s.inode d).content, ∀ c, entry.inum = some c → ¬ (entry.name = dot ∨ entry.name = dotdot) →
    (s.inode c).type = .dir → depth d < depth c

/-- A directory tree on which no call is in progress. -/
structure Tree [Fintype Proc] [DecidableEq Inum] (s : State Proc Inum) : Prop where
  idle : ∀ p, s.code p = .done
  unlocked : ∀ i, s.lock i = none
  counted : ∀ i, tally (· = i) s.cwd ≤ (s.inode i).ref
  typed : ∀ i, (s.inode i).valid = true → (s.inode i).type ≠ .free
  depth : ∃ depth, Deeper s depth

/-- A process that holds an inode does not go to sleep for one whose holder has
still to put its parent, nor is it asleep for an inode when the holder gets there;
and create does not find "." or ".." in the directory it has allocated. -/
def Code.Safe (s : State Proc Inum) (p : Proc) : Code Inum → Prop
  | .acquire _ i _ => ∀ q, s.lock i = some q → (s.code q).backing = true → ∀ d, s.lock d ≠ some p
  | .release d next => next.backing = true → ∀ i, i ≠ d → s.lock i = some p →
      ∀ q, (s.code q).awaited = some i → ∀ e, s.lock e ≠ some q
  | .lookup .dots d name _ => Fs.dirlookup (s.inode d).content name = none
  | _ => True

/-- The steps of the calls are safe, and sys_link is not given a new path that ends in "." or "..". -/
def LockSafe (s : State Proc Inum) (event : Event Proc Inum) (_ : State Proc Inum) : Prop :=
  match event with
  | .call _ call => call.Plain
  | .run p _ _ => (s.code p).Safe s p

/-- What a process knows about the directory it holds. -/
def Held.Right (type : Inum → FileType) (depth : Inum → Nat) : Held Inum → Prop
  | .free | .one _ .nothing | .back _ _ => True
  | .one d .dir => type d = .dir
  | .one d (.below c) => type d = .dir ∧ (type c = .dir → depth d < depth c)
  | .two d c ordered => d ≠ c ∧ (ordered = true → type d = .dir ∧ (type c = .dir → depth d < depth c))

theorem Held.Right.imp {held : Held Inum} {type later : Inum → FileType} {depth after : Inum → Nat}
    (known : held.Right type depth) (dir : ∀ d, held.dir = some d → type d = .dir → later d = .dir)
    (below : ∀ d c, held.dir = some d → type d = .dir → (type c = .dir → depth d < depth c) → later c = .dir →
      after d < after c) : held.Right later after := by
  cases held with
  | free | back => trivial
  | one d what =>
    cases what with
    | nothing => trivial
    | dir => exact dir d rfl known
    | below c => exact ⟨dir d rfl known.1, below d c rfl known.1 known.2⟩
  | two d c =>
    refine ⟨known.1, ?_⟩
    rintro rfl
    obtain ⟨isDir, less⟩ := known.2 rfl
    exact ⟨dir d rfl isDir, below d c rfl isDir less⟩

theorem Held.dir_mem {held : Held Inum} {d : Inum} (known : held.dir = some d) : d ∈ held.locks := by
  cases held with
  | free | back => contradiction
  | one _ what =>
    cases what with
    | nothing => contradiction
    | dir | below => simpa [Held.dir, locks, eq_comm] using known
  | two e _ ordered =>
    cases ordered with
    | false => contradiction
    | true =>
      have same : e = d := by simpa [Held.dir] using known
      simp [locks, same]

/-- The context of a process against the state. -/
structure Holds (s : State Proc Inum) (depth : Inum → Nat) (p : Proc) (ctx : Context Inum) : Prop where
  locks : ∀ i, s.lock i = some p ↔ i ∈ ctx.held.locks
  known : ctx.held.Right (fun i => (s.inode i).type) depth
  pin : ∀ i, ctx.pin = some i → (s.inode i).type ≠ .dir ∧ (s.inode i).type ≠ .free
  freeing : ∀ i, ctx.freeing = some i → i ∈ ctx.held.locks
  absent : ∀ d name, ctx.absent = some (d, name) → d ∈ ctx.held.locks ∧ dirlookup (s.inode d).content name = none
  cwd : ctx.cwd = s.cwd p

theorem Holds.keep {s next : State Proc Inum} {depth : Inum → Nat} {q : Proc} {own : Context Inum} (holds : Holds s depth q own)
    (locks : ∀ i, next.lock i = some q ↔ s.lock i = some q) (type : ∀ i, (next.inode i).type = (s.inode i).type)
    (content : ∀ d, s.lock d = some q → (next.inode d).content = (s.inode d).content)
    (cwd : next.cwd q = s.cwd q) : Holds next depth q own where
  locks := fun i => (locks i).trans (holds.locks i)
  known := by
    have same : (fun i => (next.inode i).type) = fun i => (s.inode i).type := funext type
    rw [same]
    exact holds.known
  pin := by
    intro i pinned
    rw [type]
    exact holds.pin i pinned
  freeing := holds.freeing
  absent := by
    intro d name missing
    obtain ⟨mine, none⟩ := holds.absent d name missing
    rw [content d ((holds.locks d).mpr mine)]
    exact ⟨mine, none⟩
  cwd := holds.cwd.trans cwd.symm

variable [DecidableEq Inum]

structure Sound [Fintype Proc] (s : State Proc Inum) (ctx : Proc → Context Inum) (depth : Inum → Nat) : Prop where
  follows : ∀ p, (s.code p).resumed.Follows (ctx p)
  holds : ∀ p, Holds s depth p (ctx p)
  counted : ∀ i, total (fun ctx => ctx.count i) ctx ≤ (s.inode i).ref
  unpinned : ∀ p q i, (ctx p).freeing = some i → (ctx q).pin ≠ some i
  deeper : Deeper s depth
  typed : ∀ i, (s.inode i).valid = true → (s.inode i).type ≠ .free
  clear : ∀ p q i, (ctx q).held.isBack = true → s.lock i = some q → (s.code p).awaited = some i → ∀ d, s.lock d ≠ some p

section

variable [Fintype Proc] [DecidableEq Proc] [Fintype Inum]

instance Code.Safe.decidable (s : State Proc Inum) (p : Proc) : (code : Code Inum) → Decidable (code.Safe s p)
  | .acquire _ i _ => inferInstanceAs
      (Decidable (∀ q, s.lock i = some q → (s.code q).backing = true → ∀ d, s.lock d ≠ some p))
  | .release d next => inferInstanceAs
      (Decidable (next.backing = true → ∀ i, i ≠ d → s.lock i = some p →
        ∀ q, (s.code q).awaited = some i → ∀ e, s.lock e ≠ some q))
  | .lookup .dots d name _ => inferInstanceAs (Decidable (Fs.dirlookup (s.inode d).content name = none))
  | .lookup .path _ _ _ | .lookup .dirlink _ _ _ | .done | .panic | .iget _ _ | .waiting _ _ _ | .load _ _
  | .ialloc _ _ | .setLinks _ _ _ | .addLinks _ _ _ | .links _ _ | .enter _ _ _ _ | .erase _ _ _ | .empty _ _
  | .last _ _ | .free _ _ | .drop _ _ | .choose _ | .chdir _ _ => .isTrue trivial

instance LockSafe.decidable (s : State Proc Inum) (event : Event Proc Inum) (next : State Proc Inum) :
    Decidable (LockSafe s event next) :=
  match event with
  | .call _ call => inferInstanceAs (Decidable call.Plain)
  | .run p _ _ => inferInstanceAs (Decidable ((s.code p).Safe s p))

end

section

variable [Fintype Proc] {s : State Proc Inum} {ctx : Proc → Context Inum} {depth : Inum → Nat} {p q r : Proc}

/-- A process on the way of a cycle holds a directory and waits for something below it. -/
theorem Sound.child (sound : Sound s ctx depth) {i h : Inum} (asleep : (s.code r).awaited = some i)
    (holds : s.lock i = some p) (busy : s.lock h = some r) {j : Inum} (waits : (s.code p).awaited = some j) :
    (ctx p).held = .one i (.below j) := by
  have mine := ((sound.holds p).locks i).mp holds
  have follows := sound.follows p
  cases code : s.code p with
  | waiting _ c =>
    rw [code] at waits follows
    cases waits
    obtain ⟨-, held, takes, -⟩ := follows
    generalize found : (ctx p).held = before at takes mine
    cases takes with
    | first => simp [locks] at mine
    | child =>
      simp only [locks, List.mem_singleton] at mine
      rw [mine]
    | parent =>
      exact absurd busy (sound.clear r p i (by rw [found]; rfl) holds asleep h)
  | _ =>
    rw [code] at waits
    contradiction

theorem Sound.noCycle (sound : Sound s ctx depth) (p : Proc) : ¬ TransGen (Waits s) p p := by
  refine no_cycle_of_climb (fun p => (ctx p).held.height depth) ?_ p
  intro a b around later step
  obtain ⟨z, ⟨i, forA, byA⟩, beyond⟩ := exists_before around
  obtain ⟨y, ⟨h, _, byZ⟩, -⟩ := exists_before beyond
  obtain ⟨c, ⟨l, forC, _⟩, -⟩ := exists_after later
  obtain ⟨j, forB, byB⟩ := step
  have heldA := sound.child forA byA byZ forB
  have heldB := sound.child forB byB byA forC
  have knownA := (sound.holds a).known
  have knownB := (sound.holds b).known
  rw [heldA] at knownA
  rw [heldB] at knownB
  rw [heldA, heldB]
  exact knownA.2 knownB.1

end

theorem Code.Follows.awake {code : Code Inum} {ctx : Context Inum} (follows : code.Follows ctx) :
    code.awaited = none ∧ code.resumed = code := by
  cases code with
  | waiting => exact follows.2.elim
  | _ => exact ⟨rfl, rfl⟩

theorem Code.Follows.back {code : Code Inum} {ctx : Context Inum} (follows : code.Follows ctx)
    (back : ctx.held.isBack = true) : code.backing = true := by
  cases code with
  | _ => exact follows.1 back

theorem Code.Follows.front {code : Code Inum} {ctx : Context Inum} (follows : code.Follows ctx)
    (plain : code.backing = false) : ctx.held.isBack = false := by
  refine Bool.eq_false_iff.mpr fun back => ?_
  rw [follows.back back] at plain
  contradiction

omit [DecidableEq Inum] in
theorem Code.backing_resumed (code : Code Inum) : code.resumed.backing = code.backing := by
  cases code with
  | waiting site =>
    cases site with
    | _ => rfl
  | _ => rfl

section

variable {s next : State Proc Inum} {ctx : Proc → Context Inum} {depth after : Inum → Nat} {p q : Proc}
  {new : Context Inum} {code : Code Inum}

variable [Fintype Proc] [DecidableEq Proc] {i : Inum} {change : Inode Inum → Inode Inum} {site : Site} {name : Name}
    {d : Inum} {held taken : Held Inum} {own : Context Inum}

section

variable (sound : Sound s ctx depth)
include sound

theorem Sound.revise (moved : next.code = update s.code p code)
    (follows : code.Follows new) (mine : Holds next after p new) (others : ∀ q, q ≠ p → Holds next after q (ctx q))
    (counted : ∀ i, (s.inode i).ref + new.count i ≤ (next.inode i).ref + (ctx p).count i)
    (frees : ∀ i, new.freeing = some i → new.pin ≠ some i ∧ ∀ q, q ≠ p → (ctx q).pin ≠ some i)
    (pins : ∀ i, new.pin = some i → ∀ q, q ≠ p → (ctx q).freeing ≠ some i)
    (deeper : Deeper next after) (typed : ∀ i, (next.inode i).valid = true → (next.inode i).type ≠ .free)
    (clear : ∀ q r i, (update ctx p new q).held.isBack = true → next.lock i = some q → r ≠ p →
      (s.code r).awaited = some i → ∀ d, next.lock d ≠ some r) : Sound next (update ctx p new) after where
  follows := by
    intro q
    rw [moved]
    by_cases same : q = p
    · subst same
      rw [update_self, update_self, follows.awake.2]
      exact follows
    · rw [update_of_ne same, update_of_ne same]
      exact sound.follows q
  holds := by
    intro q
    by_cases same : q = p
    · subst same
      rw [update_self]
      exact mine
    · rw [update_of_ne same]
      exact others q same
  counted := by
    intro i
    have sum := total_update (fun ctx => ctx.count i) ctx p new
    have before := sound.counted i
    have change := counted i
    omega
  unpinned := by
    intro q r i freed
    by_cases first : q = p
    · subst first
      rw [update_self] at freed
      by_cases second : r = q
      · subst second
        rw [update_self]
        exact (frees i freed).1
      · rw [update_of_ne second]
        exact (frees i freed).2 r second
    · rw [update_of_ne first] at freed
      by_cases second : r = p
      · subst second
        rw [update_self]
        exact fun pinned => pins i pinned q first freed
      · rw [update_of_ne second]
        exact sound.unpinned q r i freed
  deeper := deeper
  typed := typed
  clear := by
    intro r q i back holds asleep
    have other : r ≠ p := by
      rintro rfl
      rw [moved, update_self, follows.awake.1] at asleep
      contradiction
    rw [moved, update_of_ne other] at asleep
    exact clear q r i back holds other asleep

/-- A process that is not on the way to the parent of its inode takes no part in `clear`. -/
theorem Sound.clear_of_lock (lock : next.lock = s.lock) (front : new.held.isBack = false)
    (q r : Proc) (i : Inum) (back : (update ctx p new q).held.isBack = true) (holds : next.lock i = some q)
    (asleep : (s.code r).awaited = some i) (d : Inum) : next.lock d ≠ some r := by
  have elsewhere : q ≠ p := by
    rintro rfl
    rw [update_self, front] at back
    contradiction
  rw [update_of_ne elsewhere] at back
  rw [lock] at holds ⊢
  exact sound.clear r q i back holds asleep d

/-- A step of `p` that takes no lock and gives none back, and that changes nothing
but the number of links and references of inodes and the directories `p` holds. -/
theorem Sound.inert (moved : next.code = update s.code p code)
    (lock : next.lock = s.lock) (cwd : ∀ q, q ≠ p → next.cwd q = s.cwd q) (type : ∀ i, (next.inode i).type = (s.inode i).type)
    (content : ∀ d, s.lock d ≠ some p → (next.inode d).content = (s.inode d).content)
    (follows : code.Follows new) (mine : Holds next depth p new) (front : new.held.isBack = false)
    (counted : ∀ i, (s.inode i).ref + new.count i ≤ (next.inode i).ref + (ctx p).count i)
    (frees : ∀ i, new.freeing = some i → new.pin ≠ some i ∧ ∀ q, q ≠ p → (ctx q).pin ≠ some i)
    (pins : ∀ i, new.pin = some i → ∀ q, q ≠ p → (ctx q).freeing ≠ some i)
    (deeper : Deeper next depth) (typed : ∀ i, (next.inode i).valid = true → (next.inode i).type ≠ .free) :
    Sound next (update ctx p new) depth := by
  refine sound.revise moved follows mine (fun q other => (sound.holds q).keep ?_ type (fun d holds => ?_) (cwd q other))
    counted frees pins deeper typed fun q r i back holds _ => sound.clear_of_lock lock front q r i back holds
  · intro i
    rw [lock]
  · refine content d fun mine => other ?_
    exact some.inj (holds.symm.trans mine)

theorem Sound.goto (follows : code.Follows new) (mine : Holds s depth p new) (front : new.held.isBack = false)
    (count : ∀ i, new.count i = (ctx p).count i) (pin : new.pin = (ctx p).pin) (freeing : new.freeing = (ctx p).freeing) :
    Sound (s.goto p code) (update ctx p new) depth := by
  refine sound.inert rfl rfl (fun _ _ => rfl) (fun _ => rfl) (fun _ _ => rfl) follows
    (mine.keep (fun _ => Iff.rfl) (fun _ => rfl) (fun _ _ => rfl) rfl) front ?_ ?_ ?_ sound.deeper sound.typed
  · intro i
    rw [count i]
    rfl
  · intro i freed
    rw [freeing] at freed
    rw [pin]
    exact ⟨sound.unpinned p p i freed, fun q _ => sound.unpinned p q i freed⟩
  · intro i pinned q _ freed
    rw [pin] at pinned
    exact sound.unpinned q p i freed pinned

end

omit [Fintype Proc] [DecidableEq Proc] in
theorem modify_self (i : Inum) (change : Inode Inum → Inode Inum) : (s.modify i change).inode i = change (s.inode i) :=
  update_self ..

omit [Fintype Proc] [DecidableEq Proc] in
theorem modify_of_ne {i j : Inum} (change : Inode Inum → Inode Inum) (other : j ≠ i) : (s.modify i change).inode j = s.inode j :=
  update_of_ne other _ _

omit [Fintype Proc] [DecidableEq Proc] in
theorem modify_field {α : Type} (field : Inode Inum → α)
    (same : field (change (s.inode i)) = field (s.inode i)) (j : Inum) :
    field ((s.modify i change).inode j) = field (s.inode j) := by
  refine (forall_update_iff s.inode fun j inode => field inode = field (s.inode j)).mpr ⟨same, ?_⟩ j
  intro j _
  rfl

theorem Sound.modify (sound : Sound s ctx depth) (type : (change (s.inode i)).type = (s.inode i).type)
    (content : (change (s.inode i)).content = (s.inode i).content ∨
      s.lock i = some p ∧ ∀ name, new.absent ≠ some (i, name))
    (entries : ∀ entry ∈ (change (s.inode i)).content, entry ∈ (s.inode i).content ∨
      ∀ c, entry.inum = some c → ¬ (entry.name = dot ∨ entry.name = dotdot) → (s.inode c).type = .dir → depth i < depth c)
    (valid : (change (s.inode i)).valid = true → (s.inode i).type ≠ .free) (follows : code.Follows new)
    (front : new.held.isBack = false)
    (same : new.held = (ctx p).held ∧ new.freeing = (ctx p).freeing ∧ new.cwd = (ctx p).cwd)
    (absent : ∀ e name, new.absent = some (e, name) → (ctx p).absent = some (e, name))
    (pins : ∀ j, new.pin = some j → (ctx p).pin = some j ∨ (s.inode j).type ≠ .dir ∧ (s.inode j).type ≠ .free ∧
      s.lock j = some p ∧ (ctx p).freeing = none)
    (counted : ∀ j, (s.inode j).ref + new.count j ≤ ((s.modify i change).inode j).ref + (ctx p).count j) :
    Sound ((s.modify i change).goto p code) (update ctx p new) depth := by
  have types := modify_field Inode.type type
  have before := sound.holds p
  -- the directories that others hold, or in which a name is known to be missing, are not the one that changes
  have contents (e : Inum) (reads : s.lock e ≠ some p ∨ ∃ name, new.absent = some (e, name)) :
      ((s.modify i change).inode e).content = (s.inode e).content := by
    by_cases here : e = i
    · rw [here, modify_self]
      rw [here] at reads
      refine content.elim id fun ⟨holds, unread⟩ => ?_
      exact reads.elim (absurd holds) fun ⟨name, missing⟩ => absurd missing (unread name)
    · rw [modify_of_ne change here]
  have mine : Holds ((s.modify i change).goto p code) depth p new := by
    refine ⟨?_, ?_, fun j pinned => ?_, ?_, fun e name missing => ?_, ?_⟩
    · rw [same.1]
      exact before.locks
    · rw [same.1]
      exact before.known.imp (fun e _ directory => (types e).trans directory) fun e c _ _ less child => less ((types c).symm.trans child)
    · change ((s.modify i change).inode j).type ≠ .dir ∧ ((s.modify i change).inode j).type ≠ .free
      rw [types]
      exact (pins j pinned).elim (before.pin j) fun new => ⟨new.1, new.2.1⟩
    · rw [same.1, same.2.1]
      exact before.freeing
    · rw [same.1]
      change _ ∧ dirlookup ((s.modify i change).inode e).content name = none
      rw [contents e (.inr ⟨name, missing⟩)]
      exact before.absent e name (absent e name missing)
    · rw [same.2.2]
      exact before.cwd
  refine sound.inert rfl rfl (fun _ _ => rfl) types (fun e other => contents e (.inl other)) follows mine front counted
    ?_ ?_ ?_ ?_
  · intro j freed
    rw [same.2.1] at freed
    refine ⟨fun pinned => ?_, fun q _ => sound.unpinned p q j freed⟩
    rcases pins j pinned with old | ⟨-, -, -, none⟩
    · exact sound.unpinned p p j freed old
    · rw [none] at freed
      contradiction
  · intro j pinned q other freed
    rcases pins j pinned with old | ⟨-, -, holds, -⟩
    · exact sound.unpinned q p j freed old
    · have theirs := ((sound.holds q).locks j).mpr ((sound.holds q).freeing j freed)
      exact other (some.inj (theirs.symm.trans holds))
  · intro e entry member c target name directory
    change entry ∈ ((s.modify i change).inode e).content at member
    change ((s.modify i change).inode c).type = .dir at directory
    rw [types] at directory
    by_cases here : e = i
    · subst here
      rw [modify_self] at member
      rcases entries entry member with old | fresh
      · exact sound.deeper e entry old c target name directory
      · exact fresh c target name directory
    · rw [modify_of_ne change here] at member
      exact sound.deeper e entry member c target name directory
  · intro j
    change ((s.modify i change).inode j).valid = true → ((s.modify i change).inode j).type ≠ .free
    rw [types]
    refine (forall_update_iff s.inode fun j inode => inode.valid = true → (s.inode j).type ≠ .free).mpr
      ⟨valid, fun j _ => sound.typed j⟩ j

omit [DecidableEq Inum] in
theorem Takes.locks (takes : Takes held site i taken) (j : Inum) :
    j ∈ taken.locks ↔ j = i ∨ j ∈ held.locks := by
  cases takes with
  | first | parent => simp [locks]
  | child => simp [locks, or_comm]

omit [DecidableEq Inum] in
theorem Takes.front (takes : Takes held site i taken) :
    taken.isBack = false := by
  cases takes with
  | first | child | parent => rfl

theorem Sound.take (sound : Sound s ctx depth) {taken : Held Inum}
    (unlocked : s.lock i = none) (takes : Takes (ctx p).held site i taken) (follows : code.Follows { ctx p with held := taken }) :
    Sound ((s.setLock i (some p)).goto p code) (update ctx p { ctx p with held := taken }) depth := by
  have before := sound.holds p
  have theirs (q : Proc) (other : q ≠ p) (j : Inum) :
      update s.lock i (some p) j = some q ↔ s.lock j = some q := by
    by_cases same : j = i
    · subst same
      simp [unlocked, other.symm]
    · rw [update_of_ne same]
  have fresh {j : Inum} (mine : j ∈ (ctx p).held.locks) : j ≠ i := by
    rintro rfl
    have holds := (before.locks j).mpr mine
    rw [unlocked] at holds
    contradiction
  have mine : Holds ((s.setLock i (some p)).goto p code) depth p { ctx p with held := taken } := by
    refine ⟨fun j => ?_, ?_, before.pin, fun j freed => ?_, fun d name missing => ?_, before.cwd⟩
    · rw [takes.locks]
      change update s.lock i (some p) j = some p ↔ _
      by_cases same : j = i
      · subst same
        simp
      · rw [update_of_ne same, before.locks j]
        simp [same]
    · have known := before.known
      generalize (ctx p).held = held at takes known fresh
      cases takes with
      | first => trivial
      | child => exact ⟨fresh (by simp [locks]), fun _ => known⟩
      | parent => exact ⟨(fresh (by simp [locks])).symm, by simp⟩
    · exact (takes.locks j).mpr (.inr (before.freeing j freed))
    · obtain ⟨here, none⟩ := before.absent d name missing
      exact ⟨(takes.locks d).mpr (.inr here), none⟩
  refine sound.revise rfl follows mine (fun q other => (sound.holds q).keep (theirs q other) (fun _ => rfl)
    (fun _ _ => rfl) rfl) (fun _ => Nat.le_refl _) (fun j freed => ⟨sound.unpinned p p j freed,
    fun q _ => sound.unpinned p q j freed⟩) (fun j pinned q _ freed => sound.unpinned q p j freed pinned)
    sound.deeper sound.typed fun q r j back holds other asleep d => ?_
  have elsewhere : q ≠ p := by
    rintro rfl
    rw [update_self, takes.front] at back
    contradiction
  rw [update_of_ne elsewhere] at back
  exact fun takes => sound.clear r q j back ((theirs q elsewhere j).mp holds) asleep d ((theirs r other d).mp takes)

theorem Sound.sleep (sound : Sound s ctx depth) {rest : Code Inum}
    (calls : s.code p = .acquire site i rest) (safe : (s.code p).Safe s p) :
    Sound (s.goto p (.waiting site i rest)) ctx depth where
  follows := by
    intro q
    by_cases same : q = p
    · subst same
      have follows := sound.follows q
      rw [calls] at follows
      rw [show (s.goto q (.waiting site i rest)).code q = .waiting site i rest from update_self ..]
      exact follows
    · simpa [State.goto, update_of_ne same] using sound.follows q
  holds := fun q => (sound.holds q).keep (fun _ => Iff.rfl) (fun _ => rfl) (fun _ _ => rfl) rfl
  counted := sound.counted
  unpinned := sound.unpinned
  deeper := sound.deeper
  typed := sound.typed
  clear := by
    intro r q j back holds asleep
    by_cases same : r = p
    · subst same
      have wanted : i = j := by simpa [State.goto, Code.awaited] using asleep
      subst wanted
      rw [calls] at safe
      have backing := (sound.follows q).back back
      rw [Code.backing_resumed] at backing
      exact safe q holds backing
    · have before : (s.code r).awaited = some j := by
        simpa [State.goto, update_of_ne same] using asleep
      exact sound.clear r q j back holds before

omit [DecidableEq Inum] in
theorem Gives.locks {held given : Held Inum} {type : Inum → FileType} (gives : Gives held i given)
    (known : held.Right type depth) (j : Inum) : j ∈ given.locks ↔ j ∈ held.locks ∧ j ≠ i := by
  cases gives with
  | last => simp [Held.locks]
  | child | parent | again =>
    have apart := known.1
    simp only [Held.locks, List.mem_cons, List.not_mem_nil, or_false]
    grind

omit [DecidableEq Inum] in
theorem Gives.mem {held given : Held Inum} (gives : Gives held i given) : i ∈ held.locks := by
  cases gives with
  | last | child | parent | again => simp [Held.locks]

theorem Sound.give (sound : Sound s ctx depth) {given : Held Inum} (calls : s.code p = .release i code)
    (safe : (s.code p).Safe s p) (gives : Gives (ctx p).held i given)
    (follows : code.Follows { ctx p with held := given, freeing := none, absent := none }) :
    Sound ((s.setLock i none).goto p code)
      (update ctx p { ctx p with held := given, freeing := none, absent := none }) depth := by
  have before := sound.holds p
  have holds : s.lock i = some p := (before.locks i).mpr gives.mem
  have theirs (q : Proc) (other : q ≠ p) (j : Inum) :
      update s.lock i none j = some q ↔ s.lock j = some q := by
    by_cases same : j = i
    · subst same
      simp [holds, other.symm]
    · rw [update_of_ne same]
  have ours (j : Inum) : update s.lock i none j = some p ↔ s.lock j = some p ∧ j ≠ i := by
    by_cases same : j = i
    · subst same
      simp
    · rw [update_of_ne same]
      simp [same]
  have mine : Holds ((s.setLock i none).goto p code) depth p
      { ctx p with held := given, freeing := none, absent := none } := by
    refine ⟨fun j => ?_, ?_, before.pin, by simp, by simp, before.cwd⟩
    · rw [gives.locks before.known j, ← before.locks j]
      exact ours j
    · have known := before.known
      generalize (ctx p).held = held at gives known
      cases gives with
      | last | parent | again => trivial
      | child => exact known.2 rfl
  refine sound.revise rfl follows mine (fun q other => (sound.holds q).keep (theirs q other) (fun _ => rfl)
    (fun _ _ => rfl) rfl) (fun _ => Nat.le_refl _) (by simp)
    (fun j pinned q _ freed => sound.unpinned q p j freed pinned) sound.deeper sound.typed
    fun q r j back locked other asleep d taken => ?_
  have before' := (theirs r other d).mp taken
  by_cases same : q = p
  · -- `p` has unlocked the parent, and keeps a child for which nobody with a lock may be asleep
    subst same
    rw [update_self] at back
    rw [calls] at safe
    have kept := (ours j).mp locked
    exact safe (follows.back back) j kept.2 kept.1 r asleep d before'
  · rw [update_of_ne same] at back
    exact sound.clear r q j back ((theirs q same j).mp locked) asleep d before'

omit [Fintype Proc] [DecidableEq Proc] [DecidableEq Inum] in
theorem Holds.retype (holds : Holds s depth p new) (lock : next.lock = s.lock) (cwd : next.cwd = s.cwd)
    (inode : ∀ j, j ≠ i → next.inode j = s.inode j) (content : (next.inode i).content = [])
    (known : new.held.Right (fun j => (next.inode j).type) after) (pin : new.pin ≠ some i) : Holds next after p new where
  locks := by
    rw [lock]
    exact holds.locks
  known := known
  pin := by
    intro j pinned
    rw [inode j fun same => pin (by rw [← same]; exact pinned)]
    exact holds.pin j pinned
  freeing := holds.freeing
  absent := by
    intro d name missing
    obtain ⟨mine, none⟩ := holds.absent d name missing
    refine ⟨mine, ?_⟩
    by_cases same : d = i
    · rw [same, content]
      rfl
    · rw [inode d same]
      exact none
  cwd := by
    rw [cwd]
    exact holds.cwd

section

variable (sound : Sound s ctx depth)
include sound

theorem Sound.retype
    (content : (change (s.inode i)).content = []) (ref : (change (s.inode i)).ref = (s.inode i).ref)
    (valid : (change (s.inode i)).valid = true → (change (s.inode i)).type ≠ .free) (unpinned : ∀ q, (ctx q).pin ≠ some i)
    (apart : ∀ q e, (ctx q).held.dir = some e → (s.inode e).type = .dir → e ≠ i)
    (below : ∀ e c, e ≠ i → ((s.inode c).type = .dir → depth e < depth c) →
      ((s.modify i change).inode c).type = .dir → after e < after c)
    (follows : code.Follows new) (front : new.held.isBack = false)
    (mine : Holds ((s.modify i change).goto p code) after p (ctx p) → Holds ((s.modify i change).goto p code) after p new)
    (same : new.refs = (ctx p).refs ∧ new.pin = (ctx p).pin) (freeing : ∀ j, new.freeing = some j → (ctx p).freeing = some j) :
    Sound ((s.modify i change).goto p code) (update ctx p new) after := by
  have refs := modify_field Inode.ref ref
  have keeps (q : Proc) : Holds ((s.modify i change).goto p code) after q (ctx q) := by
    refine (sound.holds q).retype rfl rfl (fun _ => modify_of_ne change) ?_ ((sound.holds q).known.imp ?_ ?_) (unpinned q)
    · exact (congrArg Inode.content (modify_self i change)).trans content
    · intro e known directory
      change ((s.modify i change).inode e).type = .dir
      rw [modify_of_ne change (apart q e known directory)]
      exact directory
    · exact fun e c known directory => below e c (apart q e known directory)
  refine sound.revise rfl follows (mine (keeps p)) (fun q _ => keeps q) ?_ ?_ ?_ ?_ ?_
    fun q r j back holds _ => sound.clear_of_lock rfl front q r j back holds
  · intro j
    change _ ≤ ((s.modify i change).inode j).ref + _
    rw [refs, Context.count, same.1, same.2]
    rfl
  · intro j freed
    rw [same.2]
    exact ⟨sound.unpinned p p j (freeing j freed), fun q _ => sound.unpinned p q j (freeing j freed)⟩
  · intro j pinned q _ freed
    rw [same.2] at pinned
    exact sound.unpinned q p j freed pinned
  · intro e entry member c target name child
    change entry ∈ ((s.modify i change).inode e).content at member
    by_cases here : e = i
    · rw [here, modify_self, content] at member
      contradiction
    · rw [modify_of_ne change here] at member
      exact below e c here (sound.deeper e entry member c target name) child
  · intro j
    change ((s.modify i change).inode j).valid = true → ((s.modify i change).inode j).type ≠ .free
    by_cases here : j = i
    · rw [here, modify_self]
      exact valid
    · rw [modify_of_ne change here]
      exact sound.typed j

theorem Sound.ialloc {pick d : Inum} {type : FileType} {deepest : Nat}
    (above : ∀ j, depth j < deepest) (allocates : type ≠ .free) (unused : (s.inode pick).type = .free)
    (held : (ctx p).held = .one d .dir) (follows : code.Follows { ctx p with held := .one d (.below pick) }) :
    Sound ((s.modify pick fun inode => { inode with type := type, nlink := 0, content := [] }).goto p code)
      (update ctx p { ctx p with held := .one d (.below pick) }) (update depth pick deepest) := by
  have used {j : Inum} {kind : FileType} (is : (s.inode j).type = kind) (allocated : kind ≠ .free) : j ≠ pick := by
    rintro rfl
    exact allocated (is.symm.trans unused)
  refine sound.retype rfl rfl (fun _ => allocates) (fun q pinned => ((sound.holds q).pin pick pinned).2 unused)
    (fun _ _ _ directory => used directory (by simp)) (fun e c elsewhere less child => ?_) follows rfl (fun before => ?_)
    ⟨rfl, rfl⟩ fun _ => id
  · rw [update_of_ne elsewhere]
    by_cases same : c = pick
    · rw [same, update_self]
      exact above e
    · rw [update_of_ne same]
      rw [modify_of_ne _ same] at child
      exact less child
  · have locks : (Held.one d (.below pick)).locks = (ctx p).held.locks := by rw [held]; rfl
    have directory := before.known
    have known := (sound.holds p).known
    rw [held] at known directory
    refine ⟨?_, ⟨directory, fun _ => ?_⟩, before.pin, ?_, ?_, before.cwd⟩
    · rw [locks]
      exact before.locks
    · rw [update_self, update_of_ne (used known (by simp))]
      exact above d
    · rw [locks]
      exact before.freeing
    · rw [locks]
      exact before.absent

theorem Sound.free (freeing : (ctx p).freeing = some i) (unknown : (ctx p).held.dir ≠ some i)
    (front : (ctx p).held.isBack = false) (follows : code.Follows { ctx p with freeing := none }) :
    Sound ((s.modify i fun inode => { inode with type := .free, content := [], valid := false }).goto p code)
      (update ctx p { ctx p with freeing := none }) depth := by
  have holder : s.lock i = some p := ((sound.holds p).locks i).mpr ((sound.holds p).freeing i freeing)
  refine sound.retype rfl rfl (by simp) (fun q => sound.unpinned p q i freeing) (fun q e known directory => ?_)
    (fun e c _ less child => less ?_) follows front
    (fun before => ⟨before.locks, before.known, before.pin, by simp, before.absent, before.cwd⟩) ⟨rfl, rfl⟩ (by simp)
  · rintro rfl
    have same := ((sound.holds q).locks e).mpr (Held.dir_mem known)
    rw [holder, some.injEq] at same
    subst same
    exact unknown known
  · by_cases same : c = i
    · rw [same, modify_self] at child
      contradiction
    · rwa [modify_of_ne _ same] at child

theorem Sound.last (holds : i ∈ (ctx p).held.locks) (referred : i ∈ (ctx p).refs) (only : (s.inode i).ref = 1)
    (front : (ctx p).held.isBack = false) (follows : code.Follows { ctx p with freeing := some i }) :
    Sound (s.goto p code) (update ctx p { ctx p with freeing := some i }) depth := by
  have counted := sound.counted i
  have mine : 1 ≤ (ctx p).refs.count i := Multiset.one_le_count_iff_mem.mpr referred
  have before := sound.holds p
  refine sound.inert rfl rfl (fun _ _ => rfl) (fun _ => rfl) (fun _ _ => rfl) follows
    ⟨before.locks, before.known, before.pin, ?_, before.absent, before.cwd⟩ front (fun _ => Nat.le_refl _) ?_ ?_
    sound.deeper sound.typed
  · rintro j ⟨⟩
    exact holds
  · rintro j ⟨⟩
    have ours : 1 ≤ (ctx p).count i := Nat.le_trans mine (Nat.le_add_right _ _)
    refine ⟨fun pinned => ?_, fun q other pinned => ?_⟩
    · have one := weight_le_total (fun ctx => ctx.count i) ctx p
      have both : (ctx p).count i = (ctx p).refs.count i + 1 := by
        simp only [Context.count, if_pos (show (ctx p).pin = some i from pinned)]
      omega
    · have two := weight_add_le_total (fun ctx => ctx.count i) ctx other
      have theirs : (ctx q).count i = (ctx q).refs.count i + 1 := by simp only [Context.count, if_pos pinned]
      omega
  · exact fun j pinned q _ freed => sound.unpinned q p j freed pinned

end

omit [DecidableEq Inum] in
theorem Context.missed_same (own : Context Inum) (d : Inum) (name : Name) (site : Lookup) :
    (own.missed d name site).refs = own.refs ∧ (own.missed d name site).pin = own.pin ∧
      (own.missed d name site).freeing = own.freeing ∧ (own.missed d name site).held.isBack = own.held.isBack := by
  obtain ⟨held, _, _, _, _, _⟩ := own
  cases site with
  | dots => exact ⟨rfl, rfl, rfl, rfl⟩
  | path | dirlink =>
    cases held with
    | free | one | two | back => exact ⟨rfl, rfl, rfl, rfl⟩

omit [Fintype Proc] [DecidableEq Proc] [DecidableEq Inum] in
theorem Holds.missed (holds : Holds s depth p new) (mine : d ∈ new.held.locks)
    (directory : (s.inode d).type = .dir) (absent : dirlookup (s.inode d).content name = none) (site : Lookup) :
    Holds s depth p (new.missed d name site) := by
  have here : ∀ e other, some (d, name) = some (e, other) →
      e ∈ new.held.locks ∧ dirlookup (s.inode e).content other = none := by
    rintro e _ ⟨⟩
    exact ⟨mine, absent⟩
  obtain ⟨held, _, _, _, _, _⟩ := new
  cases site with
  | dots => exact holds
  | path | dirlink =>
    cases held with
    | one e =>
      obtain rfl : d = e := by simpa [Held.locks] using mine
      exact ⟨holds.locks, directory, holds.pin, holds.freeing, here, holds.cwd⟩
    | free | two | back => exact ⟨holds.locks, holds.known, holds.pin, holds.freeing, here, holds.cwd⟩

section

variable (sound : Sound s ctx depth)
include sound

theorem Sound.lookup {site : Lookup} {rest : Option (Inum × Nat) → Code Inum}
    (calls : s.code p = .lookup site d name rest) (safe : (s.code p).Safe s p) (directory : (s.inode d).type = .dir) :
    ∃ new, Sound (s.goto p (rest (dirlookup (s.inode d).content name))) (update ctx p new) depth := by
  have follows := sound.follows p
  rw [calls] at follows safe
  have front := follows.front rfl
  obtain ⟨-, mine, missed, found⟩ := follows
  have before := sound.holds p
  cases result : dirlookup (s.inode d).content name with
  | none =>
    obtain ⟨refs, pin, freeing, back⟩ := (ctx p).missed_same d name site
    refine ⟨(ctx p).missed d name site, sound.goto missed (before.missed mine directory result site)
      (back.trans front) (fun i => ?_) pin freeing⟩
    rw [Context.count, refs, pin]
    rfl
  | some answer =>
    obtain ⟨i, off⟩ := answer
    obtain ⟨entry, member, target, named⟩ := dirlookup_some result
    have below (plain : ¬ (name = dot ∨ name = dotdot)) (child : (s.inode i).type = .dir) : depth d < depth i :=
      sound.deeper d entry member i target (by rw [named]; exact plain) child
    have ordinary : site ≠ .dots := by
      rintro rfl
      have absent : dirlookup (s.inode d).content name = none := safe
      rw [result] at absent
      contradiction
    have present : (ctx p).absent ≠ some (d, name) := by
      intro missing
      have absent := (before.absent d name missing).2
      rw [result] at absent
      contradiction
    obtain ⟨⟨_, held⟩, continues⟩ := found ordinary present
    have locks : ((ctx p).found d name i).held.locks = (ctx p).held.locks := by rw [held]; rfl
    refine ⟨(ctx p).found d name i, sound.goto (continues i off fun plain same => ?_) ⟨?_, ?_, before.pin, ?_, ?_,
      before.cwd⟩ rfl (fun _ => rfl) rfl rfl⟩
    · subst same
      exact Nat.lt_irrefl _ (below plain directory)
    · rw [locks]
      exact before.locks
    · by_cases plain : name = dot ∨ name = dotdot
      · rw [Context.found, if_pos plain]
        exact directory
      · rw [Context.found, if_neg plain]
        exact ⟨directory, below plain⟩
    · rw [locks]
      exact before.freeing
    · rw [locks]
      exact before.absent

section

variable (front : (ctx p).held.isBack = false)
include front

theorem Sound.chdir (follows : code.Follows { ctx p with cwd := i }) :
    Sound ({ s with cwd := update s.cwd p i }.goto p code) (update ctx p { ctx p with cwd := i })
      depth := by
  have before := sound.holds p
  exact sound.inert rfl rfl (fun q other => update_of_ne other _ _) (fun _ => rfl) (fun _ _ => rfl) follows
    ⟨before.locks, before.known, before.pin, before.freeing, before.absent, (update_self p i s.cwd).symm⟩ front
    (fun _ => Nat.le_refl _) (fun j freed => ⟨sound.unpinned p p j freed, fun q _ => sound.unpinned p q j freed⟩)
    (fun j pinned q _ freed => sound.unpinned q p j freed pinned) sound.deeper sound.typed

theorem Sound.iget
    (follows : code.Follows { ctx p with refs := i ::ₘ (ctx p).refs }) :
    Sound ((s.modify i fun inode =>
      { inode with valid := if inode.ref = 0 then false else inode.valid, ref := inode.ref + 1 }).goto p code)
      (update ctx p { ctx p with refs := i ::ₘ (ctx p).refs }) depth := by
  refine sound.modify rfl (.inl rfl) (fun _ => .inl) (fun valid => sound.typed i ?_) follows front
    ⟨rfl, rfl, rfl⟩ (fun _ _ => id) (fun _ => .inl) fun j => ?_
  · by_cases fresh : (s.inode i).ref = 0
    · simp [fresh] at valid
    · simpa [fresh] using valid
  · by_cases same : j = i
    · subst same
      simp only [State.modify, update_self, Context.count, Multiset.count_cons_self]
      omega
    · simp only [State.modify, update_of_ne same, Context.count, Multiset.count_cons_of_ne same]
      omega

theorem Sound.drop {refs : Multiset Inum}
    (referred : (ctx p).refs = i ::ₘ refs) (follows : code.Follows { ctx p with refs := refs }) :
    Sound ((s.modify i fun inode => { inode with ref := inode.ref - 1 }).goto p code)
      (update ctx p { ctx p with refs := refs }) depth := by
  refine sound.modify rfl (.inl rfl) (fun _ => .inl) (sound.typed i) follows front ⟨rfl, rfl, rfl⟩
    (fun _ _ => id) (fun _ => .inl) fun j => ?_
  have counted := sound.counted j
  have mine := weight_le_total (fun ctx => ctx.count j) ctx p
  by_cases same : j = i
  · subst same
    have more : (ctx p).count j = ({ ctx p with refs := refs } : Context Inum).count j + 1 := by
      simp only [Context.count, referred, Multiset.count_cons_self]
      omega
    simp only [State.modify, update_self]
    dsimp only at more
    omega
  · simp only [State.modify, update_of_ne same, Context.count, referred, Multiset.count_cons_of_ne same]
    omega

end

end

theorem Context.unpin_count (pinned : own.pin = some i) (j : Inum) :
    (own.unpin i).count j = own.count j := by
  by_cases same : j = i
  · simp [count, unpin, pinned, same]
  · simp [count, unpin, pinned, same, Ne.symm same]

theorem Context.entered_absent {d e : Inum} (missing : (own.entered d).absent = some (e, name)) : own.absent = some (e, name) ∧
      e ≠ d := by
  simpa [entered, filter_eq_some_iff] using missing

section

variable (sound : Sound s ctx depth)
include sound

theorem Sound.enter {d i : Inum} (mine : d ∈ (ctx p).held.locks)
    (front : (ctx p).held.isBack = false)
    (how : ((name = dot ∨ name = dotdot) ∨ (ctx p).held = .two d i true) ∧ code.Follows ((ctx p).entered d) ∨
      (ctx p).pin = some i ∧ code.Follows (((ctx p).entered d).unpin i)) :
    ∃ new, Sound ((s.modify d fun inode => { inode with content := writeEntry inode.content ⟨name, some i⟩ }).goto p
      code) (update ctx p new) depth := by
  have before := sound.holds p
  have below (plain : ¬ (name = dot ∨ name = dotdot)) (child : (s.inode i).type = .dir) : depth d < depth i := by
    rcases how with ⟨dots | held, -⟩ | ⟨pinned, -⟩
    · exact absurd dots plain
    · have known := before.known
      rw [held] at known
      exact (known.2 rfl).2 child
    · exact absurd child (before.pin i pinned).1
  have entries : ∀ entry ∈ writeEntry (s.inode d).content ⟨name, some i⟩, entry ∈ (s.inode d).content ∨
      ∀ c, entry.inum = some c → ¬ (entry.name = dot ∨ entry.name = dotdot) → (s.inode c).type = .dir →
        depth d < depth c := by
    intro entry member
    rcases mem_writeEntry member with old | rfl
    · exact .inl old
    · right
      rintro c ⟨⟩
      exact below
  have mine : s.lock d = some p ∧ ∀ name, ((ctx p).entered d).absent ≠ some (d, name) :=
    ⟨(before.locks d).mpr mine, fun _ missing => (entered_absent missing).2 rfl⟩
  rcases how with ⟨-, follows⟩ | ⟨pinned, follows⟩
  · exact ⟨_, sound.modify rfl (.inr mine) entries (sound.typed d) follows front ⟨rfl, rfl, rfl⟩
      (fun _ _ missing => (entered_absent missing).1) (fun _ => .inl) fun j => by rw [modify_field Inode.ref rfl j]; rfl⟩
  · have count (j : Inum) : (((ctx p).entered d).unpin i).count j = (ctx p).count j := unpin_count pinned j
    exact ⟨((ctx p).entered d).unpin i, sound.modify rfl (.inr mine) entries (sound.typed d) follows front
      ⟨rfl, rfl, rfl⟩ (fun _ _ missing => (entered_absent missing).1) (by simp [unpin])
      fun j => by rw [modify_field Inode.ref rfl j, count]⟩

theorem Sound.erase {off : Nat} (mine : d ∈ (ctx p).held.locks)
    (front : (ctx p).held.isBack = false) (follows : code.Follows ((ctx p).entered d)) :
    Sound ((s.modify d fun inode => { inode with content := inode.content.set off {} }).goto p code)
      (update ctx p ((ctx p).entered d)) depth := by
  refine sound.modify rfl (.inr ⟨((sound.holds p).locks d).mpr mine, fun _ missing => (entered_absent missing).2 rfl⟩)
    (fun entry member => ?_) (sound.typed d) follows front ⟨rfl, rfl, rfl⟩ (fun _ _ missing => (entered_absent missing).1)
    (fun _ => .inl) fun j => by rw [modify_field Inode.ref rfl j]; rfl
  rcases mem_or_eq_of_mem_set member with old | rfl
  · exact .inl old
  · exact .inr (by simp)

theorem Sound.exec [Fintype Inum] {pick : Inum} {room : Bool} (safe : (s.code p).Safe s p)
    (ran : s.exec p pick room (s.code p) = some next) : ∃ ctx depth, Sound next ctx depth := by
  have follows := sound.follows p
  cases calls : s.code p with
  | done | panic =>
    rw [calls] at ran
    contradiction
  | iget =>
    rw [calls] at ran follows
    cases ran
    exact ⟨_, _, sound.iget (follows.front rfl) follows.2⟩
  | acquire _ i =>
    rw [calls] at ran follows
    obtain ⟨-, taken, takes, continues⟩ := follows
    cases holder : s.lock i with
    | none =>
      simp only [State.exec, holder, Option.some.injEq] at ran
      subst ran
      exact ⟨_, _, sound.take holder takes continues⟩
    | some =>
      simp only [State.exec, holder, Option.some.injEq] at ran
      subst ran
      exact ⟨_, _, sound.sleep calls safe⟩
  | waiting _ i =>
    rw [calls] at ran follows
    obtain ⟨-, _, takes, continues⟩ := follows
    cases holder : s.lock i with
    | none =>
      simp only [State.exec, holder, Option.some.injEq] at ran
      subst ran
      exact ⟨_, _, sound.take holder takes continues⟩
    | some => simp [State.exec, holder] at ran
  | load i =>
    rw [calls] at ran follows
    have front := follows.front rfl
    obtain ⟨-, mine, continues⟩ := follows
    by_cases unused : (s.inode i).valid = false ∧ (s.inode i).type = .free
    · simp [State.exec, unused] at ran
    · simp only [State.exec, if_neg unused, Option.some.injEq] at ran
      subst ran
      have used : (s.inode i).type ≠ .free := by
        intro free
        have valid : (s.inode i).valid = true := by simpa [free] using unused
        exact sound.typed i valid free
      rcases continues _ used with same | ⟨file, unpinned, kept, refs, referred, pins⟩
      · exact ⟨_, _, sound.modify rfl (.inl rfl) (fun _ => .inl) (fun _ => used) same front ⟨rfl, rfl, rfl⟩ (fun _ _ => id) (fun _ => .inl)
          fun j => by rw [modify_field Inode.ref rfl j]⟩
      · refine ⟨_, _, sound.modify rfl (.inl rfl) (fun _ => .inl) (fun _ => used) pins front ⟨rfl, rfl, rfl⟩ (fun _ _ => id) ?_ ?_⟩
        · rintro j ⟨⟩
          exact .inr ⟨file, used, ((sound.holds p).locks _).mpr mine, kept⟩
        · intro j
          rw [modify_field Inode.ref rfl j, ← Context.unpin_count rfl]
          simp only [Context.unpin, ← referred, ← unpinned, Nat.le_refl]
  | release =>
    rw [calls] at ran follows
    cases ran
    obtain ⟨-, _, gives, continues⟩ := follows
    exact ⟨_, _, sound.give calls safe gives continues⟩
  | lookup _ d =>
    rw [calls] at ran
    by_cases directory : (s.inode d).type = .dir
    · simp only [State.exec, if_pos directory, Option.some.injEq] at ran
      subst ran
      obtain ⟨new, later⟩ := sound.lookup calls safe directory
      exact ⟨_, _, later⟩
    · simp [State.exec, directory] at ran
  | ialloc type =>
    rw [calls] at ran follows
    by_cases unused : (s.inode pick).type = .free
    · simp only [State.exec, if_pos unused, Option.some.injEq] at ran
      subst ran
      obtain ⟨-, allocates, d, held, continues⟩ := follows
      have above (j : Inum) : depth j < total depth id + 1 := Nat.lt_succ_of_le (weight_le_total depth id j)
      refine ⟨_, _, sound.ialloc above allocates unused held (continues pick ?_)⟩
      rintro rfl
      have directory := (sound.holds p).known
      rw [held] at directory
      have both : FileType.free = .dir := unused.symm.trans directory
      contradiction
    · simp [State.exec, unused] at ran
  | setLinks i =>
    rw [calls] at ran follows
    cases ran
    exact ⟨_, _, sound.modify rfl (.inl rfl) (fun _ => .inl) (sound.typed i) follows.2 (follows.front rfl) ⟨rfl, rfl, rfl⟩ (fun _ _ => id)
      (fun _ => .inl) fun j => by rw [modify_field Inode.ref rfl j]⟩
  | addLinks i =>
    rw [calls] at ran follows
    cases ran
    have front := follows.front rfl
    rcases follows.2 with same | ⟨pinned, unpins⟩
    · exact ⟨_, _, sound.modify rfl (.inl rfl) (fun _ => .inl) (sound.typed i) same front ⟨rfl, rfl, rfl⟩ (fun _ _ => id) (fun _ => .inl)
        fun j => by rw [modify_field Inode.ref rfl j]⟩
    · exact ⟨_, _, sound.modify rfl (.inl rfl) (fun _ => .inl) (sound.typed i) unpins front ⟨rfl, rfl, rfl⟩ (fun _ _ => id) (by simp [Context.unpin])
        fun j => by rw [modify_field Inode.ref rfl j, Context.unpin_count pinned]⟩
  | links | empty | choose =>
    rw [calls] at ran follows
    cases ran
    exact ⟨_, _, sound.goto (follows.2 _) (sound.holds p) (follows.front rfl) (fun _ => rfl) rfl rfl⟩
  | enter =>
    rw [calls] at ran follows
    cases ran
    obtain ⟨_, later⟩ := sound.enter follows.2.1 (follows.front rfl) follows.2.2
    exact ⟨_, _, later⟩
  | erase =>
    rw [calls] at ran follows
    cases ran
    exact ⟨_, _, sound.erase follows.2.1 (follows.front rfl) follows.2.2⟩
  | last i =>
    rw [calls] at ran follows
    cases ran
    have front := follows.front rfl
    obtain ⟨-, mine, referred, keeps, frees⟩ := follows
    cases last : (s.inode i).valid && decide ((s.inode i).nlink = 0) && decide ((s.inode i).ref = 1) with
    | true => exact ⟨_, _, sound.last mine referred (by simp_all) front frees⟩
    | false => exact ⟨_, _, sound.goto keeps (sound.holds p) front (fun _ => rfl) rfl rfl⟩
  | free =>
    rw [calls] at ran follows
    cases ran
    have front := follows.front rfl
    obtain ⟨-, freeing, unknown, continues⟩ := follows
    exact ⟨_, _, sound.free freeing unknown front continues⟩
  | drop =>
    rw [calls] at ran follows
    cases ran
    have front := follows.front rfl
    obtain ⟨-, _, referred, continues⟩ := follows
    exact ⟨_, _, sound.drop front referred continues⟩
  | chdir =>
    rw [calls] at ran follows
    cases ran
    exact ⟨_, _, sound.chdir (follows.front rfl) follows.2⟩

theorem Sound.call {call : Call} (plain : call.Plain) (idle : s.code p = .done) :
    ∃ ctx depth, Sound (s.goto p (call.code s.root (s.cwd p))) ctx depth := by
  have follows := sound.follows p
  rw [idle] at follows
  obtain ⟨-, held, home⟩ := follows
  have before := sound.holds p
  rw [before.cwd] at home
  have mine : Holds s depth p ⟨.free, (ctx p).refs, none, none, none, s.cwd p⟩ := by
    refine ⟨?_, trivial, by simp, by simp, by simp, rfl⟩
    rw [← held]
    exact before.locks
  refine ⟨_, _, sound.inert rfl rfl (fun _ _ => rfl) (fun _ => rfl) (fun _ _ => rfl) (call.follows plain home)
    (mine.keep (fun _ => Iff.rfl) (fun _ => rfl) (fun _ _ => rfl) rfl) rfl (fun i => ?_) (by simp) (by simp)
    sound.deeper sound.typed⟩
  simp [Context.count, State.goto]

theorem Sound.step [Fintype Inum] {event : Event Proc Inum} (safe : LockSafe s event next)
    (stepped : s.step event = some next) : ∃ ctx depth, Sound next ctx depth := by
  cases event with
  | call _ call =>
    simp only [State.step] at stepped
    split at stepped
    next idle =>
      cases stepped
      exact sound.call safe idle
    · contradiction
  | run => exact sound.exec safe stepped

end

omit [DecidableEq Proc] in
theorem Tree.sound (tree : Tree s) {depth : Inum → Nat} (deeper : Deeper s depth) :
    Sound s (fun p => ⟨.free, {s.cwd p}, none, none, none, s.cwd p⟩) depth where
  follows := by
    intro p
    rw [tree.idle p]
    exact Code.follows_done (Multiset.mem_singleton_self _)
  holds := by
    intro p
    refine ⟨fun i => ?_, trivial, by simp, by simp, by simp, rfl⟩
    simp [tree.unlocked i, Held.locks]
  counted := by
    intro i
    have counted := tree.counted i
    refine Nat.le_trans (total_le_total fun p => ?_) counted
    simp [Context.count, Multiset.count_singleton, eq_comm]
  unpinned := by simp
  deeper := deeper
  typed := tree.typed
  clear := by simp [Held.isBack]

end

section

variable [Fintype Proc] [DecidableEq Proc] [Fintype Inum] {s : State Proc Inum} {events : List (Event Proc Inum)}

theorem inode_locks_acyclic (tree : Tree s) (safe : EveryStep step LockSafe s events) :
    EveryStep step NoCycle s events := by
  obtain ⟨depth, deeper⟩ := tree.depth
  refine (runs_along (fun s => ∃ ctx depth, Sound s ctx depth) ⟨_, depth, tree.sound deeper⟩ safe
    (fun state event next sound safe stepped => ?_)).1
  obtain ⟨ctx, depth, sound⟩ := sound
  obtain ⟨ctx', depth', later⟩ := sound.step safe stepped
  exact ⟨⟨ctx', depth', later⟩, later.noCycle⟩

end

/-- A root directory in which "f" and "g" are links to one file. -/
def hardLinks : State Bool (Fin 4) where
  root := 0
  inode := fun i =>
    if i = 0 then
      { type := .dir, nlink := 1, valid := true, ref := 2,
        content := [⟨dot, some 0⟩, ⟨dotdot, some 0⟩, ⟨[102], some 1⟩, ⟨[103], some 1⟩] }
    else if i = 1 then { type := .file, nlink := 2 }
    else {}
  cwd := fun _ => 0

def commands (p : Bool) (count : Nat) : List (Event Bool (Fin 4)) := List.replicate count (.run p 2 true)

/-- mkdir("/d") keeps the root locked while another process comes to unlink("/f"). -/
def mkdirUnlink : List (Event Bool (Fin 4)) :=
  .call false (.sysMkdir [47, 100]) :: commands false 5 ++ .call true (.sysUnlink [47, 102]) :: commands true 2 ++
    commands false 24 ++ commands true 22

/-- link("/f", "/.") -/
def linkSelf : List (Event Bool (Fin 4)) := .call false (.sysLink [47, 102] [47, 46]) :: commands false 23

/-- unlink("/f") and unlink("/g") -/
def unlinkBoth : List (Event Bool (Fin 4)) :=
  .call false (.sysUnlink [47, 102]) :: commands false 13 ++ .call true (.sysUnlink [47, 103]) :: commands true 9 ++
    commands false 1

/-- open("/d", O_CREATE | O_RDWR) and unlink("/d") -/
def createUnlink : List (Event Bool (Fin 4)) :=
  .call false (.sysOpen [47, 100] 0x202) :: commands false 15 ++ .call true (.sysUnlink [47, 100]) ::
    commands true 9 ++ commands false 1

theorem hardLinks_tree : Tree hardLinks where
  idle := fun _ => rfl
  unlocked := fun _ => rfl
  counted := by decide
  typed := by decide
  depth := ⟨fun _ => 0, by unfold Deeper; decide⟩

theorem inode_locks_acyclic_mkdir : (run step hardLinks mkdirUnlink).map
        (fun s => ((s.inode 0).content.map Dirent.inum, (s.inode 1).nlink, (s.inode 2).type, s.lock 0)) =
      some ([some 0, some 0, none, some 1, some 2], 1, .dir, none) ∧
    EveryStep step LockSafe hardLinks mkdirUnlink ∧ EveryStep step NoCycle hardLinks mkdirUnlink := by
  have safe : EveryStep step LockSafe hardLinks mkdirUnlink := by decide +kernel
  exact ⟨by decide +kernel, safe, inode_locks_acyclic hardLinks_tree safe⟩

/-- dirlink puts the directory that sys_link has locked, and an iunlockput(dp) that
comes back for dp waits for a process that waits for the inode it has kept. -/
theorem inode_locks_cycle : Tree hardLinks ∧ (∃ s, run step hardLinks linkSelf = some s ∧ Waits s false false) ∧
    (∃ s, run step hardLinks unlinkBoth = some s ∧ Waits s false true ∧ Waits s true false) ∧
    ∃ s, run step hardLinks createUnlink = some s ∧ Waits s false true ∧ Waits s true false := by
  have waits {events : List (Event Bool (Fin 4))} {i j : Fin 4} {p q : Bool}
      (ran : (run step hardLinks events).map
        (fun s => ((s.code p).awaited, s.lock i, (s.code q).awaited, s.lock j)) = some (some i, some q, some j, some p)) :
      ∃ s, run step hardLinks events = some s ∧ Waits s p q ∧ Waits s q p := by
    obtain ⟨s, reached, facts⟩ := Option.map_eq_some_iff.mp ran
    simp only [Prod.mk.injEq] at facts
    obtain ⟨forI, byQ, forJ, byP⟩ := facts
    exact ⟨s, reached, ⟨i, forI, byQ⟩, ⟨j, forJ, byP⟩⟩
  refine ⟨hardLinks_tree, ?_, ?_, ?_⟩
  · obtain ⟨s, reached, self, -⟩ := waits (i := 0) (j := 0) (p := false) (q := false)
      (show (run step hardLinks linkSelf).map _ = _ by decide +kernel)
    exact ⟨s, reached, self⟩
  · exact waits (i := 0) (j := 1) (by decide +kernel)
  · exact waits (i := 0) (j := 2) (by decide +kernel)

end Xv6.Fs
