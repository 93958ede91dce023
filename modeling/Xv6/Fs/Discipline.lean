import Mathlib.Data.Multiset.AddSub
import Xv6.Fs.Calls

namespace Xv6.Fs

open Multiset

/-! The discipline by which the calls take inode locks. A process holds at most
two: the second is a child of the first that it has looked up or allocated, or it
is the parent that create and sys_unlink put back while they keep the child. -/

variable {Inum : Type}

/-- What a process knows about a directory it has locked: that it is one, and an
inode that comes below it. -/
inductive Known (Inum : Type) where
  | nothing | dir
  | below (c : Inum)

/-- The locks of a process. In `two d c ordered` the child `c` comes below `d` if
`ordered`; in `back c d` the parent `d` has been unlocked and is still to be put. -/
inductive Held (Inum : Type) where
  | free
  | one (d : Inum) (known : Known Inum)
  | two (d c : Inum) (ordered : Bool)
  | back (c d : Inum)

namespace Held

def locks : Held Inum → List Inum
  | .free => []
  | .one d _ => [d]
  | .two d c _ => [d, c]
  | .back c _ => [c]

/-- The directory the process knows something about. -/
def dir : Held Inum → Option Inum
  | .one d .dir | .one d (.below _) | .two d _ true => some d
  | _ => none

def isBack : Held Inum → Bool
  | .back _ _ => true
  | _ => false

/-- The depth of the only inode that is locked. -/
def height (depth : Inum → Nat) : Held Inum → Nat
  | .one d _ => depth d
  | _ => 0

end Held

open Held (locks)

inductive Takes : Held Inum → Site → Inum → Held Inum → Prop where
  | first (site : Site) (i : Inum) (plain : site ≠ .parentput) : Takes .free site i (.one i .nothing)
  | child (site : Site) (d c : Inum) (plain : site ≠ .parentput) : Takes (.one d (.below c)) site c (.two d c true)
  | parent (c d : Inum) : Takes (.back c d) .parentput d (.two d c false)

inductive Gives : Held Inum → Inum → Held Inum → Prop where
  | last (i : Inum) (known : Known Inum) : Gives (.one i known) i .free
  | child (d c : Inum) : Gives (.two d c true) c (.one d (.below c))
  | parent (d c : Inum) : Gives (.two d c true) d (.back c d)
  | again (d c : Inum) : Gives (.two d c false) d (.one c .nothing)

/-- What a process has at a point of its code. -/
structure Context (Inum : Type) where
  held : Held Inum
  /-- The references it has to inodes, with that of its current directory. -/
  refs : Multiset Inum
  /-- An inode it has a further reference to and knows not to be a directory. -/
  pin : Option Inum := none
  freeing : Option Inum := none
  /-- A name it has found missing in a directory it has locked since. -/
  absent : Option (Inum × Name) := none
  cwd : Inum

namespace Context

variable (ctx : Context Inum)

def unpin (i : Inum) : Context Inum := { ctx with pin := none, refs := i ::ₘ ctx.refs }

def missed (d : Inum) (name : Name) : Lookup → Context Inum
  | .dots => ctx
  | .path | .dirlink =>
    match ctx.held with
    | .one _ _ => { ctx with held := .one d .dir, absent := some (d, name) }
    | _ => { ctx with absent := some (d, name) }

def found (d : Inum) (name : Name) (i : Inum) : Context Inum :=
  { ctx with held := .one d (if name = dot ∨ name = dotdot then .dir else .below i) }

variable [DecidableEq Inum]

/-- After an entry has been written to `d`. -/
def entered (d : Inum) : Context Inum := { ctx with absent := ctx.absent.filter fun missing => missing.1 ≠ d }

/-- The references to an inode, with the one that pins it. -/
def count (i : Inum) : Nat := ctx.refs.count i + if ctx.pin = some i then 1 else 0

end Context

variable [DecidableEq Inum]

/-- The code keeps to the discipline from a context on. A process is asleep in
acquiresleep in the course of a run only. -/
def Code.Follows (code : Code Inum) (ctx : Context Inum) : Prop := (ctx.held.isBack = true → code.backing = true) ∧
  match code with
  | .done => ctx.held = .free ∧ ctx.cwd ∈ ctx.refs
  | .panic => True
  | .iget i next => next.Follows { ctx with refs := i ::ₘ ctx.refs }
  | .acquire site i next => ∃ held, Takes ctx.held site i held ∧ next.Follows { ctx with held := held }
  | .waiting _ _ _ => False
  | .load i next => i ∈ ctx.held.locks ∧ ∀ type, type ≠ .free →
      (next type).Follows ctx ∨ type ≠ .dir ∧ ctx.pin = none ∧ ctx.freeing = none ∧
        ∃ refs, ctx.refs = i ::ₘ refs ∧ (next type).Follows { ctx with refs := refs, pin := some i }
  | .release i next => ∃ held, Gives ctx.held i held ∧
      next.Follows { ctx with held := held, freeing := none, absent := none }
  | .lookup site d name next => d ∈ ctx.held.locks ∧ (next none).Follows (ctx.missed d name site) ∧
      (site ≠ .dots → ctx.absent ≠ some (d, name) →
        (∃ known, ctx.held = .one d known) ∧ ∀ i off, (¬ (name = dot ∨ name = dotdot) → i ≠ d) →
          (next (some (i, off))).Follows (ctx.found d name i))
  | .ialloc type next => type ≠ .free ∧ ∃ d, ctx.held = .one d .dir ∧
      ∀ i, i ≠ d → (next i).Follows { ctx with held := .one d (.below i) }
  | .setLinks _ _ next => next.Follows ctx
  | .addLinks i _ next => next.Follows ctx ∨ ctx.pin = some i ∧ next.Follows (ctx.unpin i)
  | .links _ next => ∀ nlink, (next nlink).Follows ctx
  | .enter d name i next => d ∈ ctx.held.locks ∧
      (((name = dot ∨ name = dotdot) ∨ ctx.held = .two d i true) ∧ next.Follows (ctx.entered d) ∨
        ctx.pin = some i ∧ next.Follows ((ctx.entered d).unpin i))
  | .erase d _ next => d ∈ ctx.held.locks ∧ next.Follows (ctx.entered d)
  | .empty _ next => ∀ empty, (next empty).Follows ctx
  | .last i next => i ∈ ctx.held.locks ∧ i ∈ ctx.refs ∧ (next false).Follows ctx ∧
      (next true).Follows { ctx with freeing := some i }
  | .free i next => ctx.freeing = some i ∧ ctx.held.dir ≠ some i ∧ next.Follows { ctx with freeing := none }
  | .drop i next => ∃ refs, ctx.refs = i ::ₘ refs ∧ next.Follows { ctx with refs := refs }
  | .choose next => ∀ room, (next room).Follows ctx
  | .chdir i next => next.Follows { ctx with cwd := i }

namespace Code

/-- A process that sleeps in acquiresleep stands where it called it. -/
def resumed : Code Inum → Code Inum
  | .waiting site i next => .acquire site i next
  | code => code

variable {next : Code Inum} {held middle after : Held Inum} {refs : Multiset Inum} {pin : Option Inum}
  {cwd i d c : Inum} {site : Site} {absent : Option (Inum × Name)}

omit [DecidableEq Inum] in
theorem not_back (front : held.isBack = false) (back : held.isBack = true) : next.backing = true := by
  rw [front] at back
  contradiction

theorem follows_iput (takes : Takes held site i middle) (gives : Gives middle i after)
    (unknown : middle.dir ≠ some i) (plain : after.isBack = false) (rest : next.Follows ⟨after, refs, pin, none, none, cwd⟩) :
    (iput site i next).Follows ⟨held, i ::ₘ refs, pin, none, none, cwd⟩ := by
  have inside : i ∈ middle.locks ∧ middle.isBack = false ∧ (held.isBack = true → site = .parentput) := by
    cases takes with
    | first | child | parent => simp [locks, Held.isBack]
  have put (freeing : Option Inum) :
      (release i (.drop i next)).Follows ⟨middle, i ::ₘ refs, pin, freeing, none, cwd⟩ := by
    refine ⟨not_back inside.2.1, after, gives, not_back plain, refs, rfl, rest⟩
  refine ⟨fun back => ?_, middle, takes, not_back inside.2.1, inside.1, by simp, put none, ?_⟩
  · rw [inside.2.2 back]
    rfl
  · exact ⟨not_back inside.2.1, rfl, unknown, put none⟩

section

variable (plain : site ≠ .parentput)
include plain

theorem follows_iput_free (rest : next.Follows ⟨.free, refs, pin, none, none, cwd⟩) :
    (iput site i next).Follows ⟨.free, i ::ₘ refs, pin, none, none, cwd⟩ :=
  follows_iput (.first site i plain) (.last i _) (by simp [Held.dir]) rfl rest

theorem follows_iput_child (other : d ≠ c) (rest : next.Follows ⟨.one d (.below c), refs, pin, none, none, cwd⟩) :
    (iput site c next).Follows ⟨.one d (.below c), c ::ₘ refs, pin, none, none, cwd⟩ :=
  follows_iput (.child site d c plain) (.child d c) (by simpa [Held.dir] using other) rfl rest

theorem follows_iunlockput {known : Known Inum} (rest : next.Follows ⟨.free, refs, pin, none, none, cwd⟩) :
    (iunlockput site i next).Follows ⟨.one i known, i ::ₘ refs, pin, none, absent, cwd⟩ :=
  ⟨not_back rfl, .free, .last i known, follows_iput_free plain rest⟩

end

theorem follows_iunlockput_parent (rest : next.Follows ⟨.one c .nothing, refs, pin, none, none, cwd⟩) :
    (iunlockput .parentput d next).Follows ⟨.two d c true, d ::ₘ refs, pin, none, absent, cwd⟩ :=
  ⟨not_back rfl, .back c d, .parent d c, follows_iput (.parent c d) (.again d c) (by simp [Held.dir]) rfl rest⟩

theorem follows_ilock {next : FileType → Code Inum}
    (rest : ∀ type, type ≠ .free → (next type).Follows ⟨.one i .nothing, refs, pin, none, none, cwd⟩) :
    (ilock i next).Follows ⟨.free, refs, pin, none, none, cwd⟩ :=
  ⟨not_back rfl, .one i .nothing, .first .ilock i (by simp), not_back rfl,
    by simp [locks], fun type allocated => .inl (rest type allocated)⟩

/-- namex returns with nothing locked, and with one more reference if it finds something.
nameiparent leaves the last element of the path in `name`. -/
theorem follows_namexLoop {parent : Bool} {next : Option (Inum × Name) → Code Inum}
    (failed : (next none).Follows ⟨.free, refs, pin, none, none, cwd⟩) (names : List Name) (ip : Inum) (name : Name)
    (found : ∀ i last, (parent = true → names.getLast? = some last) →
      (next (some (i, last))).Follows ⟨.free, i ::ₘ refs, pin, none, none, cwd⟩) :
    (namexLoop parent next ip name names).Follows ⟨.free, ip ::ₘ refs, pin, none, none, cwd⟩ := by
  induction names generalizing ip name with
  | nil =>
    cases parent with
    | true => exact follows_iput_free (by simp) failed
    | false => exact found ip name (by simp)
  | cons head rest ih =>
    refine follows_ilock fun type _ => ?_
    by_cases directory : type = .dir
    · rw [if_neg (by simp [directory])]
      by_cases stop : parent = true ∧ rest = []
      · rw [if_pos stop]
        exact ⟨not_back rfl, .free, .last ip _, found ip head (by simp [stop.2])⟩
      · rw [if_neg stop]
        refine ⟨not_back rfl, by simp [locks], follows_iunlockput (by simp) failed,
          fun _ _ => ⟨⟨_, rfl⟩, fun child off _ => ⟨not_back rfl, ?_⟩⟩⟩
        dsimp only [Context.found]
        rw [cons_swap]
        refine follows_iunlockput (by simp) (ih child head fun i last ends => found i last fun parents => ?_)
        have more : rest.getLast? = some last := ends parents
        simp [List.getLast?_cons, more]
    · rw [if_pos directory]
      exact follows_iunlockput (by simp) failed

section

variable {root here : Inum} {path : Path} {type : FileType} {dp ip : Inum}

theorem follows_namei {next : Option Inum → Code Inum} (failed : (next none).Follows ⟨.free, refs, pin, none, none, cwd⟩)
    (found : ∀ i, (next (some i)).Follows ⟨.free, i ::ₘ refs, pin, none, none, cwd⟩) :
    (namei root here path next).Follows ⟨.free, refs, pin, none, none, cwd⟩ :=
  ⟨not_back rfl, follows_namexLoop failed _ _ _ fun i _ _ => found i⟩

theorem follows_nameiparent {next : Option (Inum × Name) → Code Inum}
    (failed : (next none).Follows ⟨.free, refs, pin, none, none, cwd⟩) (found : ∀ dp name, path.names.getLast? = some name →
      (next (some (dp, name))).Follows ⟨.free, dp ::ₘ refs, pin, none, none, cwd⟩) :
    (nameiparent root here path next).Follows ⟨.free, refs, pin, none, none, cwd⟩ :=
  ⟨not_back rfl, follows_namexLoop failed _ _ _ fun dp name last => found dp name (last rfl)⟩

section

variable (home : cwd ∈ refs)
include home

theorem follows_done : (done : Code Inum).Follows ⟨.free, refs, none, none, none, cwd⟩ := ⟨not_back rfl, rfl, home⟩

theorem follows_bad : (bad i).Follows ⟨.free, refs, some i, none, none, cwd⟩ :=
  follows_ilock fun _ _ => ⟨not_back rfl, .inr ⟨rfl, follows_iunlockput (by simp) (follows_done home)⟩⟩

theorem follows_sysLink {old new : Path}
    (named : ∀ name, new.names.getLast? = some name → ¬ (name = dot ∨ name = dotdot)) :
    (sysLink root here old new).Follows ⟨.free, refs, none, none, none, cwd⟩ := by
  refine follows_namei (follows_done home) fun ip => ⟨not_back rfl, .one ip .nothing,
    .first .ilock ip (by simp), not_back rfl, by simp [locks], fun type _ => ?_⟩
  dsimp only
  by_cases directory : type = .dir
  · rw [if_pos directory]
    exact .inl (follows_iunlockput (by simp) (follows_done home))
  · rw [if_neg directory]
    -- from here on `ip` is pinned: it has a reference and is no directory
    refine .inr ⟨directory, rfl, rfl, refs, rfl, not_back rfl, .inl ⟨not_back rfl, .free,
      .last ip _, follows_nameiparent (follows_bad home) fun dp name last => follows_ilock fun _ _ => ?_⟩⟩
    refine ⟨not_back rfl, by simp [locks], ⟨not_back rfl,
      by simp [locks, Context.missed], .inr ⟨rfl, ?_⟩⟩, fun _ _ => ⟨⟨_, rfl⟩, fun child off other =>
      ⟨not_back rfl, ?_⟩⟩⟩
    · simp only [Context.missed, Context.entered, Context.unpin]
      rw [cons_swap]
      exact follows_iunlockput (by simp) (follows_iput_free (by simp) (follows_done home))
    · simp only [Context.found, if_neg (named name last)]
      exact follows_iput_child (by simp) (other (named name last)).symm (follows_iunlockput (by simp) (follows_bad home))

theorem follows_remove {off : Nat} :
    (remove dp ip off type).Follows ⟨.two dp ip true, ip ::ₘ dp ::ₘ refs, none, none, none, cwd⟩ := by
  have put : (iunlockput .parentput dp (.addLinks ip (-1) (iunlockput .iput ip .done))).Follows
      ⟨.two dp ip true, ip ::ₘ dp ::ₘ refs, none, none, none, cwd⟩ := by
    rw [cons_swap]
    exact follows_iunlockput_parent ⟨not_back rfl, .inl (follows_iunlockput (by simp) (follows_done home))⟩
  refine ⟨not_back rfl, by simp [locks], ?_⟩
  by_cases directory : type = .dir
  · rw [if_pos directory]
    exact ⟨not_back rfl, .inl put⟩
  · rw [if_neg directory]
    exact put

theorem follows_sysUnlink : (sysUnlink root here path).Follows ⟨.free, refs, none, none, none, cwd⟩ := by
  refine follows_nameiparent (follows_done home) fun dp name _ => follows_ilock fun _ _ => ?_
  by_cases dots : name = dot ∨ name = dotdot
  · rw [if_pos dots]
    exact follows_iunlockput (by simp) (follows_done home)
  · rw [if_neg dots]
    refine ⟨not_back rfl, by simp [locks], follows_iunlockput (by simp) (follows_done home),
      fun _ _ => ⟨⟨_, rfl⟩, fun ip off other => ?_⟩⟩
    simp only [Context.found, if_neg dots]
    refine ⟨not_back rfl, not_back rfl, .two dp ip true, .child .ilock dp ip (by simp),
      not_back rfl, by simp [locks], fun type _ => .inl ⟨not_back rfl, fun nlink => ?_⟩⟩
    dsimp only
    by_cases unlinked : nlink < 1
    · rw [if_pos unlinked]
      exact ⟨not_back rfl, trivial⟩
    · rw [if_neg unlinked]
      by_cases directory : type = .dir
      · rw [if_pos directory]
        refine ⟨not_back rfl, fun empty => ?_⟩
        cases empty with
        | true => exact follows_remove home
        | false =>
          refine ⟨not_back rfl, _, .child _ _, ?_⟩
          exact follows_iput_child (by simp) (other dots).symm (follows_iunlockput (by simp) (follows_done home))
      · rw [if_neg directory]
        exact follows_remove home

end

theorem follows_install {name : Name} {next : Option Inum → Code Inum}
    (made : (next (some ip)).Follows ⟨.one ip .nothing, ip ::ₘ refs, pin, none, none, cwd⟩) : (install dp name ip next).Follows
      ⟨.two dp ip true, ip ::ₘ dp ::ₘ refs, pin, none, some (dp, name), cwd⟩ := by
  refine ⟨not_back rfl, by simp [locks], ⟨not_back rfl,
    by simp [locks, Context.missed], .inl ⟨.inr rfl, ?_⟩⟩, fun _ present => absurd rfl present⟩
  rw [cons_swap]
  exact follows_iunlockput_parent made

theorem follows_dots {dp ip target : Inum} {name dots : Name} {next : Bool → Code Inum} (other : ip ≠ dp)
    (isDots : dots = dot ∨ dots = dotdot) (rest : (next true).Follows ⟨.two dp ip true, refs, pin, none, some (dp, name), cwd⟩) :
    (dirlink .dots ip dots target next).Follows ⟨.two dp ip true, refs, pin, none, some (dp, name), cwd⟩ := by
  refine ⟨not_back rfl, by simp [locks], ⟨not_back rfl,
    by simp [locks, Context.missed], .inl ⟨.inl isDots, ?_⟩⟩, fun ordinary => absurd rfl ordinary⟩
  simpa [Context.missed, Context.entered, Option.filter, other.symm] using rest

theorem follows_create {next : Option Inum → Code Inum} (allocates : type ≠ .free)
    (failed : (next none).Follows ⟨.free, refs, pin, none, none, cwd⟩)
    (made : ∀ ip, (next (some ip)).Follows ⟨.one ip .nothing, ip ::ₘ refs, pin, none, none, cwd⟩) :
    (create root here path type next).Follows ⟨.free, refs, pin, none, none, cwd⟩ := by
  refine follows_nameiparent failed fun dp name _ => follows_ilock fun _ _ => ?_
  refine ⟨not_back rfl, by simp [locks], ?_, fun _ _ => ⟨⟨_, rfl⟩, fun ip off _ =>
    ⟨not_back rfl, ?_⟩⟩⟩
  · refine ⟨not_back rfl, allocates, dp, rfl, fun ip other =>
      ⟨not_back rfl, not_back rfl, .two dp ip true, .child .ilock dp ip (by simp),
      not_back rfl, by simp [locks], fun _ _ => .inl ⟨not_back rfl, ?_⟩⟩⟩
    by_cases directory : type = .dir
    · rw [if_pos directory]
      refine ⟨not_back rfl, .inl (follows_dots other (.inl rfl) ?_)⟩
      rw [if_pos rfl]
      refine follows_dots other (.inr rfl) ?_
      rw [if_pos rfl]
      exact follows_install (made ip)
    · rw [if_neg directory]
      exact follows_install (made ip)
  · dsimp only [Context.found]
    rw [cons_swap]
    refine follows_iunlockput (by simp) (follows_ilock fun found _ => ?_)
    by_cases file : type = .file ∧ found = .file
    · rw [if_pos file]
      exact made ip
    · rw [if_neg file]
      exact follows_iunlockput (by simp) failed

theorem follows_opened (home : cwd ∈ refs) : (opened i).Follows ⟨.one i .nothing, i ::ₘ refs, none, none, none, cwd⟩ := by
  refine ⟨not_back rfl, fun room => ?_⟩
  cases room with
  | true => exact ⟨not_back rfl, .free, .last i _, follows_done (mem_cons_of_mem home)⟩
  | false => exact follows_iunlockput (by simp) (follows_done home)

theorem follows_sysOpen {omode : UInt32} (home : cwd ∈ refs) :
    (sysOpen root here path omode).Follows ⟨.free, refs, none, none, none, cwd⟩ := by
  unfold sysOpen
  by_cases creates : omode &&& O_CREATE ≠ 0
  · rw [if_pos creates]
    exact follows_create (by simp) (follows_done home) fun ip => follows_opened home
  · rw [if_neg creates]
    refine follows_namei (follows_done home) fun ip => follows_ilock fun type _ => ?_
    by_cases writes : type = .dir ∧ omode ≠ 0
    · rw [if_pos writes]
      exact follows_iunlockput (by simp) (follows_done home)
    · rw [if_neg writes]
      exact follows_opened home

theorem follows_make (allocates : type ≠ .free) (home : cwd ∈ refs) :
    (make root here path type).Follows ⟨.free, refs, none, none, none, cwd⟩ :=
  follows_create allocates (follows_done home) fun _ => follows_iunlockput (by simp) (follows_done home)

theorem follows_sysChdir (home : cwd ∈ refs) : (sysChdir root cwd path).Follows ⟨.free, refs, none, none, none, cwd⟩ := by
  refine follows_namei (follows_done home) fun ip => follows_ilock fun type _ => ?_
  by_cases file : type ≠ .dir
  · rw [if_pos file]
    exact follows_iunlockput (by simp) (follows_done home)
  · rw [if_neg file]
    refine ⟨not_back rfl, .free, .last ip _, ?_⟩
    -- the reference of the old directory is given back, that of the new one kept
    obtain ⟨others, rfl⟩ := exists_cons_of_mem home
    rw [cons_swap]
    exact follows_iput_free (by simp) ⟨not_back rfl, follows_done (mem_cons_self ip others)⟩

end

end Code

/-- What sys_link has to be spared: a new path that ends in "." or "..". -/
def Call.Plain : Call → Prop
  | .sysLink _ new => ∀ name ∈ new.names.getLast?, ¬ (name = dot ∨ name = dotdot)
  | _ => True

instance Call.Plain.decidable : (call : Call) → Decidable call.Plain
  | .sysLink _ new => inferInstanceAs
      (Decidable (∀ name ∈ new.names.getLast?, ¬ (name = dot ∨ name = dotdot)))
  | .sysOpen _ _ | .sysUnlink _ | .sysMkdir _ | .sysMknod _ | .sysChdir _ => .isTrue trivial

theorem Call.follows {root cwd : Inum} {refs : Multiset Inum} (call : Call) (plain : call.Plain) (home : cwd ∈ refs) :
    (call.code root cwd).Follows ⟨.free, refs, none, none, none, cwd⟩ := by
  cases call with
  | sysOpen => exact Code.follows_sysOpen home
  | sysLink => exact Code.follows_sysLink home plain
  | sysUnlink => exact Code.follows_sysUnlink home
  | sysMkdir | sysMknod => exact Code.follows_make (by simp) home
  | sysChdir => exact Code.follows_sysChdir home

end Xv6.Fs
