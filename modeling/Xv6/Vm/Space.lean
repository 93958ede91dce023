import Xv6.Data.Owners
import Xv6.Vm.Paging

namespace Xv6.Vm

open Data Memory Function List

/-! The pages of an address space: its directory, its page tables and its user
pages, each on a frame of its own. -/

/-- The entry of `v`; none of its bits are set where there is no page table. -/
def pteOf (page : Frame → Page) (dir v : Nat) : Pte :=
  if ((page dir).entry (v / 1024)).p = true then (page ((page dir).entry (v / 1024)).frame).entry (v % 1024) else {}

/-- The byte at the address `a`. -/
def Machine.byte (m : Machine) (dir a : Nat) : UInt8 := (m.page (pteOf m.page dir (a / 4096)).frame).bytes (a % 4096)

inductive Use where
  | dir
  | table (i : Nat)
  | user (v : Nat)
deriving DecidableEq, Repr

def holdsOf (page : Frame → Page) (dir : Nat) : Use → Option Frame
  | .dir => some dir
  | .table i => if i < 1024 ∧ ((page dir).entry i).p = true then some ((page dir).entry i).frame else none
  | .user v => if v < userPages ∧ (pteOf page dir v).p = true then some (pteOf page dir v).frame else none

theorem user_lt {v : Nat} (low : v < userPages) : v < 0x100000 := by
  unfold userPages at low
  omega

section

variable {page : Frame → Page} {dir f t i j v : Nat} {pte : Pte} {page' : Frame → Page}

/-- The frame is neither the directory nor a page table. -/
def Apart (page : Frame → Page) (dir f : Nat) : Prop :=
  f ≠ dir ∧ ∀ i < 1024, ((page dir).entry i).p = true → ((page dir).entry i).frame ≠ f

theorem pteOf_update (apart : Apart page dir f) (new : Page) (v : Nat) (bound : v < 0x100000) :
    pteOf (update page f new) dir v = pteOf page dir v := by
  have low : v / 1024 < 1024 := by omega
  unfold pteOf
  rw [update_of_ne apart.1.symm]
  split
  · rename_i present
    rw [update_of_ne (apart.2 _ low present)]
  · rfl

theorem holdsOf_table (same : i < 1024 → (page' dir).entry i = (page dir).entry i) :
    holdsOf page' dir (.table i) = holdsOf page dir (.table i) := by
  by_cases low : i < 1024
  · simp only [holdsOf, same low]
  · simp [holdsOf, low]

theorem holdsOf_user (same : v < userPages → pteOf page' dir v = pteOf page dir v) :
    holdsOf page' dir (.user v) = holdsOf page dir (.user v) := by
  by_cases low : v < userPages
  · simp only [holdsOf, same low]
  · simp [holdsOf, low]

theorem holdsOf_update (apart : Apart page dir f) (new : Page) : holdsOf (update page f new) dir = holdsOf page dir := by
  funext use
  cases use with
  | dir => rfl
  | table => exact holdsOf_table fun _ => by rw [update_of_ne apart.1.symm]
  | user v => exact holdsOf_user fun low => pteOf_update apart new v (user_lt low)

theorem holdsOf_setUser (low : v < userPages) (tables : ∀ i < 1024, (page' dir).entry i = (page dir).entry i)
    (entries : ∀ w < userPages, pteOf page' dir w = if w = v then pte else pteOf page dir w) :
    holdsOf page' dir = update (holdsOf page dir) (.user v) (if pte.p = true then some pte.frame else none) := by
  funext use
  cases use with
  | dir => rfl
  | table i =>
    rw [update_of_ne (by simp)]
    exact holdsOf_table (tables i)
  | user w =>
    by_cases same : w = v
    · subst same
      rw [update_self]
      simp only [holdsOf, entries w low, if_true, low, true_and]
    · rw [update_of_ne (by simpa using same)]
      exact holdsOf_user fun low => (entries w low).trans (if_neg same)

theorem holdsOf_setTable (low : i < 1024) (present : pte.p = true)
    (tables : (page' dir).entry = update (page dir).entry i pte)
    (entries : ∀ w < userPages, pteOf page' dir w = pteOf page dir w) :
    holdsOf page' dir = update (holdsOf page dir) (.table i) (some pte.frame) := by
  funext use
  cases use with
  | dir => rfl
  | table k =>
    by_cases same : k = i
    · subst same
      simp [holdsOf, tables, low, present]
    · rw [update_of_ne (by simpa using same)]
      simp only [holdsOf, tables, update_of_ne same]
  | user w =>
    rw [update_of_ne (by simp)]
    exact holdsOf_user (entries w)

theorem pteOf_setEntry (pte : Pte) (present : ((page dir).entry i).p = true) (table : ((page dir).entry i).frame = t)
    (apart : t ≠ dir) (alone : ∀ k < 1024, ((page dir).entry k).p = true → ((page dir).entry k).frame = t → k = i)
    (column : j < 1024) (v : Nat) (bound : v < 0x100000) : pteOf (update page t (.table (update (page t).entry j pte))) dir v =
      if v = i * 1024 + j then pte else pteOf page dir v := by
  have row : v / 1024 < 1024 := by omega
  unfold pteOf
  rw [update_of_ne apart.symm]
  by_cases here : v / 1024 = i
  · rw [here, if_pos present, if_pos present, table, update_self]
    rw [Page.entry_table, update_apply]
    have place : v % 1024 = j ↔ v = i * 1024 + j := by omega
    simp only [place]
  · rw [if_neg (show ¬ v = i * 1024 + j by omega)]
    split
    · rename_i exists'
      rw [update_of_ne fun same => here (alone _ row exists' same)]
    · rfl

theorem pteOf_newTable (outside : ∀ k < 1024, ((page dir).entry k).p = true → ((page dir).entry k).frame ≠ dir)
    (absent : ((page dir).entry i).p = false) (fresh : Apart page dir t) (v : Nat) (bound : v < 0x100000) :
    pteOf (update (update page t (.table fun _ => {})) dir
      (.table (update (page dir).entry i { frame := t, p := true, w := true, u := true }))) dir v =
      pteOf page dir v := by
  have row : v / 1024 < 1024 := by omega
  unfold pteOf
  rw [update_self, Page.entry_table]
  by_cases here : v / 1024 = i
  · rw [here, update_self, absent, if_pos rfl, if_neg Bool.false_ne_true, update_of_ne fresh.1, update_self, Page.entry_table]
  · simp only [update_of_ne here]
    split
    · rename_i exists'
      rw [update_of_ne (outside _ row exists'), update_of_ne (fresh.2 _ row exists')]
    · rfl

end

section

variable {m m' m'' : Machine} {dir f v : Nat} {loose loose' loose'' : List Frame}

/-- The frames of the address space, those in hand and the free ones. -/
def Machine.Owned (m : Machine) (dir : Nat) (loose : List Frame) (f : Frame) : Prop :=
  Owns (holdsOf m.page dir) (loose ++ m.free) f

/-- No frame has two uses. -/
structure Space (m : Machine) (dir : Nat) (loose : List Frame) : Prop where
  owners : Exclusive (holdsOf m.page dir) (loose ++ m.free)
  allocatable : ∀ f, m.Owned dir loose f → m.Allocatable f

/-- What an operation on the address space keeps. -/
structure Kept (dir : Nat) (m : Machine) (loose : List Frame) (m' : Machine) (loose' : List Frame) : Prop where
  space : Space m' dir loose'
  pool : ∀ f, m'.Owned dir loose' f ↔ m.Owned dir loose f
  outside : ∀ f, ¬ m.Owned dir loose f → m'.page f = m.page f
  first : m'.first = m.first
  fails : m'.fails = m.fails

theorem Kept.of_owners {holds : Use → Option Frame} (space : Space m dir loose) (held : holdsOf m'.page dir = holds)
    (owners : Exclusive holds (loose' ++ m'.free)) (pool : ∀ f, Owns holds (loose' ++ m'.free) f ↔ m.Owned dir loose f)
    (outside : ∀ f, ¬ m.Owned dir loose f → m'.page f = m.page f)
    (first : m'.first = m.first) (fails : m'.fails = m.fails) : Kept dir m loose m' loose' := by
  subst held
  refine ⟨⟨owners, fun f owned => ?_⟩, pool, outside, first, fails⟩
  unfold Machine.Allocatable
  rw [first]
  exact space.allocatable f ((pool f).mp owned)

theorem Kept.refl (space : Space m dir loose) : Kept dir m loose m loose :=
  ⟨space, fun _ => Iff.rfl, fun _ _ => rfl, rfl, rfl⟩

theorem Kept.trans (first : Kept dir m loose m' loose') (second : Kept dir m' loose' m'' loose'') :
    Kept dir m loose m'' loose'' where
  space := second.space
  pool f := (second.pool f).trans (first.pool f)
  outside f away := (second.outside f (mt (first.pool f).mp away)).trans (first.outside f away)
  first := second.first.trans first.first
  fails := second.fails.trans first.fails

section

variable (space : Space m dir loose)
include space

theorem Space.apart (inside : f ∈ loose ++ m.free) : Apart m.page dir f := by
  refine ⟨?_, fun i low present same => ?_⟩
  · rintro rfl
    exact space.owners.apart .dir f rfl inside
  · exact space.owners.apart (.table i) f (by simp [holdsOf, low, present, same]) inside

theorem Space.table_ne (i : Nat) (low : i < 1024) (present : (m.pde dir i).p = true) :
    (m.pde dir i).frame ≠ dir := by
  intro same
  have both := space.owners.single .dir (.table i) dir rfl (by
    have held : ((m.page dir).entry i).frame = dir := same
    have here : ((m.page dir).entry i).p = true := present
    simp [holdsOf, low, here, held])
  cases both

theorem Space.table_single {i k : Nat} (low : i < 1024) (low' : k < 1024) (present : (m.pde dir i).p = true)
    (present' : (m.pde dir k).p = true) (same : (m.pde dir k).frame = (m.pde dir i).frame) : k = i := by
  have first : holdsOf m.page dir (.table i) = some (m.pde dir i).frame := if_pos ⟨low, present⟩
  have second : holdsOf m.page dir (.table k) = some (m.pde dir i).frame := (if_pos ⟨low', present'⟩).trans (congrArg some same)
  exact Use.table.inj (space.owners.single _ _ _ second first)

theorem Space.user_apart (low : v < userPages) (present : (pteOf m.page dir v).p = true) :
    Apart m.page dir (pteOf m.page dir v).frame ∧ (pteOf m.page dir v).frame ∉ loose ++ m.free := by
  have held : holdsOf m.page dir (.user v) = some (pteOf m.page dir v).frame := if_pos ⟨low, present⟩
  refine ⟨⟨fun same => ?_, fun i low present same => ?_⟩, space.owners.apart _ _ held⟩
  · have := space.owners.single (.user v) .dir dir (held.trans (congrArg some same)) rfl
    cases this
  · have := space.owners.single (.user v) (.table i) _ held ((if_pos ⟨low, present⟩).trans (congrArg some same))
    cases this

end

end

variable {m m' : Machine} {dir f v i : Nat} {loose rest : List Frame} {perm : Pte}

def never : Panic → Prop := fun _ => False

theorem kalloc_ends (m : Machine) : Ends kalloc m (fun result m' => (result = none ∧ m' = { m with calls := m.calls + 1 }) ∨
      ∃ f, result = some f ∧ m.free = f :: m'.free ∧ m' = { m with calls := m.calls + 1, free := m'.free }) never := by
  refine .bind (.get ?_)
  split
  · rename_i f rest passes free
    exact .bind (.modify (.pure (.inr ⟨f, rfl, free, rfl⟩)))
  · exact .bind (.modify (.pure (.inl ⟨rfl, rfl⟩)))

theorem kfree_ends (allocatable : m.Allocatable f) :
    Ends (kfree f) m (fun _ m' => m' = { m with page := update m.page f (.data fun _ => 1), free := f :: m.free }) never := by
  refine .bind (.get ?_)
  rw [if_pos allocatable]
  exact .bind (.modify (.modify rfl))

theorem setPage_ends (f : Frame) (page : Page) (m : Machine) :
    Ends (setPage f page) m (fun _ m' => m' = { m with page := update m.page f page }) never := .modify rfl

theorem setEntry_ends (f i : Nat) (pte : Pte) (m : Machine) : Ends (setEntry f i pte) m (fun _ m' =>
      m' = { m with page := update m.page f (.table (update (m.page f).entry i pte)) }) never := .modify rfl

theorem Machine.entry_table (present : (m.pde dir (v / 1024)).p = true) :
    (m.page (m.pde dir (v / 1024)).frame).entry (v % 1024) = pteOf m.page dir v :=
  (if_pos present).symm

theorem Machine.entry_absent (absent : (m.pde dir (v / 1024)).p = false) : pteOf m.page dir v = {} :=
  if_neg (Bool.not_eq_true _ ▸ absent)

theorem walkpgdir_ends (dir v : Nat) (m : Machine) : Ends (walkpgdir dir v false) m (fun result m' => m' = m ∧
      result = if (m.pde dir (v / 1024)).p = true then some (m.pde dir (v / 1024)).frame else none) never := by
  refine .bind (.get ?_)
  split
  · exact .pure ⟨rfl, rfl⟩
  · rw [if_neg Bool.false_ne_true]
    exact .pure ⟨rfl, rfl⟩

/-- Page tables are made of free frames only. -/
def Built (dir : Nat) (m m' : Machine) : Prop :=
  ∀ f, f ∉ m.free → Apart m.page dir f → m'.page f = m.page f ∧ f ∉ m'.free ∧ Apart m'.page dir f

/-- There is a page table for `v`, and these are the entries. -/
structure Walked (dir v : Nat) (entry : Nat → Pte) (m m' : Machine) : Prop where
  built : Built dir m m'
  free : ∀ f ∈ m'.free, f ∈ m.free
  entries : ∀ w < 0x100000, pteOf m'.page dir w = entry w
  table : (m'.pde dir (v / 1024)).p = true

theorem Built.refl : Built dir m m := fun _ used apart => ⟨rfl, used, apart⟩

theorem Built.trans {m'' : Machine} (first : Built dir m m') (second : Built dir m' m'') : Built dir m m'' := by
  intro f used apart
  obtain ⟨same, used', apart'⟩ := first f used apart
  obtain ⟨same', used'', apart''⟩ := second f used' apart'
  exact ⟨same'.trans same, used'', apart''⟩

theorem Space.newTable {t : Frame} (space : Space m dir loose) (m' : Machine) (low : i < 1024) (absent : (m.pde dir i).p = false)
    (free : m.free = t :: m'.free) (page : m'.page = update (update m.page t (.table fun _ => {})) dir
      (.table (update (m.page dir).entry i { frame := t, p := true, w := true, u := true })))
    (first : m'.first = m.first) (fails : m'.fails = m.fails) :
    Kept dir m loose m' loose ∧ Built dir m m' ∧ (∀ w < 0x100000, pteOf m'.page dir w = pteOf m.page dir w) ∧
      m'.pde dir = update (m.pde dir) i { frame := t, p := true, w := true, u := true } := by
  have apart : Apart m.page dir t := space.apart (by simp [free])
  have entries : ∀ w < 0x100000, pteOf m'.page dir w = pteOf m.page dir w := fun w bound => by
    rw [page]
    exact pteOf_newTable space.table_ne absent apart w bound
  have tables : (m'.page dir).entry = update (m.page dir).entry i { frame := t, p := true, w := true, u := true } := by
    rw [page, update_self]
    rfl
  have holds := holdsOf_setTable low rfl tables fun w low => entries w (user_lt low)
  have middle : (loose ++ m.free).Perm (t :: (loose ++ m'.free)) := by
    rw [free]
    exact perm_middle
  have vacant : holdsOf m.page dir (.table i) = none := if_neg fun both => Bool.false_ne_true (absent.symm.trans both.2)
  obtain ⟨owners, pool⟩ := (space.owners.perm middle).take vacant
  have same (f : Frame) := (pool f).trans (Owns.perm middle.symm f)
  refine ⟨.of_owners space holds owners same (fun f away => ?_) first fails, fun f used away => ?_, entries, tables⟩
  · rw [page, update_of_ne, update_of_ne]
    · rintro rfl
      exact away (.inl (by simp [free]))
    · rintro rfl
      exact away (.inr ⟨.dir, rfl⟩)
  · have other : f ≠ t := fun same => used (by simp [free, same])
    refine ⟨by rw [page, update_of_ne away.1, update_of_ne other],
      fun listed => used (by simp [free, listed]), away.1, fun k low present => ?_⟩
    rw [tables, update_apply] at present ⊢
    split at present
    · rename_i here
      rw [if_pos here]
      exact other.symm
    · rename_i elsewhere
      rw [if_neg elsewhere]
      exact away.2 k low present

theorem walkpgdir_alloc_ends (space : Space m dir loose) (bound : v < 0x100000) : Ends (walkpgdir dir v true) m (fun result m' =>
      (result = none ∧ m' = { m with calls := m.calls + 1 }) ∨
      (result = some (m'.pde dir (v / 1024)).frame ∧ Kept dir m loose m' loose ∧
        Walked dir v (pteOf m.page dir) m m')) never := by
  refine .bind (.get ?_)
  split
  · rename_i present
    exact .pure (.inr ⟨rfl, .refl space, .refl, fun _ => id, fun _ _ => rfl, present⟩)
  · rename_i absent
    rw [Bool.not_eq_true] at absent
    rw [if_pos rfl]
    refine .bind ((kalloc_ends m).returns ?_)
    rintro result m₁ (⟨rfl, rfl⟩ | ⟨t, rfl, free, rest⟩)
    · exact .pure (.inl ⟨rfl, rfl⟩)
    · refine .bind ((setPage_ends _ _ _).returns fun _ m₂ zeroed => ?_)
      refine .bind ((setEntry_ends _ _ _ _).returns fun _ m₃ linked => .pure (.inr ?_))
      have apart : Apart m.page dir t := space.apart (by simp [free])
      have before : m₁.page = m.page := by rw [rest]
      have taken : m.free = t :: m₃.free := by
        rw [linked, zeroed]
        exact free
      obtain ⟨kept, built, entries, tables⟩ := space.newTable m₃ (by omega) absent taken
        (by simp [linked, zeroed, before, apart.1.symm]) (by rw [linked, zeroed, rest]) (by rw [linked, zeroed, rest])
      refine ⟨?_, kept, built, fun f listed => taken ▸ mem_cons_of_mem t listed, entries, ?_⟩
      · rw [tables, update_self]
      · rw [tables, update_self]

/-- An entry of the page table for `v` is written. -/
structure Written (dir v : Nat) (pte : Pte) (m m' : Machine) : Prop where
  page : m'.page = update m.page (m.pde dir (v / 1024)).frame
    (.table (update (m.page (m.pde dir (v / 1024)).frame).entry (v % 1024) pte))
  free : m'.free = m.free
  calls : m'.calls = m.calls
  first : m'.first = m.first
  fails : m'.fails = m.fails

namespace Written

variable {pte : Pte}

section

variable (written : Written dir v pte m m') (present : (m.pde dir (v / 1024)).p = true)
include written present

theorem pde (space : Space m dir loose) (bound : v < 0x100000) : m'.pde dir = m.pde dir := by
  funext i
  change (m'.page dir).entry i = (m.page dir).entry i
  rw [written.page, update_of_ne (Ne.symm (space.table_ne (v / 1024) (by omega) present))]

theorem entries (space : Space m dir loose) (bound : v < 0x100000) (w : Nat) (low : w < 0x100000) :
    pteOf m'.page dir w = if w = v then pte else pteOf m.page dir w := by
  have row : v / 1024 < 1024 := by omega
  have set := pteOf_setEntry pte present rfl (space.table_ne _ row present)
    (fun k below here same => space.table_single row below present here same) (Nat.mod_lt v (by decide)) w low
  rw [Nat.div_add_mod'] at set
  rw [written.page]
  exact set

theorem built (space : Space m dir loose) (bound : v < 0x100000) : Built dir m m' := by
  intro f used apart
  have same : m'.page dir = m.page dir := by
    rw [written.page, update_of_ne (Ne.symm (space.table_ne (v / 1024) (by omega) present))]
  refine ⟨?_, by rwa [written.free], apart.1, by rw [same]; exact apart.2⟩
  have other : (m.pde dir (v / 1024)).frame ≠ f := apart.2 _ (by omega) present
  rw [written.page, update_of_ne other.symm]

theorem outside (bound : v < 0x100000) (f : Frame) (away : ¬ m.Owned dir loose f) : m'.page f = m.page f := by
  rw [written.page, update_of_ne]
  rintro rfl
  exact away (.inr ⟨.table (v / 1024), if_pos ⟨by omega, present⟩⟩)

theorem take (space : Space m dir (f :: rest)) (low : v < userPages)
    (absent : (pteOf m.page dir v).p = false) (frame : pte.frame = f) (mapped : pte.p = true) : Kept dir m (f :: rest) m' rest := by
  have bound := user_lt low
  have holds := holdsOf_setUser low (fun i _ => congrFun (written.pde present space bound) i) fun w below =>
    written.entries present space bound w (user_lt below)
  rw [if_pos mapped, frame] at holds
  have vacant : holdsOf m.page dir (.user v) = none := if_neg fun both => Bool.false_ne_true (absent.symm.trans both.2)
  obtain ⟨owners, pool⟩ := Exclusive.take space.owners vacant
  refine .of_owners space holds ?_ (fun g => ?_) (written.outside present bound) written.first written.fails
  · rwa [written.free]
  · rw [written.free]
    exact pool g

end

end Written

theorem Space.unmap (space : Space m dir loose) (m' : Machine) (low : v < userPages)
    (present : (pteOf m.page dir v).p = true) (table : (m.pde dir (v / 1024)).p = true)
    (page : m'.page = update (update m.page (pteOf m.page dir v).frame (.data fun _ => 1))
      (m.pde dir (v / 1024)).frame (.table (update (m.page (m.pde dir (v / 1024)).frame).entry (v % 1024) {})))
    (free : m'.free = (pteOf m.page dir v).frame :: m.free) (first : m'.first = m.first) (fails : m'.fails = m.fails) :
    Kept dir m loose m' loose ∧ m'.pde dir = m.pde dir ∧
      (∀ w < 0x100000, pteOf m'.page dir w = if w = v then {} else pteOf m.page dir w) ∧
      ∀ f, f ≠ (pteOf m.page dir v).frame → Apart m.page dir f → m'.page f = m.page f := by
  have bound := user_lt low
  obtain ⟨apart, _⟩ := space.user_apart low present
  -- The entry could as well be cleared first.
  obtain ⟨cleared, written, swap⟩ : ∃ cleared, Written dir v {} m cleared ∧
      m'.page = update cleared.page (pteOf m.page dir v).frame (.data fun _ => 1) := by
    have other : (m.pde dir (v / 1024)).frame ≠ (pteOf m.page dir v).frame := apart.2 (v / 1024) (by omega) table
    rw [update_comm other.symm] at page
    exact ⟨{ m' with free := m.free, calls := m.calls, page := _ }, ⟨rfl, rfl, rfl, first, fails⟩, page⟩
  have tables := written.pde table space bound
  have entries := written.entries table space bound
  have apart' : Apart cleared.page dir (pteOf m.page dir v).frame := by
    refine ⟨apart.1, fun i low present => ?_⟩
    have same : ((cleared.page dir).entry i) = m.pde dir i := congrFun tables i
    rw [same] at present ⊢
    exact apart.2 i low present
  have entries' : ∀ w < 0x100000, pteOf m'.page dir w = if w = v then {} else pteOf m.page dir w := by
    intro w below
    rw [swap, pteOf_update apart' _ w below]
    exact entries w below
  have tables' : m'.pde dir = m.pde dir := by
    rw [← tables]
    unfold Machine.pde
    rw [swap, update_of_ne (Ne.symm apart'.1)]
  have holds := holdsOf_setUser low (fun i _ => congrFun tables' i) fun w below => entries' w (user_lt below)
  rw [if_neg Bool.false_ne_true] at holds
  have held : holdsOf m.page dir (.user v) = some (pteOf m.page dir v).frame := if_pos ⟨low, present⟩
  obtain ⟨owners, pool⟩ := Exclusive.give space.owners held
  have middle : (loose ++ m'.free).Perm ((pteOf m.page dir v).frame :: (loose ++ m.free)) := by
    rw [free]
    exact perm_middle
  have others : ∀ f, f ≠ (pteOf m.page dir v).frame → f ≠ (m.pde dir (v / 1024)).frame → m'.page f = m.page f := by
    intro f other away
    rw [page, update_of_ne away, update_of_ne other]
  refine ⟨.of_owners space holds (owners.perm middle.symm) (fun f => (Owns.perm middle f).trans (pool f)) (fun f away => ?_) first fails,
    tables', entries', fun f other away => ?_⟩
  · apply others f
    · rintro rfl
      exact away (.inr ⟨_, held⟩)
    · rintro rfl
      exact away (.inr ⟨.table (v / 1024), if_pos ⟨by omega, table⟩⟩)
  · exact others f other (Ne.symm (away.2 (v / 1024) (by omega) table))

theorem mapPage_ends (space : Space m dir (f :: rest)) (low : v < userPages) (absent : (pteOf m.page dir v).p = false) (perm : Pte) :
    Ends (mapPage dir v f perm) m (fun mapped m' => (mapped = false ∧ m' = { m with calls := m.calls + 1 }) ∨
      (mapped = true ∧ Kept dir m (f :: rest) m' rest ∧
        Walked dir v (update (pteOf m.page dir) v { perm with frame := f, p := true }) m m')) never := by
  have bound := user_lt low
  refine .bind ((walkpgdir_alloc_ends space bound).returns ?_)
  rintro result m₁ (⟨rfl, rfl⟩ | ⟨rfl, kept, walked⟩)
  · exact .pure (.inl ⟨rfl, rfl⟩)
  · have present := walked.table
    have absent' : (pteOf m₁.page dir v).p = false := by rw [walked.entries v bound, absent]
    refine .bind (.get ?_)
    rw [Machine.entry_table present, absent', if_neg Bool.false_ne_true]
    refine .bind ((setEntry_ends _ _ _ _).returns fun _ m₂ linked => .pure (.inr ⟨rfl, ?_⟩))
    have written : Written dir v { perm with frame := f, p := true } m₁ m₂ := by constructor <;> rw [linked]
    refine ⟨kept.trans (written.take present kept.space low absent' rfl rfl),
      walked.built.trans (written.built present kept.space bound), fun g listed => ?_, fun w below => ?_, ?_⟩
    · exact walked.free g (by rwa [written.free] at listed)
    · rw [written.entries present kept.space bound w below, update_apply, walked.entries w below]
    · rw [written.pde present kept.space bound]
      exact present

end Xv6.Vm
