import Xv6.Vm.Space

namespace Xv6.Vm

open Data Memory Function Finset Machine

/-! Growing and shrinking the user part: allocuvm, deallocuvm and growproc. -/

variable {m m' m₀ : Machine} {dir v lo limit : Nat} {loose : List Frame} {oldsz newsz sz : UInt32}

/-- deallocuvm removes the page. -/
def Removed (m : Machine) (dir lo limit w : Nat) : Prop := lo ≤ w ∧ w * 4096 < limit ∧ (pteOf m.page dir w).p = true

instance (m : Machine) (dir lo limit w : Nat) : Decidable (Removed m dir lo limit w) := inferInstanceAs (Decidable (_ ∧ _ ∧ _))

structure Cleared (dir lo limit : Nat) (loose : List Frame) (m m' : Machine) : Prop where
  kept : Kept dir m loose m' loose
  tables : m'.pde dir = m.pde dir
  entries : ∀ w < 0x100000, pteOf m'.page dir w = if Removed m dir lo limit w then {} else pteOf m.page dir w
  free : ∀ f, f ∈ m'.free ↔ f ∈ m.free ∨ ∃ w, Removed m dir lo limit w ∧ (pteOf m.page dir w).frame = f
  data : ∀ f, Apart m.page dir f → (∀ w, Removed m dir lo limit w → (pteOf m.page dir w).frame ≠ f) → m'.page f = m.page f

theorem Cleared.refl (space : Space m dir loose) (none : ∀ w, ¬ Removed m dir lo limit w) : Cleared dir lo limit loose m m where
  kept := .refl space
  tables := rfl
  entries w _ := (if_neg (none w)).symm
  free _ := ⟨.inl, fun listed => listed.elim id fun ⟨w, removed, _⟩ => absurd removed (none w)⟩
  data _ _ _ := rfl

theorem Cleared.skip {hi : Nat} (later : Cleared dir hi limit loose m m') (above : lo ≤ hi)
    (absent : ∀ w, lo ≤ w → w < hi → (pteOf m.page dir w).p = false) : Cleared dir lo limit loose m m' := by
  have same (w : Nat) : Removed m dir lo limit w ↔ Removed m dir hi limit w := by
    constructor
    · rintro ⟨low, below, present⟩
      refine ⟨?_, below, present⟩
      rcases Nat.lt_or_ge w hi with early | late
      · simp [absent w low early] at present
      · exact late
    · rintro ⟨low, rest⟩
      exact ⟨above.trans low, rest⟩
  refine ⟨later.kept, later.tables, fun w bound => ?_, fun f => ?_, fun f apart others => ?_⟩
  · rw [later.entries w bound]
    simp only [same]
  · rw [later.free f]
    simp only [same]
  · exact later.data f apart fun w removed => others w ((same w).mpr removed)

theorem Cleared.remove (below : v * 4096 < limit) (high : limit ≤ 0x80000000)
    (present : (pteOf m.page dir v).p = true) (kept : Kept dir m loose m₀ loose) (tables : m₀.pde dir = m.pde dir)
    (entries : ∀ w < 0x100000, pteOf m₀.page dir w = if w = v then {} else pteOf m.page dir w)
    (free : m₀.free = (pteOf m.page dir v).frame :: m.free)
    (data : ∀ f, f ≠ (pteOf m.page dir v).frame → Apart m.page dir f → m₀.page f = m.page f)
    (later : Cleared dir (v + 1) limit loose m₀ m') : Cleared dir v limit loose m m' := by
  have same (w : Nat) (other : w ≠ v) (inside : w * 4096 < limit) : pteOf m₀.page dir w = pteOf m.page dir w := by
    rw [entries w (by omega), if_neg other]
  have here : Removed m dir v limit v := ⟨Nat.le_refl v, below, present⟩
  have removed (w : Nat) (other : w ≠ v) : Removed m₀ dir (v + 1) limit w ↔ Removed m dir v limit w := by
    constructor
    · rintro ⟨above, inside, there⟩
      exact ⟨by omega, inside, by rwa [same w other inside] at there⟩
    · rintro ⟨_, inside, there⟩
      exact ⟨by omega, inside, by rwa [same w other inside]⟩
  have notHere : ¬ Removed m₀ dir (v + 1) limit v := fun there => absurd there.1 (by omega)
  refine ⟨kept.trans later.kept, later.tables.trans tables, fun w bound => ?_, fun f => ?_, fun f apart others => ?_⟩
  · rw [later.entries w bound, entries w bound]
    by_cases other : w = v
    · subst other
      simp [here]
    · simp only [removed w other, if_neg other]
  · rw [later.free f, free, List.mem_cons]
    constructor
    · rintro ((rfl | listed) | ⟨w, gone, frame⟩)
      · exact .inr ⟨v, here, rfl⟩
      · exact .inl listed
      · have other : w ≠ v := fun same => notHere (same ▸ gone)
        rw [same w other gone.2.1] at frame
        exact .inr ⟨w, (removed w other).mp gone, frame⟩
    · rintro (listed | ⟨w, gone, frame⟩)
      · exact .inl (.inr listed)
      · by_cases other : w = v
        · subst other
          exact .inl (.inl frame.symm)
        · exact .inr ⟨w, (removed w other).mpr gone, by rw [same w other gone.2.1]; exact frame⟩
  · have away : f ≠ (pteOf m.page dir v).frame := (others v here).symm
    have apart' : Apart m₀.page dir f := by
      refine ⟨apart.1, fun i low present => ?_⟩
      have pde : (m₀.page dir).entry i = m.pde dir i := congrFun tables i
      rw [pde] at present ⊢
      exact apart.2 i low present
    rw [later.data f apart' fun w gone => ?_, data f away apart]
    have other : w ≠ v := fun same => notHere (same ▸ gone)
    rw [same w other gone.2.1]
    exact others w ((removed w other).mp gone)

theorem deallocLoop_ends (high : limit ≤ 0x80000000) (fuel v : Nat) (enough : userPages ≤ v + fuel)
    (space : Space m dir loose) : Ends (deallocLoop dir limit fuel v) m (fun _ m' => Cleared dir v limit loose m m') never := by
  have none {m : Machine} {v w : Nat} (past : limit ≤ v * 4096) : ¬ Removed m dir v limit w := by
    rintro ⟨above, inside, -⟩
    omega
  induction fuel generalizing v m with
  | zero =>
    have past : limit ≤ v * 4096 := by unfold userPages at enough; omega
    exact .pure (.refl space fun w => none past)
  | succ _ ih =>
    unfold deallocLoop
    split
    · rename_i inside
      have low : v < userPages := by unfold userPages; omega
      refine .bind ((walkpgdir_ends dir v m).returns ?_)
      rintro _ m ⟨rfl, rfl⟩
      cases table : (m.pde dir (v / 1024)).p with
      | false =>
        rw [if_neg Bool.false_ne_true]
        refine (ih _ (by omega) space).returns fun _ m' cleared => cleared.skip (by omega) fun w above early => ?_
        rw [entry_absent (by rw [← table]; congr 2; omega)]
      | true =>
        rw [if_pos rfl]
        refine .bind (.get ?_)
        rw [entry_table table]
        cases present : (pteOf m.page dir v).p with
        | false =>
          rw [if_neg Bool.false_ne_true]
          refine (ih _ (by omega) space).returns fun _ m' cleared => cleared.skip (by omega) fun w above early => ?_
          obtain rfl : w = v := by omega
          exact present
        | true =>
          obtain ⟨apart, _⟩ := space.user_apart low present
          have other : (m.pde dir (v / 1024)).frame ≠ (pteOf m.page dir v).frame := apart.2 (v / 1024) (by omega) table
          rw [if_pos rfl]
          refine .bind ((kfree_ends (space.allocatable _ (.inr ⟨.user v, if_pos ⟨low, present⟩⟩))).returns fun _ m₁ freed => ?_)
          refine .bind ((setEntry_ends _ _ _ _).returns fun _ m₂ unmapped => ?_)
          obtain ⟨kept, tables, entries, data⟩ := space.unmap m₂ low present table
            (by simp only [unmapped, freed, update_of_ne other]) (by rw [unmapped, freed])
            (by rw [unmapped, freed]) (by rw [unmapped, freed])
          exact (ih (v + 1) (by omega) kept.space).returns fun _ m' later =>
            later.remove inside high present kept tables entries (by rw [unmapped, freed]) data
    · rename_i past
      exact .pure (.refl space fun w => none (Nat.le_of_not_lt past))

theorem PGROUNDUP_pages (high : sz.toNat ≤ 0x80000000) : (PGROUNDUP sz).toNat / 4096 = pages sz := by
  have sum : (sz + (PGSIZE - 1)).toNat = sz.toNat + 4095 := by
    rw [UInt32.toNat_add]
    exact Nat.mod_eq_of_lt (by change sz.toNat + 4095 < 2 ^ 32; omega)
  rw [toNat_PGROUNDUP, sum, Nat.mul_div_cancel _ (by decide)]
  rfl

theorem deallocuvm_ends (space : Space m dir loose) (high : oldsz.toNat ≤ 0x80000000) (less : newsz < oldsz) :
    Ends (deallocuvm dir oldsz newsz) m (fun result m' => result = newsz ∧
      Cleared dir (pages newsz) oldsz.toNat loose m m') never := by
  have smaller : newsz.toNat < oldsz.toNat := UInt32.lt_iff_toNat_lt.mp less
  unfold deallocuvm
  rw [if_neg (UInt32.not_le.mpr less), PGROUNDUP_pages (by omega)]
  exact .bind ((deallocLoop_ends high _ _ (by unfold userPages; omega) space).returns fun _ m' cleared => .pure ⟨rfl, cleared⟩)

section

variable {f : Frame} {new : Page}

theorem Space.hand {left : List Frame} {m' : Machine} (space : Space m dir loose) (mine : f ∈ loose ++ m.free)
    (same : (loose ++ m.free).Perm (left ++ m'.free)) (page : m'.page = update m.page f new) (first : m'.first = m.first)
    (fails : m'.fails = m.fails) :
    Kept dir m loose m' left ∧ ∀ w < 0x100000, pteOf m'.page dir w = pteOf m.page dir w := by
  have apart : Apart m.page dir f := space.apart mine
  have holds : holdsOf m'.page dir = holdsOf m.page dir := by rw [page, holdsOf_update apart]
  refine ⟨.of_owners space holds (space.owners.perm same) (fun g => Owns.perm same.symm g) (fun g away => ?_) first fails,
    fun w bound => by rw [page, pteOf_update apart new w bound]⟩
  rw [page, update_of_ne]
  rintro rfl
  exact away (.inl mine)

theorem Space.fetch (space : Space m dir loose) (m' : Machine) (free : m.free = f :: m'.free)
    (page : m'.page = update m.page f new) (first : m'.first = m.first) (fails : m'.fails = m.fails) :
    Kept dir m loose m' (f :: loose) ∧ Built dir m m' ∧ ∀ w < 0x100000, pteOf m'.page dir w = pteOf m.page dir w := by
  have mine : f ∈ loose ++ m.free := by simp [free]
  have tables : m'.page dir = m.page dir := by rw [page, update_of_ne (Ne.symm (space.apart mine).1)]
  have middle : (loose ++ m.free).Perm (f :: loose ++ m'.free) := by
    rw [free]
    exact List.perm_middle
  obtain ⟨kept, entries⟩ := space.hand mine middle page first fails
  refine ⟨kept, fun g used away => ⟨?_, fun listed => used (by simp [free, listed]), away.1, by rw [tables]; exact away.2⟩, entries⟩
  rw [page, update_of_ne]
  rintro rfl
  exact used (by simp [free])

end

section

variable {hi : Nat}

/-- allocuvm has mapped the pages from `lo` up to `hi`. -/
structure Grown (dir lo hi : Nat) (loose : List Frame) (m₀ m : Machine) : Prop where
  kept : Kept dir m₀ [] m loose
  built : Built dir m₀ m
  free : ∀ f ∈ m.free, f ∈ m₀.free
  entries : ∀ w < 0x100000, ¬ (lo ≤ w ∧ w < hi) → pteOf m.page dir w = pteOf m₀.page dir w
  fresh : ∀ w, lo ≤ w → w < hi → (pteOf m.page dir w).p = true ∧ (pteOf m.page dir w).w = true ∧
    (pteOf m.page dir w).u = true ∧ (pteOf m.page dir w).frame ∈ m₀.free ∧
    m.page (pteOf m.page dir w).frame = .data fun _ => 0

/-- The user part is the one before; page tables may be left over. -/
structure Restored (dir : Nat) (loose : List Frame) (m₀ m : Machine) : Prop where
  kept : Kept dir m₀ [] m loose
  present : ∀ w < 0x100000, (pteOf m.page dir w).p = (pteOf m₀.page dir w).p
  entries : ∀ w < 0x100000, (pteOf m₀.page dir w).p = true → pteOf m.page dir w = pteOf m₀.page dir w
  data : ∀ f, f ∉ m₀.free → Apart m₀.page dir f → m.page f = m₀.page f

theorem Grown.undo (grown : Grown dir lo hi loose m₀ m)
    (absent : ∀ w, lo ≤ w → w < hi ∨ w * 4096 < limit → (pteOf m₀.page dir w).p = false)
    (below : limit ≤ 0x80000000) (within : ∀ w < hi, w * 4096 < limit) (cleared : Cleared dir lo limit loose m m') :
    Restored dir loose m₀ m' := by
  have removed (w : Nat) (bound : w < 0x100000) : Removed m dir lo limit w ↔ lo ≤ w ∧ w < hi := by
    constructor
    · rintro ⟨above, inside, present⟩
      by_contra outside
      rw [grown.entries w bound outside, absent w above (.inr inside)] at present
      cases present
    · rintro ⟨above, early⟩
      exact ⟨above, within w early, (grown.fresh w above early).1⟩
  refine ⟨grown.kept.trans cleared.kept, fun w bound => ?_, fun w bound present => ?_, fun f used apart => ?_⟩
  · rw [cleared.entries w bound]
    split
    · rename_i gone
      obtain ⟨above, early⟩ := (removed w bound).mp gone
      rw [absent w above (.inl early)]
    · rename_i stays
      rw [grown.entries w bound (mt (removed w bound).mpr stays)]
  · have stays : ¬ (lo ≤ w ∧ w < hi) := by
      rintro ⟨above, early⟩
      rw [absent w above (.inl early)] at present
      cases present
    rw [cleared.entries w bound, if_neg (mt (removed w bound).mp stays), grown.entries w bound stays]
  · obtain ⟨same, _, apart'⟩ := grown.built f used apart
    rw [cleared.data f apart' fun w gone frame => ?_, same]
    obtain ⟨above, early⟩ := (removed w (by have := gone.2.1; omega)).mp gone
    exact used (frame ▸ (grown.fresh w above early).2.2.2.1)

theorem Grown.fetch {f : Frame} {m₁ : Machine} (grown : Grown dir lo hi [] m₀ m) (low : hi < userPages)
    (fetched : Kept dir m [] m₁ [f]) (built : Built dir m m₁) (free : m.free = f :: m₁.free)
    (same : ∀ w < 0x100000, pteOf m₁.page dir w = pteOf m.page dir w) : Grown dir lo hi [f] m₀ m₁ := by
  refine ⟨grown.kept.trans fetched, grown.built.trans built, fun g listed => grown.free g (by simp [free, listed]),
    fun w bound outside => (same w bound).trans (grown.entries w bound outside), fun w above early => ?_⟩
  obtain ⟨present, writable, user, listed, zero⟩ := grown.fresh w above early
  obtain ⟨apart, used⟩ := grown.kept.space.user_apart (by omega) present
  rw [same w (user_lt (by omega))]
  exact ⟨present, writable, user, listed, (built _ (by simpa using used) apart).1.trans zero⟩

theorem Grown.map {f : Frame} (grown : Grown dir lo hi [f] m₀ m) (start : lo ≤ hi) (low : hi < userPages)
    (listed : f ∈ m₀.free) (zeroed : m.page f = .data fun _ => 0) (kept : Kept dir m [f] m' [])
    (walked : Walked dir hi (update (pteOf m.page dir) hi { frame := f, p := true, w := true, u := true }) m m') :
    Grown dir lo (hi + 1) [] m₀ m' := by
  refine ⟨grown.kept.trans kept, grown.built.trans walked.built, fun g listed => grown.free g (walked.free g listed),
    fun w bound outside => ?_, fun w above early => ?_⟩
  · rw [walked.entries w bound, update_of_ne (by omega), grown.entries w bound (by omega)]
  · have bound := user_lt (show w < userPages by omega)
    rw [walked.entries w bound]
    by_cases here : w = hi
    · subst here
      have used : f ∉ m.free := (List.nodup_cons.mp grown.kept.space.owners.nodup).1
      rw [update_self]
      exact ⟨rfl, rfl, rfl, listed, (walked.built f used (grown.kept.space.apart (by simp))).1.trans zeroed⟩
    · obtain ⟨present, writable, user, listed, zero⟩ := grown.fresh w above (by omega)
      obtain ⟨apart, used⟩ := grown.kept.space.user_apart (by omega) present
      rw [update_of_ne here]
      exact ⟨present, writable, user, listed, (walked.built _ (fun free => used (by simp [free])) apart).1.trans zero⟩

theorem Grown.call (grown : Grown dir lo hi loose m₀ m) (calls : Nat) : Grown dir lo hi loose m₀ { m with calls } :=
  { grown with kept := { grown.kept with space := ⟨grown.kept.space.owners, grown.kept.space.allocatable⟩ } }

theorem allocLoop_ends (n : Nat) (last : hi + n = pages newsz) (high : newsz.toNat ≤ 0x80000000) (start : lo = pages oldsz)
    (absent : ∀ w, lo ≤ w → w < userPages → (pteOf m₀.page dir w).p = false) (above : lo ≤ hi) (grown : Grown dir lo hi [] m₀ m) :
    Ends (allocLoop dir oldsz newsz n hi) m (fun result m' =>
      (result = newsz ∧ Grown dir lo (pages newsz) [] m₀ m') ∨ (result = 0 ∧ Restored dir [] m₀ m')) never := by
  induction n generalizing hi m with
  | zero =>
    rw [Nat.add_zero] at last
    exact .pure (.inl ⟨rfl, last ▸ grown⟩)
  | succ _ ih =>
    have inside : hi * 4096 < newsz.toNat := by unfold pages at last; omega
    have low : hi < userPages := by unfold userPages; omega
    have less : oldsz < newsz := UInt32.lt_iff_toNat_lt.mpr (by unfold pages at start; omega)
    have absent' (w : Nat) (from' : lo ≤ w) (below : w < hi ∨ w * 4096 < newsz.toNat) : (pteOf m₀.page dir w).p = false :=
      absent w from' (by unfold userPages at low ⊢; omega)
    have within (w : Nat) (early : w < hi) : w * 4096 < newsz.toNat :=
      Nat.lt_of_le_of_lt (Nat.mul_le_mul_right 4096 early.le) inside
    refine .bind ((kalloc_ends m).returns ?_)
    rintro result m₁ (⟨rfl, rfl⟩ | ⟨f, rfl, free, rest⟩)
    · have grown' := grown.call (m.calls + 1)
      refine .bind ((deallocuvm_ends grown'.kept.space high less).returns fun _ m' ⟨_, cleared⟩ => .pure (.inr ⟨rfl, ?_⟩))
      rw [← start] at cleared
      exact grown'.undo absent' high within cleared
    · refine .bind ((setPage_ends _ _ _).returns fun _ m₂ zeroed => ?_)
      have contents : m₂.page f = .data fun _ => 0 := by simp [zeroed]
      have taken : m.free = f :: m₂.free := by rw [zeroed]; exact free
      obtain ⟨fetched, built, same⟩ := grown.kept.space.fetch m₂ taken (by rw [zeroed, rest]) (by rw [zeroed, rest])
        (by rw [zeroed, rest])
      have fetched := grown.fetch low fetched built taken same
      have bound := user_lt low
      have vacant : (pteOf m₂.page dir hi).p = false := by rw [fetched.entries hi bound (by omega), absent hi above low]
      have listed : f ∈ m₀.free := grown.free f (by simp [free])
      refine .bind ((mapPage_ends fetched.kept.space low vacant _).returns ?_)
      rintro mapped m₃ (⟨rfl, rfl⟩ | ⟨rfl, kept, walked⟩)
      · rw [if_neg Bool.false_ne_true]
        have grown' := fetched.call (m₂.calls + 1)
        refine .bind ((deallocuvm_ends grown'.kept.space high less).returns fun _ m₄ ⟨_, cleared⟩ => ?_)
        rw [← start] at cleared
        have restored := grown'.undo absent' high within cleared
        have space := restored.kept.space
        refine .bind ((kfree_ends (space.allocatable f (.inl (by simp)))).returns fun _ m₅ freed => .pure (.inr ⟨rfl, ?_⟩))
        have returned : ([f] ++ m₄.free).Perm ([] ++ m₅.free) := by rw [freed, List.singleton_append, List.nil_append]
        obtain ⟨back, entries⟩ := space.hand (f := f) (by simp) returned (by rw [freed]) (by rw [freed]) (by rw [freed])
        refine ⟨restored.kept.trans back, fun w bound => ?_, fun w bound present => ?_, fun g used apart => ?_⟩
        · rw [entries w bound, restored.present w bound]
        · rw [entries w bound, restored.entries w bound present]
        · have other : g ≠ f := fun same => used (same ▸ listed)
          rw [freed, ← restored.data g used apart]
          exact update_of_ne other ..
      · rw [if_pos rfl]
        exact ih (by omega) (by omega) (fetched.map above low listed contents kept walked)

theorem pages_le (high : sz.toNat ≤ 0x80000000) : pages sz ≤ userPages := by
  unfold pages userPages
  omega

theorem allocuvm_ends (space : Space m dir []) (less : oldsz ≤ newsz) (high : newsz < KERNBASE)
    (absent : ∀ w, pages oldsz ≤ w → w < userPages → (pteOf m.page dir w).p = false) :
    Ends (allocuvm dir oldsz newsz) m (fun result m' =>
      (result = newsz ∧ Grown dir (pages oldsz) (pages newsz) [] m m') ∨ (result = 0 ∧ Restored dir [] m m')) never := by
  have small : oldsz.toNat ≤ newsz.toNat := UInt32.le_iff_toNat_le.mp less
  have large : newsz.toNat < 0x80000000 := UInt32.lt_iff_toNat_lt.mp high
  have above : pages oldsz ≤ pages newsz := Nat.div_le_div_right (Nat.add_le_add_right small 4095)
  unfold allocuvm
  rw [if_neg (UInt32.not_le.mpr high), if_neg (UInt32.not_lt.mpr less), PGROUNDUP_pages (by omega)]
  refine allocLoop_ends _ (by omega) large.le rfl absent (Nat.le_refl _) ⟨.refl space, .refl, fun _ => id, fun _ _ _ => rfl, ?_⟩
  intro w above early
  omega

end

section

/-- The present user pages are those below PGROUNDUP(sz). -/
def Dense (m : Machine) (dir : Nat) (sz : UInt32) : Prop := ∀ v < userPages, (pteOf m.page dir v).p = true ↔ v < pages sz

/-- The same user pages with the same contents. -/
def SameUser (m m' : Machine) (dir : Nat) : Prop :=
  ∀ v < userPages, (pteOf m'.page dir v).p = (pteOf m.page dir v).p ∧
    ((pteOf m.page dir v).p = true →
      pteOf m'.page dir v = pteOf m.page dir v ∧ m'.page (pteOf m.page dir v).frame = m.page (pteOf m.page dir v).frame)

theorem Dense.absent (dense : Dense m dir sz) (w : Nat) (above : pages sz ≤ w) (low : w < userPages) :
    (pteOf m.page dir w).p = false := by
  rw [← Bool.not_eq_true, dense w low]
  omega

theorem Restored.sameUser (restored : Restored dir [] m m') (space : Space m dir []) : SameUser m m' dir := by
  intro v low
  refine ⟨restored.present v (user_lt low), fun present => ⟨restored.entries v (user_lt low) present, ?_⟩⟩
  obtain ⟨apart, used⟩ := space.user_apart low present
  exact restored.data _ (by simpa using used) apart

theorem Grown.dense (grown : Grown dir (pages oldsz) (pages newsz) [] m m') (dense : Dense m dir oldsz)
    (above : pages oldsz ≤ pages newsz) : Dense m' dir newsz := by
  intro v low
  by_cases inside : pages oldsz ≤ v ∧ v < pages newsz
  · simp [(grown.fresh v inside.1 inside.2).1, inside.2]
  · rw [grown.entries v (user_lt low) inside, dense v low]
    omega

theorem Grown.old (grown : Grown dir (pages oldsz) (pages newsz) [] m m') (dense : Dense m dir oldsz)
    (space : Space m dir []) (low : v < userPages) (present : (pteOf m.page dir v).p = true) :
    pteOf m'.page dir v = pteOf m.page dir v ∧ m'.page (pteOf m.page dir v).frame = m.page (pteOf m.page dir v).frame := by
  have old : v < pages oldsz := (dense v low).mp present
  obtain ⟨apart, used⟩ := space.user_apart low present
  exact ⟨grown.entries v (user_lt low) (by omega), (grown.built _ (by simpa using used) apart).1⟩

theorem Cleared.dense (cleared : Cleared dir (pages newsz) oldsz.toNat loose m m') (dense : Dense m dir oldsz)
    (less : newsz < oldsz) : Dense m' dir newsz := by
  have smaller : newsz.toNat < oldsz.toNat := UInt32.lt_iff_toNat_lt.mp less
  intro v low
  rw [cleared.entries v (user_lt low)]
  split
  · rename_i removed
    have above := removed.1
    simp
    omega
  · rename_i stays
    rw [dense v low]
    constructor
    · intro old
      by_contra above
      exact stays ⟨by omega, by unfold pages at old; omega, (dense v low).mpr old⟩
    · intro new
      unfold pages at new ⊢
      omega

theorem Cleared.old (cleared : Cleared dir (pages newsz) oldsz.toNat loose m m') (space : Space m dir loose)
    (high : oldsz.toNat ≤ 0x80000000) (low : v < pages newsz) (user : v < userPages) (present : (pteOf m.page dir v).p = true) :
    pteOf m'.page dir v = pteOf m.page dir v ∧ m'.page (pteOf m.page dir v).frame = m.page (pteOf m.page dir v).frame := by
  have stays {w : Nat} (removed : Removed m dir (pages newsz) oldsz.toNat w) : w ≠ v := by
    have := removed.1
    omega
  refine ⟨?_, cleared.data _ (space.user_apart user present).1 fun w removed same => ?_⟩
  · rw [cleared.entries v (user_lt user), if_neg fun removed => stays removed rfl]
  · have held : holdsOf m.page dir (.user v) = some (pteOf m.page dir v).frame := if_pos ⟨user, present⟩
    have user' : w < userPages := by
      have := removed.2.1
      unfold userPages
      omega
    have other : holdsOf m.page dir (.user w) = some (pteOf m.page dir v).frame :=
      (if_pos ⟨user', removed.2.2⟩).trans (congrArg some same)
    exact stays removed (Use.user.inj (space.owners.single _ _ _ other held))

def onePage : Machine where
  page f :=
    if f = 0x200 then .table fun i => if i = 0 then { frame := 0x201, p := true, w := true, u := true } else {}
    else if f = 0x201 then .table fun i => if i = 0 then { frame := 0x202, p := true, w := true, u := true } else {}
    else .data fun _ => 0
  free := [0x203, 0x204]

theorem pteOf_onePage (v : Nat) :
    pteOf onePage.page 0x200 v = if v = 0 then { frame := 0x202, p := true, w := true, u := true } else {} := by
  by_cases row : v / 1024 = 0
  · have place : v % 1024 = 0 ↔ v = 0 := by omega
    simp [pteOf, onePage, row, place]
  · have other : v ≠ 0 := by omega
    simp [pteOf, onePage, row, other]

theorem onePage_dense {sz : UInt32} (one : pages sz = 1) : Dense onePage 0x200 sz := by
  intro v low
  rw [pteOf_onePage, one]
  split <;> simp [*]

theorem onePage_space : Space onePage 0x200 [] := by
  have holds (use : Use) (f : Frame) (held : holdsOf onePage.page 0x200 use = some f) :
      use = .dir ∧ f = 0x200 ∨ use = .table 0 ∧ f = 0x201 ∨ use = .user 0 ∧ f = 0x202 := by
    cases use with
    | dir => simp_all [holdsOf]
    | table i =>
      obtain ⟨both, frame⟩ := Option.ite_none_right_eq_some.mp held
      by_cases first : i = 0
      · simp_all [onePage]
      · simp_all [onePage]
    | user v =>
      obtain ⟨both, frame⟩ := Option.ite_none_right_eq_some.mp held
      rw [pteOf_onePage] at both frame
      by_cases first : v = 0
      · simp_all
      · simp_all
  refine ⟨⟨by decide, fun use f held listed => ?_, fun use other f first second => ?_⟩, fun f owned => ?_⟩
  · rcases holds use f held with ⟨-, rfl⟩ | ⟨-, rfl⟩ | ⟨-, rfl⟩ <;> revert listed <;> decide
  · rcases holds use f first with ⟨rfl, rfl⟩ | ⟨rfl, rfl⟩ | ⟨rfl, rfl⟩ <;> simpa [eq_comm] using holds other _ second
  · rcases owned with listed | ⟨use, held⟩
    · have listed : f = 0x203 ∨ f = 0x204 := by simpa [onePage] using listed
      rcases listed with rfl | rfl <;> decide
    · rcases holds use f held with ⟨-, rfl⟩ | ⟨-, rfl⟩ | ⟨-, rfl⟩ <;> decide

/-- allocuvm grows a dense user part to a dense one or leaves it as it was, and
deallocuvm is its inverse. -/
theorem uvm_stays_dense (m : Machine) (dir : Nat) (space : Space m dir []) :
    (∀ oldsz newsz, Dense m dir oldsz → 0 < oldsz → oldsz ≤ newsz → newsz < KERNBASE →
      ∃ result m', allocuvm dir oldsz newsz m = .ok (result, m') ∧ Space m' dir [] ∧ ((result = newsz ∧ Dense m' dir newsz ∧
          (∀ v < userPages, (pteOf m.page dir v).p = true → pteOf m'.page dir v = pteOf m.page dir v ∧
            m'.page (pteOf m.page dir v).frame = m.page (pteOf m.page dir v).frame) ∧
          (∀ v, pages oldsz ≤ v → v < pages newsz → (pteOf m'.page dir v).frame ∈ m.free ∧
            m'.page (pteOf m'.page dir v).frame = .data fun _ => 0) ∧
          ∃ m'', deallocuvm dir newsz oldsz m' = .ok (oldsz, m'') ∧ SameUser m m'' dir) ∨ (result = 0 ∧ SameUser m m' dir ∧
          ∀ f ∈ m.free, f ∈ m'.free ∨ ∃ i < 1024, (m'.pde dir i).p = true ∧ (m'.pde dir i).frame = f))) ∧
    ∀ oldsz newsz, Dense m dir oldsz → newsz < oldsz → oldsz ≤ KERNBASE →
      ∃ m', deallocuvm dir oldsz newsz m = .ok (newsz, m') ∧ Space m' dir [] ∧ Dense m' dir newsz ∧ m'.free.Nodup ∧
        ∀ f, f ∈ m'.free ↔ f ∈ m.free ∨ ∃ v < userPages, pages newsz ≤ v ∧ (pteOf m.page dir v).p = true ∧
          (pteOf m.page dir v).frame = f := by
  refine ⟨fun oldsz newsz dense _ less high => ?_, fun oldsz newsz dense less high => ?_⟩
  · have small : oldsz.toNat ≤ newsz.toNat := UInt32.le_iff_toNat_le.mp less
    have large : newsz.toNat < 0x80000000 := UInt32.lt_iff_toNat_lt.mp high
    have above : pages oldsz ≤ pages newsz := Nat.div_le_div_right (Nat.add_le_add_right small 4095)
    obtain ⟨result, m', ran, outcome⟩ := (allocuvm_ends space less high dense.absent).exists_ok fun _ => id
    refine ⟨result, m', ran, ?_⟩
    rcases outcome with ⟨rfl, grown⟩ | ⟨rfl, restored⟩
    · refine ⟨grown.kept.space, .inl ⟨rfl, grown.dense dense above, fun v low present => grown.old dense space low present, fun v above early => ?_, ?_⟩⟩
      · obtain ⟨-, -, -, listed, zero⟩ := grown.fresh v above early
        exact ⟨listed, zero⟩
      · by_cases same : oldsz = result
        · subst same
          refine ⟨m', by unfold deallocuvm; rw [if_pos (UInt32.le_refl _)]; rfl, fun v low => ?_⟩
          rw [grown.entries v (user_lt low) (by omega)]
          exact ⟨rfl, fun present => ⟨rfl, (grown.old dense space low present).2⟩⟩
        · have less' : oldsz < result := UInt32.lt_of_le_of_ne less same
          obtain ⟨_, m'', ran', rfl, cleared⟩ := (deallocuvm_ends grown.kept.space large.le less').exists_ok fun _ => id
          have within : ∀ w < pages result, w * 4096 < result.toNat := by unfold pages; omega
          refine ⟨m'', ran', (grown.undo (fun w from' below => ?_) large.le within cleared).sameUser space⟩
          exact dense.absent w from' (by have := pages_le large.le; unfold userPages at *; omega)
    · refine ⟨restored.kept.space, .inr ⟨rfl, restored.sameUser space, fun f listed => ?_⟩⟩
      rcases (restored.kept.pool f).mpr (.inl listed) with free | ⟨use, held⟩
      · exact .inl (by simpa using free)
      · cases use with
        | dir => exact absurd listed (space.owners.apart .dir f held)
        | table i =>
          obtain ⟨both, frame⟩ := Option.ite_none_right_eq_some.mp held
          exact .inr ⟨i, both.1, both.2, Option.some.inj frame⟩
        | user v =>
          obtain ⟨⟨low, present⟩, frame⟩ := Option.ite_none_right_eq_some.mp held
          have bound := user_lt low
          rw [restored.present v bound] at present
          rw [restored.entries v bound present] at frame
          exact absurd listed (space.owners.apart (.user v) f ((if_pos ⟨low, present⟩).trans frame))
  · have large : oldsz.toNat ≤ 0x80000000 := UInt32.le_iff_toNat_le.mp high
    obtain ⟨_, m', ran, rfl, cleared⟩ := (deallocuvm_ends space large less).exists_ok fun _ => id
    refine ⟨m', ran, cleared.kept.space, cleared.dense dense less, by simpa using cleared.kept.space.owners.nodup, fun f => ?_⟩
    rw [cleared.free f]
    refine or_congr_right ⟨?_, ?_⟩
    · rintro ⟨v, ⟨above, _, present⟩, frame⟩
      exact ⟨v, by unfold userPages; omega, above, present, frame⟩
    · rintro ⟨v, low, above, present, frame⟩
      have old := (dense v low).mp present
      exact ⟨v, ⟨above, by unfold pages at old; omega, present⟩, frame⟩

theorem uvm_stays_dense_onePage : ∃ m', allocuvm 0x200 100 9000 onePage = .ok (9000, m') ∧ Space m' 0x200 [] ∧
    Dense m' 0x200 9000 ∧ ∃ m'', deallocuvm 0x200 9000 100 m' = .ok (100, m'') ∧ SameUser onePage m'' 0x200 := by
  obtain ⟨result, m', ran, space, outcome⟩ := (uvm_stays_dense onePage 0x200 onePage_space).1 100 9000
    (onePage_dense rfl) (by decide) (by decide) (by decide)
  obtain ⟨_, computed⟩ : ∃ m', allocuvm 0x200 100 9000 onePage = .ok (9000, m') := ⟨_, rfl⟩
  cases ran.symm.trans computed
  rcases outcome with ⟨-, dense, -, -, shrinks⟩ | ⟨failed, -⟩
  · exact ⟨m', ran, space, dense, shrinks⟩
  · contradiction

end

variable {n : Int32}

/-- The result and the size after growproc(n). -/
def growproc (dir : Nat) (sz : UInt32) (n : Int32) : Kernel (Int32 × UInt32) :=
  if n > 0 then do
    let new ← allocuvm dir sz (sz + n.toUInt32)
    if new = 0 then pure (-1, sz) else pure (0, new)
  else if n < 0 then do
    let new ← deallocuvm dir sz (sz + n.toUInt32)
    if new = 0 then pure (-1, sz) else pure (0, new)
  else pure (0, sz)

/-- growproc did all it was asked to do, or nothing. -/
def GrowExact (m : Machine) (dir : Nat) (sz : UInt32) (n result : Int32) (sz' : UInt32) (m' : Machine) : Prop :=
  (result = 0 ∧ (sz'.toNat : Int) = sz.toNat + n.toInt ∧ sz' < KERNBASE ∧ Dense m' dir sz' ∧
    ∀ a < min sz.toNat sz'.toNat, m'.byte dir a = m.byte dir a) ∨
  (result = -1 ∧ sz' = sz ∧ SameUser m m' dir)

theorem Dense.lt (dense : Dense m dir sz) (space : Space m dir []) : sz.toNat < 0x80000000 := by
  by_contra large
  have present (v : Nat) (low : v < userPages) : (pteOf m.page dir v).p = true :=
    (dense v low).mpr (by unfold pages; unfold userPages at low; omega)
  obtain ⟨v, low, w, low', other, same⟩ := exists_ne_map_eq_of_card_lt_of_maps_to
    (s := range userPages) (t := range PHYSTOP) (f := fun v => (pteOf m.page dir v).frame)
    (by rw [card_range, card_range]; decide) fun v low => by
      have low := Finset.mem_range.mp low
      exact Finset.mem_coe.mpr (Finset.mem_range.mpr (space.allocatable _ (.inr ⟨.user v, if_pos ⟨low, present v low⟩⟩)).2)
  have low := Finset.mem_range.mp low
  have low' := Finset.mem_range.mp low'
  have held : holdsOf m.page dir (.user v) = some (pteOf m.page dir v).frame := if_pos ⟨low, present v low⟩
  have held' : holdsOf m.page dir (.user w) = some (pteOf m.page dir v).frame :=
    (if_pos ⟨low', present w low'⟩).trans (congrArg some same.symm)
  exact other (Use.user.inj (space.owners.single _ _ _ held held'))

theorem toInt_eq (n : Int32) : n.toInt = if n.toUInt32.toNat < 0x80000000 then (n.toUInt32.toNat : Int)
    else (n.toUInt32.toNat : Int) - 0x100000000 := by
  have signed : n.toInt = if 2 * n.toUInt32.toNat < 2 ^ 32 then (n.toUInt32.toNat : Int)
      else (n.toUInt32.toNat : Int) - (2 ^ 32 : Nat) := BitVec.toInt_eq_toNat_cond n.toBitVec
  rw [signed]
  split <;> split <;> omega

theorem toNat_grown (sz : UInt32) (n : Int32) (small : sz.toNat < 0x80000000) :
    ((sz + n.toUInt32).toNat : Int) = if (sz.toNat : Int) + n.toInt < 0 then sz.toNat + n.toInt + 0x100000000
      else sz.toNat + n.toInt := by
  have bound : n.toUInt32.toNat < 2 ^ 32 := n.toUInt32.toNat_lt
  have signed := toInt_eq n
  rw [UInt32.toNat_add]
  split at signed <;> split <;> omega

theorem byte_same {n : UInt32} {a : Nat} (below : a < n.toNat) (old : ∀ v < pages n, pteOf m'.page dir v = pteOf m.page dir v ∧
      m'.page (pteOf m.page dir v).frame = m.page (pteOf m.page dir v).frame) : m'.byte dir a = m.byte dir a := by
  obtain ⟨entry, page⟩ := old (a / 4096) (by unfold pages; omega)
  unfold byte
  rw [entry, page]

theorem SameUser.refl : SameUser m m dir := fun _ _ => ⟨rfl, fun _ => ⟨rfl, rfl⟩⟩

theorem grow_exact (space : Space m dir []) (dense : Dense m dir sz) (positive : 0 < n.toInt) :
    Ends (growproc dir sz n) m (fun value m' => GrowExact m dir sz n value.1 value.2 m') never := by
  have small := dense.lt space
  have sum := toNat_grown sz n small
  rw [if_neg (by omega)] at sum
  unfold growproc
  rw [if_pos (show n > 0 from Int32.lt_iff_toInt_lt.mpr positive)]
  by_cases high : sz + n.toUInt32 < KERNBASE
  · have less : sz ≤ sz + n.toUInt32 := UInt32.le_iff_toNat_le.mpr (by omega)
    have large : (sz + n.toUInt32).toNat < 0x80000000 := UInt32.lt_iff_toNat_lt.mp high
    refine .bind ((allocuvm_ends space less high dense.absent).returns ?_)
    rintro _ m' (⟨rfl, grown⟩ | ⟨rfl, restored⟩)
    · have some' : ¬ sz + n.toUInt32 = 0 := fun zero => by
        rw [zero] at sum
        change (0 : Int) = _ at sum
        omega
      rw [if_neg some']
      refine .pure (.inl ⟨rfl, sum, high, grown.dense dense ?_, fun a below => byte_same (n := sz) (by omega) fun v old => ?_⟩)
      · exact Nat.div_le_div_right (by omega)
      · have low : v < userPages := Nat.lt_of_lt_of_le old (pages_le small.le)
        exact grown.old dense space low ((dense v low).mpr old)
    · rw [if_pos rfl]
      exact .pure (.inr ⟨rfl, rfl, restored.sameUser space⟩)
  · unfold allocuvm
    rw [if_pos (UInt32.not_lt.mp high)]
    refine .bind (.pure ?_)
    rw [if_pos rfl]
    exact .pure (.inr ⟨rfl, rfl, .refl⟩)

theorem shrink_eq (negative : n.toInt < 0) : growproc dir sz n = (do
    let new ← deallocuvm dir sz (sz + n.toUInt32)
    if new = 0 then pure (-1, sz) else pure (0, new)) := by
  have sign : n < 0 := Int32.lt_iff_toInt_lt.mpr negative
  unfold growproc
  rw [if_neg (show ¬ n > 0 from fun positive => absurd (Int32.lt_iff_toInt_lt.mp positive) (by change ¬ 0 < n.toInt; omega)), if_pos sign]

theorem shrink_exact (space : Space m dir []) (dense : Dense m dir sz) (negative : n.toInt < 0)
    (holds : sz = 0 ∨ 0 < (sz.toNat : Int) + n.toInt) :
    Ends (growproc dir sz n) m (fun value m' => GrowExact m dir sz n value.1 value.2 m') never := by
  have small := dense.lt space
  have sum := toNat_grown sz n small
  rw [shrink_eq negative]
  rcases holds with rfl | holds
  · unfold deallocuvm
    rw [if_pos (show 0 + n.toUInt32 ≥ 0 from UInt32.le_iff_toNat_le.mpr (Nat.zero_le _))]
    refine .bind (.pure ?_)
    rw [if_pos rfl]
    exact .pure (.inr ⟨rfl, rfl, .refl⟩)
  · rw [if_neg (by omega)] at sum
    have less : sz + n.toUInt32 < sz := UInt32.lt_iff_toNat_lt.mpr (by omega)
    have some' : ¬ sz + n.toUInt32 = 0 := fun zero => by
      rw [zero] at sum
      change (0 : Int) = _ at sum
      omega
    refine .bind ((deallocuvm_ends space small.le less).returns ?_)
    rintro _ m' ⟨rfl, cleared⟩
    rw [if_neg some']
    refine .pure (.inl ⟨rfl, sum, ?_, cleared.dense dense less, fun a below => ?_⟩)
    · exact UInt32.lt_trans less (UInt32.lt_iff_toNat_lt.mpr small)
    refine byte_same (Nat.lt_of_lt_of_le below (Nat.min_le_right ..)) fun v new => ?_
    have old : v < pages sz := Nat.lt_of_lt_of_le new (Nat.div_le_div_right (Nat.add_le_add_right (UInt32.lt_iff_toNat_lt.mp less).le 4095))
    have low : v < userPages := Nat.lt_of_lt_of_le old (pages_le small.le)
    exact cleared.old space small.le new low ((dense v low).mpr old)

theorem shrink_inexact (space : Space m dir []) (dense : Dense m dir sz) (negative : n.toInt < 0) (some' : sz ≠ 0)
    (empty : (sz.toNat : Int) + n.toInt ≤ 0) :
    Ends (growproc dir sz n) m (fun value m' => ¬ GrowExact m dir sz n value.1 value.2 m') never := by
  have small := dense.lt space
  have sum := toNat_grown sz n small
  have positive : 0 < sz.toNat := Nat.pos_of_ne_zero fun zero => some' (UInt32.toNat_inj.mp zero)
  rw [shrink_eq negative]
  rcases Int.lt_or_eq_of_le empty with below | zero
  · -- sz + n wraps around, and deallocuvm takes it for a larger size.
    have bound := toInt_eq n
    rw [if_pos below] at sum
    have more : sz + n.toUInt32 ≥ sz := UInt32.le_iff_toNat_le.mpr (by split at bound <;> omega)
    unfold deallocuvm
    rw [if_pos more]
    refine .bind (.pure ?_)
    rw [if_neg some']
    refine .pure ?_
    rintro (⟨-, grown, -⟩ | ⟨failed, -⟩)
    · omega
    · cases failed
  · -- The size 0 is also the error value: the pages are gone, and growproc fails.
    rw [zero, if_neg (by decide)] at sum
    have none : sz + n.toUInt32 = 0 := UInt32.toNat_inj.mp (by change _ = 0; omega)
    rw [none]
    have less : 0 < sz := UInt32.lt_iff_toNat_lt.mpr positive
    refine .bind ((deallocuvm_ends space small.le less).returns ?_)
    rintro _ m' ⟨rfl, cleared⟩
    rw [if_pos rfl]
    refine .pure ?_
    rintro (⟨failed, -⟩ | ⟨-, -, same⟩)
    · cases failed
    · have first := (dense 0 (by decide)).mpr (by unfold pages; omega)
      have gone := (cleared.dense dense less 0 (by decide)).mp ((same 0 (by decide)).1.trans first)
      exact absurd gone (by decide)

/-- growproc is exact unless it shrinks the process to nothing or to less. -/
theorem growproc_exact_iff (m : Machine) (dir : Nat) (sz : UInt32) (n : Int32) (space : Space m dir []) (dense : Dense m dir sz) :
    ∃ result sz' m', growproc dir sz n m = .ok ((result, sz'), m') ∧
      (GrowExact m dir sz n result sz' m' ↔ (n.toInt < 0 → sz = 0 ∨ 0 < (sz.toNat : Int) + n.toInt)) := by
  have good (ends : Ends (growproc dir sz n) m (fun value m' => GrowExact m dir sz n value.1 value.2 m') never)
      (holds : n.toInt < 0 → sz = 0 ∨ 0 < (sz.toNat : Int) + n.toInt) : ∃ result sz' m', growproc dir sz n m = .ok ((result, sz'), m') ∧
      (GrowExact m dir sz n result sz' m' ↔ (n.toInt < 0 → sz = 0 ∨ 0 < (sz.toNat : Int) + n.toInt)) := by
    obtain ⟨value, m', ran, exact'⟩ := ends.exists_ok fun _ => id
    exact ⟨value.1, value.2, m', ran, iff_of_true exact' holds⟩
  rcases Int.lt_trichotomy n.toInt 0 with negative | zero | positive
  · by_cases holds : sz = 0 ∨ 0 < (sz.toNat : Int) + n.toInt
    · exact good (shrink_exact space dense negative holds) fun _ => holds
    · obtain ⟨some', _⟩ := not_or.mp holds
      obtain ⟨value, m', ran, inexact⟩ := (shrink_inexact space dense negative some' (by omega)).exists_ok fun _ => id
      exact ⟨value.1, value.2, m', ran, iff_of_false inexact fun all => holds (all negative)⟩
  · refine good ?_ fun negative => absurd zero negative.ne
    obtain rfl : n = 0 := Int32.toInt_inj.mp zero
    exact .pure (.inl ⟨rfl, (Int.add_zero _).symm, UInt32.lt_iff_toNat_lt.mpr (dense.lt space), dense, fun _ _ => rfl⟩)
  · exact good (grow_exact space dense positive) fun negative => absurd positive negative.not_gt

theorem growproc_exact_iff_onePage : ∃ result sz' m', growproc 0x200 100 (-40) onePage = .ok ((result, sz'), m') ∧
    GrowExact onePage 0x200 100 (-40) result sz' m' := by
  obtain ⟨result, sz', m', ran, same⟩ := growproc_exact_iff onePage 0x200 100 (-40) onePage_space (onePage_dense rfl)
  exact ⟨result, sz', m', ran, same.mpr fun _ => .inr (by decide)⟩

/-- sbrk(-100) of a process of 100 bytes fails, and takes its page away. -/
theorem growproc_to_zero : ∃ m', growproc 0x200 100 (-100) onePage = .ok ((-1, 100), m') ∧
    (pteOf onePage.page 0x200 0).p = true ∧ (pteOf m'.page 0x200 0).p = false :=
  ⟨_, rfl, rfl, rfl⟩

end Xv6.Vm
