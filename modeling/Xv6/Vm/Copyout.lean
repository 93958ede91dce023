import Xv6.Vm.Dense

namespace Xv6.Vm

open Data Function List

/-! copyout: addresses are taken modulo 2^32. -/

variable {m m' : Machine} {dir va k : Nat} {bytes : List UInt8}

def uva2ka (dir v : Nat) : Kernel (Option Frame) := do
  let t ← walkpgdir dir v false
  match t with
  | none => throw .null
  | some t => do
    let m ← get
    let pte := (m.page t).entry (v % 1024)
    if pte.p = false then pure none else if pte.u = false then pure none else pure (some pte.frame)

/-- The loop of copyout. Each round copies a byte at least. -/
def copyoutLoop (dir : Nat) : Nat → Nat → List UInt8 → Kernel Int32
  | 0, _, _ => pure 0
  | fuel + 1, va, bytes =>
    if bytes = [] then pure 0
    else do
      let pa0 ← uva2ka dir (va / 4096)
      match pa0 with
      | none => pure (-1)
      | some pa0 => do
        let m ← get
        setPage pa0 (.data (splice (m.page pa0).bytes (va % 4096) (bytes.take (4096 - va % 4096))))
        copyoutLoop dir fuel ((va / 4096 + 1) * 4096 % 0x100000000) (bytes.drop (4096 - va % 4096))

def copyout (dir : Nat) (va : UInt32) (p : List UInt8) : Kernel Int32 := copyoutLoop dir p.length va.toNat p

/-- There is a page table for the page, its entry is present, and PTE_U is set. -/
def Machine.Writable (m : Machine) (dir v : Nat) : Prop := (pteOf m.page dir v).p = true ∧ (pteOf m.page dir v).u = true

/-- The pages for the user are not page tables, and no two of them are the same. -/
structure Separate (m : Machine) (dir : Nat) : Prop where
  apart : ∀ v < 0x100000, m.Writable dir v → Apart m.page dir (pteOf m.page dir v).frame
  single : ∀ v < 0x100000, ∀ w < 0x100000, m.Writable dir v → m.Writable dir w →
    (pteOf m.page dir v).frame = (pteOf m.page dir w).frame → v = w

/-- The page of the byte `k` of the range. -/
def pageAt (va k : Nat) : Nat := (va + k) % 0x100000000 / 4096

/-- Where copyout stops, or at its last byte, there is a page table. -/
def Tabled (m : Machine) (dir va n : Nat) : Prop :=
  ∀ k < n, (∀ j < k, m.Writable dir (pageAt va j)) → (m.pde dir (pageAt va k / 1024)).p = true

structure Copied (dir va : Nat) (bytes : List UInt8) (m : Machine) (result : Int32) (m' : Machine) : Prop where
  rest : m' = { m with page := m'.page }
  entries : ∀ v < 0x100000, pteOf m'.page dir v = pteOf m.page dir v
  outside : ∀ f, (∀ v < 0x100000, m.Writable dir v → (pteOf m.page dir v).frame ≠ f) → m'.page f = m.page f
  result : ((∀ k < bytes.length, m.Writable dir (pageAt va k)) ∧ result = 0 ∧
      ∀ a < 0x100000000, m.Writable dir (a / 4096) →
        m'.byte dir a = bytes.getD ((a + 0x100000000 - va) % 0x100000000) (m.byte dir a)) ∨
    (¬ (∀ k < bytes.length, m.Writable dir (pageAt va k)) ∧ result = -1)

theorem uva2ka_ends (dir v : Nat) (m : Machine) :
    Ends (uva2ka dir v) m (fun result m' => m' = m ∧ (m.pde dir (v / 1024)).p = true ∧
      ((result = none ∧ ¬ m.Writable dir v) ∨ (result = some (pteOf m.page dir v).frame ∧ m.Writable dir v)))
      (fun _ => (m.pde dir (v / 1024)).p = false) := by
  refine .bind (((walkpgdir_ends dir v m).mono ?_ fun _ => False.elim))
  rintro _ m ⟨rfl, rfl⟩
  cases table : (m.pde dir (v / 1024)).p with
  | false => exact .throw rfl
  | true =>
    rw [if_pos rfl]
    refine .bind (.get ?_)
    simp only [Machine.entry_table table]
    split
    · rename_i absent
      exact .pure ⟨rfl, trivial, .inl ⟨rfl, fun writable => Bool.false_ne_true (absent.symm.trans writable.1)⟩⟩
    · rename_i present
      split
      · rename_i kernel
        exact .pure ⟨rfl, trivial, .inl ⟨rfl, fun writable => Bool.false_ne_true (kernel.symm.trans writable.2)⟩⟩
      · rename_i user
        exact .pure ⟨rfl, trivial, .inr ⟨rfl, by simpa using present, by simpa using user⟩⟩

section

variable {chunk : List UInt8}

theorem Separate.store (separate : Separate m dir) {v : Nat} (low : v < 0x100000) (writable : m.Writable dir v) {new : Page}
    (page : m'.page = update m.page (pteOf m.page dir v).frame new) :
    (∀ w < 0x100000, pteOf m'.page dir w = pteOf m.page dir w) ∧ m'.pde dir = m.pde dir := by
  have apart := separate.apart v low writable
  refine ⟨fun w bound => by rw [page, pteOf_update apart new w bound], ?_⟩
  funext i
  change (m'.page dir).entry i = (m.page dir).entry i
  rw [page, update_of_ne apart.1.symm]

theorem Separate.kept (separate : Separate m dir) (entries : ∀ w < 0x100000, pteOf m'.page dir w = pteOf m.page dir w)
    (tables : m'.pde dir = m.pde dir) : Separate m' dir := by
  have same (v : Nat) (low : v < 0x100000) : m'.Writable dir v ↔ m.Writable dir v := by
    unfold Machine.Writable
    rw [entries v low]
  refine ⟨fun v low writable => ?_, fun v low w low' writable writable' frame => ?_⟩
  · obtain ⟨outside, others⟩ := separate.apart v low ((same v low).mp writable)
    rw [entries v low]
    refine ⟨outside, fun i bound present => ?_⟩
    have pde : (m'.page dir).entry i = m.pde dir i := congrFun tables i
    rw [pde] at present ⊢
    exact others i bound present
  · rw [entries v low, entries w low'] at frame
    exact separate.single v low w low' ((same v low).mp writable) ((same w low').mp writable') frame

theorem pageAt_lt (va k : Nat) : pageAt va k < 0x100000 := by
  unfold pageAt
  omega

theorem pageAt_first (bound : va < 0x100000000) (inside : k < 4096 - va % 4096) : pageAt va k = va / 4096 := by
  unfold pageAt
  omega

theorem pageAt_next (k : Nat) : pageAt ((va / 4096 + 1) * 4096 % 0x100000000) k = pageAt va (4096 - va % 4096 + k) := by
  unfold pageAt
  omega

theorem writable_all (bound : va < 0x100000000) (first : m.Writable dir (va / 4096)) (n : Nat) :
    (∀ k < n, m.Writable dir (pageAt va k)) ↔
      ∀ k < n - (4096 - va % 4096), m.Writable dir (pageAt ((va / 4096 + 1) * 4096 % 0x100000000) k) := by
  constructor
  · intro all k below
    rw [pageAt_next]
    exact all _ (by omega)
  · intro later k below
    rcases Nat.lt_or_ge k (4096 - va % 4096) with early | late
    · rw [pageAt_first bound early]
      exact first
    · have here := later (k - (4096 - va % 4096)) (by omega)
      rwa [pageAt_next, Nat.add_sub_cancel' late] at here

theorem tabled_all (bound : va < 0x100000000) (first : m.Writable dir (va / 4096)) (table : (m.pde dir (va / 4096 / 1024)).p = true)
    (n : Nat) : Tabled m dir va n ↔ Tabled m dir ((va / 4096 + 1) * 4096 % 0x100000000) (n - (4096 - va % 4096)) := by
  constructor
  · intro all k below before
    rw [pageAt_next]
    refine all _ (by omega) ((writable_all bound first _).mpr ?_)
    rwa [Nat.add_sub_cancel_left]
  · intro later k below before
    rcases Nat.lt_or_ge k (4096 - va % 4096) with early | late
    · rwa [pageAt_first bound early]
    · have here := later (k - (4096 - va % 4096)) (by omega) ((writable_all bound first k).mp before)
      rwa [pageAt_next, Nat.add_sub_cancel' late] at here

theorem byte_store (separate : Separate m dir) (bound : va < 0x100000000) (writable : m.Writable dir (va / 4096))
    (page : m'.page = update m.page (pteOf m.page dir (va / 4096)).frame
      (.data (splice (m.page (pteOf m.page dir (va / 4096)).frame).bytes (va % 4096) chunk)))
    (a : Nat) (low : a < 0x100000000) (here : m.Writable dir (a / 4096)) :
    m'.byte dir a = if a / 4096 = va / 4096 then
        splice (m.page (pteOf m.page dir (va / 4096)).frame).bytes (va % 4096) chunk (a % 4096)
      else m.byte dir a := by
  unfold Machine.byte
  rw [(separate.store (by omega) writable page).1 (a / 4096) (by omega), page]
  split
  · rename_i same
    rw [same, update_self]
    rfl
  · rename_i other
    rw [update_of_ne fun same => other (separate.single _ (by omega) _ (by omega) here writable same)]

end

theorem copied_nil : Tabled m dir va ([] : List UInt8).length ∧ Copied dir va [] m 0 m :=
  ⟨nofun, rfl, fun _ _ => rfl, fun _ _ => rfl, .inl ⟨nofun, rfl, fun _ _ _ => rfl⟩⟩

theorem getD_round (bound : va < 0x100000000) (short : bytes.length ≤ 0x100000000) (a : Nat) (low : a < 0x100000000) (old : Bytes)
    (value : UInt8) (same : a / 4096 = va / 4096 → value = old (a % 4096)) :
    (bytes.drop (4096 - va % 4096)).getD ((a + 0x100000000 - (va / 4096 + 1) * 4096 % 0x100000000) % 0x100000000)
      (if a / 4096 = va / 4096 then splice old (va % 4096) (bytes.take (4096 - va % 4096)) (a % 4096) else value) =
      bytes.getD ((a + 0x100000000 - va) % 0x100000000) value := by
  by_cases first : a / 4096 = va / 4096 ∧ va ≤ a
  · obtain ⟨page, _⟩ := first
    have place : (a + 0x100000000 - va) % 0x100000000 = a - va := by omega
    have far : bytes.length ≤ 4096 - va % 4096 + (a + 0x100000000 - (va / 4096 + 1) * 4096 % 0x100000000) % 0x100000000 := by omega
    have offset : a % 4096 = va % 4096 + (a - va) := by omega
    have inside : a - va < 4096 - va % 4096 := by omega
    rw [if_pos page, getD_eq_getElem?_getD, List.getElem?_drop, List.getElem?_eq_none far, place, same page]
    unfold splice
    rw [if_pos (by omega), offset, Nat.add_sub_cancel_left, getD_eq_getElem?_getD, List.getElem?_take_of_lt inside,
      getD_eq_getElem?_getD]
    rfl
  · have place : (a + 0x100000000 - va) % 0x100000000 = 4096 - va % 4096 +
        (a + 0x100000000 - (va / 4096 + 1) * 4096 % 0x100000000) % 0x100000000 := by omega
    rw [getD_eq_getElem?_getD, List.getElem?_drop, ← place, getD_eq_getElem?_getD]
    congr 1
    split
    · rename_i page
      rw [splice_before (by omega), same page]
    · rfl

theorem copyoutLoop_ends (fuel va : Nat) (bytes : List UInt8) (enough : bytes.length ≤ fuel) (bound : va < 0x100000000)
    (short : bytes.length ≤ 0x100000000) (separate : Separate m dir) :
    Ends (copyoutLoop dir fuel va bytes) m (fun result m' => Tabled m dir va bytes.length ∧ Copied dir va bytes m result m')
      (fun _ => ¬ Tabled m dir va bytes.length) := by
  induction fuel generalizing va bytes m with
  | zero =>
    obtain rfl := List.length_eq_zero_iff.mp (Nat.le_zero.mp enough)
    exact .pure copied_nil
  | succ _ ih =>
    unfold copyoutLoop
    split
    · rename_i empty
      subst empty
      exact .pure copied_nil
    · rename_i some'
      have positive : 0 < bytes.length := List.length_pos_iff.mpr some'
      have start : pageAt va 0 = va / 4096 := pageAt_first bound (by omega)
      refine .bind ((uva2ka_ends dir (va / 4096) m).mono ?_ fun _ absent tabled => ?_)
      · rintro _ m ⟨rfl, table, ⟨rfl, denied⟩ | ⟨rfl, writable⟩⟩
        · refine .pure ⟨fun k below before => ?_, rfl, fun _ _ => rfl, fun _ _ => rfl, .inr ⟨fun all => ?_, rfl⟩⟩
          · cases k with
            | zero => rwa [start]
            | succ k => exact absurd (start ▸ before 0 (Nat.succ_pos k)) denied
          · exact denied (start ▸ all 0 positive)
        · refine .bind (.get (.bind ((setPage_ends _ _ _).mono (fun _ m₁ stored => ?_) fun _ => False.elim)))
          have page := congrArg Machine.page stored
          dsimp only at page
          have low : va / 4096 < 0x100000 := by omega
          obtain ⟨entries, tables⟩ := separate.store low writable page
          have same (v : Nat) (low : v < 0x100000) : m₁.Writable dir v ↔ m.Writable dir v := by
            unfold Machine.Writable
            rw [entries v low]
          have length : (bytes.drop (4096 - va % 4096)).length = bytes.length - (4096 - va % 4096) := length_drop ..
          have tabled : Tabled m₁ dir ((va / 4096 + 1) * 4096 % 0x100000000) (bytes.length - (4096 - va % 4096)) ↔
              Tabled m dir va bytes.length := by
            rw [tabled_all bound writable table]
            unfold Tabled
            simp only [tables, same _ (pageAt_lt ..)]
          refine (ih _ _ (by omega) (Nat.mod_lt _ (by decide)) (by omega) (separate.kept entries tables)).mono ?_ ?_
          · rintro result m' ⟨before, later⟩
            rw [length] at before
            have all : (∀ k < bytes.length, m.Writable dir (pageAt va k)) ↔
                ∀ k < (bytes.drop (4096 - va % 4096)).length, m₁.Writable dir (pageAt ((va / 4096 + 1) * 4096 % 0x100000000) k) := by
              rw [writable_all bound writable, length]
              simp only [same _ (pageAt_lt ..)]
            refine ⟨tabled.mp before, ?_, fun v low => (later.entries v low).trans (entries v low), fun f away => ?_, ?_⟩
            · rw [later.rest, stored]
            · rw [later.outside f fun v low there => ?_, page, update_of_ne (away _ low writable).symm]
              rw [entries v low]
              exact away v low ((same v low).mp there)
            · rw [all]
              refine later.result.imp (fun ⟨every, zero, contents⟩ => ⟨every, zero, fun a low here => ?_⟩) id
              have there := (same (a / 4096) (by omega)).mpr here
              rw [contents a low there, byte_store separate bound writable page a low here]
              refine getD_round bound short a low _ _ fun page => ?_
              unfold Machine.byte
              rw [page]
          · intro _ stops before
            rw [length] at stops
            exact stops (tabled.mpr before)
      · have here := tabled 0 positive nofun
        rw [start, absent] at here
        cases here

/-- copyout returns, with 0 exactly if the whole range is writable for the user; then it
has stored the bytes there, and in no case anything else. -/
def CopyoutCorrect (m : Machine) (dir : Nat) (va : UInt32) (p : List UInt8) : Prop :=
  ∃ result m', copyout dir va p m = .ok (result, m') ∧ Copied dir va.toNat p m result m'

/-- copyout is correct unless it comes to an address without a page table. -/
theorem copyout_correct_iff (m : Machine) (dir : Nat) (va : UInt32) (p : List UInt8) (len : p.length < 2 ^ 32)
    (separate : Separate m dir) : CopyoutCorrect m dir va p ↔ Tabled m dir va.toNat p.length := by
  have ends := copyoutLoop_ends p.length va.toNat p (Nat.le_refl _) va.toNat_lt len.le separate
  cases ran : copyout dir va p m with
  | ok value =>
    obtain ⟨tabled, copied⟩ := ends.of_ok ran
    exact iff_of_true ⟨value.1, value.2, ran, copied⟩ tabled
  | error =>
    refine iff_of_false ?_ (ends.of_error ran)
    rintro ⟨_, m', returned, -⟩
    cases ran.symm.trans returned

theorem onePage_separate : Separate onePage 0x200 := by
  have only {v : Nat} (writable : onePage.Writable 0x200 v) : v = 0 := by
    by_contra other
    have present := writable.1
    rw [pteOf_onePage, if_neg other] at present
    cases present
  refine ⟨fun v low writable => ?_, fun v _ w _ first second _ => (only first).trans (only second).symm⟩
  obtain rfl := only writable
  exact (onePage_space.user_apart (by decide) writable.1).1

/-- The range goes on in the second page, which is not there. -/
theorem copyout_correct_iff_onePage : CopyoutCorrect onePage 0x200 4094 [7, 8, 9] ∧
    ∃ m', copyout 0x200 4094 [7, 8, 9] onePage = .ok (-1, m') ∧ m'.byte 0x200 4094 = 7 ∧ m'.byte 0x200 4095 = 8 := by
  refine ⟨(copyout_correct_iff onePage 0x200 4094 [7, 8, 9] (by decide) onePage_separate).mpr fun k below _ => ?_,
    _, rfl, by decide +kernel, by decide +kernel⟩
  have table : pageAt 4094 k / 1024 = 0 := by
    change k < 3 at below
    unfold pageAt
    omega
  exact (congrArg (fun i => (onePage.pde 0x200 i).p) table).trans rfl

/-- An address without a page table: uva2ka reads the entry at address 0. -/
theorem copyout_reads_null : copyout 0x200 0x400000 [7] onePage = .error .null := rfl

end Xv6.Vm
