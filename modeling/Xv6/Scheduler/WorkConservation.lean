import Xv6.Data.Ring
import Xv6.Scheduler.Policies

namespace Xv6.Scheduler

open Process Function Int Int32 List Nat Option

variable (table : Table) {chosen : Option Slot} {idx after : Nat} {queues : Queues}

theorem slotAt_eq (index : Int) (low : 0 ≤ index) (high : index < NPROC) :
    ∃ p : Slot, slotAt index = some p ∧ (p : Int) = index := by
  refine ⟨⟨index.toNat, by omega⟩, ?_, ?_⟩
  · simp only [slotAt, dif_pos (And.intro low high)]
  · simp only [toNat_of_nonneg low]

theorem slotAt_slot (p : Slot) : slotAt (p : Nat) = some p := by
  obtain ⟨q, found, _⟩ := slotAt_eq (p : Nat) (by omega) (by omega)
  rw [found]
  exact congrArg some (Fin.ext (by omega))

theorem defaultLoop_result {rnd : Int32} (low : 0 ≤ rnd.toInt) (offsets : List Nat) :
    ∃ chosen, defaultLoop table rnd offsets = some chosen ∧ (∀ p, chosen = some p → (table p).state = .runnable) ∧
      (chosen = none → ∀ i ∈ offsets, ∀ p, slotAt ((rnd.toInt + i).tmod NPROC) = some p → (table p).state ≠ .runnable) := by
  induction offsets with
  | nil => exact ⟨none, rfl, by simp, by simp⟩
  | cons i _ ih =>
    have nonneg : 0 ≤ rnd.toInt + i := by omega
    obtain ⟨p, found, _⟩ := slotAt_eq ((rnd.toInt + i).tmod NPROC) (tmod_nonneg _ nonneg) (tmod_lt_of_pos _ (by decide))
    simp only [defaultLoop, found, bind_eq_bind, bind_some]
    by_cases ready : (table p).state = .runnable
    · exact ⟨some p, by simp only [if_pos ready], by simp [ready], by simp⟩
    · obtain ⟨chosen, result, sound, complete⟩ := ih
      refine ⟨chosen, by simp only [if_neg ready, result], sound, ?_⟩
      intro empty j member q reached
      rcases List.mem_cons.mp member with rfl | later
      · rw [found] at reached
        cases reached
        exact ready
      · exact complete empty j later q reached

theorem default_offsets_cover {start : Int} (low : 0 ≤ start) (high : start < NPROC) (p : Slot) :
    ∃ i ∈ List.range NPROC, slotAt ((start + i).tmod NPROC) = some p := by
  have bound := p.isLt
  refine ⟨(p + NPROC - start.toNat) % NPROC, List.mem_range.mpr (mod_lt _ (by decide)), ?_⟩
  have reached : (start + ((p + NPROC - start.toNat) % NPROC : Nat)).tmod NPROC = (p : Nat) := by
    rw [tmod_eq_emod_of_nonneg (by omega)]
    simp only [NPROC] at bound high ⊢
    omega
  rw [reached]
  exact slotAt_slot p

/-- A runnable process is chosen, and nobody only if there is none. -/
structure Conserves (table : Table) (chosen : Option Slot) : Prop where
  sound : ∀ p, chosen = some p → (table p).state = .runnable
  complete : chosen = none → ∀ p, (table p).state ≠ .runnable

theorem defaultScheduler_conserves (rng : Rng) :
    ∃ chosen after, defaultScheduler table rng = some (chosen, after) ∧ Conserves table chosen := by
  have positive : (0 : Int32) < Int32.ofNat NPROC := by decide
  obtain ⟨low, high⟩ := random_range rng positive
  obtain ⟨chosen, result, sound, complete⟩ := defaultLoop_result table low (List.range NPROC)
  refine ⟨chosen, (random rng (Int32.ofNat NPROC)).2, ?_, sound, ?_⟩
  · simp only [defaultScheduler, result, bind_eq_bind, bind_some]
  · intro empty p
    obtain ⟨i, member, reached⟩ := default_offsets_cover low high p
    exact complete empty i member p reached

theorem leastLoop_conserves {κ : Type} [LT κ] [DecidableLT κ] (key : Proc → κ) (rest : List Slot)
    (res : Option Slot) (kept : ∀ p, res = some p → (table p).state = .runnable) :
    (∀ p, leastLoop key table rest res = some p → (table p).state = .runnable) ∧
      (leastLoop key table rest res = none → res = none ∧ ∀ p ∈ rest, (table p).state ≠ .runnable) := by
  induction rest generalizing res with
  | nil => exact ⟨kept, by simp [leastLoop]⟩
  | cons p _ ih =>
    by_cases ready : (table p).state = .runnable
    · cases res with
      | none =>
        obtain ⟨sound, complete⟩ := ih (some p) (by simp [ready])
        simp only [leastLoop, if_pos ready]
        exact ⟨sound, fun empty => absurd (complete empty).1 (by simp)⟩
      | some best =>
        have next : ∀ q, (if key (table p) < key (table best) then some p else some best) =
            some q → (table q).state = .runnable := by
          intro q same
          split at same <;> cases same
          · exact ready
          · exact kept best rfl
        obtain ⟨sound, complete⟩ := ih _ next
        simp only [leastLoop, if_pos ready]
        refine ⟨sound, fun empty => absurd (complete empty).1 ?_⟩
        split <;> simp
    · obtain ⟨sound, complete⟩ := ih res kept
      simp only [leastLoop, if_neg ready]
      refine ⟨sound, fun empty => ⟨(complete empty).1, ?_⟩⟩
      intro q member
      rcases List.mem_cons.mp member with rfl | later
      · exact ready
      · exact (complete empty).2 q later

theorem leastScan_conserves {κ : Type} [LT κ] [DecidableLT κ] (key : Proc → κ) :
    Conserves table (leastLoop key table slots none) := by
  obtain ⟨sound, complete⟩ := leastLoop_conserves table key slots none (by simp)
  exact ⟨sound, fun empty p => (complete empty).2 p (mem_slots p)⟩

/-- `p` is chosen before `q`: its key is at most that of `q`, and with equal keys it has the lower slot. -/
structure Ahead {κ : Type} [LE κ] (key : Proc → κ) (p q : Slot) : Prop where
  least : key (table p) ≤ key (table q)
  tie : key (table p) = key (table q) → p ≤ q

section

variable {table} {κ : Type} [LE κ] [Std.IsLinearOrder κ] {key : Proc → κ} {p q r : Slot}

theorem Ahead.refl (p : Slot) : Ahead table key p p := ⟨Std.le_refl _, fun _ => le_refl p⟩

theorem Ahead.trans (first : Ahead table key p q) (second : Ahead table key q r) : Ahead table key p r := by
  refine ⟨Std.le_trans first.least second.least, fun same => ?_⟩
  have back : key (table q) ≤ key (table p) := by
    rw [same]
    exact second.least
  have middle := Std.le_antisymm first.least back
  exact le_trans (first.tie middle) (second.tie (middle.symm.trans same))

variable [LT κ] [Std.LawfulOrderLT κ] [DecidableLT κ]

theorem leastLoop_least (rest : List Slot) (res : Option Slot) (order : (res.toList ++ rest).Pairwise (· < ·))
    {chosen : Slot} (found : leastLoop key table rest res = some chosen) :
    (∀ best, res = some best → Ahead table key chosen best) ∧
      ∀ q ∈ rest, (table q).state = .runnable → Ahead table key chosen q := by
  induction rest generalizing res with
  | nil =>
    refine ⟨fun best kept => ?_, by simp⟩
    cases found.symm.trans kept
    exact .refl _
  | cons p rest ih =>
    have shorter : (res.toList ++ rest).Pairwise (· < ·) := order.sublist ((sublist_cons_self p rest).append_left _)
    by_cases ready : (table p).state = .runnable
    · simp only [leastLoop, if_pos ready] at found
      -- whichever of `p` and the old candidate is kept is ahead of the other
      cases res with
      | none =>
        obtain ⟨kept, others⟩ := ih (some p) order found
        refine ⟨by simp, fun q member runnable => ?_⟩
        rcases List.mem_cons.mp member with rfl | later
        · exact kept q rfl
        · exact others q later runnable
      | some best =>
        dsimp only at found
        by_cases less : key (table p) < key (table best)
        · rw [if_pos less] at found
          have ahead : Ahead table key p best := ⟨Std.le_of_lt less, fun same => absurd (same ▸ less) Std.lt_irrefl⟩
          obtain ⟨kept, others⟩ := ih (some p) (List.pairwise_cons.mp order).2 found
          refine ⟨fun other same => ?_, fun q member runnable => ?_⟩
          · cases same
            exact (kept p rfl).trans ahead
          · rcases List.mem_cons.mp member with rfl | later
            · exact kept q rfl
            · exact others q later runnable
        · rw [if_neg less] at found
          obtain ⟨kept, others⟩ := ih (some best) shorter found
          have before : best < p := (List.pairwise_cons.mp order).1 p (by simp)
          have ahead : Ahead table key best p := ⟨Std.not_lt.mp less, fun _ => le_of_lt before⟩
          refine ⟨kept, fun q member runnable => ?_⟩
          rcases List.mem_cons.mp member with rfl | later
          · exact (kept best rfl).trans ahead
          · exact others q later runnable
    · simp only [leastLoop, if_neg ready] at found
      obtain ⟨kept, others⟩ := ih res shorter found
      refine ⟨kept, fun q member runnable => ?_⟩
      rcases List.mem_cons.mp member with rfl | later
      · exact absurd runnable ready
      · exact others q later runnable

theorem leastScan_least {chosen : Slot} (found : leastLoop key table slots none = some chosen) (q : Slot)
    (runnable : (table q).state = .runnable) : Ahead table key chosen q :=
  (leastLoop_least slots none (pairwise_lt_finRange NPROC) found).2 q (mem_slots q) runnable

end

/-- Both outcomes of rrScheduler: the first runnable slot after `idx` in cyclic
order, which becomes the new `idx`, or a full turn that ends where it began. -/
inductive RoundRobin (table : Table) (idx : Nat) : Option Slot → Nat → Prop where
  | chose (p : Slot) (steps : Nat) (forward : 0 < steps) (bounded : steps ≤ NPROC)
      (reached : (idx + steps) % NPROC = p) (ready : (table p).state = .runnable)
      (first : ∀ q : Slot, ∀ less, 0 < less → less < steps → (idx + less) % NPROC = q →
        (table q).state ≠ .runnable) : RoundRobin table idx (some p) p
  | idle (none_ready : ∀ q : Slot, (table q).state ≠ .runnable) : RoundRobin table idx none idx

theorem rrLoop_result {idx : Nat} (inside : idx < NPROC) (fuel : Nat) (scanned : Nat)
    (budget : scanned + fuel = NPROC) (nonempty : 0 < fuel)
    (passed : ∀ q : Slot, ∀ less, 0 < less → less ≤ scanned → (idx + less) % NPROC = q → (table q).state ≠ .runnable) :
    ∃ chosen after, rrLoop table idx fuel ((idx + scanned) % NPROC) = some (chosen, after) ∧
      RoundRobin table idx chosen after := by
  induction fuel generalizing scanned with
  | zero => omega
  | succ _ ih =>
    have advanced : ((idx + scanned) % NPROC + 1) % NPROC = (idx + (scanned + 1)) % NPROC := by
      rw [mod_add_mod, Nat.add_assoc]
    have within : (idx + (scanned + 1)) % NPROC < NPROC := mod_lt _ (by decide)
    let p : Slot := ⟨(idx + (scanned + 1)) % NPROC, within⟩
    have found : slotAt ((idx + (scanned + 1)) % NPROC : Nat) = some p := slotAt_slot p
    simp only [rrLoop, advanced, found, bind_eq_bind, bind_some]
    by_cases ready : (table p).state = .runnable
    · refine ⟨some p, p, by simp only [if_pos ready]; rfl, ?_⟩
      refine .chose p (scanned + 1) (by omega) (by omega) rfl ready ?_
      intro q less positive below
      exact passed q less positive (by omega)
    · have extended : ∀ q : Slot, ∀ less, 0 < less → less ≤ scanned + 1 →
          (idx + less) % NPROC = q → (table q).state ≠ .runnable := by
        intro q less positive below reached
        rcases Nat.lt_or_ge less (scanned + 1) with earlier | last
        · exact passed q less positive (by omega) reached
        · have same : less = scanned + 1 := by omega
          subst same
          have slot : q = p := Fin.ext reached.symm
          rw [slot]
          exact ready
      simp only [if_neg ready]
      by_cases again : idx ≠ (idx + (scanned + 1)) % NPROC
      · rw [if_pos again]
        -- the loop only goes round again before the turn is complete
        have unfinished : scanned + 1 ≠ NPROC := by
          intro full
          rw [full, Data.Ring.wrap_full inside] at again
          exact again rfl
        exact ih (scanned + 1) (by omega) (by omega) extended
      · rw [if_neg again]
        have home : (idx + (scanned + 1)) % NPROC = idx := (not_not.mp again).symm
        refine ⟨none, idx, by rw [home], .idle ?_⟩
        intro q
        have around : scanned + 1 = NPROC := by
          rw [Data.Ring.wrap_eq inside (by omega)] at home
          split at home <;> omega
        exact extended q (Data.Ring.gap NPROC idx q) (Data.Ring.gap_pos inside)
          (by rw [around]; exact Data.Ring.gap_le q.isLt) (Data.Ring.add_gap inside q.isLt)

theorem rrScheduler_spec {idx : Nat} (inside : idx < NPROC) :
    ∃ chosen after, rrScheduler table idx = some (chosen, after) ∧ RoundRobin table idx chosen after := by
  have start : (idx + 0) % NPROC = idx := mod_eq_of_lt inside
  have result := rrLoop_result table inside NPROC 0 (by omega) (by decide) (by
    intro q less positive below
    omega)
  rwa [start] at result

theorem RoundRobin.conserves {table : Table} (outcome : RoundRobin table idx chosen after) : Conserves table chosen := by
  cases outcome with
  | chose _ _ _ _ _ ready => exact ⟨by simp [ready], by simp⟩
  | idle none_ready => exact ⟨by simp, fun _ => none_ready⟩

theorem RoundRobin.after_lt {table : Table} (inside : idx < NPROC) (outcome : RoundRobin table idx chosen after) : after < NPROC := by
  cases outcome with
  | chose p => exact p.isLt
  | idle => exact inside

/-- The level at which the inner loop of smlScheduler stops. -/
def level (priority : Int32) : Nat :=
  if priority ≤ 7 then 0 else if priority ≤ 14 then 1 else 2

theorem level_lt (priority : Int32) : level priority < MLQ_LEVELS := by
  unfold level
  split
  · decide
  · split <;> decide

theorem placeLoop_eq (priority : Int32) (p : Slot) (queues : Queues) :
    placeLoop priority p (List.range MLQ_LEVELS) queues = queues.push (level priority) p := by
  have levels : List.range MLQ_LEVELS = [0, 1, 2] := rfl
  rw [levels]
  simp only [placeLoop, MLQ_LEVELS, MLQ_TIME_SLICES, level]
  by_cases low : priority ≤ 7
  · simp [low]
  · by_cases middle : priority ≤ 14
    · simp [low, middle]
    · simp [low, middle]

/-- Level `i` of the queues holds exactly the slots `members`, in order. -/
structure Queues.Holds (queues : Queues) (i : Nat) (members : List Slot) : Prop where
  count : queues.Idxs i = members.length
  entries : ∀ j, ∀ inside : j < members.length, queues.MQ i j = some members[j]

theorem Queues.Holds.push_same {i : Nat} {members : List Slot}
    (holds : queues.Holds i members) (p : Slot) (inLevels : i < MLQ_LEVELS) (room : members.length < NPROC) :
    ∃ after, queues.push i p = some after ∧ after.Holds i (members ++ [p]) ∧
      ∀ k others, k ≠ i → queues.Holds k others → after.Holds k others := by
  have guard : i < MLQ_LEVELS ∧ queues.Idxs i < NPROC := ⟨inLevels, by rw [holds.count]; exact room⟩
  refine ⟨_, by simp only [Queues.push, if_pos guard]; rfl, ⟨?_, ?_⟩, ?_⟩
  · simp [holds.count]
  · intro j inside
    simp only [update_self, holds.count]
    rcases Nat.lt_or_ge j members.length with earlier | last
    · rw [update_of_ne (by omega), holds.entries j earlier, getElem_append_left earlier]
    · have same : j = members.length := by simp at inside; omega
      subst same
      simp
  · intro k others different kept
    refine ⟨?_, ?_⟩
    · simpa [update_of_ne different] using kept.count
    · intro j inside
      simpa [update_of_ne different] using kept.entries j inside

/-- The slots of `rest` that smlScheduler files under level `i`. -/
def filed (rest : List Slot) (i : Nat) : List Slot :=
  rest.filter fun p => (table p).state = .runnable ∧ level (table p).priority = i

theorem filed_cons_ready {p : Slot} (rest : List Slot) (ready : (table p).state = .runnable) (i : Nat) :
    filed table (p :: rest) i = (if level (table p).priority = i then [p] else []) ++ filed table rest i := by
  unfold filed
  rw [filter_cons]
  by_cases same : level (table p).priority = i <;> simp [ready, same]

/-- Filing keeps every level within its row: a level holds at most the slots
already visited, and there are `NPROC` of them in all. -/
theorem fillLoop_result (rest : List Slot) (queues : Queues) (before : Nat → List Slot) (holds : ∀ i, queues.Holds i (before i))
    (room : ∀ i, (before i).length + rest.length ≤ NPROC) : ∃ after, fillLoop table rest queues = some after ∧
      ∀ i, after.Holds i (before i ++ filed table rest i) := by
  induction rest generalizing queues before with
  | nil => exact ⟨queues, rfl, fun i => by simpa [filed] using holds i⟩
  | cons p rest ih =>
    by_cases ready : (table p).state = .runnable
    · let target := level (table p).priority
      have space : (before target).length < NPROC := by
        have := room target
        simp only [length_cons] at this
        omega
      obtain ⟨pushed, push, same, other⟩ := (holds target).push_same p (level_lt _) space
      have next : ∀ i, pushed.Holds i (before i ++ if target = i then [p] else []) := by
        intro i
        by_cases here : target = i
        · subst here
          simpa using same
        · simpa [here] using other i _ (Ne.symm here) (holds i)
      obtain ⟨after, result, final⟩ := ih pushed _ next (by
        intro i
        have := room i
        simp only [length_cons, length_append] at this ⊢
        split <;> simp <;> omega)
      refine ⟨after, ?_, ?_⟩
      · simp only [fillLoop, if_pos ready, placeLoop_eq, bind_eq_bind]
        rw [show queues.push (level (table p).priority) p = some pushed from push]
        exact result
      · intro i
        rw [filed_cons_ready table rest ready i, ← append_assoc]
        exact final i
    · obtain ⟨after, result, final⟩ := ih queues before holds (by
        intro i
        have := room i
        simp only [length_cons] at this
        omega)
      refine ⟨after, by simp only [fillLoop, if_neg ready, result], ?_⟩
      intro i
      rw [filed, filter_cons_of_neg (by simp [ready])]
      exact final i

theorem pickLoop_result (rng : Rng) (queues : Queues) (members : Nat → List Slot)
    (holds : ∀ i, queues.Holds i (members i)) (small : ∀ i, (members i).length ≤ NPROC)
    (levels : List Nat) (order : levels.Pairwise (· < ·)) (valid : ∀ i ∈ levels, i < MLQ_LEVELS) :
    ∃ chosen after, pickLoop rng queues levels = some (chosen, after) ∧
      (∀ p, chosen = some p → ∃ i, p ∈ members i ∧ ∀ k ∈ levels, members k ≠ [] → i ≤ k) ∧
      (chosen = none → ∀ i ∈ levels, members i = []) := by
  induction levels with
  | nil => exact ⟨none, rng, rfl, by simp, by simp⟩
  | cons i _ ih =>
    have inLevels := valid i (by simp)
    simp only [pickLoop, if_pos inLevels, (holds i).count]
    by_cases nonempty : 0 < (members i).length
    · have fits := small i
      have width : (Int32.ofNat (members i).length).toInt = (members i).length := by
        apply Int32.toInt_ofNat_of_lt
        simp only [NPROC] at fits
        omega
      have positive : (0 : Int32) < Int32.ofNat (members i).length := by
        rw [Int32.lt_iff_toInt_lt, width]
        simpa using nonempty
      obtain ⟨low, high⟩ := random_range rng positive
      rw [width] at high
      have inside : (random rng (Int32.ofNat (members i).length)).1.toInt.toNat < (members i).length := by
        omega
      let p := (members i).get ⟨_, inside⟩
      refine ⟨some p, (random rng (Int32.ofNat (members i).length)).2, ?_, ?_, by simp⟩
      · simp only [if_pos nonempty, bind_eq_bind]
        rw [Queues.at, if_pos ⟨inLevels, low, by omega⟩, (holds i).entries _ inside]
        rfl
      · intro q same
        cases same
        refine ⟨i, List.get_mem _ _, fun k member _ => ?_⟩
        rcases List.mem_cons.mp member with rfl | later
        · exact Nat.le_refl _
        · exact Nat.le_of_lt ((List.pairwise_cons.mp order).1 k later)
    · have vacant : members i = [] := List.eq_nil_of_length_eq_zero (by omega)
      obtain ⟨chosen, after, result, sound, complete⟩ :=
        ih (List.pairwise_cons.mp order).2 (fun k later => valid k (by simp [later]))
      refine ⟨chosen, after, by simp only [if_neg nonempty, result], ?_, ?_⟩
      · intro p same
        obtain ⟨k, inside, least⟩ := sound p same
        refine ⟨k, inside, fun l member filled => ?_⟩
        rcases List.mem_cons.mp member with rfl | later
        · exact absurd vacant filled
        · exact least l later filled
      · intro empty k member
        rcases List.mem_cons.mp member with rfl | later
        · exact vacant
        · exact complete empty k later

theorem mem_filed {p : Slot} {i : Nat} :
    p ∈ filed table slots i ↔ (table p).state = .runnable ∧ level (table p).priority = i := by
  simp [filed]

theorem fillLoop_slots : ∃ queues, fillLoop table slots {} = some queues ∧ ∀ i, queues.Holds i (filed table slots i) := by
  have empty : ∀ i, ({} : Queues).Holds i [] := fun i => ⟨rfl, by simp⟩
  obtain ⟨queues, filled, holds⟩ := fillLoop_result table slots {} (fun _ => []) empty (fun i => by simp [slots])
  exact ⟨queues, filled, by simpa only [nil_append] using holds⟩

theorem smlScheduler_spec (rng : Rng) : ∃ chosen after, smlScheduler table rng = some (chosen, after) ∧ Conserves table chosen ∧
      ∀ p q, chosen = some p → (table q).state = .runnable → level (table p).priority ≤ level (table q).priority := by
  obtain ⟨queues, filled, holds⟩ := fillLoop_slots table
  have small : ∀ i, (filed table slots i).length ≤ NPROC := fun i =>
    (List.length_filter_le _ _).trans_eq List.length_finRange
  obtain ⟨chosen, after, result, sound, complete⟩ := pickLoop_result rng queues _ holds small
    (List.range MLQ_LEVELS) List.pairwise_lt_range (fun i member => List.mem_range.mp member)
  have listed {p : Slot} (ready : (table p).state = .runnable) : filed table slots (level (table p).priority) ≠ [] :=
    List.ne_nil_of_mem ((mem_filed table).mpr ⟨ready, rfl⟩)
  have reached (p : Slot) : level (table p).priority ∈ List.range MLQ_LEVELS := List.mem_range.mpr (level_lt _)
  refine ⟨chosen, after, by simp only [smlScheduler, filled, result, bind_eq_bind, bind_some], ⟨?_, ?_⟩, ?_⟩
  · intro p same
    obtain ⟨i, member, -⟩ := sound p same
    exact ((mem_filed table).mp member).1
  · exact fun none p ready => listed ready (complete none _ (reached p))
  · intro p q same ready
    obtain ⟨i, member, least⟩ := sound p same
    rw [((mem_filed table).mp member).2]
    exact least _ (reached q) (listed ready)

theorem select_conserves (policy : Policy) (table : Table) (sched : SchedState) (inside : sched.idx < NPROC) :
    ∃ chosen after, policy.select table sched = some (chosen, after) ∧ Conserves table chosen ∧
      after.idx < NPROC ∧ (policy = .rr → chosen = none → after.idx = sched.idx) := by
  cases policy with
  | default =>
    obtain ⟨chosen, rng, result, conserves⟩ := defaultScheduler_conserves table sched.rng
    exact ⟨chosen, { sched with rng }, by simp [Policy.select, result], conserves, inside, by simp⟩
  | priority | fcfs => exact ⟨_, sched, rfl, leastScan_conserves table _, inside, by simp⟩
  | rr =>
    obtain ⟨chosen, idx, result, outcome⟩ := rrScheduler_spec table inside
    refine ⟨chosen, { sched with idx }, by simp [Policy.select, result], outcome.conserves, outcome.after_lt inside, ?_⟩
    intro _ empty
    subst empty
    cases outcome
    rfl
  | sml =>
    obtain ⟨chosen, rng, result, conserves, -⟩ := smlScheduler_spec table sched.rng
    exact ⟨chosen, { sched with rng }, by simp [Policy.select, result], conserves, inside, by simp⟩

/-- Every runnable slot stands in one place of the queues, and below the count. -/
theorem Queues.Holds.place {table : Table} (holds : ∀ i, queues.Holds i (filed table slots i)) {p : Slot}
    (ready : (table p).state = .runnable) :
    ∃! place : Nat × Nat, place.1 < MLQ_LEVELS ∧ place.2 < queues.Idxs place.1 ∧ queues.MQ place.1 place.2 = some p := by
  obtain ⟨j, inside, found⟩ := getElem_of_mem ((mem_filed table).mpr ⟨ready, rfl⟩)
  refine ⟨(level (table p).priority, j), ⟨level_lt _, ?_, ?_⟩, fun (i, k) ⟨_, below, there⟩ => ?_⟩
  · rwa [(holds _).count]
  · rw [(holds _).entries j inside, found]
  · rw [(holds i).count] at below
    rw [(holds i).entries k below, some.injEq] at there
    obtain rfl : level (table p).priority = i := ((mem_filed table).mp (there ▸ getElem_mem below)).2
    have once : (filed table slots (level (table p).priority)).Nodup := (nodup_finRange NPROC).filter _
    rw [once.getElem_inj_iff.mp (there.trans found.symm)]

/-- The first of the least priorities, the least level, and the queues by which it is found. -/
theorem selection_optimal (table : Table) : (∀ p, priorityScheduler table = some p ↔
      (table p).state = .runnable ∧ ∀ q, (table q).state = .runnable → Ahead table Proc.priority p q) ∧
    (∃ queues, fillLoop table slots {} = some queues ∧ ∀ p, (table p).state = .runnable →
      ∃! place : Nat × Nat, place.1 < MLQ_LEVELS ∧ place.2 < queues.Idxs place.1 ∧ queues.MQ place.1 place.2 = some p) ∧
    ∀ rng, ∃ chosen after, smlScheduler table rng = some (chosen, after) ∧ (chosen = none → ∀ q, (table q).state ≠ .runnable) ∧
      ∀ p, chosen = some p → (table p).state = .runnable ∧
        ∀ q, (table q).state = .runnable → level (table p).priority ≤ level (table q).priority := by
  refine ⟨fun p => ⟨fun found => ?_, fun ⟨ready, first⟩ => ?_⟩, ?_, fun rng => ?_⟩
  · exact ⟨(leastScan_conserves table _).sound p found, leastScan_least found⟩
  · cases found : priorityScheduler table with
    | none => exact absurd ready ((leastScan_conserves table _).complete found p)
    | some best =>
      have ahead := leastScan_least found p ready
      have behind := first best ((leastScan_conserves table _).sound best found)
      have same := Std.le_antisymm ahead.least behind.least
      rw [le_antisymm (ahead.tie same) (behind.tie same.symm)]
  · obtain ⟨queues, filled, holds⟩ := fillLoop_slots table
    exact ⟨queues, filled, fun p => Queues.Holds.place holds⟩
  · obtain ⟨chosen, after, result, conserves, least⟩ := smlScheduler_spec table rng
    exact ⟨chosen, after, result, conserves.complete, fun p same => ⟨conserves.sound p same, fun q => least p q same⟩⟩

/-- No installed policy lets a CPU idle while a process is runnable, none of
them hands out anything else, and no access leaves its array. -/
theorem policy_work_conserving (policy : Policy) (table : Table) (sched : SchedState) (inside : sched.idx < NPROC) :
    ∃ chosen after, policy.select table sched = some (chosen, after) ∧
      ((∃ p, (table p).state = .runnable) → ∃ p, chosen = some p ∧ (table p).state = .runnable) ∧
      ((∀ p, (table p).state ≠ .runnable) → chosen = none) ∧ (policy = .rr → chosen = none → after.idx = sched.idx) := by
  obtain ⟨chosen, after, result, conserves, -, restored⟩ := select_conserves policy table sched inside
  refine ⟨chosen, after, result, ?_, ?_, restored⟩
  · rintro ⟨p, ready⟩
    cases chosen with
    | none => exact absurd ready (conserves.complete rfl p)
    | some q => exact ⟨q, rfl, conserves.sound q rfl⟩
  · intro idle
    cases chosen with
    | none => rfl
    | some q => exact absurd (conserves.sound q rfl) (idle q)

/-- A table whose only runnable process is in slot 3. -/
def lone : Table := fun p => if p = 3 then { state := .runnable } else {}

theorem policy_work_conserving_lone : ∃ chosen after, Policy.rr.select lone {} = some (chosen, after) ∧
      ∃ p, chosen = some p ∧ (lone p).state = .runnable := by
  obtain ⟨chosen, after, result, busy, _⟩ := policy_work_conserving .rr lone {} (by decide)
  exact ⟨chosen, after, result, busy ⟨3, rfl⟩⟩

end Xv6.Scheduler
