import Xv6.Kernel.Exclusivity

namespace Xv6.Kernel

open Process Scheduler Data Int32 Machine

/-! The selected policy. `ready_process` and `schedSelected` are written
together, under `schedulerlock`, by setscheduler only. -/

variable {Cpu : Type}

def Machine.getscheduler (m : Machine Cpu) : Int32 := m.schedSelected

section

variable [DecidableEq Cpu] {m next : Machine Cpu} {c : Cpu} {p : Slot} {event : Event Cpu}

/-- What a step does to the selected policy. -/
inductive Selects (m : Machine Cpu) (event : Event Cpu) (next : Machine Cpu) : Prop where
  | kept (ready : next.readyProcess = m.readyProcess) (selected : next.schedSelected = m.schedSelected)
      (other : ∀ c sid, event ≠ .act c (.setscheduler sid))
  | refused (c : Cpu) (p : Slot) (sid : Int32) (call : event = .act c (.setscheduler sid))
      (here : m.running c = some p) (outside : sid < 0 ∨ sid > Int32.ofNat schedulerName.length)
      (ready : next.readyProcess = m.readyProcess) (selected : next.schedSelected = m.schedSelected)
      (result : next.result p = some (-1))
  | selected (c : Cpu) (p : Slot) (sid : Int32) (call : event = .act c (.setscheduler sid))
      (here : m.running c = some p) (inside : ¬ (sid < 0 ∨ sid > Int32.ofNat schedulerName.length))
      (ready : next.readyProcess = schedulerFunction[sid.toInt.toNat]?) (selected : next.schedSelected = sid)
      (result : next.result p = some sid)

theorem step_selects (stepped : m.step event = some next) : Selects m event next := by
  cases step_move stepped with
  | act c p _ _ here act =>
    have on : m.running c = some p := by simp [Machine.running, here]
    cases act with
    | badScheduler sid _ refused =>
      exact .refused c p sid rfl on refused rfl rfl (Function.update_self ..)
    | setscheduler sid _ accepted =>
      exact .selected c p sid rfl on accepted rfl rfl (Function.update_self ..)
    | wait _ _ _ _ reap => exact .kept reap.sched.1 reap.sched.2.1 (by simp)
    | full _ _ _ creates | create _ _ _ _ _ _ creates =>
      refine .kept rfl rfl fun d sid same => ?_
      cases same
      simp at creates
    | _ => exact .kept rfl rfl (by simp)
  | rescan _ _ _ _ _ _ _ reap => exact .kept reap.sched.1 reap.sched.2.1 (by simp)
  | _ => exact .kept rfl rfl (by simp)

end

/-- `ready_process` is the entry of `schedulerFunction` at `schedSelected`, or nothing if there is none. -/
def Coupled (m : Machine Cpu) : Prop := m.readyProcess = schedulerFunction[m.schedSelected.toInt.toNat]?

theorem Coupled.boot (policy : Policy) : Coupled (boot policy : Machine Cpu) := by
  cases policy <;> rfl

theorem Coupled.step [DecidableEq Cpu] {m next : Machine Cpu} {event : Event Cpu} (coupled : Coupled m)
    (stepped : m.step event = some next) : Coupled next := by
  unfold Coupled
  cases step_selects stepped with
  | kept ready selected | refused _ _ _ _ _ _ ready selected => rw [ready, selected, coupled]
  | selected _ _ _ _ _ _ ready selected => rw [ready, selected]

/-- `schedSelected` is an index of both tables. -/
def Indexed (m : Machine Cpu) : Prop :=
  0 ≤ m.getscheduler.toInt ∧ m.getscheduler.toInt < schedulerFunction.length ∧ m.getscheduler.toInt < schedulerName.length

/-- The two variables agree after the step, and setscheduler does what its comment says. -/
structure SelectionSafe (m : Machine Cpu) (event : Event Cpu) (next : Machine Cpu) : Prop where
  index : Indexed next
  ready : next.readyProcess = schedulerFunction[next.getscheduler.toInt.toNat]?
  accepted : ∀ c p sid, event = .act c (.setscheduler sid) → m.running c = some p → 0 ≤ sid →
    sid < Int32.ofNat schedulerFunction.length → next.result p = some sid ∧ next.schedSelected = sid
  refused : ∀ c p sid, event = .act c (.setscheduler sid) → m.running c = some p →
    (sid < 0 ∨ Int32.ofNat schedulerFunction.length ≤ sid) →
    next.result p = some (-1) ∧ next.readyProcess = m.readyProcess ∧ next.schedSelected = m.schedSelected

theorem Indexed.boot (policy : Policy) : Indexed (boot policy : Machine Cpu) := by
  have inside (policy : Policy) : 0 ≤ (ofNat (schedulerFunction.idxOf policy)).toInt ∧
      (ofNat (schedulerFunction.idxOf policy)).toInt < 5 := by
    cases policy <;> decide
  exact ⟨(inside policy).1, (inside policy).2, (inside policy).2⟩

section

variable {sid : Int32}

theorem policies_toInt : (Int32.ofNat schedulerName.length).toInt = 5 ∧
    (Int32.ofNat schedulerFunction.length).toInt = 5 := by decide

theorem accepted_iff : ¬ (sid < 0 ∨ sid > Int32.ofNat schedulerName.length) ↔ 0 ≤ sid.toInt ∧ sid.toInt ≤ 5 := by
  rw [not_or, gt_iff_lt, lt_iff_toInt_lt, lt_iff_toInt_lt, policies_toInt.1]
  have zero : (0 : Int32).toInt = 0 := by decide
  omega

theorem below_iff : sid < Int32.ofNat schedulerFunction.length ↔ sid.toInt < 5 := by
  rw [lt_iff_toInt_lt, policies_toInt.2]

theorem nonneg_iff : 0 ≤ sid ↔ 0 ≤ sid.toInt := by
  rw [le_iff_toInt_le]
  rfl

end

variable [DecidableEq Cpu] {m next : Machine Cpu} {event : Event Cpu}

theorem Indexed.step (indexed : Indexed m) (known : KnownPolicy m event next) (stepped : m.step event = some next) :
    Indexed next := by
  cases step_selects stepped with
  | kept _ selected | refused _ _ _ _ _ _ _ selected =>
    unfold Indexed getscheduler
    rw [selected]
    exact indexed
  | selected _ _ sid call _ inside _ selected =>
    subst call
    obtain ⟨_, _⟩ := accepted_iff.mp inside
    have other : sid.toInt ≠ 5 := fun same => known (Int32.toInt_inj.mp (same.trans policies_toInt.1.symm))
    unfold Indexed getscheduler
    rw [selected]
    change 0 ≤ sid.toInt ∧ sid.toInt < 5 ∧ sid.toInt < 5
    omega

theorem Indexed.safe (indexed : Indexed m) (coupled : Coupled m) (known : KnownPolicy m event next)
    (stepped : m.step event = some next) : SelectionSafe m event next := by
  refine ⟨indexed.step known stepped, coupled.step stepped, fun c p sid call here low high => ?_,
    fun c p sid call here outside => ?_⟩
  · rw [nonneg_iff] at low
    rw [below_iff] at high
    cases step_selects stepped with
    | kept _ _ other => exact absurd call (other c sid)
    | refused _ _ _ again _ refused =>
      cases call.symm.trans again
      exact absurd (accepted_iff.mpr ⟨low, by omega⟩) (not_not_intro refused)
    | selected _ _ _ again there _ _ selected result =>
      cases call.symm.trans again
      cases here.symm.trans there
      exact ⟨result, selected⟩
  · cases step_selects stepped with
    | kept _ _ other => exact absurd call (other c sid)
    | refused _ _ _ again there _ ready selected result =>
      cases call.symm.trans again
      cases here.symm.trans there
      exact ⟨result, ready, selected⟩
    | selected _ _ _ again _ inside =>
      cases call.symm.trans again
      subst call
      obtain ⟨_, _⟩ := accepted_iff.mp inside
      have past : sid.toInt ≠ 5 := fun same => known (Int32.toInt_inj.mp (same.trans policies_toInt.1.symm))
      rw [lt_iff_toInt_lt, le_iff_toInt_le, policies_toInt.2] at outside
      have zero : (0 : Int32).toInt = 0 := by decide
      omega

theorem known_of_selected (stepped : m.step event = some next)
    (inside : next.schedSelected ≠ Int32.ofNat schedulerName.length) : KnownPolicy m event next := by
  cases step_selects stepped with
  | kept _ _ other =>
    cases event with
    | act c action =>
      cases action with
      | setscheduler sid => exact absurd rfl (other c sid)
      | _ => trivial
    | _ => trivial
  | refused _ _ _ call _ outside =>
    subst call
    intro past
    exact absurd outside (accepted_iff.mpr (by rw [past, policies_toInt.1]; decide))
  | selected _ _ _ call _ _ _ selected =>
    subst call
    exact fun past => inside (selected.trans past)

theorem SelectionSafe.known (safe : SelectionSafe m event next) (stepped : m.step event = some next) :
    KnownPolicy m event next := by
  refine known_of_selected stepped fun past => ?_
  have below : next.schedSelected.toInt < 5 := safe.index.2.1
  rw [past, policies_toInt.1] at below
  omega

/-- A run keeps the selected policy coherent exactly if setscheduler is never
called with the number of policies. -/
theorem selection_coherent_iff (policy : Policy) (events : List (Event Cpu)) :
    ((Indexed (boot policy : Machine Cpu) ∧ Coupled (boot policy : Machine Cpu)) ∧
      EveryStep Machine.step SelectionSafe (boot policy) events) ↔ EveryStep Machine.step KnownPolicy (boot policy) events := by
  constructor
  · intro ⟨_, safe⟩
    exact (runs_along (fun _ : Machine Cpu => True) trivial safe (fun _ _ _ _ safe stepped => ⟨trivial, safe.known stepped⟩)).1
  · intro known
    refine ⟨⟨.boot policy, .boot policy⟩, ?_⟩
    exact (runs_along (fun m : Machine Cpu => Indexed m ∧ Coupled m) ⟨.boot policy, .boot policy⟩ known
      (fun _ _ _ sound known stepped =>
        ⟨⟨sound.1.step known stepped, sound.2.step stepped⟩, sound.1.safe sound.2 known stepped⟩)).1

/-- setscheduler(5) is accepted, and the next dispatch calls through what lies
behind `schedulerFunction`. -/
theorem setscheduler_past_end : (run Machine.step (boot .default : Machine Bool)
        [.dispatch false none, .resume false, .act false (.setscheduler 5)]).map
      (fun m => (m.result 0, m.getscheduler, m.readyProcess)) = some (some 5, 5, none) := by
  decide +kernel

end Xv6.Kernel
