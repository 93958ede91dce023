import Mathlib.Data.List.Basic
import Mathlib.Logic.Function.Basic

namespace Xv6.Data

open Option

/-! Runs of a partial step function. Every choice a system leaves open is part
of the event, so a run is determined by its start and its list of events, and
`none` means that some event was not enabled where the list puts it. -/

variable {σ ε γ : Type*} {step : σ → ε → Option σ} {start finish : σ} {events : List ε}
    {condition property : σ → ε → σ → Prop} {event : ε}

def run (step : σ → ε → Option σ) : σ → List ε → Option σ
  | state, [] => some state
  | state, event :: rest =>
    match step state event with
    | none => none
    | some next => run step next rest

theorem guarded {α : Type*} {condition : Prop} [Decidable condition] {next after : α} :
    (if condition then some next else none) = some after ↔ condition ∧ next = after := by
  rw [ite_none_right_eq_some, some.injEq]

theorem run_cons (ran : run step start (event :: events) = some finish) :
    ∃ next, step start event = some next ∧ run step next events = some finish := by
  cases stepped : step start event with
  | none => simp [run, stepped] at ran
  | some next => exact ⟨next, rfl, by simpa only [run, stepped] using ran⟩

/-- `EveryStep step property start events` says that each step the run takes
satisfies `property`, which sees the state before, the event and the state after. -/
def EveryStep (step : σ → ε → Option σ) (property : σ → ε → σ → Prop) : σ → List ε → Prop
  | _, [] => True
  | state, event :: rest => ∀ next, step state event = some next → property state event next ∧ EveryStep step property next rest

instance EveryStep.decidable {property : σ → ε → σ → Prop}
    [∀ state event next, Decidable (property state event next)] (start : σ) (events : List ε) :
    Decidable (EveryStep step property start events) :=
  match events with
  | [] => .isTrue trivial
  | event :: rest =>
    match stepped : step start event with
    | none => .isTrue fun next taken => by rw [stepped] at taken; contradiction
    | some next =>
      have : Decidable (EveryStep step property next rest) := EveryStep.decidable next rest
      decidable_of_iff (property start event next ∧ EveryStep step property next rest)
        ⟨fun both other taken => by
          rw [stepped, Option.some.injEq] at taken
          exact taken ▸ both,
        fun all => all next stepped⟩

theorem EveryStep.and {first second : σ → ε → σ → Prop} (left : EveryStep step first start events)
    (right : EveryStep step second start events) :
    EveryStep step (fun before event after => first before event after ∧ second before event after) start events := by
  induction events generalizing start with
  | nil => trivial
  | cons _ _ ih =>
    intro next stepped
    obtain ⟨here, later⟩ := left next stepped
    obtain ⟨here', later'⟩ := right next stepped
    exact ⟨⟨here, here'⟩, ih later later'⟩

theorem EveryStep.last {property : σ → ε → σ → Prop} {next : σ}
    (every : EveryStep step property start (events ++ [event])) (ran : run step start events = some finish)
    (stepped : step finish event = some next) : property finish event next := by
  induction events generalizing start with
  | nil =>
    cases ran
    exact (every next stepped).1
  | cons _ _ ih =>
    obtain ⟨middle, first, tail⟩ := run_cons ran
    exact ih (every middle first).2 tail

/-- The whole of an invariance argument: what one step keeps and gives under
`condition`, every run whose steps meet `condition` keeps and gives. -/
theorem runs_along (invariant : σ → Prop)
    (holds : invariant start) (met : EveryStep step condition start events)
    (each : ∀ state event next, invariant state → condition state event next → step state event = some next →
      invariant next ∧ property state event next) :
    EveryStep step property start events ∧ ∀ finish, run step start events = some finish → invariant finish := by
  induction events generalizing start with
  | nil =>
    refine ⟨trivial, fun finish ran => ?_⟩
    cases ran
    exact holds
  | cons event _ ih =>
    refine ⟨fun next stepped => ?_, fun finish ran => ?_⟩
    · obtain ⟨meets, later⟩ := met next stepped
      obtain ⟨kept, here⟩ := each start event next holds meets stepped
      exact ⟨here, (ih kept later).1⟩
    · obtain ⟨next, stepped, tail⟩ := run_cons ran
      obtain ⟨meets, later⟩ := met next stepped
      exact (ih (each start event next holds meets stepped).1 later).2 finish tail

theorem everyStep_congr (invariant : σ → Prop) (holds : invariant start)
    (each : ∀ state event next, invariant state → step state event = some next →
      invariant next ∧ (condition state event next ↔ property state event next)) :
    EveryStep step condition start events ↔ EveryStep step property start events := by
  induction events generalizing start with
  | nil => rfl
  | cons event _ ih =>
    refine forall_congr' fun next => forall_congr' fun stepped => ?_
    obtain ⟨kept, same⟩ := each start event next holds stepped
    exact and_congr same (ih kept)

theorem everyStep_true (step : σ → ε → Option σ) (start : σ) (events : List ε) :
    EveryStep step (fun _ _ _ => True) start events := by
  induction events generalizing start with
  | nil => trivial
  | cons _ _ ih => exact fun next _ => ⟨trivial, ih next⟩

/-- Auxiliary state that records the past of a run. `observe` reads the step
that was taken and never decides whether it may be taken. -/
def withHistory (step : σ → ε → Option σ) (observe : σ → ε → σ → γ → γ) : σ × γ → ε → Option (σ × γ)
  | (state, history), event =>
    match step state event with
    | none => none
    | some next => some (next, observe state event next history)

theorem withHistory_step {observe : σ → ε → σ → γ → γ} {before after : σ × γ}
    (stepped : withHistory step observe before event = some after) : step before.1 event = some after.1 ∧
      after.2 = observe before.1 event after.1 before.2 := by
  obtain ⟨state, _⟩ := before
  cases inner : step state event with
  | none => simp [withHistory, inner] at stepped
  | some =>
    simp only [withHistory, inner, some.injEq] at stepped
    subst after
    exact ⟨rfl, rfl⟩

theorem shares_append {κ α : Type*} [DecidableEq κ] (history : List (κ × α)) (c d : κ) (new : List α) :
    ((history ++ new.map (c, ·)).filter (·.1 = d)).map Prod.snd =
      (history.filter (·.1 = d)).map Prod.snd ++ if c = d then new else [] := by
  rw [List.filter_append, List.map_append]
  split
  · rename_i same
    simp [List.filter_map, Function.comp_def, same]
  · rename_i other
    simp [List.filter_map, Function.comp_def, other]

end Xv6.Data
