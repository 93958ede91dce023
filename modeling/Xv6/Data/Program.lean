import Mathlib.Data.List.Basic

namespace Xv6.Data

/-! Programs that pass a state along and may fail, and rules for what they do. -/

variable {ε σ α β : Type}

/-- From the state `s` the program returns as in `post`, or fails as in `fails`. -/
def Ends (program : StateT σ (Except ε) α) (s : σ) (post : α → σ → Prop) (fails : ε → Prop) : Prop :=
  match program s with
  | .ok (value, after) => post value after
  | .error reason => fails reason

namespace Ends

variable {program : StateT σ (Except ε) α} {s : σ} {post post' : α → σ → Prop} {fails fails' : ε → Prop} {value : α}
    {reason : ε} {after : σ}

section

variable (ends : Ends program s post fails)
include ends

theorem mono (returns : ∀ value after, post value after → post' value after)
    (failing : ∀ reason, fails reason → fails' reason) : Ends program s post' fails' := by
  unfold Ends at ends ⊢
  cases result : program s with
  | error reason =>
    rw [result] at ends
    exact failing reason ends
  | ok pair =>
    rw [result] at ends
    exact returns pair.1 pair.2 ends

theorem returns (returns : ∀ value after, post value after → post' value after) :
    Ends program s post' fails :=
  ends.mono returns fun _ => id

theorem and {failing : ε → Prop} (also : Ends program s post' failing) :
    Ends program s (fun value after => post value after ∧ post' value after) fails := by
  unfold Ends at ends also ⊢
  cases result : program s with
  | error =>
    rw [result] at ends
    exact ends
  | ok =>
    rw [result] at ends also
    exact ⟨ends, also⟩

theorem of_ok (result : program s = .ok (value, after)) :
    post value after := by
  unfold Ends at ends
  rwa [result] at ends

theorem of_error (result : program s = .error reason) : fails reason := by
  unfold Ends at ends
  rwa [result] at ends

end

theorem of_eq_ok (result : program s = .ok (value, after)) (holds : post value after) :
    Ends program s post fails := by
  unfold Ends
  rwa [result]

theorem exists_ok (ends : Ends program s post fails) (never : ∀ reason, ¬ fails reason) :
    ∃ value after, program s = .ok (value, after) ∧ post value after := by
  unfold Ends at ends
  cases result : program s with
  | error reason =>
    rw [result] at ends
    exact absurd ends (never reason)
  | ok pair =>
    rw [result] at ends
    exact ⟨pair.1, pair.2, rfl, ends⟩

theorem pure (holds : post value s) : Ends (Pure.pure value) s post fails := holds

theorem throw (holds : fails reason) : Ends (MonadExcept.throw reason : StateT σ (Except ε) α) s post fails := holds

theorem bind {rest : α → StateT σ (Except ε) β} {post : β → σ → Prop}
    (ends : Ends program s (fun value after => Ends (rest value) after post fails) fails) :
    Ends (program >>= rest) s post fails := by
  unfold Ends at ends
  change match Except.bind (program s) (fun pair => rest pair.1 pair.2) with
    | .ok (value, after) => post value after
    | .error reason => fails reason
  cases result : program s with
  | error | ok =>
    rw [result] at ends
    exact ends

theorem get {post : σ → σ → Prop} (holds : post s s) : Ends (MonadState.get : StateT σ (Except ε) σ) s post fails := holds

theorem modify {change : σ → σ} {post : PUnit → σ → Prop} (holds : post ⟨⟩ (change s)) :
    Ends (modify change : StateT σ (Except ε) PUnit) s post fails := holds

/-- A loop over a list: what holds before an element and the elements after it. -/
theorem forM {items : List β} {body : β → StateT σ (Except ε) PUnit} (invariant : List β → σ → Prop) (start : invariant items s)
    (step : ∀ item rest s, invariant (item :: rest) s → Ends (body item) s (fun _ after => invariant rest after) fails) :
    Ends (items.forM body) s (fun _ after => invariant [] after) fails := by
  induction items generalizing s with
  | nil => exact start
  | cons item rest ih =>
    exact bind ((step item rest s start).returns fun _ after holds => ih holds)

end Ends

/-- The program leaves the part `view` of the state alone. -/
def Preserves {τ : Type} (view : σ → τ) (program : StateT σ (Except ε) α) : Prop :=
  ∀ s, Ends program s (fun _ after => view after = view s) fun _ => True

namespace Preserves

variable {τ : Type} {view : σ → τ} {program : StateT σ (Except ε) α}

theorem pure (value : α) : Preserves view (Pure.pure value : StateT σ (Except ε) α) := fun _ => .pure rfl

theorem throw (reason : ε) : Preserves view (MonadExcept.throw reason : StateT σ (Except ε) α) := fun _ => .throw trivial

theorem get : Preserves view (MonadState.get : StateT σ (Except ε) σ) := fun _ => .get rfl

theorem modify {change : σ → σ} (kept : ∀ s, view (change s) = view s) :
    Preserves view (modify change : StateT σ (Except ε) PUnit) := fun s => .modify (kept s)

theorem bind {rest : α → StateT σ (Except ε) β} (first : Preserves view program) (second : ∀ value, Preserves view (rest value)) :
    Preserves view (program >>= rest) := fun s =>
  .bind ((first s).returns fun value after same => (second value after).returns fun _ _ later => later.trans same)

theorem ite {condition : Prop} [Decidable condition] {other : StateT σ (Except ε) α} (first : Preserves view program)
    (second : Preserves view other) : Preserves view (if condition then program else other) := by
  split
  · exact first
  · exact second

theorem forM {items : List β} {body : β → StateT σ (Except ε) PUnit} (each : ∀ item, Preserves view (body item)) :
    Preserves view (items.forM body) := by
  induction items with
  | nil => exact pure PUnit.unit
  | cons item _ ih => exact bind (each item) fun _ => ih

end Preserves

-- A program is taken apart by the rules above, never by running it.
attribute [irreducible] Ends

end Xv6.Data
