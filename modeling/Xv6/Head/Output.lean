import Mathlib.Data.List.Basic

namespace Xv6.Head

open List

/-! head. The counter `l` stays at most `n`, so that it does not overflow. -/

/-- The text "_stdin". -/
def STDIN : List UInt8 := [95, 115, 116, 100, 105, 110]

/-- `printf(1, "==> %s <==\n", fn)` -/
def header (fn : List UInt8) : List UInt8 := [61, 61, 62, 32] ++ fn ++ [32, 60, 61, 61, 10]

/-- The for loop over the buffer: what it prints, and `l` after it. -/
def forLoop (n moden : Int) : Int → List UInt8 → List UInt8 × Int
  | l, [] => ([], l)
  | l, c :: buf =>
    if l < n then
      let (out, l) := forLoop n moden (if c = 10 ∧ moden ≠ 2 then l + 1 else if moden = 2 then l + 1 else l) buf
      (c :: out, l)
    else ([], l)

/-- What ends head: its return, or a call of error_head. -/
inductive Exit where
  | returned | cannotOpen | readError
deriving DecidableEq, Repr

/-- The while loop, for the results of read; none is -1, and no more results are 0. -/
def whileLoop (n moden : Int) : Int → List (Option (List UInt8)) → List UInt8 × Exit
  | _, [] => ([], .returned)
  | _, none :: _ => ([], .readError)
  | l, some buf :: reads =>
    if buf ≠ [] ∧ l < n then
      let (out, l) := forLoop n moden l buf
      let (more, exit) := whileLoop n moden l reads
      (out ++ more, exit)
    else ([], .returned)

/-- What head prints; `opened` is the result of open. -/
def head (fn : List UInt8) (n mode moden opened : Int) (reads : List (Option (List UInt8))) : List UInt8 × Exit :=
  let fd := if fn = STDIN then 0 else opened
  if fd < 0 then ([], .cannotOpen)
  else
    let (out, exit) := whileLoop n moden 0 reads
    ((if mode = 2 then header fn else []) ++ out, exit)

/-- The shortest beginning of the input with `k` newlines, or all of it. -/
structure FirstLines (k : Nat) (input out : List UInt8) : Prop where
  part : out <+: input
  lines : out.count 10 = k ∧ (∀ shorter, shorter <+: input → shorter.length < out.length → shorter.count 10 < k) ∨
    input.count 10 < k ∧ out = input

variable {n moden l : Int} {k : Nat} {c : UInt8} {buf input out : List UInt8}

theorem forLoop_stop (done : ¬ l < n) : forLoop n moden l buf = ([], l) := by
  cases buf with
  | nil => rfl
  | cons => rw [forLoop, if_neg done]

theorem forLoop_append (rest : List UInt8) : (forLoop n moden l (buf ++ rest)).1 =
    (forLoop n moden l buf).1 ++ (forLoop n moden (forLoop n moden l buf).2 rest).1 := by
  induction buf generalizing l with
  | nil => rfl
  | cons c buf ih =>
    by_cases more : l < n
    · simp only [cons_append, forLoop, if_pos more, ih]
    · rw [forLoop_stop more, forLoop_stop more, forLoop_stop more, nil_append]

/-- How read splits the input makes no difference. -/
theorem whileLoop_chunks {chunks : List (List UInt8)} (full : ∀ chunk ∈ chunks, chunk ≠ []) :
    whileLoop n moden l (chunks.map some) = ((forLoop n moden l chunks.flatten).1, .returned) := by
  induction chunks generalizing l with
  | nil => rfl
  | cons chunk chunks ih =>
    have later := fun l => @ih l fun chunk listed => full chunk (mem_cons_of_mem _ listed)
    by_cases more : l < n
    · simp only [map_cons, whileLoop, if_pos (And.intro (full chunk mem_cons_self) more), later,
        flatten_cons, forLoop_append]
    · rw [map_cons, whileLoop, if_neg fun both => more both.2, forLoop_stop more]

theorem forLoop_bytes : (forLoop n 2 l buf).1 = buf.take (n - l).toNat := by
  induction buf generalizing l with
  | nil => rw [take_nil]; rfl
  | cons c buf ih =>
    by_cases more : l < n
    · have one : (n - l).toNat = (n - (l + 1)).toNat + 1 := by omega
      simp [forLoop, more, ih, one]
    · rw [forLoop_stop more, show (n - l).toNat = 0 by omega, take_zero]

theorem firstLines_nil : FirstLines k [] [] := by
  refine ⟨⟨[], rfl⟩, ?_⟩
  obtain _ | k := k
  · exact .inl ⟨rfl, fun _ _ less => absurd less (Nat.not_lt_zero _)⟩
  · exact .inr ⟨k.succ_pos, rfl⟩

theorem firstLines_zero : FirstLines 0 input [] :=
  ⟨⟨input, rfl⟩, .inl ⟨rfl, fun _ _ less => absurd less (Nat.not_lt_zero _)⟩⟩

theorem FirstLines.cons {more : Nat} (first : FirstLines k input out) (one : more = k + if c == 10 then 1 else 0)
    (positive : 0 < more) : FirstLines more (c :: input) (c :: out) := by
  refine ⟨cons_prefix_cons.mpr ⟨rfl, first.part⟩, ?_⟩
  rw [count_cons, count_cons, one]
  rcases first.lines with ⟨all, least⟩ | ⟨few, whole⟩
  · refine .inl ⟨by rw [all], fun shorter part less => ?_⟩
    cases shorter with
    | nil => exact one ▸ positive
    | cons d shorter =>
      obtain ⟨rfl, rest⟩ := cons_prefix_cons.mp part
      rw [count_cons]
      exact Nat.add_lt_add_right (least shorter rest (Nat.lt_of_succ_lt_succ less)) _
  · exact .inr ⟨Nat.add_lt_add_right few _, by rw [whole]⟩

theorem forLoop_lines (lines : moden ≠ 2) (low : l ≤ n) : FirstLines (n - l).toNat buf (forLoop n moden l buf).1 := by
  induction buf generalizing l with
  | nil => exact firstLines_nil
  | cons c buf ih =>
    by_cases more : l < n
    · simp only [forLoop, if_pos more, lines, ne_eq, not_false_eq_true, and_true, if_false]
      have positive : 0 < (n - l).toNat := by omega
      by_cases newline : c = 10
      · rw [if_pos newline]
        exact (ih (by omega)).cons (by simp [newline]; omega) positive
      · rw [if_neg newline]
        exact (ih low).cons (by simp [newline]) positive
    · rw [forLoop_stop more, show (n - l).toNat = 0 by omega]
      exact firstLines_zero

/-- head returns after it has printed its header and the beginning of the input. -/
def PrintsRequested (fn : List UInt8) (n mode moden opened : Int) (chunks : List (List UInt8)) : Prop :=
  ∃ out, head fn n mode moden opened (chunks.map some) = ((if mode = 2 then header fn else []) ++ out, .returned) ∧
    if moden = 2 then out = chunks.flatten.take (min n.toNat chunks.flatten.length) else FirstLines n.toNat chunks.flatten out

theorem head_prints_requested (fn : List UInt8) (n mode moden opened : Int) (chunks : List (List UInt8)) (positive : 0 ≤ n)
    (opens : fn = STDIN ∨ 0 ≤ opened) (full : ∀ chunk ∈ chunks, chunk ≠ []) : PrintsRequested fn n mode moden opened chunks := by
  have fd : ¬ (if fn = STDIN then 0 else opened) < 0 := by
    split
    · decide
    · rename_i other
      exact Int.not_lt.mpr (opens.resolve_left other)
  refine ⟨(forLoop n moden 0 chunks.flatten).1, ?_, ?_⟩
  · simp only [head, if_neg fd, whileLoop_chunks full]
  · split
    · rename_i bytes
      rw [bytes, forLoop_bytes, Int.sub_zero, ← take_take, take_length]
    · rename_i lines
      simpa using @forLoop_lines n moden 0 chunks.flatten lines positive

theorem head_prints_requested_twoReads : head STDIN 1 0 1 0 [some [97, 10], some [98]] = ([97, 10], .returned) ∧
    PrintsRequested STDIN 1 0 1 0 [[97, 10], [98]] :=
  ⟨by decide, head_prints_requested STDIN 1 0 1 0 [[97, 10], [98]] (by decide) (.inl rfl) (by simp)⟩

end Xv6.Head
