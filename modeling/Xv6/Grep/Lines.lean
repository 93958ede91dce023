import Xv6.Grep.Matcher

namespace Xv6.Grep

open List Option

/-! The loop of grep over its buffer, which is its text; every turn stores the terminator behind it. The newlines that a
terminator replaced for the matcher are before every later pointer. -/

def strchr (s : List UInt8) (c : UInt8) : Option Nat :=
  match s with
  | [] => none
  | t :: s => if t = 0 then none else if t = c then some 0 else (strchr s c).map (· + 1)

/-- The loop over the newlines: the bytes it writes, and what `p` points at after it. -/
def lineLoop (fuel : Nat) (pattern p : List UInt8) : Option (List UInt8 × List UInt8) :=
  match fuel with
  | 0 => none
  | fuel + 1 =>
    match strchr p 10 with
    | none => some ([], p)
    | some q => do
      let found ← matchRe fuel pattern (p.take q)
      let (written, p') ← lineLoop fuel pattern (p.drop (q + 1))
      some ((if found then p.take (q + 1) else []) ++ written, p')

/-- What grep writes when the calls of read return the chunks, with `carried` at the start of the buffer. -/
def grep (fuel : Nat) (pattern carried : List UInt8) : List (List UInt8) → Option (List UInt8)
  | [] => some []
  | chunk :: chunks => do
    let buf := carried ++ chunk
    let (written, p) ← lineLoop fuel pattern buf
    let m := if p.length = buf.length then 0 else buf.length
    let later ← grep fuel pattern (if m > 0 then p else []) chunks
    some (written ++ later)

/-! ## The lines of a text -/

/-- The lines that end in the text, without their newlines; the first one began with `carry`. -/
def lines (carry : List UInt8) : List UInt8 → List (List UInt8)
  | [] => []
  | c :: s => if c = 10 then carry :: lines [] s else lines (carry ++ [c]) s

/-- What stands behind the last newline. -/
def unended (carry : List UInt8) : List UInt8 → List UInt8
  | [] => carry
  | c :: s => if c = 10 then unended [] s else unended (carry ++ [c]) s

open Classical in
/-- The lines that match, with their newlines. -/
noncomputable def printed (pattern : List UInt8) (found : List (List UInt8)) : List UInt8 :=
  (found.filter (Accepts pattern)).flatMap (· ++ [10])

/-- What the loop carries on: nothing when the chunk had no newline. -/
def kept (carried chunk : List UInt8) : List UInt8 := if 10 ∈ chunk then unended carried chunk else []

/-- Every read returns something, and no more than it was asked for. -/
def Reads (carried : List UInt8) : List (List UInt8) → Prop
  | [] => True
  | chunk :: chunks => chunk ≠ [] ∧ chunk.length ≤ 1024 - carried.length - 1 ∧ Reads (kept carried chunk) chunks

section

variable {carry s : List UInt8}

theorem lines_append (carry s later : List UInt8) :
    lines carry (s ++ later) = lines carry s ++ lines (unended carry s) later ∧
      unended carry (s ++ later) = unended (unended carry s) later := by
  induction s generalizing carry with
  | nil => exact ⟨rfl, rfl⟩
  | cons c s ih =>
    simp only [List.cons_append, lines, unended]
    split
    · exact ⟨by rw [(ih []).1]; rfl, (ih []).2⟩
    · exact ih _

theorem lines_of_not_mem (none : 10 ∉ s) : lines carry s = [] ∧ unended carry s = carry ++ s := by
  induction s generalizing carry with
  | nil => simp [lines, unended]
  | cons c s ih =>
    rw [List.mem_cons, not_or] at none
    simp only [lines, unended, if_neg (Ne.symm none.1)]
    simpa using @ih (carry ++ [c]) none.2

theorem not_mem_unended (clean : 10 ∉ carry) : 10 ∉ unended carry s := by
  induction s generalizing carry with
  | nil => exact clean
  | cons c s ih =>
    simp only [unended]
    split
    · exact ih (by simp)
    · rename_i other
      exact ih (by simp [clean, Ne.symm other])

theorem unended_suffix (carry s : List UInt8) : unended carry s <:+ carry ++ s := by
  induction s generalizing carry with
  | nil => simp [unended]
  | cons c s ih =>
    simp only [unended]
    split
    · exact (ih []).trans ⟨carry ++ [c], by simp⟩
    · simpa using ih (carry ++ [c])

theorem lines_buffer (clean : 10 ∉ carry) :
    lines [] (carry ++ s) = lines carry s ∧ unended [] (carry ++ s) = unended carry s := by
  have front := @lines_of_not_mem [] carry clean
  rw [(lines_append [] carry s).1, (lines_append [] carry s).2, front.1, front.2]
  simp

theorem printed_cons (pattern line : List UInt8) (found : List (List UInt8)) [Decidable (Accepts pattern line)] :
    printed pattern (line :: found) = (if Accepts pattern line then line ++ [10] else []) ++ printed pattern found := by
  unfold printed
  by_cases accepts : Accepts pattern line
  · simp [accepts]
  · simp [accepts]

end

/-! ## The loops -/

theorem strchr_newline {s : List UInt8} (clean : 0 ∉ s) : strchr s 10 = none ∧ 10 ∉ s ∨
    ∃ line later, s = line ++ 10 :: later ∧ 10 ∉ line ∧ strchr s 10 = some line.length := by
  induction s with
  | nil => exact .inl ⟨rfl, by simp⟩
  | cons c s ih =>
    rw [List.mem_cons, not_or] at clean
    simp only [strchr, if_neg (Ne.symm clean.1)]
    by_cases newline : c = 10
    · exact .inr ⟨[], s, by simp [newline], by simp, by simp [newline]⟩
    · rw [if_neg newline]
      rcases ih clean.2 with ⟨none, absent⟩ | ⟨line, later, rfl, absent, found⟩
      · exact .inl ⟨by simp [none], by simp [absent, Ne.symm newline]⟩
      · exact .inr ⟨c :: line, later, rfl, by simp [absent, Ne.symm newline], by simp [found]⟩

theorem lineLoop_prints {pattern : List UInt8} (cleanPattern : 0 ∉ pattern) (fuel : Nat) (p : List UInt8) (clean : 0 ∉ p)
    (enough : pattern.length + p.length + 1 < fuel) :
    lineLoop fuel pattern p = some (printed pattern (lines [] p), unended [] p) := by
  classical
  induction fuel generalizing p with
  | zero => omega
  | succ fuel ih =>
    simp only [lineLoop]
    rcases strchr_newline clean with ⟨none, absent⟩ | ⟨line, later, rfl, absent, found⟩
    · simp [none, lines_of_not_mem absent, printed]
    · rw [List.mem_append, List.mem_cons, not_or, not_or] at clean
      rw [List.length_append, List.length_cons] at enough
      obtain ⟨result, matched, accepts⟩ := matchRe_decides cleanPattern clean.1
        (show pattern.length + line.length + 1 < fuel by omega)
      have ended := lines_append [] line (10 :: later)
      rw [(lines_of_not_mem absent).1, (lines_of_not_mem absent).2] at ended
      simp only [List.nil_append, lines, unended, if_true] at ended
      have next : (line ++ 10 :: later).drop (line.length + 1) = later := by simp
      have shown : (line ++ 10 :: later).take (line.length + 1) = line ++ [10] := by simp [List.take_append]
      simp only [found, List.take_left, matched, next, shown, ih later clean.2.2 (by omega), ended, printed_cons, accepts,
        Option.bind_eq_bind, Option.bind_some]

/-- The lines the loop sees, which begin where the loop forgot what it had. -/
def seen (carried : List UInt8) : List (List UInt8) → List (List UInt8)
  | [] => []
  | chunk :: chunks => lines carried chunk ++ seen (kept carried chunk) chunks

theorem grep_prints {fuel : Nat} {pattern : List UInt8} (cleanPattern : 0 ∉ pattern) (enough : pattern.length + 1025 < fuel)
    {chunks : List (List UInt8)} {carried : List UInt8} (reads : Reads carried chunks) (few : carried.length ≤ 1023)
    (clean : 0 ∉ carried ∧ 10 ∉ carried) (cleanChunks : 0 ∉ chunks.flatten) :
    grep fuel pattern carried chunks = some (printed pattern (seen carried chunks)) := by
  induction chunks generalizing carried with
  | nil => simp [grep, seen, printed]
  | cons chunk chunks ih =>
    obtain ⟨_, fits, later⟩ := reads
    rw [List.flatten_cons, List.mem_append, not_or] at cleanChunks
    have cleanBuf : 0 ∉ carried ++ chunk := by simp [clean.1, cleanChunks.1]
    have loop := lineLoop_prints cleanPattern fuel (carried ++ chunk) cleanBuf (by
      rw [List.length_append]
      omega)
    have suffix' := unended_suffix carried chunk
    rw [(lines_buffer clean.2).1, (lines_buffer clean.2).2] at loop
    have keeps : (if (if (unended carried chunk).length = (carried ++ chunk).length then 0 else (carried ++ chunk).length) > 0 then
        unended carried chunk else []) = kept carried chunk := by
      unfold kept
      by_cases newline : 10 ∈ chunk
      · have shorter : (unended carried chunk).length ≠ (carried ++ chunk).length := fun same =>
          not_mem_unended clean.2 (suffix'.eq_of_length same ▸ List.mem_append_right carried newline)
        rw [if_neg shorter, if_pos newline, if_pos (List.length_pos_of_mem (List.mem_append_right carried newline))]
      · simp [newline, lines_of_not_mem newline]
    have part : (kept carried chunk).length ≤ 1023 ∧ 0 ∉ kept carried chunk ∧ 10 ∉ kept carried chunk := by
      unfold kept
      split
      · refine ⟨?_, fun zero => cleanBuf (suffix'.mem zero), not_mem_unended clean.2⟩
        have := suffix'.length_le
        rw [List.length_append] at this
        omega
      · simp
    simp only [grep, loop, Option.bind_eq_bind, Option.bind_some, keeps, ih later part.1 part.2 cleanChunks.2, seen, printed,
      List.filter_append, List.flatMap_append]

/-! ## How the input arrives -/

/-- The bytes of lines with their newlines. -/
def size (found : List (List UInt8)) : Nat := (found.flatMap (· ++ [10])).length

theorem size_append (found later : List (List UInt8)) : size (found ++ later) = size found + size later := by
  simp [size]

theorem printed_nil (found : List (List UInt8)) : (printed [] found).length = size found := by
  have all (line : List UInt8) : Accepts [] line := ⟨line, List.suffix_rfl, .nil line⟩
  simp [printed, size, all]

section

variable {carried s : List UInt8} {chunks : List (List UInt8)}

theorem size_lines (carry : List UInt8) (newline : 10 ∈ s) : size (lines carry s) = carry.length + size (lines [] s) := by
  induction s generalizing carry with
  | nil => simp at newline
  | cons c s ih =>
    by_cases same : c = 10
    · simp [lines, same, size]
    · have later : 10 ∈ s := by simpa [Ne.symm same] using newline
      simp only [lines, if_neg same]
      rw [ih (carry ++ [c]) later, ih ([] ++ [c]) later]
      simp only [List.length_append, List.length_nil]
      omega

/-- A chunk that is dropped is missing from the line that ends in a later one. -/
theorem size_kept (chunk : List UInt8) : size (lines (kept carried chunk) s) ≤ size (lines (unended carried chunk) s) ∧
    (size (lines (kept carried chunk) s) = size (lines (unended carried chunk) s) → chunk ≠ [] → 10 ∈ s → 10 ∈ chunk) := by
  unfold kept
  by_cases newline : 10 ∈ chunk
  · simp [newline]
  · rw [if_neg newline, (lines_of_not_mem newline).2]
    by_cases there : 10 ∈ s
    · rw [size_lines (carried ++ chunk) there, List.length_append]
      refine ⟨by omega, fun same nonempty => ?_⟩
      have := List.length_pos_iff.mpr nonempty
      omega
    · simp [lines_of_not_mem there, there]

/-- A chunk without a newline comes before none with one. -/
def Ending (chunks : List (List UInt8)) : Prop := chunks.Pairwise fun first second => 10 ∈ second → 10 ∈ first

theorem seen_of_ending (ending : Ending chunks) : seen carried chunks = lines carried chunks.flatten := by
  induction chunks generalizing carried with
  | nil => rfl
  | cons chunk chunks ih =>
    obtain ⟨head, tail⟩ := List.pairwise_cons.mp ending
    rw [seen, List.flatten_cons, (lines_append carried chunk _).1, ih tail, kept]
    by_cases newline : 10 ∈ chunk
    · rw [if_pos newline]
    · have absent : 10 ∉ chunks.flatten := by
        simp only [List.mem_flatten, not_exists, not_and]
        exact fun later member there => newline (head later member there)
      rw [(lines_of_not_mem absent).1, (lines_of_not_mem absent).1]

theorem size_seen (reads : Reads carried chunks) : size (seen carried chunks) ≤ size (lines carried chunks.flatten) ∧
    (size (seen carried chunks) = size (lines carried chunks.flatten) → Ending chunks) := by
  induction chunks generalizing carried with
  | nil => exact ⟨Nat.le_refl _, fun _ => .nil⟩
  | cons chunk chunks ih =>
    obtain ⟨nonempty, -, later⟩ := reads
    obtain ⟨less, ending⟩ := ih later
    obtain ⟨fewer, newline⟩ := @size_kept carried chunks.flatten chunk
    rw [seen, List.flatten_cons, (lines_append carried chunk _).1, size_append, size_append]
    refine ⟨by omega, fun same => List.pairwise_cons.mpr ⟨fun next member there => ?_, ending (by omega)⟩⟩
    exact newline (by omega) nonempty (List.mem_flatten.mpr ⟨next, member, there⟩)

end

/-- grep finds, whatever the pattern, exactly the lines of the input that match when no read without a newline comes
before one with a newline. -/
theorem grep_prints_lines_iff {chunks : List (List UInt8)} (reads : Reads [] chunks) (clean : 0 ∉ chunks.flatten) :
    (∀ (pattern : List UInt8) (fuel : Nat), 0 ∉ pattern → pattern.length + 1025 < fuel →
      grep fuel pattern [] chunks = some (printed pattern (lines [] chunks.flatten))) ↔ Ending chunks := by
  constructor
  · intro exact'
    have whole := exact' [] 1026 (by simp) (by decide)
    rw [grep_prints (by simp) (by decide) reads (by simp) (by simp) clean, Option.some.injEq] at whole
    refine (size_seen reads).2 ?_
    rw [← printed_nil, ← printed_nil, whole]
  · intro ending pattern fuel cleanPattern enough
    rw [grep_prints cleanPattern enough reads (by simp) (by simp) clean, seen_of_ending ending]

/-- Two lines in two reads, the first with the start of the second line. -/
theorem grep_prints_lines_iff_straddling : let chunks : List (List UInt8) := [[97, 10, 98], [99, 10]]
    Reads [] chunks ∧ grep 1030 [98] [] chunks = some [98, 99, 10] ∧
    ((∀ (pattern : List UInt8) (fuel : Nat), 0 ∉ pattern → pattern.length + 1025 < fuel →
      grep fuel pattern [] chunks = some (printed pattern (lines [] chunks.flatten))) ↔ Ending chunks) := by
  have reads : Reads [] [[97, 10, 98], [99, 10]] := by simp [Reads, kept, unended]
  exact ⟨reads, by decide +kernel, grep_prints_lines_iff reads (by decide)⟩

/-- The line `ab`, which matches the pattern `ab` and arrives in two reads, is not printed. -/
theorem grep_drops_carried_text : Reads [] [[97], [98, 10]] ∧ grep 1030 [97, 98] [] [[97], [98, 10]] = some [] ∧
    printed [97, 98] (lines [] [97, 98, 10]) = [97, 98, 10] := by
  refine ⟨by simp [Reads, kept], by decide +kernel, ?_⟩
  have accepts : Accepts [97, 98] [97, 98] := ⟨_, List.suffix_rfl, .char (.char (.nil []))⟩
  simp [lines, printed, accepts]

end Xv6.Grep
