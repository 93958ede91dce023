import Mathlib.Data.List.Infix

namespace Xv6.Grep

open List Option

/-! The matcher of grep. A pointer into a string is what is left of the string, so
that the terminator stands behind the last character; no value of a function is a
read behind the terminator, or no fuel. -/

def byte (s : List UInt8) (i : Nat) : Option UInt8 :=
  if i < s.length then s[i]? else if i = s.length then some 0 else none

mutual

def matchhere (fuel : Nat) (re text : List UInt8) : Option Bool :=
  match fuel with
  | 0 => none
  | fuel + 1 => do
    let c ← byte re 0
    if c = 0 then some true
    else do
      let d ← byte re 1
      if d = 42 then matchstar fuel c (re.drop 2) text
      else if c = 36 ∧ d = 0 then do
        let t ← byte text 0
        some (t == 0)
      else do
        let t ← byte text 0
        if t ≠ 0 ∧ (c = 46 ∨ c = t) then matchhere fuel (re.drop 1) (text.drop 1) else some false

def matchstar (fuel : Nat) (c : UInt8) (re text : List UInt8) : Option Bool :=
  match fuel with
  | 0 => none
  | fuel + 1 => do
    if ← matchhere fuel re text then some true
    else do
      let t ← byte text 0
      if t ≠ 0 ∧ (t = c ∨ c = 46) then matchstar fuel c re (text.drop 1) else some false

end

def matchLoop (fuel : Nat) (re text : List UInt8) : Option Bool :=
  match fuel with
  | 0 => none
  | fuel + 1 => do
    if ← matchhere fuel re text then some true
    else do
      let t ← byte text 0
      if t ≠ 0 then matchLoop fuel re (text.drop 1) else some false

def matchRe (fuel : Nat) (re text : List UInt8) : Option Bool := do
  let c ← byte re 0
  if c = 94 then matchhere fuel (re.drop 1) text else matchLoop fuel re text

/-! ## The pattern language -/

inductive Item where
  | star (c : UInt8)
  | last
  | any
  | char (c : UInt8)
deriving DecidableEq, Repr

/-- A character that no `*` follows and that is not the `$` at the end. -/
def Item.of (c : UInt8) : Item := if c = 46 then .any else .char c

def items : List UInt8 → List Item
  | [] => []
  | [c] => if c = 36 then [.last] else [.of c]
  | c :: d :: re => if d = 42 then .star c :: items re else .of c :: items (d :: re)

/-- The items match a prefix of the text. -/
inductive Matched : List Item → List UInt8 → Prop where
  | nil (text) : Matched [] text
  | star {c run rest text} (same : ∀ t ∈ run, c = 46 ∨ t = c) (matched : Matched rest text) :
      Matched (.star c :: rest) (run ++ text)
  | last {rest} (matched : Matched rest []) : Matched (.last :: rest) []
  | any {t rest text} (matched : Matched rest text) : Matched (.any :: rest) (t :: text)
  | char {c rest text} (matched : Matched rest text) : Matched (.char c :: rest) (c :: text)

def Accepts (re text : List UInt8) : Prop :=
  match re with
  | 94 :: re => Matched (items re) text
  | _ => ∃ suffix, suffix <:+ text ∧ Matched (items re) suffix

section

variable {c : UInt8} {rest : List Item} {text : List UInt8}

theorem matched_of : Matched (.of c :: rest) text ↔ ∃ t tail, text = t :: tail ∧ (c = 46 ∨ c = t) ∧ Matched rest tail := by
  unfold Item.of
  split
  · rename_i dot
    constructor
    · rintro ⟨⟩
      exact ⟨_, _, rfl, .inl dot, ‹_›⟩
    · rintro ⟨t, tail, rfl, -, matched⟩
      exact .any matched
  · rename_i dot
    constructor
    · rintro ⟨⟩
      exact ⟨_, _, rfl, .inr rfl, ‹_›⟩
    · rintro ⟨t, _, rfl, dot' | rfl, matched⟩
      · exact absurd dot' dot
      · exact .char matched

theorem matched_star : Matched (.star c :: rest) text ↔
    Matched rest text ∨ ∃ t tail, text = t :: tail ∧ (t = c ∨ c = 46) ∧ Matched (.star c :: rest) tail := by
  constructor
  · rintro (_ | @⟨_, run, _, text, same, matched⟩)
    cases run with
    | nil => exact .inl matched
    | cons t run =>
      refine .inr ⟨t, run ++ text, rfl, (same t (by simp)).symm, .star (fun u member => same u (by simp [member])) matched⟩
  · rintro (matched | ⟨t, tail, rfl, this, _ | @⟨_, run, _, text, same, matched⟩⟩)
    · exact @Matched.star _ [] _ _ (by simp) matched
    · refine @Matched.star _ (t :: run) _ _ (fun u member => ?_) matched
      rcases List.mem_cons.mp member with rfl | later
      · exact this.symm
      · exact same u later

theorem matched_last : Matched [.last] text ↔ text = [] := by
  constructor
  · rintro ⟨⟩
    rfl
  · rintro rfl
    exact .last (.nil _)

end

/-! ## The matcher decides it -/

/-- A result, which says whether `accepted` holds. -/
def Decides (result : Option Bool) (accepted : Prop) : Prop := ∃ found, result = some found ∧ (found = true ↔ accepted)

variable {re text : List UInt8} {c : UInt8} {fuel : Nat}

theorem byte_nil : byte [] 0 = some 0 := rfl

theorem byte_cons_zero : byte (c :: text) 0 = some c := rfl

theorem byte_cons_succ (i : Nat) : byte (c :: text) (i + 1) = byte text i := by
  simp [byte]

theorem Decides.or {first again : Option Bool} {accepted other : Prop} (one : Decides first accepted) (two : Decides again other) :
    Decides (do if ← first then some true else again) (accepted ∨ other) := by
  obtain ⟨found, rfl, iff⟩ := one
  obtain ⟨found', rfl, iff'⟩ := two
  rw [← iff, ← iff']
  cases found
  · exact ⟨found', rfl, by simp⟩
  · exact ⟨true, rfl, by simp⟩

theorem Decides.no {accepted : Prop} (none : ¬ accepted) : Decides (some false) accepted := ⟨false, rfl, by simpa using none⟩

theorem Decides.next {next : List UInt8 → Option Bool} {accepted : List UInt8 → Prop} {test : UInt8 → Prop} [DecidablePred test]
    (clean : 0 ∉ text) (later : ∀ t tail, text = t :: tail → Decides (next tail) (accepted tail)) :
    Decides (do let t ← byte text 0; if t ≠ 0 ∧ test t then next (text.drop 1) else some false)
      (∃ t tail, text = t :: tail ∧ test t ∧ accepted tail) := by
  cases text with
  | nil => exact .no (by simp)
  | cons t tail =>
    have there : t ≠ 0 := fun zero => clean (by simp [zero])
    simp only [byte_cons_zero, bind_eq_bind, bind_some, drop_succ_cons, drop_zero, ne_eq, there, not_false_eq_true, true_and]
    by_cases same : test t
    · rw [if_pos same]
      obtain ⟨found, result, iff⟩ := later t tail rfl
      exact ⟨found, result, by simp [iff, same]⟩
    · rw [if_neg same]
      exact .no (by simp [same])

/-- The fuel counts the characters that are left, and one for each function. -/
theorem matchers_decide (fuel : Nat) : ∀ re text : List UInt8, 0 ∉ re → 0 ∉ text →
    (re.length + text.length < fuel → Decides (matchhere fuel re text) (Matched (items re) text)) ∧
    ∀ c, re.length + text.length + 1 < fuel → Decides (matchstar fuel c re text) (Matched (.star c :: items re) text) := by
  induction fuel with
  | zero => exact fun _ _ _ _ => ⟨by simp, by simp⟩
  | succ fuel ih =>
    intro re text cleanRe cleanText
    have shorter {t : UInt8} {tail : List UInt8} (split : text = t :: tail) : 0 ∉ tail ∧ tail.length + 1 = text.length := by
      subst split
      exact ⟨fun zero => cleanText (by simp [zero]), rfl⟩
    constructor
    · intro enough
      cases re with
      | nil => exact ⟨true, rfl, by simp [items, Matched.nil]⟩
      | cons c re =>
        have there : c ≠ 0 := fun zero => cleanRe (by simp [zero])
        have cleanRest : 0 ∉ re := fun zero => cleanRe (by simp [zero])
        simp only [matchhere, byte_cons_zero, byte_cons_succ, bind_eq_bind, bind_some, if_neg there]
        have one (plain : items (c :: re) = .of c :: items re) : Decides
            (do let t ← byte text 0; if t ≠ 0 ∧ (c = 46 ∨ c = t) then matchhere fuel ((c :: re).drop 1) (text.drop 1) else some false)
            (Matched (items (c :: re)) text) := by
          rw [plain, matched_of]
          refine .next cleanText fun t tail split => (ih re tail cleanRest (shorter split).1).1 ?_
          have := (shorter split).2
          simp only [length_cons] at enough
          omega
        cases re with
        | nil =>
          simp only [byte_nil, bind_some, show ¬ (0 : UInt8) = 42 by decide, if_false, and_true]
          by_cases dollar : c = 36
          · simp only [if_pos dollar, items, matched_last]
            cases text with
            | nil => exact ⟨true, rfl, by simp⟩
            | cons t tail =>
              have there : t ≠ 0 := fun zero => cleanText (by simp [zero])
              exact ⟨false, by simp [byte_cons_zero, there], by simp⟩
          · rw [if_neg dollar]
            exact one (by simp only [items, if_neg dollar])
        | cons d re =>
          have there : d ≠ 0 := fun zero => cleanRest (by simp [zero])
          simp only [byte_cons_zero, bind_some, there, and_false, if_false]
          by_cases star : d = 42
          · simp only [if_pos star, items]
            refine (ih re text (fun zero => cleanRest (by simp [zero])) cleanText).2 c ?_
            simp only [length_cons] at enough
            omega
          · rw [if_neg star]
            exact one (by simp only [items, if_neg star])
    · intro c enough
      rw [matched_star]
      refine ((ih re text cleanRe cleanText).1 (by omega)).or ?_
      refine .next cleanText fun t tail split => (ih re tail cleanRe (shorter split).1).2 c ?_
      have := (shorter split).2
      omega

theorem matchLoop_decides (fuel : Nat) (re text : List UInt8) (cleanRe : 0 ∉ re) (cleanText : 0 ∉ text)
    (enough : re.length + text.length + 1 < fuel) :
    Decides (matchLoop fuel re text) (∃ suffix, suffix <:+ text ∧ Matched (items re) suffix) := by
  induction fuel generalizing text with
  | zero => omega
  | succ fuel ih =>
    have split : (∃ suffix, suffix <:+ text ∧ Matched (items re) suffix) ↔ Matched (items re) text ∨
        ∃ t tail, text = t :: tail ∧ True ∧ ∃ suffix, suffix <:+ tail ∧ Matched (items re) suffix := by
      cases text with
      | nil => simp
      | cons t tail => simp [suffix_cons_iff, or_and_right, exists_or]
    have loop : matchLoop (fuel + 1) re text = (do
        if ← matchhere fuel re text then some true
        else do let t ← byte text 0; if t ≠ 0 ∧ True then matchLoop fuel re (text.drop 1) else some false) := by
      simp only [matchLoop, and_true]
    rw [split, loop]
    refine ((matchers_decide fuel re text cleanRe cleanText).1 (by omega)).or (.next cleanText fun t tail split => ih tail ?_ ?_)
    · exact fun zero => cleanText (by simp [split, zero])
    · simp only [split, length_cons] at enough
      omega

theorem matchRe_decides {re text : List UInt8} (cleanRe : 0 ∉ re) (cleanText : 0 ∉ text) {fuel : Nat}
    (enough : re.length + text.length + 1 < fuel) : Decides (matchRe fuel re text) (Accepts re text) := by
  cases re with
  | nil => exact matchLoop_decides fuel [] text cleanRe cleanText enough
  | cons c re =>
    simp only [matchRe, byte_cons_zero, bind_eq_bind, bind_some]
    by_cases caret : c = 94
    · subst caret
      refine (matchers_decide fuel re text (fun zero => cleanRe (by simp [zero])) cleanText).1 ?_
      simp only [length_cons] at enough
      omega
    · rw [if_neg caret]
      have floating : Accepts (c :: re) text = ∃ suffix, suffix <:+ text ∧ Matched (items (c :: re)) suffix := by
        unfold Accepts
        split
        · rename_i same
          exact absurd (cons.inj same).1 caret
        · rfl
      rw [floating]
      exact matchLoop_decides fuel (c :: re) text cleanRe cleanText enough

/-- match returns for all strings, without a read behind a terminator, and with the answer of the pattern language. -/
theorem match_decides_language {re text : List UInt8} (cleanRe : 0 ∉ re) (cleanText : 0 ∉ text) {fuel : Nat}
    (enough : re.length + text.length + 1 < fuel) :
    ∃ found, matchRe fuel re text = some found ∧ (found = true ↔ Accepts re text) :=
  matchRe_decides cleanRe cleanText enough

/-- `^*a$` finds `*a` and no more. -/
theorem match_decides_language_anchored : matchRe 10 [94, 42, 97, 36] [42, 97] = some true ∧
      ∃ found, matchRe 10 [94, 42, 97, 36] [42, 97] = some found ∧ (found = true ↔ Accepts [94, 42, 97, 36] [42, 97]) :=
  ⟨by decide, match_decides_language (by decide) (by decide) (by decide)⟩

end Xv6.Grep
