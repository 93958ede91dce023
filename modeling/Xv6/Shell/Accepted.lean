import Xv6.Shell.Commands

namespace Xv6.Shell

open Data List Nat

variable {text : List Char} {s fuel : Nat} {toks : List Token} {cmd : Cmd} {t : Tree} (clean : NUL ∉ text)

/-! Soundness: what a function accepts, the grammar derives. A function that does
not return panics: fuel that covers the rest of the line is enough, and no store
is outside its array. -/

def Panics (stop : Stop) : Prop := ∃ message, stop = .panic message

section

include clean

theorem parseredirs_sound (here : At text s toks) (enough : text.length - s < fuel) (holds : Holds text cmd t) :
    Ends (parseredirs text fuel cmd) s (fun cmd' after => ∃ (list : List Redir) (rest : List Token),
      toks = list.flatMap Redir.tokens ++ rest ∧ Holds text cmd' (wrap list t) ∧ At text after rest ∧ s ≤ after) Panics := by
  induction fuel generalizing s toks cmd t with
  | zero => omega
  | succ _ ih =>
    by_cases found : leads ['<', '>'] toks
    · obtain ⟨direction, rest, rfl⟩ := leads_redir.mp found
      by_cases named : ∃ word others, rest = .word word :: others
      · obtain ⟨word, others, rfl⟩ := named
        refine parseredirs_redir clean here fun q eq after span here moved => ?_
        have turn := ih here (here.room moved enough) (.redir direction.mode direction.fd holds span)
        refine turn.returns fun cmd' after' done => ?_
        obtain ⟨list, rest, rfl, holds, here, _⟩ := done
        exact ⟨⟨direction, word⟩ :: list, rest, rfl, holds, here, by omega⟩
      · refine parseredirs_missing clean here (fun word others same => named ⟨word, others, same⟩) ⟨_, rfl⟩
    · exact parseredirs_done clean here found fun after here moved => ⟨[], toks, rfl, holds, here, moved⟩

theorem parseargs_sound {items : List Item} (here : At text s toks) (enough : text.length - s < fuel)
    (holds : Holds text cmd (simple items)) (few : (words items).length < MAXARGS) :
    Ends (parseargs text fuel (words items).length cmd) s (fun result after => ∃ (more : List Item) (rest : List Token),
      toks = more.flatMap Item.tokens ++ rest ∧ result.1 = (words (items ++ more)).length ∧
      (words (items ++ more)).length < MAXARGS ∧ Holds text result.2 (simple (items ++ more)) ∧
      At text after rest ∧ s ≤ after) Panics := by
  induction fuel generalizing s toks cmd items with
  | zero => omega
  | succ _ ih =>
    by_cases closes : Closes toks
    · refine parseargs_done clean here closes fun after here moved => ?_
      refine ⟨[], toks, rfl, ?_⟩
      rw [append_nil]
      exact ⟨rfl, few, holds, here, moved⟩
    · obtain ⟨first, rest, rfl⟩ : ∃ first rest, toks = first :: rest := by
        cases toks with
        | nil => exact absurd (fun _ none => nomatch none) closes
        | cons first rest => exact ⟨first, rest, rfl⟩
      by_cases named : ∃ word, first = .word word
      · obtain ⟨word, rfl⟩ := named
        refine parseargs_word clean here holds (fun _ => ⟨_, rfl⟩) fun room cmd after holds here moved => ?_
        refine (parseredirs_sound clean here (here.room moved enough) holds).returns fun cmd after done => ?_
        obtain ⟨list, rest, rfl, holds, here, _⟩ := done
        rw [← simple_redirs, append_assoc] at holds
        have count := length_words_turn items word list
        have turn := ih here (here.room (by omega) enough) holds (by omega)
        rw [count] at turn
        refine turn.returns fun result after done => ?_
        obtain ⟨more, rest, rfl, argc, few, holds, here, _⟩ := done
        rw [append_assoc] at argc few holds
        refine ⟨[.word word] ++ list.map .redir ++ more, rest, ?_, argc, few, holds, here, by omega⟩
        rw [flatMap_append, flatMap_append, tokens_redirs]
        simp [Item.tokens]
      · exact parseargs_other clean here (fun word same => named ⟨word, same⟩) closes ⟨_, rfl⟩

end

theorem exists_amps (toks : List Token) : ∃ n rest, toks = replicate n .amp ++ rest ∧ ¬ leads ['&'] rest := by
  induction toks with
  | nil => exact ⟨0, [], rfl, by simp [leads]⟩
  | cons first toks ih =>
    by_cases amp : first = .amp
    · obtain ⟨n, rest, rfl, stops⟩ := ih
      exact ⟨n + 1, rest, by rw [amp]; rfl, stops⟩
    · refine ⟨0, first :: toks, rfl, fun found => amp ?_⟩
      obtain ⟨_, same⟩ := (leads_symbol .amp (by decide)).mp found
      exact (cons.inj same).1

def Category.parser (text : List Char) : Category → Nat → Parser Cmd
  | .line => parseline text
  | .pipe => parsepipe text
  | .exec => parseexec text

/-- The fuel that covers the rest of a line: a function calls itself again only after it
read a token, at most four calls deep. -/
def Category.depth (text : List Char) (s : Nat) : Category → Nat
  | .line => 4 * (text.length - s) + 4
  | .pipe => 4 * (text.length - s) + 3
  | .exec => 4 * (text.length - s) + 2

open Category (depth)

/-- What a function accepted, of the tokens that were left. -/
def Accepts (text : List Char) (category : Category) (s : Nat) (toks : List Token) (cmd : Cmd) (after : Nat) : Prop :=
  ∃ ts rest t, toks = ts ++ rest ∧ Derives category ts t ∧ Holds text cmd t ∧ At text after rest ∧ s ≤ after

section

variable (calls : ∀ less < fuel, ∀ category s toks, At text s toks → category.depth text s ≤ less →
  Ends (category.parser text less) s (Accepts text category s toks) Panics)
include clean calls

theorem parseline_sound (here : At text s toks) (enough : Category.line.depth text s ≤ fuel) :
    Ends (parseline text fuel) s (Accepts text .line s toks) Panics := by
  simp only [depth] at enough
  obtain _ | fuel := fuel
  · omega
  rw [parseline]
  have piped := calls fuel (lt_succ_self fuel) .pipe s toks here (by simp only [depth]; omega)
  refine .bind (piped.returns fun cmd after accepted => ?_)
  obtain ⟨ts, rest, t, rfl, derives, holds, here, _⟩ := accepted
  obtain ⟨n, rest, rfl, stops⟩ := exists_amps rest
  refine .bind ((parsebacks_at clean here stops (by omega) holds).returns fun cmd after done => ?_)
  obtain ⟨holds, here, _⟩ := done
  refine symbol_then .semi (by decide) clean here (fun rest after same left read => ?_) fun _ after here looked => ?_
  · subst same
    have inside := left.inside
    have listed := calls fuel (lt_succ_self fuel) .line after rest left (by simp only [depth]; omega)
    refine .bind (listed.returns fun right after accepted => .pure ?_)
    obtain ⟨us, rest, u, rfl, derives', holds', here, _⟩ := accepted
    exact ⟨ts ++ replicate n .amp ++ .semi :: us, rest, _, by simp, .list n derives derives', .list holds holds', here, by omega⟩
  · exact .pure ⟨ts ++ replicate n .amp, rest, _, by simp, .line n derives, holds, here, by omega⟩

theorem parsepipe_sound (here : At text s toks) (enough : Category.pipe.depth text s ≤ fuel) :
    Ends (parsepipe text fuel) s (Accepts text .pipe s toks) Panics := by
  simp only [depth] at enough
  obtain _ | fuel := fuel
  · omega
  rw [parsepipe]
  have first := calls fuel (lt_succ_self fuel) .exec s toks here (by simp only [depth]; omega)
  refine .bind (first.returns fun cmd after accepted => ?_)
  obtain ⟨ts, rest, t, rfl, derives, holds, here, _⟩ := accepted
  refine symbol_then .bar (by decide) clean here (fun rest after same left read => ?_) fun _ after here looked => ?_
  · subst same
    have inside := left.inside
    have piped := calls fuel (lt_succ_self fuel) .pipe after rest left (by simp only [depth]; omega)
    refine .bind (piped.returns fun right after accepted => .pure ?_)
    obtain ⟨us, rest, u, rfl, derives', holds', here, _⟩ := accepted
    exact ⟨ts ++ .bar :: us, rest, _, by simp, .pipe derives derives', .pipe holds holds', here, by omega⟩
  · exact .pure ⟨ts, rest, t, rfl, .exec derives, holds, here, by omega⟩

theorem parseblock_sound {rest : List Token} (here : At text s (.leftParen :: rest)) (enough : 4 * (text.length - s) + 1 ≤ fuel) :
    Ends (parseblock text fuel) s (Accepts text .exec s (.leftParen :: rest)) Panics := by
  obtain _ | fuel := fuel
  · omega
  rw [parseblock]
  refine symbol_then .leftParen (by decide) clean here (fun _ after same here opened => ?_) fun absent => absurd rfl absent
  obtain rfl := (cons.inj same).2
  have inside := here.inside
  have nested := calls fuel (lt_succ_self fuel) .line after rest here (by simp only [depth]; omega)
  refine .bind (nested.returns fun cmd after accepted => ?_)
  obtain ⟨ts, rest, t, rfl, derives, holds, here, _⟩ := accepted
  refine symbol_then .rightParen (by decide) clean here (fun rest after same left closed => ?_) fun _ _ _ _ => .throw ⟨_, rfl⟩
  subst same
  refine (parseredirs_sound clean left (by omega) holds).returns fun cmd after done => ?_
  obtain ⟨list, rest, rfl, holds, here, _⟩ := done
  exact ⟨_, rest, _, by simp, .block list derives, holds, here, by omega⟩

theorem parseexec_sound (here : At text s toks) (enough : Category.exec.depth text s ≤ fuel) :
    Ends (parseexec text fuel) s (Accepts text .exec s toks) Panics := by
  simp only [depth] at enough
  obtain _ | fuel := fuel
  · omega
  rw [parseexec]
  refine peek_then clean here (by decide) fun after here looked => ?_
  split
  · rename_i found
    obtain ⟨rest, rfl⟩ := (leads_symbol .leftParen (by decide)).mp found
    have block : Ends (parseblock text fuel) after (Accepts text .exec after (.leftParen :: rest)) Panics :=
      parseblock_sound clean (fun less below => calls less (by omega)) here (by omega)
    refine block.returns fun cmd after' accepted => ?_
    obtain ⟨ts, rest, t, same, derives, holds, here, moved⟩ := accepted
    exact ⟨ts, rest, t, same, derives, holds, here, by omega⟩
  · refine .bind ((parseredirs_sound clean here (by omega) holds_execcmd).returns fun cmd after done => ?_)
    obtain ⟨list, rest, rfl, holds, here, _⟩ := done
    have initial : wrap list (.exec []) = simple (list.map .redir) := (simple_redirs [] list).symm
    rw [initial] at holds
    have unnamed : (words (list.map .redir)).length = 0 := by rw [words_redirs]; rfl
    have enough : text.length - after < fuel := by omega
    have args := parseargs_sound clean here enough holds (by rw [unnamed]; decide)
    rw [unnamed] at args
    refine .bind (args.returns fun result after done => ?_)
    obtain ⟨_, _⟩ := result
    obtain ⟨more, rest, rfl, rfl, _, holds, here, _⟩ := done
    refine (holds.store_null (args_simple _)).returns fun cmd after' stored => ?_
    obtain ⟨rfl, holds⟩ := stored
    refine ⟨_, rest, _, ?_, .simple (list.map Item.redir ++ more) (by omega), holds, here, by omega⟩
    rw [flatMap_append, tokens_redirs, append_assoc]

end

include clean in
theorem parser_sound (category : Category) (here : At text s toks) (enough : category.depth text s ≤ fuel) :
    Ends (category.parser text fuel) s (Accepts text category s toks) Panics := by
  induction fuel using Nat.strongRecOn generalizing category s toks with
  | ind fuel ih =>
    have calls : ∀ less < fuel, ∀ category s toks, At text s toks → category.depth text s ≤ less →
        Ends (category.parser text less) s (Accepts text category s toks) Panics :=
      fun less below category s toks here enough => ih less below category here enough
    cases category with
    | line => exact parseline_sound clean calls here enough
    | pipe => exact parsepipe_sound clean calls here enough
    | exec => exact parseexec_sound clean calls here enough

end Xv6.Shell
