import Mathlib.Tactic.Tauto
import Xv6.Data.Program
import Xv6.Shell.Grammar

namespace Xv6.Shell

open Data List Option

variable {text : List Char} {s : Nat} {toks : List Token}

/-! What the scanner's two functions see of a line: the tokens that are left. -/

section

variable (test : Char → Bool)
include test

theorem scan_eq (more : Nat) (inside : s ≤ text.length) (room : more = text.length - s) :
    scan text test more s = s + ((text.drop s).takeWhile test).length := by
  induction more generalizing s with
  | zero =>
    have ended : s = text.length := by omega
    rw [scan, ended, drop_length]
    rfl
  | succ _ ih =>
    have before : s < text.length := by omega
    have here : char text s = text[s] := by
      rw [char, getD_eq_getElem?_getD, List.getElem?_eq_getElem before, getD_some]
    rw [scan, drop_eq_getElem_cons before, here]
    by_cases passes : test text[s]
    · rw [if_pos ⟨before, passes⟩, takeWhile_cons_of_pos passes, ih (by omega) (by omega),
        length_cons]
      omega
    · rw [if_neg fun both => passes both.2, takeWhile_cons_of_neg passes]
      rfl

theorem drop_takeWhile (line : List Char) :
    line.drop (line.takeWhile test).length = line.dropWhile test := by
  induction line with
  | nil => rfl
  | cons c _ ih =>
    by_cases passes : test c
    · rw [takeWhile_cons_of_pos passes, dropWhile_cons_of_pos passes, length_cons, drop_succ_cons, ih]
    · rw [takeWhile_cons_of_neg passes, dropWhile_cons_of_neg passes]
      rfl

theorem drop_scan (inside : s ≤ text.length) :
    text.drop (scan text test (text.length - s) s) = (text.drop s).dropWhile test := by
  rw [scan_eq test _ inside rfl, ← drop_drop, drop_takeWhile]

theorem le_scan (inside : s ≤ text.length) :
    s ≤ scan text test (text.length - s) s ∧ scan text test (text.length - s) s ≤ text.length := by
  have short := (takeWhile_sublist (l := text.drop s) test).length_le
  rw [length_drop] at short
  rw [scan_eq test _ inside rfl]
  omega

end

theorem tokens_dropWhile (line : List Char) : tokens (line.dropWhile whitespace.contains) = tokens line := by
  induction line with
  | nil => rfl
  | cons _ _ ih =>
    rw [dropWhile_cons]
    split
    · rename_i blank
      rw [ih, tokens, if_pos blank]
    · rfl

/-- The offset `s` is inside the line, and `toks` is what follows it. -/
structure At (text : List Char) (s : Nat) (toks : List Token) : Prop where
  inside : s ≤ text.length
  rest : tokens (text.drop s) = toks

theorem At.skip (here : At text s toks) : At text (skip text s) toks ∧ s ≤ skip text s := by
  have bounds := le_scan whitespace.contains here.inside
  refine ⟨⟨bounds.2, ?_⟩, bounds.1⟩
  rw [Shell.skip, drop_scan _ here.inside, tokens_dropWhile]
  exact here.rest

theorem At.line (here : At text s toks) : ∃ line, text.drop (Shell.skip text s) = line ∧ tokens line = toks ∧
      (∀ c ∈ line.head?, ¬ whitespace.contains c) ∧ char text (Shell.skip text s) = line.head?.getD NUL := by
  refine ⟨_, rfl, here.skip.1.rest, fun c first => ?_, ?_⟩
  · rw [Shell.skip, drop_scan _ here.inside] at first
    have stops := head?_dropWhile_not whitespace.contains (text.drop s)
    rw [Option.mem_def.mp first] at stops
    simpa using stops
  · rw [char, head?_drop, getD_eq_getElem?_getD]

/-- What `gettoken` returns for a token. -/
def Token.code : Token → Char
  | .word _ => 'a'
  | .less => '<'
  | .greater => '>'
  | .append => '+'
  | .bar => '|'
  | .amp => '&'
  | .semi => ';'
  | .leftParen => '('
  | .rightParen => ')'

/-- The text of a word of the line, with its two ends. -/
structure Span (text : List Char) (q e : Nat) (word : List Char) : Prop where
  bounds : q + word.length = e ∧ e ≤ text.length
  chars : (text.drop q).take word.length = word
  proper : ∀ c ∈ word, isWordChar c
  ends : ∀ c ∈ text[e]?, ¬ isWordChar c

theorem symbol_cases (c : Char) : (∃ token, symbol c = some token ∧ token.code = c ∧ (∀ word, token ≠ .word word) ∧ c ≠ '>' ∧
      (c = '|' ∨ c = '(' ∨ c = ')' ∨ c = ';' ∨ c = '&' ∨ c = '<')) ∨
    (symbol c = none ∧ ¬ (c = '|' ∨ c = '(' ∨ c = ')' ∨ c = ';' ∨ c = '&' ∨ c = '<')) := by
  unfold symbol
  split <;> simp_all [Token.code]

/-- What `gettoken` gives when `toks` are left. -/
def Gets (text : List Char) (s : Nat) (toks : List Token) (token : Char × Nat × Nat) (after : Nat) : Prop :=
  match toks with
  | [] => token.1 = NUL ∧ At text after [] ∧ s ≤ after
  | first :: rest => token.1 = first.code ∧ At text after rest ∧ s < after ∧
      ∀ word, first = .word word → Span text token.2.1 token.2.2 word

section

variable {line : List Char} {q : Nat}

theorem At.of_drop {e : Nat} (inside : e ≤ text.length) (left : text.drop e = line) : At text e (tokens line) :=
  ⟨inside, by rw [left]⟩

theorem lt_of_drop {c : Char} (left : text.drop q = c :: line) : q < text.length ∧ text.drop (q + 1) = line := by
  have before : q < text.length := by
    by_contra after
    rw [drop_eq_nil_of_le (by omega)] at left
    cases left
  rw [drop_eq_getElem_cons before] at left
  exact ⟨before, (cons.inj left).2⟩

theorem gets_symbol {token : Token} {e : Nat} (before : s < e) (inside : e ≤ text.length)
    (left : text.drop e = line) (plain : ∀ word, token ≠ .word word) :
    Gets text s (token :: tokens line) (token.code, q, e) (skip text e) := by
  have next := (At.of_drop inside left).skip
  exact ⟨rfl, next.1, Nat.lt_of_lt_of_le before next.2, fun word same => absurd same (plain word)⟩

theorem gets_word {c : Char} (before : s ≤ q) (left : text.drop q = c :: line) (proper : isWordChar c) :
    Gets text s (.word (c :: line.takeWhile isWordChar) :: tokens (line.dropWhile isWordChar))
      ('a', q, scan text isWordChar (text.length - q) q) (skip text (scan text isWordChar (text.length - q) q)) := by
  have inside := (lt_of_drop left).1
  have bounds := le_scan isWordChar (Nat.le_of_lt inside)
  have rest := drop_scan isWordChar (Nat.le_of_lt inside)
  have ends := scan_eq isWordChar _ (Nat.le_of_lt inside) rfl
  rw [left, dropWhile_cons_of_pos proper] at rest
  rw [left, takeWhile_cons_of_pos proper, length_cons] at ends
  generalize scan text isWordChar (text.length - q) q = e at *
  have next := (At.of_drop bounds.2 rest).skip
  refine ⟨rfl, next.1, by omega, fun word same => ?_⟩
  obtain rfl := Token.word.inj same
  exact {
    bounds := ⟨by rw [length_cons]; dsimp only; omega, bounds.2⟩
    chars := by
      rw [left, length_cons, take_succ_cons]
      congr 1
      have start := List.takeWhile_prefix isWordChar (l := line)
      exact (List.prefix_iff_eq_take.mp start).symm
    proper := fun d member => by
      rcases List.mem_cons.mp member with rfl | later
      · exact proper
      · exact List.all_eq_true.mp all_takeWhile d later
    ends := fun d found => by
      rw [← head?_drop, rest] at found
      have stops := head?_dropWhile_not isWordChar line
      rw [Option.mem_def.mp found] at stops
      simpa using stops }

theorem gettoken_at {fails : Stop → Prop} (clean : NUL ∉ text) (here : At text s toks) :
    Ends (gettoken text) s (Gets text s toks) fails := by
  obtain ⟨line, left, rest, sharp, first⟩ := here.line
  obtain ⟨inside, before⟩ := here.skip
  have result : gettoken text s = .ok (((classify text (skip text s)).1, skip text s,
      (classify text (skip text s)).2), skip text (classify text (skip text s)).2) := rfl
  refine .of_eq_ok result ?_
  clear result
  generalize skip text s = q at *
  cases line with
  | nil =>
    have ended : classify text q = (NUL, q) := by
      rw [classify, first]
      rfl
    have next := inside.skip
    rw [ended, ← rest, tokens]
    rw [← rest, tokens] at next
    exact ⟨rfl, next.1, Nat.le_trans before next.2⟩
  | cons c line =>
    obtain ⟨within, tail⟩ := lt_of_drop left
    have notNul : c ≠ NUL := by
      rintro rfl
      exact clean (mem_of_mem_drop (left ▸ mem_cons_self))
    have notBlank := sharp c rfl
    have here : char text q = c := first
    rw [← rest, tokens, if_neg notBlank]
    rcases symbol_cases c with ⟨token, found, code, plain, other, six⟩ | ⟨unknown, six⟩
    · have value : classify text q = (token.code, q + 1) := by
        simp only [classify, here, if_neg notNul, if_pos six, code]
      rw [value, if_neg other, found]
      exact gets_symbol (Nat.lt_succ_of_le before) within tail plain
    · by_cases greater : c = '>'
      · subst greater
        rw [if_pos rfl]
        have second : char text (q + 1) = line.head?.getD NUL := by
          rw [char, ← tail, head?_drop, getD_eq_getElem?_getD]
        by_cases double : line.head? = some '>'
        · have value : classify text q = (Token.code .append, q + 2) := by
            simp only [classify, here, if_neg notNul, if_neg six, second, double, if_true, getD_some, Token.code]
          obtain ⟨others, rfl⟩ : ∃ others, line = '>' :: others := by
            cases line with
            | nil => cases double
            | cons _ others => exact ⟨others, by rw [some.inj double]⟩
          obtain ⟨within, tail⟩ := lt_of_drop tail
          rw [value, if_pos double]
          exact gets_symbol (by omega) within tail (by simp)
        · have value : classify text q = (Token.code .greater, q + 1) := by
            have single : line.head?.getD NUL ≠ '>' := by
              cases line with
              | nil => simp [NUL]
              | cons => simpa using double
            simp only [classify, here, if_neg notNul, if_neg six, second, if_neg single, if_true, Token.code]
          rw [value, if_neg double]
          exact gets_symbol (Nat.lt_succ_of_le before) within tail (by simp)
      · have value : classify text q = ('a', scan text isWordChar (text.length - q) q) := by
          simp only [classify, here, if_neg notNul, if_neg six, if_neg greater]
        rw [value, if_neg greater, unknown]
        refine gets_word before left ?_
        have notSymbol : ¬ symbols.contains c := by
          simp only [symbols, contains_iff_mem, mem_cons, not_mem_nil, or_false]
          tauto
        simp only [isWordChar, Bool.and_eq_true, Bool.not_eq_true']
        exact ⟨by simpa using notBlank, by simpa using notSymbol⟩

end

/-- The character a symbol starts with. -/
def Token.lead : Token → Option Char
  | .word _ => none
  | .append => some '>'
  | token => some token.code

/-- Whether the next token starts with one of the symbols `set`. -/
def leads (set : List Char) (toks : List Token) : Bool :=
  match toks.head?.bind Token.lead with
  | none => false
  | some c => set.contains c

theorem leads_tokens {c : Char} {line set : List Char} (sharp : ¬ whitespace.contains c) (known : set ⊆ symbols) : leads set
    (tokens (c :: line)) = set.contains c := by
  rw [tokens, if_neg sharp]
  by_cases greater : c = '>'
  · subst greater
    rw [if_pos rfl]
    split <;> rfl
  · rw [if_neg greater]
    rcases symbol_cases c with ⟨token, found, code, plain, other, six⟩ | ⟨unknown, six⟩
    · have lead : token.lead = some c := by
        rw [← code]
        cases token with
        | word text => exact absurd rfl (plain text)
        | append =>
          rw [← code] at six
          exact absurd six (by decide)
        | _ => rfl
      rw [found]
      simp only [leads, head?_cons, bind_some, lead]
    · have unlisted : c ∉ set := fun member => by
        have member := known member
        simp only [symbols, mem_cons, not_mem_nil, or_false] at member
        tauto
      rw [unknown]
      simpa [leads, Token.lead] using unlisted

theorem peek_at {fails : Stop → Prop} (clean : NUL ∉ text) (here : At text s toks) {set : List Char} (known : set ⊆ symbols) :
    Ends (peek text set) s (fun found after => found = leads set toks ∧ At text after toks ∧ s ≤ after) fails := by
  obtain ⟨line, left, rest, sharp, first⟩ := here.line
  obtain ⟨inside, before⟩ := here.skip
  have result : peek text set s = .ok (decide (char text (skip text s) ≠ NUL ∧
      set.contains (char text (skip text s))), skip text s) := rfl
  refine .of_eq_ok result ⟨?_, inside, before⟩
  rw [first, ← rest]
  cases line with
  | nil =>
    rw [tokens]
    rfl
  | cons c =>
    have notNul : c ≠ NUL := by
      rintro rfl
      exact clean (mem_of_mem_drop (left ▸ mem_cons_self))
    rw [leads_tokens (sharp c rfl) known]
    simp [notNul]

/-! The two functions as steps of a parser. -/

section

variable {α : Type} {post : α → Nat → Prop} {fails : Stop → Prop} {body : Char × Nat × Nat → Parser α}

theorem peek_then {body : Bool → Parser α} {set : List Char} (clean : NUL ∉ text) (here : At text s toks) (known : set ⊆ symbols)
    (next : ∀ after, At text after toks → s ≤ after → Ends (body (leads set toks)) after post fails) :
    Ends (peek text set >>= body) s post fails := by
  refine .bind ((peek_at clean here known).returns fun found after looked => ?_)
  obtain ⟨rfl, here, moved⟩ := looked
  exact next after here moved

theorem gettoken_then {first : Token} {rest : List Token} (clean : NUL ∉ text)
    (here : At text s (first :: rest))
    (next : ∀ q eq after, At text after rest → s < after → (∀ word, first = .word word → Span text q eq word) →
      Ends (body (first.code, q, eq)) after post fails) : Ends (gettoken text >>= body) s post fails := by
  refine .bind ((gettoken_at clean here).returns fun token after got => ?_)
  obtain ⟨code, here, moved, span⟩ := got
  have result := next token.2.1 token.2.2 after here moved span
  rwa [← code] at result

theorem gettoken_end (clean : NUL ∉ text) (here : At text s [])
    (next : ∀ q eq after, At text after [] → s ≤ after → Ends (body (NUL, q, eq)) after post fails) :
    Ends (gettoken text >>= body) s post fails := by
  refine .bind ((gettoken_at clean here).returns fun token after got => ?_)
  obtain ⟨code, here, moved⟩ := got
  have result := next token.2.1 token.2.2 after here moved
  rwa [← code] at result

end

theorem code_ne_NUL (token : Token) : token.code ≠ NUL := by
  cases token <;> simp only [Token.code] <;> decide

theorem code_eq_word {token : Token} (kind : token.code = 'a') : ∃ word, token = .word word := by
  cases token with
  | word text => exact ⟨text, rfl⟩
  | _ => exact absurd kind (by simp [Token.code])

/-! The symbols that the parser looks for. -/

theorem leads_symbol (token : Token) (single : token ∈ [.bar, .amp, .semi, .leftParen, .rightParen]) :
    leads [token.code] toks ↔ ∃ rest, toks = token :: rest := by
  simp only [mem_cons, not_mem_nil, or_false] at single
  rcases toks with _ | ⟨first, rest⟩
  · simp [leads]
  · rcases single with rfl | rfl | rfl | rfl | rfl <;> cases first <;> simp [leads, Token.lead, Token.code]

theorem At.room {after fuel : Nat} (here : At text after toks) (moved : s < after) (enough : text.length - s < fuel + 1) :
    text.length - after < fuel := by
  have inside := here.inside
  omega

/-- A test for one symbol, which is then read. -/
theorem symbol_then {α : Type} {post : α → Nat → Prop} {fails : Stop → Prop} {body other : Parser α} (token : Token)
    (single : token ∈ [.bar, .amp, .semi, .leftParen, .rightParen]) (clean : NUL ∉ text) (here : At text s toks)
    (found : ∀ rest after, toks = token :: rest → At text after rest → s < after → Ends body after post fails)
    (absent : ¬ leads [token.code] toks → ∀ after, At text after toks → s ≤ after → Ends other after post fails) :
    Ends (peek text [token.code] >>= fun seen => if seen = true then gettoken text >>= fun _ => body else other) s post fails := by
  have known : [token.code] ⊆ symbols := by
    simp only [mem_cons, not_mem_nil, or_false] at single
    rcases single with rfl | rfl | rfl | rfl | rfl <;> decide
  refine peek_then clean here known fun after here looked => ?_
  split
  · rename_i seen
    obtain ⟨rest, rfl⟩ := (leads_symbol token single).mp seen
    exact gettoken_then clean here fun _ _ after here read _ => found rest after rfl here (by omega)
  · rename_i missing
    exact absent missing after here looked

theorem leads_redir : leads ['<', '>'] toks ↔ ∃ (direction : Direction) (rest : _), toks = direction.token :: rest := by
  constructor
  · intro found
    rcases toks with _ | ⟨_ | _, rest⟩ <;> simp [leads, Token.lead, Token.code] at found
    · exact ⟨.less, rest, rfl⟩
    · exact ⟨.greater, rest, rfl⟩
    · exact ⟨.append, rest, rfl⟩
  · rintro ⟨_ | _ | _, rest, rfl⟩ <;> rfl

end Xv6.Shell
