import Mathlib.Data.List.Forall2
import Xv6.Shell.Lexer

namespace Xv6.Shell

open Data Function List

/-! The command that is being built stands for a tree, whose words are words of
the line. -/

inductive Holds (text : List Char) : Cmd → Tree → Prop
  | exec {argv eargv : Fin MAXARGS → Option Nat} {spans : List (Nat × Nat)} {args : List (List Char)}
      (each : List.Forall₂ (fun span word => Span text span.1 span.2 word) spans args)
      (starts : ∀ i, argv i = spans[i.val]?.map Prod.fst) (ends : ∀ i, eargv i = spans[i.val]?.map Prod.snd)
      (room : spans.length < MAXARGS) : Holds text (.exec argv eargv) (.exec args)
  | redir {cmd t file efile name} (mode fd : Nat) : Holds text cmd t → Span text file efile name →
      Holds text (.redir cmd file efile mode fd) (.redir t name mode fd)
  | pipe {left right t u} : Holds text left t → Holds text right u → Holds text (.pipe left right) (.pipe t u)
  | list {left right t u} : Holds text left t → Holds text right u → Holds text (.list left right) (.list t u)
  | back {cmd t} : Holds text cmd t → Holds text (.back cmd) (.back t)

variable {text : List Char} {s fuel : Nat} {toks : List Token} {cmd : Cmd} {t : Tree}
    {argv : Fin MAXARGS → Option Nat} {entry : Nat × Nat → Nat} {spans : List (Nat × Nat)}

theorem holds_execcmd : Holds text execcmd (.exec []) :=
  .exec .nil (fun _ => rfl) (fun _ => rfl) (by decide)

/-- The words of the command under the redirections. -/
def Tree.args : Tree → Option (List (List Char))
  | .exec args => some args
  | .redir cmd _ _ _ => cmd.args
  | _ => none

/-- One more word for the command under the redirections. -/
def Tree.addWord (word : List Char) : Tree → Tree
  | .exec args => .exec (args ++ [word])
  | .redir cmd file mode fd => .redir (cmd.addWord word) file mode fd
  | cmd => cmd

theorem update_push
    (values : ∀ i, argv i = spans[i.val]?.map entry) (inside : spans.length < MAXARGS) (span : Nat × Nat) (i : Fin MAXARGS) :
    update argv ⟨spans.length, inside⟩ (some (entry span)) i = (spans ++ [span])[i.val]?.map entry := by
  by_cases last : i = ⟨spans.length, inside⟩
  · subst last
    simp
  · have other : i.val ≠ spans.length := fun same => last (Fin.ext same)
    rw [update_of_ne last, values i, List.getElem?_append]
    split
    · rfl
    · rw [List.getElem?_eq_none (by omega), List.getElem?_eq_none (by simp; omega)]

theorem update_null (values : ∀ i, argv i = spans[i.val]?.map entry) (inside : spans.length < MAXARGS) :
    update argv ⟨spans.length, inside⟩ none = argv := by
  rw [Function.update_eq_self_iff, values]
  simp

theorem Holds.store {fails : Stop → Prop} {args : List (List Char)} {word : List Char} {q eq : Nat}
    (holds : Holds text cmd t) (simple : t.args = some args) (span : Span text q eq word) :
    Ends (cmd.store args.length (some q) (some eq)) s (fun cmd' after => after = s ∧
      (args.length + 1 < MAXARGS → Holds text cmd' (t.addWord word))) fails := by
  induction holds with
  | @exec argv eargv spans args' each starts ends room =>
    cases simple
    have count := each.length_eq
    simp only [← count, Cmd.store, dif_pos room]
    refine .pure ⟨rfl, fun more => ?_⟩
    refine .exec (List.rel_append each (.cons span .nil)) (update_push starts room (q, eq)) (update_push ends room (q, eq)) ?_
    rwa [length_append]
  | redir mode fd _ file ih =>
    rw [Cmd.store]
    refine .bind ((ih simple).returns fun cmd' after done => .pure ⟨done.1, fun more => ?_⟩)
    exact .redir mode fd (done.2 more) file
  | pipe | list | back => cases simple

theorem Holds.store_null {fails : Stop → Prop} {args : List (List Char)} (holds : Holds text cmd t)
    (simple : t.args = some args) :
    Ends (cmd.store args.length none none) s (fun cmd' after => after = s ∧ Holds text cmd' t) fails := by
  induction holds with
  | @exec argv eargv spans args' each starts ends room =>
    cases simple
    have count := each.length_eq
    simp only [← count, Cmd.store, dif_pos room, update_null starts, update_null ends]
    exact .pure ⟨rfl, .exec each starts ends room⟩
  | redir mode fd _ file ih =>
    rw [Cmd.store]
    exact .bind ((ih simple).returns fun cmd' after done => .pure ⟨done.1, .redir mode fd done.2 file⟩)
  | pipe | list | back => cases simple

/-! The tree of a simple command, item by item. -/

def simple (items : List Item) : Tree := wrap (redirs items) (.exec (words items))

theorem wrap_append (first second : List Redir) (t : Tree) : wrap (first ++ second) t = wrap second (wrap first t) := foldl_append

theorem args_wrap (list : List Redir) (t : Tree) : (wrap list t).args = t.args := by
  induction list generalizing t with
  | nil => rfl
  | cons _ _ ih => exact ih _

theorem addWord_wrap (list : List Redir) (t : Tree) (word : List Char) :
    (wrap list t).addWord word = wrap list (t.addWord word) := by
  induction list generalizing t with
  | nil => rfl
  | cons _ _ ih => exact ih _

theorem args_simple (items : List Item) : (simple items).args = some (words items) := by
  rw [simple, args_wrap]
  rfl

theorem simple_word (items : List Item) (word : List Char) : simple (items ++ [.word word]) = (simple items).addWord word := by
  rw [simple, simple, addWord_wrap]
  simp [words, redirs, Tree.addWord]

theorem words_redirs (list : List Redir) : words (list.map .redir) = [] := by
  induction list with
  | nil => rfl
  | cons _ _ ih => exact ih

theorem redirs_redirs (list : List Redir) : redirs (list.map .redir) = list := by
  induction list with
  | nil => rfl
  | cons redir _ ih => exact congrArg (redir :: ·) ih

theorem words_append (first second : List Item) : words (first ++ second) = words first ++ words second := filterMap_append

theorem simple_redirs (items : List Item) (list : List Redir) : simple (items ++ list.map .redir) = wrap list (simple items) := by
  have collected : redirs (items ++ list.map .redir) = redirs items ++ list := by
    rw [redirs, filterMap_append, ← redirs, ← redirs, redirs_redirs]
  rw [simple, collected, words_append, words_redirs, append_nil, wrap_append, simple]

theorem length_words_turn (items : List Item) (word : List Char) (list : List Redir) :
    (words (items ++ ([.word word] ++ list.map .redir))).length = (words items).length + 1 := by
  rw [words_append, words_append, words_redirs, append_nil, length_append]
  rfl

theorem tokens_redirs (list : List Redir) : (list.map Item.redir).flatMap Item.tokens = list.flatMap Redir.tokens := by
  rw [flatMap_map]
  rfl

/-! What one turn of each loop does, by the tokens that are left. -/

section

variable {post : Cmd → Nat → Prop} {fails : Stop → Prop} {rest : List Token} {word : List Char} (clean : NUL ∉ text)
    {direction : Direction}
include clean

theorem parseredirs_redir (here : At text s (direction.token :: .word word :: rest))
    (next : ∀ q eq after, Span text q eq word → At text after rest → s < after →
      Ends (parseredirs text fuel (.redir cmd q eq direction.mode direction.fd)) after post fails) :
    Ends (parseredirs text (fuel + 1) cmd) s post fails := by
  rw [parseredirs]
  refine peek_then clean here (by decide) fun after here moved => ?_
  rw [leads_redir.mpr ⟨direction, _, rfl⟩, if_pos rfl]
  refine gettoken_then clean here fun _ _ after here moved' _ => ?_
  refine gettoken_then clean here fun q eq after here moved'' span => ?_
  have result := next q eq after (span word rfl) here (by omega)
  cases direction <;> exact result

theorem parseredirs_missing (here : At text s (direction.token :: rest))
    (missing : ∀ word others, rest ≠ .word word :: others) (panics : fails (.panic "missing file for redirection")) :
    Ends (parseredirs text (fuel + 1) cmd) s post fails := by
  rw [parseredirs]
  refine peek_then clean here (by decide) fun after here moved => ?_
  rw [leads_redir.mpr ⟨direction, _, rfl⟩, if_pos rfl]
  refine gettoken_then clean here fun _ _ after here moved' _ => ?_
  cases rest with
  | nil => exact gettoken_end clean here fun _ _ _ _ _ => .throw panics
  | cons first others =>
    refine gettoken_then clean here fun q eq after here moved'' span => ?_
    have other : first.code ≠ 'a' := fun kind => by
      obtain ⟨word, rfl⟩ := code_eq_word kind
      exact missing word others rfl
    simp only [if_pos other]
    exact .throw panics

theorem parseredirs_done (here : At text s toks) (stops : ¬ leads ['<', '>'] toks)
    (next : ∀ after, At text after toks → s ≤ after → post cmd after) : Ends (parseredirs text (fuel + 1) cmd) s post fails := by
  rw [parseredirs]
  refine peek_then clean here (by decide) fun after here moved => ?_
  rw [if_neg stops]
  exact .pure (next after here moved)

theorem parsebacks_at {n : Nat} (here : At text s (replicate n .amp ++ rest)) (stops : ¬ leads ['&'] rest)
    (enough : text.length - s < fuel) (holds : Holds text cmd t) : Ends (parsebacks text fuel cmd) s (fun cmd' after =>
      Holds text cmd' (Tree.back^[n] t) ∧ At text after rest ∧ s ≤ after) fails := by
  induction fuel generalizing n s cmd t with
  | zero => omega
  | succ _ ih =>
    rw [parsebacks]
    cases n with
    | zero =>
      refine symbol_then .amp (by decide) clean here (fun _ _ same => ?_) fun _ after here moved => .pure ⟨holds, here, moved⟩
      exact absurd ((leads_symbol .amp (by decide)).mpr ⟨_, same⟩) stops
    | succ n =>
      refine symbol_then .amp (by decide) clean here (fun _ after same here moved => ?_) fun absent => absurd rfl absent
      obtain rfl := (cons.inj same).2
      exact (ih here (here.room moved enough) (.back holds)).returns fun _ _ done => ⟨done.1, done.2.1, by omega⟩

end

/-- The tokens after which a simple command ends. -/
def Closes (toks : List Token) : Prop := ∀ first ∈ toks.head?, first ∈ [.bar, .rightParen, .amp, .semi]

theorem leads_closes {first : Token} {rest : List Token} :
    leads ['|', ')', '&', ';'] (first :: rest) ↔ Closes (first :: rest) := by
  cases first <;> simp [leads, Closes, Token.lead, Token.code]

variable {post : Nat × Cmd → Nat → Prop} {fails : Stop → Prop} {rest : List Token} {items : List Item} (clean : NUL ∉ text)
    {argc : Nat}
include clean

theorem parseargs_done (here : At text s toks) (closes : Closes toks)
    (next : ∀ after, At text after toks → s ≤ after → post (argc, cmd) after) :
    Ends (parseargs text (fuel + 1) argc cmd) s post fails := by
  rw [parseargs]
  refine peek_then clean here (by decide) fun after here moved => ?_
  cases toks with
  | nil =>
    exact gettoken_end clean here fun _ _ after here moved' => .pure (next after here (by omega))
  | cons =>
    rw [if_pos (leads_closes.mpr closes)]
    exact .pure (next after here moved)

theorem parseargs_word {word : List Char} (here : At text s (.word word :: rest)) (holds : Holds text cmd (simple items))
    (panics : MAXARGS ≤ (words items).length + 1 → fails (.panic "too many args"))
    (next : (words items).length + 1 < MAXARGS → ∀ cmd after, Holds text cmd (simple (items ++ [.word word])) →
      At text after rest → s < after → Ends (parseredirs text fuel cmd) after (fun cmd after =>
        Ends (parseargs text fuel ((words items).length + 1) cmd) after post fails) fails) :
    Ends (parseargs text (fuel + 1) (words items).length cmd) s post fails := by
  rw [parseargs]
  refine peek_then clean here (by decide) fun after here moved => ?_
  rw [if_neg (by simp [leads, Token.lead])]
  refine gettoken_then clean here fun q eq after here moved' span => ?_
  refine .bind ((holds.store (args_simple items) (span word rfl)).returns fun cmd' after' stored => ?_)
  obtain ⟨rfl, stored⟩ := stored
  rcases Nat.lt_or_ge ((words items).length + 1) MAXARGS with few | many
  · rw [if_neg (by omega)]
    refine .bind (next few cmd' after' ?_ here (by omega))
    rw [simple_word]
    exact stored few
  · rw [if_pos (by omega)]
    exact .throw (panics many)

theorem parseargs_other {first : Token} (here : At text s (first :: rest))
    (other : ∀ word, first ≠ .word word) (goes : ¬ Closes (first :: rest)) (panics : fails (.panic "syntax")) :
    Ends (parseargs text (fuel + 1) argc cmd) s post fails := by
  rw [parseargs]
  refine peek_then clean here (by decide) fun after here moved => ?_
  rw [if_neg fun found => goes (leads_closes.mp found)]
  refine gettoken_then clean here fun q eq after here moved' span => ?_
  have kind : first.code ≠ 'a' := fun kind => by
    obtain ⟨word, rfl⟩ := code_eq_word kind
    exact other word rfl
  simp only [if_neg (code_ne_NUL first), if_pos kind]
  exact .throw panics

end Xv6.Shell
