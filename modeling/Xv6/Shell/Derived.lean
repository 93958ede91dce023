import Xv6.Shell.Accepted

namespace Xv6.Shell

open Data List
open Category (depth)

variable {text : List Char} {s fuel : Nat} {cmd : Cmd} {t : Tree} {rest : List Token} (clean : NUL ∉ text)
    {category : Category}

/-! Completeness: what the grammar derives, in front of a token that may follow
it, the functions accept. -/

def Never (_ : Stop) : Prop := False

/-- What may follow a category in a line. -/
def Category.follow : Category → List Token
  | .line => [.rightParen]
  | .pipe => [.rightParen, .amp, .semi]
  | .exec => [.bar, .rightParen, .amp, .semi]

def Follows (category : Category) (rest : List Token) : Prop := ∀ first ∈ rest.head?, first ∈ category.follow

theorem Follows.cons {first : Token} (listed : first ∈ category.follow) :
    Follows category (first :: rest) := fun _ same => Option.some.inj same ▸ listed

theorem Follows.not_leads (follows : Follows category rest) (token : Token)
    (single : token ∈ [.bar, .amp, .semi, .leftParen, .rightParen]) (unlisted : token ∉ category.follow) :
    ¬ leads [token.code] rest := fun found => by
  obtain ⟨_, rfl⟩ := (leads_symbol token single).mp found
  exact unlisted (follows token rfl)

theorem Closes.not_leads_redir (closes : Closes rest) : ¬ leads ['<', '>'] rest := fun found => by
  obtain ⟨direction, _, rfl⟩ := leads_redir.mp found
  have listed := closes _ rfl
  cases direction <;> simp [Direction.token] at listed

section

include clean

theorem parseredirs_complete (list : List Redir) (here : At text s (list.flatMap Redir.tokens ++ rest))
    (stops : ¬ leads ['<', '>'] rest) (enough : text.length - s < fuel) (holds : Holds text cmd t) :
    Ends (parseredirs text fuel cmd) s (fun cmd' after =>
      Holds text cmd' (wrap list t) ∧ At text after rest ∧ s ≤ after) Never := by
  induction list generalizing s cmd t fuel with
  | nil =>
    obtain _ | fuel := fuel
    · omega
    exact parseredirs_done clean here stops fun after here moved => ⟨holds, here, moved⟩
  | cons redir _ ih =>
    obtain _ | fuel := fuel
    · omega
    obtain ⟨direction, _⟩ := redir
    refine parseredirs_redir clean here fun q eq after span here moved => ?_
    have turn := ih here (here.room moved enough) (.redir direction.mode direction.fd holds span)
    exact turn.returns fun cmd' after' done => ⟨done.1, done.2.1, by omega⟩

end

theorem exists_redirs (items : List Item) : ∃ (list : List Redir) (more : List Item), items = list.map .redir ++ more ∧
      ∀ redir, more.head? ≠ some (.redir redir) := by
  induction items with
  | nil => exact ⟨[], [], rfl, by simp⟩
  | cons item items ih =>
    cases item with
    | word text => exact ⟨[], .word text :: items, rfl, by simp⟩
    | redir redir =>
      obtain ⟨list, more, rfl, first⟩ := ih
      exact ⟨redir :: list, more, rfl, first⟩

theorem not_leads_items {more : List Item} (closes : Closes rest) (first : ∀ redir, more.head? ≠ some (.redir redir)) :
    ¬ leads ['<', '>'] (more.flatMap Item.tokens ++ rest) := by
  cases more with
  | nil => exact closes.not_leads_redir
  | cons item =>
    cases item with
    | word => simp [Item.tokens, leads, Token.lead]
    | redir redir => exact absurd rfl (first redir)

include clean in
theorem parseargs_complete (more : List Item) {items : List Item}
    (here : At text s (more.flatMap Item.tokens ++ rest)) (closes : Closes rest)
    (first : ∀ redir, more.head? ≠ some (.redir redir)) (few : (words (items ++ more)).length < MAXARGS)
    (enough : text.length - s < fuel) (holds : Holds text cmd (simple items)) :
    Ends (parseargs text fuel (words items).length cmd) s (fun result after =>
      result.1 = (words (items ++ more)).length ∧ Holds text result.2 (simple (items ++ more)) ∧
        At text after rest ∧ s ≤ after) Never := by
  induction fuel generalizing s cmd items more with
  | zero => omega
  | succ _ ih =>
    cases more with
    | nil =>
      rw [append_nil]
      exact parseargs_done clean here closes fun after here moved => ⟨rfl, holds, here, moved⟩
    | cons item more =>
      cases item with
      | redir redir => exact absurd rfl (first redir)
      | word word =>
        obtain ⟨list, more, rfl, led⟩ := exists_redirs more
        have count := length_words_turn items word list
        have shape : items ++ .word word :: (list.map .redir ++ more) =
            items ++ ([.word word] ++ list.map .redir) ++ more := by simp
        rw [shape] at few ⊢
        have room : (words items).length + 1 < MAXARGS := by
          rw [words_append, length_append] at few
          omega
        rw [flatMap_cons, flatMap_append, tokens_redirs, append_assoc, append_assoc] at here
        refine parseargs_word clean here holds (fun many => absurd room (Nat.not_lt.mpr many)) fun _ cmd after holds here moved => ?_
        have redirected := parseredirs_complete clean list here (not_leads_items closes led) (here.room moved enough) holds
        refine redirected.returns fun cmd after done => ?_
        obtain ⟨holds, here, _⟩ := done
        rw [← simple_redirs, append_assoc] at holds
        have turn := ih more here led few (here.room (by omega) enough) holds
        rw [count] at turn
        exact turn.returns fun result after done => ⟨done.1, done.2.1, done.2.2.1, by omega⟩

/-- A function accepts a tree and leaves what follows it. -/
def Completes (text : List Char) (category : Category) (ts : List Token) (t : Tree) : Prop :=
  ∀ {s fuel rest}, At text s (ts ++ rest) → Follows category rest → category.depth text s ≤ fuel →
    Ends (category.parser text fuel) s (fun cmd after => Holds text cmd t ∧ At text after rest ∧ s ≤ after) Never

section

variable {ts us : List Token} {u : Tree}
include clean

theorem Completes.backs {post : Cmd → Nat → Prop} {body : Cmd → Parser Cmd} (n : Nat)
    (first : Completes text .pipe ts t) (here : At text s (ts ++ (List.replicate n .amp ++ rest)))
    (follows : Follows .pipe rest) (stops : ¬ leads ['&'] rest) (enough : Category.pipe.depth text s ≤ fuel)
    (next : ∀ cmd after, Holds text cmd (Tree.back^[n] t) → At text after rest → s ≤ after → Ends (body cmd) after post Never) :
    Ends (parsepipe text fuel >>= fun cmd => parsebacks text fuel cmd >>= body) s post Never := by
  have led : Follows .pipe (replicate n .amp ++ rest) := by
    cases n with
    | zero => exact follows
    | succ => exact .cons (by decide)
  refine .bind ((first here led enough).returns fun cmd after done => ?_)
  obtain ⟨holds, here, _⟩ := done
  simp only [depth] at enough
  refine .bind ((parsebacks_at clean here stops (by omega) holds).returns fun cmd after done => ?_)
  exact next cmd after done.1 done.2.1 (by omega)

theorem Completes.line (n : Nat) (first : Completes text .pipe ts t) :
    Completes text .line (ts ++ List.replicate n .amp) (Tree.back^[n] t) := by
  intro s fuel rest here follows enough
  simp only [depth] at enough
  obtain _ | fuel := fuel
  · omega
  change Ends (parseline text (fuel + 1)) s _ Never
  rw [parseline]
  rw [append_assoc] at here
  have led : Follows .pipe rest :=
    fun token same => List.mem_cons.mpr (.inl (List.mem_singleton.mp (follows token same)))
  refine first.backs clean n here led (follows.not_leads .amp (by decide) (by decide))
    (by simp only [depth]; omega) fun cmd after holds here moved => ?_
  refine peek_then clean here (by decide) fun after here looked => ?_
  have ended : ¬ leads [';'] rest := follows.not_leads .semi (by decide) (by decide)
  rw [if_neg ended]
  exact .pure ⟨holds, here, by omega⟩

theorem Completes.list (n : Nat) (first : Completes text .pipe ts t) (second : Completes text .line us u) :
    Completes text .line (ts ++ List.replicate n .amp ++ .semi :: us) (.list (Tree.back^[n] t) u) := by
  intro s fuel rest here follows enough
  simp only [depth] at enough
  obtain _ | fuel := fuel
  · omega
  change Ends (parseline text (fuel + 1)) s _ Never
  rw [parseline]
  rw [append_assoc, append_assoc, cons_append] at here
  refine first.backs clean n here (.cons (by decide)) (by simp [leads, Token.lead, Token.code])
    (by simp only [depth]; omega) fun cmd after holds here moved => ?_
  refine symbol_then .semi (by decide) clean here (fun _ after same here read => ?_) fun absent => absurd rfl absent
  obtain rfl := (cons.inj same).2
  have inside := here.inside
  refine .bind ((second here follows (by simp only [depth]; omega)).returns fun right after done => .pure ?_)
  exact ⟨.list holds done.1, done.2.1, by omega⟩

theorem Completes.exec (first : Completes text .exec ts t) : Completes text .pipe ts t := by
  intro s fuel rest here follows enough
  simp only [depth] at enough
  obtain _ | fuel := fuel
  · omega
  change Ends (parsepipe text (fuel + 1)) s _ Never
  rw [parsepipe]
  have led : Follows .exec rest := fun token same => mem_cons_of_mem _ (follows token same)
  refine .bind ((first here led (by simp only [depth]; omega)).returns fun cmd after done => ?_)
  obtain ⟨holds, here, _⟩ := done
  refine peek_then clean here (by decide) fun after here looked => ?_
  have ended : ¬ leads ['|'] rest := follows.not_leads .bar (by decide) (by decide)
  rw [if_neg ended]
  exact .pure ⟨holds, here, by omega⟩

theorem Completes.pipe (first : Completes text .exec ts t) (second : Completes text .pipe us u) :
    Completes text .pipe (ts ++ .bar :: us) (.pipe t u) := by
  intro s fuel rest here follows enough
  simp only [depth] at enough
  obtain _ | fuel := fuel
  · omega
  change Ends (parsepipe text (fuel + 1)) s _ Never
  rw [parsepipe]
  rw [append_assoc, cons_append] at here
  have led : Follows .exec (.bar :: (us ++ rest)) := .cons (by decide)
  refine .bind ((first here led (by simp only [depth]; omega)).returns fun cmd after done => ?_)
  obtain ⟨holds, here, _⟩ := done
  refine symbol_then .bar (by decide) clean here (fun _ after same here read => ?_) fun absent => absurd rfl absent
  obtain rfl := (cons.inj same).2
  have inside := here.inside
  refine .bind ((second here follows (by simp only [depth]; omega)).returns fun right after done => .pure ?_)
  exact ⟨.pipe holds done.1, done.2.1, by omega⟩

theorem Completes.block (list : List Redir) (nested : Completes text .line ts t) :
    Completes text .exec (.leftParen :: ts ++ .rightParen :: list.flatMap Redir.tokens) (wrap list t) := by
  intro s fuel rest here follows enough
  simp only [depth] at enough
  obtain ⟨fuel, rfl⟩ : ∃ less, fuel = less + 2 := ⟨fuel - 2, by omega⟩
  change Ends (parseexec text (fuel + 2)) s _ Never
  rw [parseexec]
  rw [cons_append, cons_append, append_assoc, cons_append] at here
  refine peek_then clean here (by decide) fun after here looked => ?_
  rw [if_pos (show leads ['('] (.leftParen :: _) = true from rfl), parseblock]
  refine symbol_then .leftParen (by decide) clean here (fun _ after same here opened => ?_) fun absent => absurd rfl absent
  obtain rfl := (cons.inj same).2
  have inside := here.inside
  have led : Follows .line (.rightParen :: (list.flatMap Redir.tokens ++ rest)) := .cons (by decide)
  refine .bind ((nested here led (by simp only [depth]; omega)).returns fun cmd after done => ?_)
  obtain ⟨holds, here, _⟩ := done
  refine symbol_then .rightParen (by decide) clean here (fun _ after same here closed => ?_) fun absent => absurd rfl absent
  obtain rfl := (cons.inj same).2
  have closes : Closes rest := follows
  refine (parseredirs_complete clean list here closes.not_leads_redir (by omega) holds).returns fun cmd after done => ?_
  exact ⟨done.1, done.2.1, by omega⟩

theorem Completes.simple (items : List Item) (few : (words items).length ≤ MAXARGS - 1) :
    Completes text .exec (items.flatMap Item.tokens) (Shell.simple items) := by
  intro s fuel rest here follows enough
  simp only [depth] at enough
  obtain _ | fuel := fuel
  · omega
  change Ends (parseexec text (fuel + 1)) s _ Never
  rw [parseexec]
  have closes : Closes rest := follows
  refine peek_then clean here (by decide) fun after here looked => ?_
  have plain : ¬ leads ['('] (items.flatMap Item.tokens ++ rest) := by
    rcases items with _ | ⟨word | ⟨direction, file⟩, items⟩
    · exact follows.not_leads .leftParen (by decide) (by decide)
    · simp [Item.tokens, leads, Token.lead]
    · cases direction <;> simp [Item.tokens, Redir.tokens, Direction.token, leads, Token.lead, Token.code]
  rw [if_neg plain]
  obtain ⟨list, more, rfl, led⟩ := exists_redirs items
  rw [flatMap_append, tokens_redirs, append_assoc] at here
  have redirected := parseredirs_complete clean list here (not_leads_items closes led)
    (show text.length - after < fuel by omega) holds_execcmd
  refine .bind (redirected.returns fun cmd after done => ?_)
  obtain ⟨holds, here, _⟩ := done
  have initial : wrap list (.exec []) = Shell.simple (list.map .redir) := (simple_redirs [] list).symm
  rw [initial] at holds
  have unnamed : (words (list.map .redir)).length = 0 := by rw [words_redirs]; rfl
  have args := parseargs_complete clean more here closes led (Nat.lt_of_le_of_lt few (by decide))
    (show text.length - after < fuel by omega) holds
  rw [unnamed] at args
  refine .bind (args.returns fun result after done => ?_)
  obtain ⟨_, _⟩ := result
  obtain ⟨rfl, holds, here, _⟩ := done
  refine (holds.store_null (args_simple _)).returns fun cmd after' stored => ?_
  obtain ⟨rfl, holds⟩ := stored
  exact ⟨holds, here, by omega⟩

end

include clean in
theorem parser_complete {ts : List Token} (derives : Derives category ts t) :
    Completes text category ts t := by
  induction derives with
  | line n _ first => exact Completes.line clean n first
  | list n _ _ first second => exact Completes.list clean n first second
  | exec _ first => exact Completes.exec clean first
  | pipe _ _ first second => exact Completes.pipe clean first second
  | block list _ nested => exact Completes.block clean list nested
  | simple items few => exact Completes.simple clean items few

end Xv6.Shell
