import Xv6.Shell.Derived

namespace Xv6.Shell

open Data List Option

variable {text mem final : List Char} {cmd : Cmd} {t : Tree} {spans : List (Nat × Nat)} {args : List (List Char)}
    {word : List Char} {fuel s : Nat} {q e : Nat}

/-! `nulterminate` writes only behind words, so that every word is the C string
at its start and no word changes. -/

/-- The words of the line are still there. -/
structure Kept (text mem : List Char) : Prop where
  length : mem.length = text.length + 1
  chars : ∀ (i : Nat) (c : Char), text[i]? = some c → isWordChar c → mem[i]? = some c

/-- Every NUL of the first is one of the second. -/
def Zeros (mem final : List Char) : Prop := ∀ i : Nat, mem[i]? = some NUL → final[i]? = some NUL

theorem Kept.poke (kept : Kept text mem) (span : Span text q e word) :
    ∃ mem', poke e mem = .ok mem' ∧ Kept text mem' ∧ Zeros mem mem' ∧ mem'[e]? = some NUL := by
  have inside : e < mem.length := by
    have bounds := span.bounds
    rw [kept.length]
    omega
  refine ⟨mem.set e NUL, by rw [Shell.poke, if_pos inside], ?_, ?_, List.getElem?_set_self inside⟩
  · refine ⟨by rw [length_set, kept.length], fun i c found proper => ?_⟩
    have other : e ≠ i := by
      rintro rfl
      exact span.ends c found proper
    rw [List.getElem?_set_ne other]
    exact kept.chars i c found proper
  · intro i zero
    by_cases same : e = i
    · subst same
      exact List.getElem?_set_self inside
    · rw [List.getElem?_set_ne same]
      exact zero

theorem cstring_of_span (clean : NUL ∉ text) (span : Span text q e word)
    (kept : Kept text final) (ended : final[e]? = some NUL) : cstring final q = word := by
  have proper (c : Char) (member : c ∈ word) : c ≠ NUL := by
    rintro rfl
    rw [← span.chars] at member
    exact clean (mem_of_mem_drop (mem_of_mem_take member))
  have same : (final.drop q).take word.length = word := by
    apply ext_getElem?
    intro i
    by_cases inside : i < word.length
    · rw [List.getElem?_take_of_lt inside, List.getElem?_drop]
      have here : text[q + i]? = word[i]? := by
        conv_rhs => rw [← span.chars]
        rw [List.getElem?_take_of_lt inside, List.getElem?_drop]
      rw [List.getElem?_eq_getElem inside] at here ⊢
      exact kept.chars _ _ here (span.proper _ (getElem_mem inside))
    · rw [List.getElem?_eq_none (by simp only [length_take]; omega), List.getElem?_eq_none (by omega)]
  have next : (final.drop q).drop word.length = NUL :: final.drop (e + 1) := by
    obtain ⟨within, value⟩ := List.getElem?_eq_some_iff.mp ended
    rw [drop_drop, span.bounds.1, drop_eq_getElem_cons within, value]
  have split : final.drop q = word ++ NUL :: final.drop (e + 1) := by
    have whole := take_append_drop word.length (final.drop q)
    rw [same, next] at whole
    exact whole.symm
  rw [cstring, split, takeWhile_append_of_pos fun c member => by simpa using proper c member]
  simp

theorem entries_eq {argv : Fin MAXARGS → Option Nat}
    (starts : ∀ i, argv i = spans[i.val]?.map Prod.fst) (room : spans.length < MAXARGS) : entries argv = spans.map Prod.fst := by
  have whole : ofFn argv =
      (spans.map Prod.fst).map some ++ replicate (MAXARGS - spans.length) none := by
    apply ext_getElem?
    intro i
    rw [List.getElem?_ofFn, List.getElem?_append, length_map, length_map]
    by_cases inside : i < spans.length
    · rw [dif_pos (by omega), if_pos inside, starts]
      simp [inside]
    · rw [if_neg inside, List.getElem?_replicate]
      split
      · rw [starts, List.getElem?_eq_none (by dsimp only; omega), if_pos (by omega)]
        rfl
      · rw [if_neg (by omega)]
  have passes (entry : Option Nat) (member : entry ∈ (spans.map Prod.fst).map some) : entry.isSome := by
    obtain ⟨_, -, rfl⟩ := List.mem_map.mp member
    rfl
  have stops (n : Nat) : (replicate n (none : Option Nat)).takeWhile isSome = [] := by
    cases n <;> rfl
  rw [entries, whole, takeWhile_append_of_pos passes, stops, append_nil]
  simp

theorem map_cstring (clean : NUL ∉ text)
    (each : List.Forall₂ (fun span word => Span text span.1 span.2 word) spans args) (kept : Kept text final)
    (ended : ∀ span ∈ spans, final[span.2]? = some NUL) : (spans.map Prod.fst).map (cstring final) = args := by
  induction each with
  | nil => rfl
  | cons span _ ih =>
    rw [map_cons, map_cons, cstring_of_span clean span kept (ended _ mem_cons_self),
      ih fun other member => ended other (mem_cons_of_mem _ member)]

theorem nulargs_spec {argv eargv : Fin MAXARGS → Option Nat}
    (each : List.Forall₂ (fun span word => Span text span.1 span.2 word) spans args)
    (starts : ∀ i, argv i = spans[i.val]?.map Prod.fst) (ends : ∀ i, eargv i = spans[i.val]?.map Prod.snd)
    (room : spans.length < MAXARGS) {more i : Nat} (count : more + i = MAXARGS + 1) (inside : i ≤ spans.length)
    (kept : Kept text mem) : ∃ mem', nulargs argv eargv more i mem = .ok mem' ∧ Kept text mem' ∧ Zeros mem mem' ∧
      ∀ span ∈ spans.drop i, mem'[span.2]? = some NUL := by
  induction more generalizing i mem with
  | zero => omega
  | succ _ ih =>
    rw [nulargs, dif_pos (by omega), starts, ends]
    rcases Nat.lt_or_ge i spans.length with before | after
    · have span : Span text spans[i].1 spans[i].2 _ := each.get before (each.length_eq ▸ before)
      obtain ⟨_, poked, kept', zeros, zero⟩ := kept.poke span
      obtain ⟨mem'', done, kept'', zeros', later⟩ := ih (by omega) before kept'
      refine ⟨mem'', ?_, kept'', fun j found => zeros' j (zeros j found), fun other member => ?_⟩
      · simp only [List.getElem?_eq_getElem before, map_some, poked]
        exact done
      · rw [drop_eq_getElem_cons before] at member
        rcases List.mem_cons.mp member with rfl | member
        · exact zeros' _ zero
        · exact later other member
    · simp only [List.getElem?_eq_none after, map_none]
      refine ⟨mem, rfl, kept, fun _ found => found, fun span member => ?_⟩
      rw [drop_eq_nil_of_le after] at member
      cases member

theorem nulterminate_spec (clean : NUL ∉ text) (holds : Holds text cmd t) (kept : Kept text mem) :
    ∃ mem', nulterminate cmd mem = .ok mem' ∧ Kept text mem' ∧ Zeros mem mem' ∧
      ∀ final, Kept text final → Zeros mem' final → cmd.read final = t := by
  induction holds generalizing mem with
  | @exec argv eargv spans args each starts ends room =>
    obtain ⟨mem', done, kept', zeros, zero⟩ := nulargs_spec each starts ends room
      (show MAXARGS + 1 + 0 = MAXARGS + 1 from rfl) (Nat.zero_le _) kept
    refine ⟨mem', done, kept', zeros, fun final kept'' later => ?_⟩
    rw [Cmd.read, entries_eq starts room, map_cstring clean each kept'' fun span member => later _ (zero span member)]
  | @redir cmd t file efile name mode fd _ span ih =>
    obtain ⟨mem', done, kept', zeros, reads⟩ := ih kept
    obtain ⟨mem'', poked, kept'', zeros', zero⟩ := kept'.poke span
    refine ⟨mem'', ?_, kept'', fun i found => zeros' i (zeros i found), fun final keptFinal later => ?_⟩
    · rw [nulterminate, done]
      exact poked
    · rw [Cmd.read, reads final keptFinal fun i found => later i (zeros' i found),
        cstring_of_span clean span keptFinal (later _ zero)]
  | pipe _ _ first second | list _ _ first second =>
    obtain ⟨mem', done, kept', zeros, reads⟩ := first kept
    obtain ⟨mem'', done', kept'', zeros', reads'⟩ := second kept'
    refine ⟨mem'', ?_, kept'', fun i found => zeros' i (zeros i found), fun final keptFinal later => ?_⟩
    · rw [nulterminate, done]
      exact done'
    · rw [Cmd.read, reads final keptFinal fun i found => later i (zeros' i found), reads' final keptFinal later]
  | back _ ih =>
    obtain ⟨mem', done, kept', zeros, reads⟩ := ih kept
    refine ⟨mem', done, kept', zeros, fun final keptFinal later => ?_⟩
    rw [Cmd.read, reads final keptFinal later]

/-! The parser as a whole. -/

theorem At.skip_end {s : Nat} (here : At text s []) : Shell.skip text s = text.length := by
  obtain ⟨line, left, rest, sharp, -⟩ := here.line
  have inside := here.skip.1.inside
  cases line with
  | nil =>
    have beyond := List.drop_eq_nil_iff.mp left
    omega
  | cons c =>
    exfalso
    rw [tokens, if_neg (sharp c rfl)] at rest
    split at rest
    · split at rest <;> cases rest
    · split at rest <;> cases rest

/-- For every line, with fuel enough: the parser returns a tree just when the
tokens of the line derive it, and panics when they derive none. The strings of the tree are read
from the line as `nulterminate` leaves it. No call runs on for ever, and no store
is outside its array. -/
theorem parsecmd_accepts_grammar (text : List Char) (clean : NUL ∉ text) : ∃ enough, ∀ fuel ≥ enough,
      (∀ tree, (∃ cmd mem, parsecmd text fuel = .ok (cmd, mem) ∧ cmd.read mem = tree) ↔ Derives .line (tokens text) tree) ∧
      ((∃ cmd mem, parsecmd text fuel = .ok (cmd, mem)) ∨ ∃ message, parsecmd text fuel = .error (.panic message)) := by
  refine ⟨4 * text.length + 4, fun fuel enough => ?_⟩
  have start : At text 0 (tokens text) := ⟨Nat.zero_le _, rfl⟩
  have depth : Category.line.depth text 0 ≤ fuel := enough
  have kept : Kept text (text ++ [NUL]) := by
    refine ⟨by simp, fun i c found _ => ?_⟩
    rw [List.getElem?_append_left (List.getElem?_eq_some_iff.mp found).1]
    exact found
  have sound := parser_sound clean .line start depth
  -- a derivation of the whole line is accepted, and leaves nothing
  have complete (tree : Tree) (derives : Derives .line (tokens text) tree) :
      ∃ cmd s, parseline text fuel 0 = .ok (cmd, s) ∧ Holds text cmd tree ∧ skip text s = text.length := by
    have whole : At text 0 (tokens text ++ []) := by rwa [append_nil]
    have accepted := parser_complete clean derives whole (fun _ none => nomatch none) depth
    obtain ⟨cmd, s, parsed, holds, here, -⟩ := accepted.exists_ok fun _ => id
    exact ⟨cmd, s, parsed, holds, here.skip_end⟩
  cases parsed : parseline text fuel 0 with
  | error =>
    obtain ⟨message, rfl⟩ := sound.of_error parsed
    have failed : parsecmd text fuel = .error (.panic message) := by
      rw [parsecmd, parsed]
      rfl
    refine ⟨fun tree => ⟨?_, fun derives => ?_⟩, .inr ⟨message, failed⟩⟩
    · rintro ⟨cmd, mem, returned, -⟩
      rw [failed] at returned
      cases returned
    · obtain ⟨cmd, s, accepted, -⟩ := complete tree derives
      rw [parsed] at accepted
      cases accepted
  | ok result =>
    obtain ⟨cmd, s⟩ := result
    by_cases ended : skip text s = text.length
    · obtain ⟨ts, rest, t, split, derives, holds, here, -⟩ := sound.of_ok parsed
      obtain rfl : rest = [] := by
        have empty := here.skip.1.rest
        rw [ended, drop_length, tokens] at empty
        exact empty.symm
      rw [append_nil] at split
      subst split
      obtain ⟨mem, done, keptMem, -, reads⟩ := nulterminate_spec clean holds kept
      have returned : parsecmd text fuel = .ok (cmd, mem) := by
        rw [parsecmd, parsed]
        refine (if_neg (not_not.mpr ended)).trans ?_
        rw [done]
        rfl
      refine ⟨fun tree => ⟨?_, fun derives' => ⟨cmd, mem, returned, ?_⟩⟩, .inl ⟨cmd, mem, returned⟩⟩
      · rintro ⟨cmd', mem', returned', rfl⟩
        rw [returned] at returned'
        cases returned'
        rw [reads mem keptMem fun _ found => found]
        exact derives
      · obtain ⟨cmd', s', accepted, holds', -⟩ := complete tree derives'
        rw [parsed] at accepted
        cases accepted
        obtain ⟨_, done', _, -, reads'⟩ := nulterminate_spec clean holds' kept
        rw [done] at done'
        cases done'
        exact reads' mem keptMem fun _ found => found
    · have failed : parsecmd text fuel = .error (.panic "syntax") := by
        rw [parsecmd, parsed]
        exact if_pos ended
      refine ⟨fun tree => ⟨?_, fun derives => ?_⟩, .inr ⟨_, failed⟩⟩
      · rintro ⟨cmd', _, returned, -⟩
        rw [failed] at returned
        cases returned
      · obtain ⟨_, s', accepted, -, finished⟩ := complete tree derives
        rw [parsed] at accepted
        cases accepted
        exact absurd finished ended

/-- A line with a redirection, a pipe and a list. -/
theorem parsecmd_accepts_grammar_pipeline : (∃ cmd mem, parsecmd "a<b|c;d&".toList 40 = .ok (cmd, mem) ∧
      cmd.read mem = .list (.pipe (.redir (.exec [['a']]) ['b'] O_RDONLY 0) (.exec [['c']])) (.back (.exec [['d']]))) ∧
    ∃ enough, ∀ fuel ≥ enough, (∀ tree, (∃ cmd mem, parsecmd "a<b|c;d&".toList fuel = .ok (cmd, mem) ∧ cmd.read mem = tree) ↔
        Derives .line (tokens "a<b|c;d&".toList) tree) ∧ ((∃ cmd mem, parsecmd "a<b|c;d&".toList fuel = .ok (cmd, mem)) ∨
        ∃ message, parsecmd "a<b|c;d&".toList fuel = .error (.panic message)) := by
  refine ⟨⟨_, _, rfl, ?_⟩, parsecmd_accepts_grammar _ (by decide)⟩
  decide

end Xv6.Shell
