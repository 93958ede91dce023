import Mathlib.Data.List.Basic
import Mathlib.Logic.Function.Basic

namespace Xv6.Shell

/-! The shell's parser. A pointer into the line is an offset from its start, and
the NUL that ends the line stands at offset `text.length`. The calls are bounded
by fuel, which the program does not have; `malloc` always succeeds. -/

def MAXARGS : Nat := 10

def O_RDONLY : Nat := 0x000

def O_WRONLY : Nat := 0x001

def O_CREATE : Nat := 0x200

def NUL : Char := Char.ofNat 0

def whitespace : List Char := [' ', '\t', '\r', '\n', Char.ofNat 11]

def symbols : List Char := ['<', '|', '>', '&', ';', '(', ')']

inductive Stop where
  | panic (message : String)
  /-- An access outside an array or through a null pointer. -/
  | fault
  /-- More calls than the fuel allows. -/
  | fuel
deriving DecidableEq, Repr

inductive Cmd where
  | exec (argv eargv : Fin MAXARGS → Option Nat)
  | redir (cmd : Cmd) (file efile mode fd : Nat)
  | pipe (left right : Cmd)
  | list (left right : Cmd)
  | back (cmd : Cmd)

/-- A function that moves `*ps`. -/
abbrev Parser := StateT Nat (Except Stop)

section

variable (text : List Char)

def char (s : Nat) : Char := text.getD s NUL

/-- `while(s < es && test(*s)) s++`, which makes at most `more` steps. -/
def scan (test : Char → Bool) : Nat → Nat → Nat
  | 0, s => s
  | more + 1, s => if s < text.length ∧ test (char text s) then scan test more (s + 1) else s

def skip (s : Nat) : Nat := scan text whitespace.contains (text.length - s) s

/-- The test of the loop that reads a word. -/
def isWordChar (c : Char) : Bool := !whitespace.contains c && !symbols.contains c

/-- The `switch` of `gettoken`: what it returns, and the end of the token at `q`. -/
def classify (q : Nat) : Char × Nat :=
  let c := char text q
  if c = NUL then (c, q)
  else if c = '|' ∨ c = '(' ∨ c = ')' ∨ c = ';' ∨ c = '&' ∨ c = '<' then (c, q + 1)
  else if c = '>' then
    if char text (q + 1) = '>' then ('+', q + 2) else (c, q + 1)
  else ('a', scan text isWordChar (text.length - q) q)

/-- The kind of the next token, with the ends of its text. -/
def gettoken : Parser (Char × Nat × Nat) := fun s =>
  let q := skip text s
  let (ret, eq) := classify text q
  .ok ((ret, q, eq), skip text eq)

def peek (toks : List Char) : Parser Bool := fun s =>
  let s := skip text s
  .ok (char text s ≠ NUL ∧ toks.contains (char text s), s)

def parseredirs : Nat → Cmd → Parser Cmd
  | 0, _ => throw .fuel
  | fuel + 1, cmd => do
    if ← peek text ['<', '>'] then
      let (tok, _, _) ← gettoken text
      let (next, q, eq) ← gettoken text
      if next ≠ 'a' then throw (.panic "missing file for redirection")
      else if tok = '<' then parseredirs fuel (.redir cmd q eq O_RDONLY 0)
      else if tok = '>' then parseredirs fuel (.redir cmd q eq (O_WRONLY ||| O_CREATE) 1)
      else if tok = '+' then parseredirs fuel (.redir cmd q eq (O_WRONLY ||| O_CREATE) 1)
      else parseredirs fuel cmd
    else pure cmd

def parsebacks : Nat → Cmd → Parser Cmd
  | 0, _ => throw .fuel
  | fuel + 1, cmd => do
    if ← peek text ['&'] then
      let _ ← gettoken text
      parsebacks fuel (.back cmd)
    else pure cmd

def execcmd : Cmd := .exec (fun _ => none) (fun _ => none)

/-- `cmd->argv[argc] = q` and `cmd->eargv[argc] = eq`, where `cmd` is the
command that the redirections of `ret` wrap. -/
def Cmd.store (argc : Nat) (q eq : Option Nat) : Cmd → Parser Cmd
  | .exec argv eargv =>
    if inside : argc < MAXARGS then
      pure (.exec (Function.update argv ⟨argc, inside⟩ q) (Function.update eargv ⟨argc, inside⟩ eq))
    else throw .fault
  | .redir cmd file efile mode fd => do
    let cmd ← cmd.store argc q eq
    pure (.redir cmd file efile mode fd)
  | _ => throw .fault

def parseargs : Nat → Nat → Cmd → Parser (Nat × Cmd)
  | 0, _, _ => throw .fuel
  | fuel + 1, argc, ret => do
    if ← peek text ['|', ')', '&', ';'] then pure (argc, ret)
    else
      let (tok, q, eq) ← gettoken text
      if tok = NUL then pure (argc, ret)
      else if tok ≠ 'a' then throw (.panic "syntax")
      else
        let ret ← ret.store argc (some q) (some eq)
        if argc + 1 ≥ MAXARGS then throw (.panic "too many args")
        else
          let ret ← parseredirs text fuel ret
          parseargs fuel (argc + 1) ret

mutual

def parseline : Nat → Parser Cmd
  | 0 => throw .fuel
  | fuel + 1 => do
    let cmd ← parsepipe fuel
    let cmd ← parsebacks text fuel cmd
    if ← peek text [';'] then
      let _ ← gettoken text
      let right ← parseline fuel
      pure (.list cmd right)
    else pure cmd

def parsepipe : Nat → Parser Cmd
  | 0 => throw .fuel
  | fuel + 1 => do
    let cmd ← parseexec fuel
    if ← peek text ['|'] then
      let _ ← gettoken text
      let right ← parsepipe fuel
      pure (.pipe cmd right)
    else pure cmd

def parseblock : Nat → Parser Cmd
  | 0 => throw .fuel
  | fuel + 1 => do
    if ← peek text ['('] then
      let _ ← gettoken text
      let cmd ← parseline fuel
      if ← peek text [')'] then
        let _ ← gettoken text
        parseredirs text fuel cmd
      else throw (.panic "syntax - missing )")
    else throw (.panic "parseblock")

def parseexec : Nat → Parser Cmd
  | 0 => throw .fuel
  | fuel + 1 => do
    if ← peek text ['('] then parseblock fuel
    else
      let ret ← parseredirs text fuel execcmd
      let (argc, ret) ← parseargs text fuel 0 ret
      ret.store argc none none

end

end

/-! `nulterminate`, on the bytes of the line and the NUL after them. -/

/-- `*e = 0`. -/
def poke (e : Nat) (mem : List Char) : Except Stop (List Char) :=
  if e < mem.length then .ok (mem.set e NUL) else .error .fault

/-- `for(i = 0; argv[i]; i++) *eargv[i] = 0`. -/
def nulargs (argv eargv : Fin MAXARGS → Option Nat) : Nat → Nat → List Char → Except Stop (List Char)
  | 0, _, _ => .error .fault
  | more + 1, i, mem =>
    if inside : i < MAXARGS then
      match argv ⟨i, inside⟩, eargv ⟨i, inside⟩ with
      | none, _ => .ok mem
      | some _, none => .error .fault
      | some _, some e => do
        let mem ← poke e mem
        nulargs argv eargv more (i + 1) mem
    else .error .fault

def nulterminate : Cmd → List Char → Except Stop (List Char)
  | .exec argv eargv, mem => nulargs argv eargv (MAXARGS + 1) 0 mem
  | .redir cmd _ efile _ _, mem => do
    let mem ← nulterminate cmd mem
    poke efile mem
  | .pipe left right, mem => do
    let mem ← nulterminate left mem
    nulterminate right mem
  | .list left right, mem => do
    let mem ← nulterminate left mem
    nulterminate right mem
  | .back cmd, mem => nulterminate cmd mem

/-- The command, with the line as `nulterminate` leaves it. -/
def parsecmd (text : List Char) (fuel : Nat) : Except Stop (Cmd × List Char) := do
  let (cmd, s) ← parseline text fuel 0
  let (_, s) ← peek text [] s
  if s ≠ text.length then throw (.panic "syntax")
  else
    let mem ← nulterminate cmd (text ++ [NUL])
    pure (cmd, mem)

end Xv6.Shell
