import Mathlib.Logic.Function.Iterate
import Xv6.Shell.Parser

namespace Xv6.Shell

/-! What the shell's command language is: the tokens of a line and the trees that
they derive. -/

inductive Token where
  | word (text : List Char)
  /-- `<` -/
  | less
  /-- `>` -/
  | greater
  /-- `>>` -/
  | append
  /-- `|` -/
  | bar
  /-- `&` -/
  | amp
  /-- `;` -/
  | semi
  /-- `(` -/
  | leftParen
  /-- `)` -/
  | rightParen
deriving DecidableEq, Repr

/-- The symbols of one character; `>` may start a longer one. -/
def symbol : Char → Option Token
  | '<' => some .less
  | '|' => some .bar
  | '&' => some .amp
  | ';' => some .semi
  | '(' => some .leftParen
  | ')' => some .rightParen
  | _ => none

theorem length_dropWhile_lt (test : Char → Bool) (c : Char) (rest : List Char) :
    (rest.dropWhile test).length < (c :: rest).length :=
  Nat.lt_succ_of_le (List.dropWhile_sublist test).length_le

/-- The tokens of a line: words of greatest length, and symbols. -/
def tokens : List Char → List Token
  | [] => []
  | c :: rest =>
    if whitespace.contains c then tokens rest
    else if c = '>' then
      if rest.head? = some '>' then .append :: tokens rest.tail else .greater :: tokens rest
    else match symbol c with
      | some token => token :: tokens rest
      | none => .word (c :: rest.takeWhile isWordChar) :: tokens (rest.dropWhile isWordChar)
termination_by line => line.length
decreasing_by
  · exact Nat.lt_succ_self _
  · exact Nat.lt_succ_of_le (by rw [List.length_tail]; exact Nat.sub_le _ _)
  · exact Nat.lt_succ_self _
  · exact Nat.lt_succ_self _
  · exact length_dropWhile_lt isWordChar c rest

inductive Tree where
  | exec (args : List (List Char))
  | redir (cmd : Tree) (file : List Char) (mode fd : Nat)
  | pipe (left right : Tree)
  | list (left right : Tree)
  | back (cmd : Tree)
deriving DecidableEq, Repr

inductive Direction where
  | less
  | greater
  | append
deriving DecidableEq, Repr

namespace Direction

def token : Direction → Token
  | less => .less
  | greater => .greater
  | append => .append

def mode : Direction → Nat
  | less => O_RDONLY
  | greater => O_WRONLY ||| O_CREATE
  | append => O_WRONLY ||| O_CREATE

def fd : Direction → Nat
  | less => 0
  | greater => 1
  | append => 1

end Direction

structure Redir where
  direction : Direction
  file : List Char
deriving DecidableEq, Repr

def Redir.tokens (redir : Redir) : List Token := [redir.direction.token, .word redir.file]

/-- The first redirection is the innermost one. -/
def wrap (redirs : List Redir) (cmd : Tree) : Tree :=
  redirs.foldl (fun cmd redir => .redir cmd redir.file redir.direction.mode redir.direction.fd) cmd

inductive Item where
  | word (text : List Char)
  | redir (redir : Redir)
deriving DecidableEq, Repr

def Item.tokens : Item → List Token
  | .word text => [.word text]
  | .redir target => target.tokens

def words (items : List Item) : List (List Char) :=
  items.filterMap fun
    | .word text => some text
    | .redir _ => none

def redirs (items : List Item) : List Redir :=
  items.filterMap fun
    | .word _ => none
    | .redir target => some target

inductive Category where
  | line
  | pipe
  | exec
deriving DecidableEq, Repr

inductive Derives : Category → List Token → Tree → Prop
  | line {ts t} (n : Nat) : Derives .pipe ts t → Derives .line (ts ++ List.replicate n .amp) (Tree.back^[n] t)
  | list {ts t us u} (n : Nat) : Derives .pipe ts t → Derives .line us u →
      Derives .line (ts ++ List.replicate n .amp ++ .semi :: us) (.list (Tree.back^[n] t) u)
  | exec {ts t} : Derives .exec ts t → Derives .pipe ts t
  | pipe {ts t us u} : Derives .exec ts t → Derives .pipe us u → Derives .pipe (ts ++ .bar :: us) (.pipe t u)
  | block {ts t} (redirs : List Redir) : Derives .line ts t →
      Derives .exec (.leftParen :: ts ++ .rightParen :: redirs.flatMap Redir.tokens) (wrap redirs t)
  | simple (items : List Item) : (words items).length ≤ MAXARGS - 1 →
      Derives .exec (items.flatMap Item.tokens) (wrap (redirs items) (.exec (words items)))

/-! The tree that a command stands for, once its strings end where their tokens do. -/

/-- The C string at an address. -/
def cstring (mem : List Char) (q : Nat) : List Char := (mem.drop q).takeWhile (· ≠ NUL)

/-- The entries of `argv` before the null pointer. -/
def entries (argv : Fin MAXARGS → Option Nat) : List Nat := ((List.ofFn argv).takeWhile Option.isSome).filterMap id

def Cmd.read (mem : List Char) : Cmd → Tree
  | .exec argv _ => .exec ((entries argv).map (cstring mem))
  | .redir cmd file _ mode fd => .redir (cmd.read mem) (cstring mem file) mode fd
  | .pipe left right => .pipe (left.read mem) (right.read mem)
  | .list left right => .list (left.read mem) (right.read mem)
  | .back cmd => .back (cmd.read mem)

end Xv6.Shell
