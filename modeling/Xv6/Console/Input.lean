import Xv6.Block.Calls
import Xv6.Data.Ring

namespace Xv6.Console

open Block Data Data.Ring

/-! The input of the console. consoleintr edits the line that is being typed and
commits it; consoleread takes committed bytes. What consoleintr does, and what
consoleread does between taking the lock of the console and giving it up, to
return or to sleep, is one section. -/

structure Input where
  buf : UInt32 → UInt8 := fun _ => 0
  r : UInt32 := 0
  w : UInt32 := 0
  e : UInt32 := 0

/-- C('P'), C('U'), C('H') and '\x7f'. -/
def ctrlP : UInt8 := 16

def ctrlU : UInt8 := 21

def ctrlH : UInt8 := 8

def delete : UInt8 := 127

def carriageReturn : UInt8 := 13

namespace Input

variable (input : Input)

/-- `input.buf[input.e++ % INPUT_BUF] = c`. -/
def put (c : UInt8) : Input :=
  { input with buf := Function.update input.buf (input.e % INPUT_BUF) c, e := input.e + 1 }

def erase : Input := { input with e := input.e - 1 }

def commit : Input := { input with w := input.e }

def take : Input := { input with r := input.r + 1 }

/-- `input.buf[input.r % INPUT_BUF]`. -/
def front : UInt8 := input.buf (input.r % INPUT_BUF)

/-- `while(input.e != input.w && input.buf[(input.e-1) % INPUT_BUF] != '\n')`, at most as often as given. -/
def killLoop (input : Input) : Nat → Input
  | 0 => input
  | more + 1 =>
    if input.e ≠ input.w ∧ input.buf ((input.e - 1) % INPUT_BUF) ≠ newline then input.erase.killLoop more else input

/-- The loop ends at `input.w`, if not before. -/
def killLine : Input := input.killLoop (input.e - input.w).toNat

/-- One round of the loop of consoleintr. -/
def type (c : UInt8) : Input :=
  if c = ctrlP then input
  else if c = ctrlU then input.killLine
  else if c = ctrlH ∨ c = delete then if input.e ≠ input.w then input.erase else input
  else if c ≠ 0 ∧ input.e - input.r < INPUT_BUF then
    let c := if c = carriageReturn then newline else c
    let input := input.put c
    if c = newline ∨ c = ctrlD ∨ input.e = input.r + INPUT_BUF then input.commit else input
  else input

/-- `chars` is what getc gives until it has no more. -/
def consoleintr (chars : List UInt8) : Input := chars.foldl type input

end Input

inductive Pause where
  | asleep
  | failed
  | finished
deriving DecidableEq, Repr

/-- The loop of consoleread: `target` is the number of bytes asked for, `got` those
copied, and the last argument is `n`. -/
def Input.readLoop (killed : Bool) (target : Nat) (input : Input) (got : List UInt8) : Nat → Input × List UInt8 × Pause
  | 0 => (input, got, .finished)
  | n + 1 =>
    if input.r = input.w then (input, got, if killed = true then .failed else .asleep)
    else if input.front = ctrlD then
      -- `input.r--` puts a ^D back that comes after other bytes
      (if n + 1 < target then input else input.take, got, .finished)
    else if input.front = newline then (input.take, got ++ [input.front], .finished)
    else input.take.readLoop killed target (got ++ [input.front]) n

inductive Reading where
  | idle
  | reading (target : Nat) (got : List UInt8)
  | returned (target : Nat) (got : List UInt8) (value : Int)
deriving DecidableEq, Repr

def Reading.got : Reading → List UInt8
  | .idle => []
  | .reading _ got | .returned _ got _ => got

variable {C : Type}

/-- The console and all the calls of consoleread ever made. -/
structure Device (C : Type) where
  input : Input
  call : C → Reading := fun _ => .idle

inductive Event (C : Type) where
  | intr (chars : List UInt8)
  | start (c : C) (n : Nat)
  /-- `killed` is what the call would read in `myproc()->killed`. -/
  | resume (c : C) (killed : Bool)

namespace Device

variable [DecidableEq C] (s : Device C)

def goto (c : C) (input : Input) (reading : Reading) : Device C := { input, call := Function.update s.call c reading }

def read (c : C) (killed : Bool) (target : Nat) (got : List UInt8) : Device C :=
  match s.input.readLoop killed target got (target - got.length) with
  | (input, got, .asleep) => s.goto c input (.reading target got)
  | (input, got, .failed) => s.goto c input (.returned target got (-1))
  | (input, got, .finished) => s.goto c input (.returned target got got.length)

def step : Event C → Option (Device C)
  | .intr chars => some { s with input := s.input.consoleintr chars }
  | .start c n => if s.call c = .idle then some (s.goto c s.input (.reading n [])) else none
  | .resume c killed =>
    match s.call c with
    | .reading target got => some (s.read c killed target got)
    | _ => none

end Device

end Xv6.Console
