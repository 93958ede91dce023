import Mathlib.Data.Nat.Digits.Lemmas

namespace Xv6.Library

/-! Numbers as text: the two printint, which share all but the sign and the table
of digits, and atoi. -/

/-- `do{ buf[i++] = digits[x % base]; }while((x /= base) != 0);` with `room` bytes
of buf left; none is a store behind it. -/
def store (digits : List Char) (base : Nat) : Nat → Nat → Option (List Char)
  | 0, _ => none
  | room + 1, x =>
    let c := digits.getD (x % base) '\x00'
    if x / base = 0 then some [c] else (store digits base room (x / base)).map (c :: ·)

def Printf.digits : List Char := "0123456789ABCDEF".toList

def Console.digits : List Char := "0123456789abcdef".toList

def text (digits : List Char) (ds : List Nat) : List Char := (ds.map (digits.getD · '\x00')).reverse

variable {base room x : Nat} {ds : List Nat} {digits : List Char}

section

variable (two : 2 ≤ base)
include two

end

end Xv6.Library
