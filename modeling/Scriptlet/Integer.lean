/-! Integers of 64 bits, as integers with a range, and their decimal texts.
A decimal text is one sign or none, then one digit or more, and nothing else. -/
namespace Scriptlet

def fits (n : Int) : Bool := -9223372036854775808 ≤ n && n ≤ 9223372036854775807

def checked? (n : Int) : Option Int := if fits n then some n else none

def digitsValue (digits : List Char) : Nat :=
  digits.foldl (fun n d => 10 * n + (d.toNat - '0'.toNat)) 0

def natural? (cs : List Char) : Option Nat :=
  if !cs.isEmpty && cs.all Char.isDigit then some (digitsValue cs) else none

def readInteger? (text : String) : Option Int :=
  match text.toList with
  | '-' :: cs => (natural? cs).bind fun n => checked? (-n)
  | '+' :: cs => (natural? cs).bind fun n => checked? n
  | cs => (natural? cs).bind fun n => checked? n

end Scriptlet
