import Scriptlet.EvalError
import Scriptlet.ParseError
import Scriptlet.Scanning

/-! Failures of all three stages, and how they are shown with the line they point into.
A line ends with a line feed, with or without a carriage return right before it; no empty line
follows the last line feed. Where the text has no such line the message stands alone. -/
namespace Scriptlet

inductive Failure where
  | lex (e : LexError)
  | parse (e : ParseError)
  | eval (e : EvalError)

def lines : List Char → List (List Char)
  | [] => []
  | '\n' :: cs => [] :: lines cs
  | '\r' :: '\n' :: cs => [] :: lines cs
  | c :: cs =>
      match lines cs with
      | [] => [[c]]
      | l :: ls => (c :: l) :: ls

def line? (source : String) (n : Nat) : Option String :=
  match n with
  | 0 => none
  | n + 1 => (lines source.toList)[n]?.map String.ofList

def spaces (n : Nat) : String := .ofList (List.replicate n ' ')

namespace Failure

def message : Failure → String
  | lex e => s!"lex error: {e.message}"
  | parse e => s!"parse error: {e.message}"
  | eval e => s!"eval error: {e.message}"

def position : Failure → Position
  | lex e => e.position
  | parse e => e.span.start
  | eval e => e.span.start

def render (source : String) (f : Failure) : String :=
  match line? source f.position.line with
  | none => f.message
  | some line =>
      let number := toString f.position.line
      let margin := spaces number.length
      let before := spaces (f.position.column - 1)
      s!"{f.message}\n{number} | {line}\n{margin} | {before}^"

end Failure

end Scriptlet
