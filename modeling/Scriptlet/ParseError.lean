import Scriptlet.Token

/-! Why a token list is no program, and where.
A wrong token is named with the construct that was being read; a block that is not closed is placed
at its opening brace. -/
namespace Scriptlet

inductive Construct where
  | letStatement | letName | ifWord | condition | ifBody | elseBody | grouping
  | functionWord | functionBody | parameterList | argumentList
  deriving DecidableEq, Repr

def Construct.place : Construct → String
  | letStatement => "after `let`"
  | letName => "after the name in a let statement"
  | ifWord => "after `if`"
  | condition => "after the if condition"
  | ifBody => "before the if body"
  | elseBody => "after `else`"
  | grouping => "to close the parenthesized expression"
  | functionWord => "to open the parameter list"
  | functionBody => "before the function body"
  | parameterList => "in the parameter list"
  | argumentList => "in the argument list"

inductive ParseFault where
  | expectedToken (expected : TokenKind) (construct : Construct) (found : Lexeme)
  | expectedIdentifier (construct : Construct) (found : Lexeme)
  | expectedExpression (found : Lexeme)
  | unclosedBlock
  | invalidInteger (text : String)
  deriving DecidableEq, Repr

def ParseFault.message : ParseFault → String
  | expectedToken expected construct found =>
      s!"expected {expected.description} {construct.place}, but found {found.description}"
  | expectedIdentifier construct found =>
      s!"expected identifier {construct.place}, but found {found.description}"
  | expectedExpression found => s!"expected expression, but found {found.description}"
  | unclosedBlock => "unclosed block, expected `\x7d` before end of input"
  | invalidInteger text => s!"integer literal `{text}` does not fit in 64 bits"

structure ParseError where
  fault : ParseFault
  span : Span
  deriving DecidableEq, Repr

namespace ParseError

def message (e : ParseError) : String := s!"{e.fault.message} at {e.span.text}"

def wrongToken (expected : TokenKind) (construct : Construct) (t : Token) : ParseError :=
  ⟨.expectedToken expected construct t.toLexeme, t.span⟩

def noIdentifier (construct : Construct) (t : Token) : ParseError :=
  ⟨.expectedIdentifier construct t.toLexeme, t.span⟩

def noExpression (t : Token) : ParseError := ⟨.expectedExpression t.toLexeme, t.span⟩

end ParseError

end Scriptlet
