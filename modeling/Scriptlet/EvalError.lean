import Scriptlet.Value

/-! Why an evaluation has no value, and where.
A fault holds the values it is about. Functions without a name have one in messages. -/
namespace Scriptlet

inductive EvalFault where
  | unboundIdentifier (name : String)
  | illegalUnary (op : UnaryOp) (operand : Value)
  | illegalBinary (op : BinaryOp) (left right : Value)
  | notCallable (callee : Value)
  | wrongArity (function : Option String) (expected given : Nat)
  | divisionByZero
  | integerOverflow (symbol : String)
  | tooDeep (depth : Nat)
  deriving Repr

namespace EvalFault

def message : EvalFault → String
  | unboundIdentifier name => s!"unbound identifier `{name}`"
  | illegalUnary op operand => s!"cannot apply prefix `{op.symbol}` to {operand.typeName}"
  | illegalBinary op left right =>
      s!"cannot apply `{op.symbol}` to {left.typeName} and {right.typeName}"
  | notCallable callee => s!"{callee.typeName} is not callable"
  | wrongArity function expected given =>
      let name := function.getD "<anonymous>"
      s!"function `{name}` expects {expected} argument(s) but got {given}"
  | divisionByZero => "division by zero"
  | integerOverflow symbol => s!"integer overflow in `{symbol}`"
  | tooDeep depth => s!"maximum call depth of {depth} exceeded"

def operands : EvalFault → List Value
  | illegalUnary _ operand => [operand]
  | illegalBinary _ left right => [left, right]
  | notCallable callee => [callee]
  | unboundIdentifier _ | wrongArity .. | divisionByZero | integerOverflow _ | tooDeep _ => []

end EvalFault

structure EvalError where
  fault : EvalFault
  span : Span
  deriving Repr

def EvalError.message (e : EvalError) : String := s!"{e.fault.message} at {e.span.text}"

end Scriptlet
