import Scriptlet.EvalError
import Scriptlet.Integer

/-! Operators on values.
Arithmetic is exact or fails, quotients being truncated toward zero. Equality and truth are defined
for all values, arithmetic and order for integers alone. -/
namespace Scriptlet

namespace UnaryOp

def apply (op : UnaryOp) (operand : Value) : Except EvalFault Value :=
  match op, operand with
  | not, v => .ok (.boolean !v.truthy)
  | negate, .integer n =>
      match checked? (-n) with
      | some m => .ok (.integer m)
      | none => .error (.integerOverflow op.symbol)
  | negate, v => .error (.illegalUnary op v)

end UnaryOp

namespace BinaryOp

def arithmetic (op : BinaryOp) (f : Int → Int → Int) :
    Value → Value → Except EvalFault Value
  | .integer m, .integer n =>
      match checked? (f m n) with
      | some k => .ok (.integer k)
      | none => .error (.integerOverflow op.symbol)
  | left, right => .error (.illegalBinary op left right)

def comparison (op : BinaryOp) (p : Int → Int → Bool) :
    Value → Value → Except EvalFault Value
  | .integer m, .integer n => .ok (.boolean (p m n))
  | left, right => .error (.illegalBinary op left right)

def apply (op : BinaryOp) (left right : Value) : Except EvalFault Value :=
  match op with
  | add => op.arithmetic (· + ·) left right
  | subtract => op.arithmetic (· - ·) left right
  | multiply => op.arithmetic (· * ·) left right
  | divide =>
      match left, right with
      | .integer _, .integer 0 => .error .divisionByZero
      | _, _ => op.arithmetic Int.tdiv left right
  | equal => .ok (.boolean (left.same right))
  | notEqual => .ok (.boolean !left.same right)
  | less => op.comparison (fun m n => m < n) left right
  | lessEqual => op.comparison (fun m n => m ≤ n) left right
  | greater => op.comparison (fun m n => m > n) left right
  | greaterEqual => op.comparison (fun m n => m ≥ n) left right
  | and => .ok (.boolean (left.truthy && right.truthy))
  | or => .ok (.boolean (left.truthy || right.truthy))

end BinaryOp

end Scriptlet
