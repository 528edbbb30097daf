import Scriptlet.Token

/-! Operators and how tightly they bind, from the loosest to the tightest.
A connective is what may follow a finished expression and take it as its left operand. -/
namespace Scriptlet

inductive UnaryOp where
  | negate | not
  deriving DecidableEq, Repr

inductive BinaryOp where
  | add | subtract | multiply | divide
  | equal | notEqual | less | lessEqual | greater | greaterEqual
  | and | or
  deriving DecidableEq, Repr

inductive Precedence where
  | lowest | disjunction | conjunction | equality | comparison | sum | product | unary | call
  deriving DecidableEq, Repr

inductive Connective where
  | binary (op : BinaryOp)
  | call
  deriving DecidableEq, Repr

def UnaryOp.symbol : UnaryOp → String
  | negate => "-"
  | not => "!"

def BinaryOp.symbol : BinaryOp → String
  | add => "+"
  | subtract => "-"
  | multiply => "*"
  | divide => "/"
  | equal => "=="
  | notEqual => "!="
  | less => "<"
  | lessEqual => "<="
  | greater => ">"
  | greaterEqual => ">="
  | and => "&&"
  | or => "||"

def BinaryOp.precedence : BinaryOp → Precedence
  | or => .disjunction
  | and => .conjunction
  | equal | notEqual => .equality
  | less | lessEqual | greater | greaterEqual => .comparison
  | add | subtract => .sum
  | multiply | divide => .product

def Precedence.rank : Precedence → Nat
  | lowest => 0
  | disjunction => 1
  | conjunction => 2
  | equality => 3
  | comparison => 4
  | sum => 5
  | product => 6
  | unary => 7
  | call => 8

namespace Connective

def ofKind? : TokenKind → Option Connective
  | .plus => some (.binary .add)
  | .minus => some (.binary .subtract)
  | .asterisk => some (.binary .multiply)
  | .slash => some (.binary .divide)
  | .doubleEqual => some (.binary .equal)
  | .bangEqual => some (.binary .notEqual)
  | .less => some (.binary .less)
  | .lessEqual => some (.binary .lessEqual)
  | .greater => some (.binary .greater)
  | .greaterEqual => some (.binary .greaterEqual)
  | .doubleAmpersand => some (.binary .and)
  | .doublePipe => some (.binary .or)
  | .leftParen => some .call
  | _ => none

def precedence : Connective → Precedence
  | binary op => op.precedence
  | call => .call

/-- Takes the operand before it from an operator of precedence `p`. Equals do not, so operators
group to the left. -/
def binds (c : Connective) (p : Precedence) : Bool := p.rank < c.precedence.rank

end Connective

end Scriptlet
