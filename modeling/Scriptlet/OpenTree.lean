import Scriptlet.Syntax

/-! Trees whose reading has not come to an end.
An open tree is turned inside out: each unfinished node knows what it has and where it will go when
it is finished, from the innermost one out to the program. A slot is where an expression goes: the
operators that wait for it, and as the goal the construct around these. A body is a statement list
so far, an owner is what a block goes to. Lists hold first what was read last. -/
namespace Scriptlet

inductive Waiting where
  | unary (op : UnaryOp) (start : Span)
  | binary (op : BinaryOp) (left : Expr)

namespace Waiting

def precedence : Waiting → Precedence
  | unary .. => .unary
  | binary op _ => op.precedence

def apply (last : Span) (operand : Expr) : Waiting → Expr
  | unary op start => .unary op operand (start.extend last)
  | binary op left => .binary op left operand (left.span.extend last)

end Waiting

mutual

inductive Slot where
  | mk (waiting : List Waiting) (goal : Goal)

inductive Goal where
  | whole
  | statement (start : Span) (body : Body)
  | binding (start : Span) (name : Ident) (body : Body)
  | returning (start : Span) (body : Body)
  | grouped (outer : Slot)
  | argument (callee : Expr) (earlier : List Expr) (outer : Slot)
  | condition (start : Span) (outer : Slot)

inductive Body where
  | program (earlier : List Stmt)
  | block (opening : Span) (earlier : List Stmt) (owner : Owner)

inductive Owner where
  | statement (start : Span) (body : Body)
  | consequence (start : Span) (condition : Expr) (outer : Slot)
  | alternative (start : Span) (condition : Expr) (consequence : Block) (outer : Slot)
  | function (start : Span) (name : Option Ident) (parameters : List Ident) (outer : Slot)

end

def Goal.slot (goal : Goal) : Slot := ⟨[], goal⟩

def Slot.push (w : Waiting) : Slot → Slot
  | ⟨waiting, goal⟩ => ⟨w :: waiting, goal⟩

def Body.add (s : Stmt) : Body → Body
  | program earlier => .program (s :: earlier)
  | block opening earlier owner => .block opening (s :: earlier) owner

/-- What may come next, with the open tree that it comes to. The last two are closed: a program and
an expression that were read to their end. -/
inductive Phase where
  | statement (body : Body)
  | bindingName (start : Span) (body : Body)
  | bindingSign (start : Span) (name : Ident) (body : Body)
  | returnValue (start : Span) (body : Body)
  | operand (slot : Slot)
  | connective (expr : Expr) (slot : Slot)
  | argument (callee : Expr) (earlier : List Expr) (outer : Slot)
  | condition (start : Span) (outer : Slot)
  | blockOpening (owner : Owner)
  | alternative (start : Span) (condition : Expr) (consequence : Block) (outer : Slot)
  | functionName (start : Span) (outer : Slot)
  | parametersOpening (start : Span) (name : Ident) (outer : Slot)
  | parameter (start : Span) (name : Option Ident) (earlier : List Ident) (outer : Slot)
  | parameterEnd (start : Span) (name : Option Ident) (earlier : List Ident) (outer : Slot)
  | program (statements : List Stmt)
  | expression (expr : Expr)

end Scriptlet
