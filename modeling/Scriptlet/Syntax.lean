import Scriptlet.Operator

/-! Programs as trees. Every node has the span it was read from; parentheses leave no node.
As nodes of their own count also the names that a binding, a function or its parameters introduce;
a name in use is an expression. -/
namespace Scriptlet

structure Ident where
  text : String
  span : Span
  deriving DecidableEq, Repr

mutual

inductive Expr where
  | integer (value : Int) (span : Span)
  | boolean (value : Bool) (span : Span)
  | string (value : String) (span : Span)
  | name (ident : Ident)
  | unary (op : UnaryOp) (operand : Expr) (span : Span)
  | binary (op : BinaryOp) (left right : Expr) (span : Span)
  | conditional (condition : Expr) (consequence : Block) (alternative : Option Block) (span : Span)
  | function (name : Option Ident) (parameters : List Ident) (body : Block) (span : Span)
  | call (callee : Expr) (arguments : List Expr) (span : Span)
  deriving Repr

inductive Stmt where
  | binding (name : Ident) (value : Expr) (span : Span)
  | returning (value : Option Expr) (span : Span)
  | expression (value : Expr) (span : Span)
  | block (body : Block) (span : Span)
  deriving Repr

inductive Block where
  | mk (statements : List Stmt) (span : Span)
  deriving Repr

end

structure Program where
  statements : List Stmt
  deriving Repr

def Expr.span : Expr → Span
  | integer _ s | boolean _ s | string _ s | unary _ _ s | binary _ _ _ s | conditional _ _ _ s
  | function _ _ _ s | call _ _ s => s
  | name ident => ident.span

def Stmt.span : Stmt → Span
  | binding _ _ s | returning _ s | expression _ s | block _ s => s

def Block.span : Block → Span
  | mk _ s => s

def Block.statements : Block → List Stmt
  | mk ss _ => ss

inductive Node where
  | stmt (s : Stmt)
  | expr (e : Expr)
  | block (b : Block)
  | introduced (ident : Ident)
  | parameter (ident : Ident)
  deriving Repr

namespace Node

def span : Node → Span
  | stmt s => s.span
  | expr e => e.span
  | block b => b.span
  | introduced i | parameter i => i.span

def children : Node → List Node
  | stmt (.binding name value _) => [introduced name, expr value]
  | stmt (.returning value _) => value.toList.map expr
  | stmt (.expression value _) => [expr value]
  | stmt (.block body _) => [block body]
  | expr (.unary _ operand _) => [expr operand]
  | expr (.binary _ left right _) => [expr left, expr right]
  | expr (.conditional condition consequence alternative _) =>
      expr condition :: block consequence :: alternative.toList.map block
  | expr (.function name parameters body _) =>
      name.toList.map introduced ++ parameters.map parameter ++ [block body]
  | expr (.call callee arguments _) => expr callee :: arguments.map expr
  | expr (.integer ..) | expr (.boolean ..) | expr (.string ..) | expr (.name ..) => []
  | block (.mk statements _) => statements.map stmt
  | introduced _ | parameter _ => []

end Node

end Scriptlet
