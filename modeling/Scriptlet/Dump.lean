import Scriptlet.Syntax

/-! Trees as nested lists in parentheses, with blocks in braces. Spans leave no trace.
A program has a line for each statement and no line end behind the last one. -/
namespace Scriptlet

def spaced (words : List String) : String := " ".intercalate words

mutual

def Expr.dump : Expr → String
  | .integer value _ => toString value
  | .boolean value _ => toString value
  | .string value _ => "\"" ++ value ++ "\""
  | .name ident => ident.text
  | .unary op operand _ => "(" ++ spaced [op.symbol, operand.dump] ++ ")"
  | .binary op left right _ => "(" ++ spaced [op.symbol, left.dump, right.dump] ++ ")"
  | .conditional condition consequence none _ =>
      "(" ++ spaced ["if", condition.dump, consequence.dump] ++ ")"
  | .conditional condition consequence (some alternative) _ =>
      "(" ++ spaced ["if", condition.dump, consequence.dump, alternative.dump] ++ ")"
  | .function name parameters body _ =>
      let head := name.elim "" Ident.text ++ "(" ++ spaced (parameters.map Ident.text) ++ ")"
      "(" ++ spaced ["function", head, body.dump] ++ ")"
  | .call callee arguments _ =>
      "(" ++ spaced ("call" :: callee.dump :: dumpExprs arguments) ++ ")"

def dumpExprs : List Expr → List String
  | [] => []
  | e :: es => e.dump :: dumpExprs es

def Stmt.dump : Stmt → String
  | .binding name value _ => "(" ++ spaced ["let", name.text, value.dump] ++ ")"
  | .returning none _ => "(return)"
  | .returning (some value) _ => "(" ++ spaced ["return", value.dump] ++ ")"
  | .expression value _ => value.dump
  | .block body _ => body.dump

def dumpStmts : List Stmt → List String
  | [] => []
  | s :: ss => s.dump :: dumpStmts ss

def Block.dump : Block → String
  | .mk statements _ => "\x7b" ++ spaced (dumpStmts statements) ++ "\x7d"

end

def Program.dump (p : Program) : String := "\n".intercalate (dumpStmts p.statements)

end Scriptlet
