import Scriptlet.Machine
import Scriptlet.Operation

/-! Evaluation of trees.
It follows the tree, but for calls: these go to a body that may be larger than the call. How calls
are answered is a parameter of all that follows the tree, and calls are answered by recursion on
the number of bodies that may still be entered. Sides and arguments are evaluated from left to
right, and a callee is checked before its arguments are evaluated. -/
namespace Scriptlet

abbrev Application := Closure → List Value → Span → Exec Value

mutual

def evalExpr (apply : Application) : Expr → Exec Value
  | .integer n _ => pure (.integer n)
  | .boolean b _ => pure (.boolean b)
  | .string s _ => pure (.string s)
  | .name ident => Exec.lookup ident
  | .unary op operand span => do
      let v ← evalExpr apply operand
      Exec.lift (op.apply v) span
  | .binary op left right span => do
      let v ← evalExpr apply left
      let w ← evalExpr apply right
      Exec.lift (op.apply v w) span
  | .conditional condition consequence none _ => do
      let v ← evalExpr apply condition
      if v.truthy then evalBlock apply consequence else pure .unit
  | .conditional condition consequence (some alternative) _ => do
      let v ← evalExpr apply condition
      if v.truthy then evalBlock apply consequence else evalBlock apply alternative
  | .function name parameters body _ => do
      let f ← Exec.create name parameters body
      match name with
      | some name => Exec.define name (.function f)
      | none => pure ()
      pure (.function f)
  | .call callee arguments span => do
      let v ← evalExpr apply callee
      match v with
      | .function f => do
          let vs ← evalExprs apply arguments
          apply f vs span
      | v => Exec.fail (.notCallable v) callee.span

def evalExprs (apply : Application) : List Expr → Exec (List Value)
  | [] => pure []
  | e :: es => do
      let v ← evalExpr apply e
      let vs ← evalExprs apply es
      pure (v :: vs)

def evalStmt (apply : Application) : Stmt → Exec Value
  | .binding name value _ => do
      let v ← evalExpr apply value
      Exec.define name v
      pure .unit
  | .returning none _ => Exec.leave .unit
  | .returning (some value) _ => do
      let v ← evalExpr apply value
      Exec.leave v
  | .expression value _ => evalExpr apply value
  | .block body _ => evalBlock apply body

def evalStmts (apply : Application) (last : Value) : List Stmt → Exec Value
  | [] => pure last
  | s :: ss => do
      let v ← evalStmt apply s
      evalStmts apply v ss

def evalBlock (apply : Application) : Block → Exec Value
  | .mk statements _ => Exec.nested (evalStmts apply .unit statements)

end

/-- Applies a function when `remaining` more bodies may be entered. The number of arguments is
checked before that, and the body has no scope but the one of its parameters. -/
def applyWithin : Nat → Application
  | remaining, f, arguments, span =>
      if f.parameters.length ≠ arguments.length then
        Exec.fail (.wrongArity (f.name.map Ident.text) f.parameters.length arguments.length) span
      else
        match remaining with
        | 0 => Exec.tooDeep span
        | n + 1 => Exec.called f arguments (evalStmts (applyWithin n) .unit f.body.statements)

def evalProgram (remaining : Nat) (p : Program) (m : Machine) : Except EvalError Value × Machine :=
  match evalStmts (applyWithin remaining) .unit p.statements m with
  | (.result v, m) | (.leaving v, m) => (.ok v, m)
  | (.failure e, m) => (.error e, m)

end Scriptlet
