import Scriptlet.Proofs.Relabeling

/-! Trees, tokens and open trees with every span forgotten.
Two trees are the same apart from spans if they are the same once bare. Reading looks at no span:
to read bare tokens is to read the tokens and to forget the spans of what comes out. -/
namespace Scriptlet

def Ident.bare (i : Ident) : Ident := ⟨i.text, .nowhere⟩

mutual

def Expr.bare : Expr → Expr
  | .integer n _ => .integer n .nowhere
  | .boolean b _ => .boolean b .nowhere
  | .string s _ => .string s .nowhere
  | .name ident => .name ident.bare
  | .unary op operand _ => .unary op operand.bare .nowhere
  | .binary op left right _ => .binary op left.bare right.bare .nowhere
  | .conditional condition consequence none _ =>
      .conditional condition.bare consequence.bare none .nowhere
  | .conditional condition consequence (some alternative) _ =>
      .conditional condition.bare consequence.bare (some alternative.bare) .nowhere
  | .function name parameters body _ =>
      .function (name.map Ident.bare) (parameters.map Ident.bare) body.bare .nowhere
  | .call callee arguments _ => .call callee.bare (bareExprs arguments) .nowhere

def bareExprs : List Expr → List Expr
  | [] => []
  | e :: es => e.bare :: bareExprs es

def Stmt.bare : Stmt → Stmt
  | .binding name value _ => .binding name.bare value.bare .nowhere
  | .returning none _ => .returning none .nowhere
  | .returning (some value) _ => .returning (some value.bare) .nowhere
  | .expression value _ => .expression value.bare .nowhere
  | .block body _ => .block body.bare .nowhere

def bareStmts : List Stmt → List Stmt
  | [] => []
  | s :: ss => s.bare :: bareStmts ss

def Block.bare : Block → Block
  | .mk statements _ => .mk (bareStmts statements) .nowhere

end

def Program.bare (p : Program) : Program := ⟨bareStmts p.statements⟩

@[simp] theorem bareExprsMap (es : List Expr) : bareExprs es = es.map Expr.bare := by
  induction es with
  | nil => rfl
  | cons e es ih => simp [bareExprs, ih]

@[simp] theorem bareStmtsMap (ss : List Stmt) : bareStmts ss = ss.map Stmt.bare := by
  induction ss with
  | nil => rfl
  | cons s ss ih => simp [bareStmts, ih]

@[simp] theorem Expr.spanBare (e : Expr) : e.bare.span = .nowhere := by
  cases e with
  | conditional c b a s => cases a <;> simp [bare, span]
  | name ident => rfl
  | _ => simp [bare, span]

theorem nowhereExtend : Span.nowhere.extend .nowhere = .nowhere := rfl

def Token.bare (t : Token) : Token := ⟨t.toLexeme, .nowhere⟩

def ParseError.bare (e : ParseError) : ParseError := ⟨e.fault, .nowhere⟩

def Waiting.bare : Waiting → Waiting
  | unary op _ => .unary op .nowhere
  | binary op left => .binary op left.bare

mutual

def Slot.bare : Slot → Slot
  | ⟨waiting, goal⟩ => ⟨waiting.map Waiting.bare, goal.bare⟩

def Goal.bare : Goal → Goal
  | .whole => .whole
  | .statement _ body => .statement .nowhere body.bare
  | .binding _ name body => .binding .nowhere name.bare body.bare
  | .returning _ body => .returning .nowhere body.bare
  | .grouped outer => .grouped outer.bare
  | .argument callee earlier outer => .argument callee.bare (earlier.map Expr.bare) outer.bare
  | .condition _ outer => .condition .nowhere outer.bare

def Body.bare : Body → Body
  | .program earlier => .program (earlier.map Stmt.bare)
  | .block _ earlier owner => .block .nowhere (earlier.map Stmt.bare) owner.bare

def Owner.bare : Owner → Owner
  | .statement _ body => .statement .nowhere body.bare
  | .consequence _ condition outer => .consequence .nowhere condition.bare outer.bare
  | .alternative _ condition consequence outer =>
      .alternative .nowhere condition.bare consequence.bare outer.bare
  | .function _ name parameters outer =>
      .function .nowhere (name.map Ident.bare) (parameters.map Ident.bare) outer.bare

end

namespace Phase

def bare : Phase → Phase
  | statement body => .statement body.bare
  | bindingName _ body => .bindingName .nowhere body.bare
  | bindingSign _ name body => .bindingSign .nowhere name.bare body.bare
  | returnValue _ body => .returnValue .nowhere body.bare
  | operand slot => .operand slot.bare
  | connective e slot => .connective e.bare slot.bare
  | argument callee earlier outer => .argument callee.bare (earlier.map Expr.bare) outer.bare
  | condition _ outer => .condition .nowhere outer.bare
  | blockOpening owner => .blockOpening owner.bare
  | alternative _ test first outer => .alternative .nowhere test.bare first.bare outer.bare
  | functionName _ outer => .functionName .nowhere outer.bare
  | parametersOpening _ name outer => .parametersOpening .nowhere name.bare outer.bare
  | parameter _ name earlier outer =>
      .parameter .nowhere (name.map Ident.bare) (earlier.map Ident.bare) outer.bare
  | parameterEnd _ name earlier outer =>
      .parameterEnd .nowhere (name.map Ident.bare) (earlier.map Ident.bare) outer.bare
  | program statements => .program (statements.map Stmt.bare)
  | expression e => .expression e.bare

end Phase

def bareResult : Except ParseError Phase → Except ParseError Phase
  | .ok phase => .ok phase.bare
  | .error e => .error e.bare

section forgetting

theorem Ident.relabelBare : Ident.relabel id (fun _ => .nowhere) = Ident.bare := rfl

mutual

theorem Expr.relabelBare : ∀ e : Expr, e.relabel id (fun _ => .nowhere) = e.bare
  | .integer .. | .boolean .. | .string .. | .name .. => by
      simp [Expr.relabel, Expr.bare, Ident.relabelBare]
  | .unary _ operand _ => by simp [Expr.relabel, Expr.bare, operand.relabelBare]
  | .binary _ left right _ => by
      simp [Expr.relabel, Expr.bare, left.relabelBare, right.relabelBare]
  | .conditional test first none _ => by
      simp [Expr.relabel, Expr.bare, test.relabelBare, first.relabelBare]
  | .conditional test first (some second) _ => by
      simp [Expr.relabel, Expr.bare, test.relabelBare, first.relabelBare, second.relabelBare]
  | .function _ _ body _ => by
      simp [Expr.relabel, Expr.bare, Ident.relabelBare, body.relabelBare]
  | .call callee arguments _ => by
      simp [Expr.relabel, Expr.bare, callee.relabelBare, exprsRelabelBare arguments]

theorem exprsRelabelBare :
    ∀ es : List Expr, es.map (Expr.relabel id fun _ => .nowhere) = es.map Expr.bare
  | [] => rfl
  | e :: es => by rw [List.map_cons, List.map_cons, e.relabelBare, exprsRelabelBare es]

theorem Stmt.relabelBare : ∀ s : Stmt, s.relabel id (fun _ => .nowhere) = s.bare
  | .binding _ value _ => by
      simp [Stmt.relabel, Stmt.bare, Ident.relabelBare, value.relabelBare]
  | .returning none _ => by simp [Stmt.relabel, Stmt.bare]
  | .returning (some value) _ => by simp [Stmt.relabel, Stmt.bare, value.relabelBare]
  | .expression value _ => by simp [Stmt.relabel, Stmt.bare, value.relabelBare]
  | .block body _ => by simp [Stmt.relabel, Stmt.bare, body.relabelBare]

theorem stmtsRelabelBare :
    ∀ ss : List Stmt, ss.map (Stmt.relabel id fun _ => .nowhere) = ss.map Stmt.bare
  | [] => rfl
  | s :: ss => by rw [List.map_cons, List.map_cons, s.relabelBare, stmtsRelabelBare ss]

theorem Block.relabelBare : ∀ b : Block, b.relabel id (fun _ => .nowhere) = b.bare
  | .mk ss _ => by simp [Block.relabel, Block.bare, stmtsRelabelBare ss]

end

theorem Waiting.moveBare : Waiting.move (fun _ => .nowhere) = Waiting.bare := by
  funext w
  cases w <;> simp [move, bare, Expr.relabelBare]

mutual

theorem Slot.moveBare : ∀ slot : Slot, slot.move (fun _ => .nowhere) [] = slot.bare
  | ⟨_, goal⟩ => by simp [Slot.move, Slot.bare, Waiting.moveBare, goal.moveBare]

theorem Goal.moveBare : ∀ goal : Goal, goal.move (fun _ => .nowhere) [] = goal.bare
  | .whole => by simp [Goal.move, Goal.bare]
  | .statement _ body | .binding _ _ body | .returning _ body => by
      simp [Goal.move, Goal.bare, Ident.relabelBare, body.moveBare]
  | .grouped outer | .argument _ _ outer | .condition _ outer => by
      simp [Goal.move, Goal.bare, Expr.relabelBare, exprsRelabelBare, outer.moveBare]

theorem Body.moveBare : ∀ body : Body, body.move (fun _ => .nowhere) [] = body.bare
  | .program _ => by simp [Body.move, Body.bare, stmtsRelabelBare]
  | .block _ _ owner => by simp [Body.move, Body.bare, stmtsRelabelBare, owner.moveBare]

theorem Owner.moveBare : ∀ owner : Owner, owner.move (fun _ => .nowhere) [] = owner.bare
  | .statement _ body => by simp [Owner.move, Owner.bare, body.moveBare]
  | .consequence _ _ outer | .alternative _ _ _ outer | .function _ _ _ outer => by
      simp [Owner.move, Owner.bare, Ident.relabelBare, Expr.relabelBare, Block.relabelBare,
        outer.moveBare]

end

theorem Phase.moveBare (phase : Phase) : phase.move (fun _ => .nowhere) [] = phase.bare := by
  cases phase <;> simp [move, bare, Ident.relabelBare, Expr.relabelBare, exprsRelabelBare,
    stmtsRelabelBare, Block.relabelBare, Slot.moveBare, Body.moveBare, Owner.moveBare]

end forgetting

theorem Phase.readBare (last : Span) (phase : Phase) (t : Token) :
    phase.bare.read .nowhere t.bare = bareResult (phase.read last t) := by
  have moved := Phase.readMove (f := fun _ => .nowhere) (fun _ _ => rfl) [] last phase t
  rw [Phase.moveBare] at moved
  refine moved.trans ?_
  cases phase.read last t with
  | ok next => exact congrArg Except.ok next.moveBare
  | error e => rfl

end Scriptlet
