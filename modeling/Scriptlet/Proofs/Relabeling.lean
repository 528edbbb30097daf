import Scriptlet.Parsing

/-! Trees and tokens with other labels, and reading with other labels behind other statements.
Labels are the names in a tree and the spans of its nodes. Reading looks at no span, so the same
tokens at other places are read as the same tree there, as long as stretches that are put together
stay so; and statements that were read before are carried along. -/
namespace Scriptlet

section trees

variable (n : String → String) (f : Span → Span)

def Ident.relabel (i : Ident) : Ident := ⟨n i.text, f i.span⟩

mutual

def Expr.relabel : Expr → Expr
  | .integer k span => .integer k (f span)
  | .boolean b span => .boolean b (f span)
  | .string s span => .string s (f span)
  | .name ident => .name (ident.relabel n f)
  | .unary op operand span => .unary op operand.relabel (f span)
  | .binary op left right span => .binary op left.relabel right.relabel (f span)
  | .conditional condition consequence none span =>
      .conditional condition.relabel consequence.relabel none (f span)
  | .conditional condition consequence (some alternative) span =>
      .conditional condition.relabel consequence.relabel (some alternative.relabel) (f span)
  | .function name parameters body span =>
      .function (name.map (Ident.relabel n f)) (parameters.map (Ident.relabel n f)) body.relabel
        (f span)
  | .call callee arguments span => .call callee.relabel (relabelExprs arguments) (f span)

def relabelExprs : List Expr → List Expr
  | [] => []
  | e :: es => e.relabel :: relabelExprs es

def Stmt.relabel : Stmt → Stmt
  | .binding name value span => .binding (name.relabel n f) value.relabel (f span)
  | .returning none span => .returning none (f span)
  | .returning (some value) span => .returning (some value.relabel) (f span)
  | .expression value span => .expression value.relabel (f span)
  | .block body span => .block body.relabel (f span)

def relabelStmts : List Stmt → List Stmt
  | [] => []
  | s :: ss => s.relabel :: relabelStmts ss

def Block.relabel : Block → Block
  | .mk statements span => .mk (relabelStmts statements) (f span)

end

def Program.relabel (p : Program) : Program := ⟨relabelStmts n f p.statements⟩

@[simp] theorem relabelExprsMap (es : List Expr) :
    relabelExprs n f es = es.map (Expr.relabel n f) := by
  induction es with
  | nil => simp [relabelExprs]
  | cons e es ih => simp [relabelExprs, ih]

@[simp] theorem relabelStmtsMap (ss : List Stmt) :
    relabelStmts n f ss = ss.map (Stmt.relabel n f) := by
  induction ss with
  | nil => simp [relabelStmts]
  | cons s ss ih => simp [relabelStmts, ih]

@[simp] theorem Expr.spanRelabel (e : Expr) : (e.relabel n f).span = f e.span := by
  cases e with
  | conditional test first second span => cases second <;> simp [relabel, Expr.span]
  | _ => simp [relabel, Expr.span, Ident.relabel]

@[simp] theorem Block.statementsRelabel (b : Block) :
    (b.relabel n f).statements = b.statements.map (Stmt.relabel n f) := by
  cases b
  simp [relabel, Block.statements]

end trees

section identity

theorem Ident.relabelSelf : Ident.relabel id id = id := rfl

mutual

theorem Expr.relabelSelf : ∀ e : Expr, e.relabel id id = e
  | .integer .. | .boolean .. | .string .. | .name .. => by simp [Expr.relabel, Ident.relabelSelf]
  | .unary _ operand _ => by simp [Expr.relabel, operand.relabelSelf]
  | .binary _ left right _ => by simp [Expr.relabel, left.relabelSelf, right.relabelSelf]
  | .conditional test first none _ => by
      simp [Expr.relabel, test.relabelSelf, first.relabelSelf]
  | .conditional test first (some second) _ => by
      simp [Expr.relabel, test.relabelSelf, first.relabelSelf, second.relabelSelf]
  | .function _ _ body _ => by simp [Expr.relabel, Ident.relabelSelf, body.relabelSelf]
  | .call callee arguments _ => by
      simp [Expr.relabel, callee.relabelSelf, exprsRelabelSelf arguments]

theorem exprsRelabelSelf : ∀ es : List Expr, es.map (Expr.relabel id id) = es
  | [] => rfl
  | e :: es => by rw [List.map_cons, e.relabelSelf, exprsRelabelSelf es]

theorem Stmt.relabelSelf : ∀ s : Stmt, s.relabel id id = s
  | .binding _ value _ => by simp [Stmt.relabel, Ident.relabelSelf, value.relabelSelf]
  | .returning none _ => by simp [Stmt.relabel]
  | .returning (some value) _ => by simp [Stmt.relabel, value.relabelSelf]
  | .expression value _ => by simp [Stmt.relabel, value.relabelSelf]
  | .block body _ => by simp [Stmt.relabel, body.relabelSelf]

theorem stmtsRelabelSelf : ∀ ss : List Stmt, ss.map (Stmt.relabel id id) = ss
  | [] => rfl
  | s :: ss => by rw [List.map_cons, s.relabelSelf, stmtsRelabelSelf ss]

theorem Block.relabelSelf : ∀ b : Block, b.relabel id id = b
  | .mk ss _ => by simp [Block.relabel, stmtsRelabelSelf ss]

end

end identity

section opening

variable (f : Span → Span) (ss : List Stmt)

def Token.move (t : Token) : Token := ⟨t.toLexeme, f t.span⟩

def ParseError.move (e : ParseError) : ParseError := ⟨e.fault, f e.span⟩

def Waiting.move : Waiting → Waiting
  | unary op start => .unary op (f start)
  | binary op left => .binary op (left.relabel id f)

mutual

def Slot.move : Slot → Slot
  | ⟨waiting, goal⟩ => ⟨waiting.map (Waiting.move f), goal.move⟩

def Goal.move : Goal → Goal
  | .whole => .whole
  | .statement start body => .statement (f start) body.move
  | .binding start name body => .binding (f start) (name.relabel id f) body.move
  | .returning start body => .returning (f start) body.move
  | .grouped outer => .grouped outer.move
  | .argument callee earlier outer =>
      .argument (callee.relabel id f) (earlier.map (Expr.relabel id f)) outer.move
  | .condition start outer => .condition (f start) outer.move

def Body.move : Body → Body
  | .program earlier => .program (earlier.map (Stmt.relabel id f) ++ ss)
  | .block opening earlier owner =>
      .block (f opening) (earlier.map (Stmt.relabel id f)) owner.move

def Owner.move : Owner → Owner
  | .statement start body => .statement (f start) body.move
  | .consequence start condition outer =>
      .consequence (f start) (condition.relabel id f) outer.move
  | .alternative start condition consequence outer =>
      .alternative (f start) (condition.relabel id f) (consequence.relabel id f) outer.move
  | .function start name parameters outer =>
      .function (f start) (name.map (Ident.relabel id f)) (parameters.map (Ident.relabel id f))
        outer.move

end

namespace Phase

def move : Phase → Phase
  | statement body => .statement (body.move f ss)
  | bindingName start body => .bindingName (f start) (body.move f ss)
  | bindingSign start name body => .bindingSign (f start) (name.relabel id f) (body.move f ss)
  | returnValue start body => .returnValue (f start) (body.move f ss)
  | operand slot => .operand (slot.move f ss)
  | connective e slot => .connective (e.relabel id f) (slot.move f ss)
  | argument callee earlier outer =>
      .argument (callee.relabel id f) (earlier.map (Expr.relabel id f)) (outer.move f ss)
  | condition start outer => .condition (f start) (outer.move f ss)
  | blockOpening owner => .blockOpening (owner.move f ss)
  | alternative start test first outer =>
      .alternative (f start) (test.relabel id f) (first.relabel id f) (outer.move f ss)
  | functionName start outer => .functionName (f start) (outer.move f ss)
  | parametersOpening start name outer =>
      .parametersOpening (f start) (name.relabel id f) (outer.move f ss)
  | parameter start name earlier outer =>
      .parameter (f start) (name.map (Ident.relabel id f)) (earlier.map (Ident.relabel id f))
        (outer.move f ss)
  | parameterEnd start name earlier outer =>
      .parameterEnd (f start) (name.map (Ident.relabel id f)) (earlier.map (Ident.relabel id f))
        (outer.move f ss)
  | program statements => .program (ss.reverse ++ statements.map (Stmt.relabel id f))
  | expression e => .expression (e.relabel id f)

end Phase

def moveResult : Except ParseError Phase → Except ParseError Phase
  | .ok phase => .ok (phase.move f ss)
  | .error e => .error (e.move f)

end opening

section reading

def Merges (f : Span → Span) : Prop := ∀ a b, f (a.extend b) = (f a).extend (f b)

variable {f : Span → Span}

theorem Waiting.precedenceMove (w : Waiting) : (w.move f).precedence = w.precedence := by
  cases w <;> rfl

theorem Owner.constructMove {ss : List Stmt} (owner : Owner) :
    (owner.move f ss).construct = owner.construct := by
  cases owner <;> simp [move, construct]

theorem Body.addMove {ss : List Stmt} (s : Stmt) (body : Body) :
    (body.add s).move f ss = (body.move f ss).add (s.relabel id f) := by
  cases body <;> simp [add, move]

theorem Slot.startMove {ss : List Stmt} (slot : Slot) (t : Token) :
    (slot.move f ss).start (t.move f) = moveResult f ss (slot.start t) := by
  obtain ⟨waiting, goal⟩ := slot
  obtain ⟨⟨kind, text⟩, span⟩ := t
  cases kind <;> try rfl
  simp only [start, Token.move]
  split <;> rfl

variable (merges : Merges f)
include merges

theorem Waiting.applyMove (last : Span) (e : Expr) (w : Waiting) :
    (w.apply last e).relabel id f = (w.move f).apply (f last) (e.relabel id f) := by
  cases w <;> simp [apply, move, Expr.relabel, merges _ _]

theorem reduceMove (p : Precedence) (last : Span) (e : Expr) (ws : List Waiting) :
    reduce p (f last) (e.relabel id f) (ws.map (Waiting.move f)) =
      ((reduce p last e ws).1.relabel id f, (reduce p last e ws).2.map (Waiting.move f)) := by
  induction ws generalizing e with
  | nil => rfl
  | cons w ws ih =>
    simp only [List.map_cons, reduce, Waiting.precedenceMove]
    split
    · rfl
    · rw [← Waiting.applyMove merges, ih]

theorem reduceAllMove (last : Span) (e : Expr) (ws : List Waiting) :
    (reduceAll last e ws).relabel id f =
      reduceAll (f last) (e.relabel id f) (ws.map (Waiting.move f)) := by
  induction ws generalizing e with
  | nil => rfl
  | cons w ws ih =>
    simp only [reduceAll, List.map_cons, List.foldl_cons] at ih ⊢
    rw [ih, Waiting.applyMove merges]

variable (ss : List Stmt)

theorem Owner.receiveMove (last : Span) (b : Block) (owner : Owner) :
    (owner.receive last b).move f ss =
      (owner.move f ss).receive (f last) (b.relabel id f) := by
  cases owner with
  | statement start body =>
    simp [receive, move, Phase.move, Body.addMove, Stmt.relabel, merges _ _]
  | _ => simp [receive, move, Phase.move, Expr.relabel, merges _ _]

theorem Body.readMove (body : Body) (t : Token) :
    (body.move f ss).read (t.move f) = moveResult f ss (body.read t) := by
  have start := @Slot.startMove f ss (Goal.statement t.span body).slot t
  obtain ⟨⟨kind, text⟩, span⟩ := t
  cases kind <;> try exact start
  case semicolon | letWord | returnWord => rfl
  case leftBrace => cases body <;> rfl
  case rightBrace =>
    cases body with
    | program earlier => rfl
    | block opening earlier owner =>
      have received :=
        Owner.receiveMove merges ss span ⟨earlier.reverse, opening.extend span⟩ owner
      simp [read, move, Token.move, moveResult, received, Block.relabel, merges _ _]
  case endOfInput =>
    cases body <;> simp [read, move, Token.move, moveResult, Phase.move, ParseError.move]

theorem finishCallMove (callee : Expr) (earlier : List Expr) (last : Span) (outer : Slot) :
    (finishCall callee earlier last outer).move f ss =
      finishCall (callee.relabel id f) (earlier.map (Expr.relabel id f)) (f last)
        (outer.move f ss) := by
  simp [finishCall, Phase.move, Expr.relabel, merges _ _]

theorem addReadMove (s : Stmt) (body : Body) (t : Token) :
    ((body.move f ss).add (s.relabel id f)).read (t.move f) =
      moveResult f ss ((body.add s).read t) := by
  rw [← Body.addMove, Body.readMove merges ss]

theorem Goal.receiveMove (last : Span) (e : Expr) (goal : Goal) (t : Token) :
    (goal.move f ss).receive (f last) (e.relabel id f) (t.move f) =
      moveResult f ss (goal.receive last e t) := by
  cases goal with
  | whole => rfl
  | statement start body =>
    have next := addReadMove merges ss (.expression e (start.extend last)) body t
    rwa [Stmt.relabel, merges] at next
  | binding start name body =>
    have next := addReadMove merges ss (.binding name e (start.extend last)) body t
    rwa [Stmt.relabel, merges] at next
  | returning start body =>
    have next := addReadMove merges ss (.returning (some e) (start.extend last)) body t
    rwa [Stmt.relabel, merges] at next
  | grouped outer | condition start outer =>
    obtain ⟨⟨kind, text⟩, span⟩ := t
    cases kind <;> rfl
  | argument callee earlier outer =>
    obtain ⟨⟨kind, text⟩, span⟩ := t
    have finished := finishCallMove merges ss callee (e :: earlier) span outer
    cases kind <;> first | rfl | exact congrArg Except.ok finished.symm

theorem Slot.extendMove (last : Span) (e : Expr) (slot : Slot) (t : Token) :
    (slot.move f ss).extend (f last) (e.relabel id f) (t.move f) =
      moveResult f ss (slot.extend last e t) := by
  obtain ⟨waiting, goal⟩ := slot
  simp only [move, extend, show (t.move f).kind = t.kind from rfl]
  split
  · rw [reduceMove merges]
    rfl
  · rw [reduceMove merges]
    rfl
  · rw [← reduceAllMove merges, Goal.receiveMove merges ss]

theorem Phase.readMove (last : Span) (phase : Phase) (t : Token) :
    (phase.move f ss).read (f last) (t.move f) = moveResult f ss (phase.read last t) := by
  cases phase with
  | statement body => exact Body.readMove merges ss body t
  | operand slot => exact Slot.startMove slot t
  | connective e slot => exact Slot.extendMove merges ss last e slot t
  | program statements | expression e => rfl
  | returnValue start body =>
    have ended := addReadMove merges ss (.returning none (start.extend last)) body t
    have started := @Slot.startMove f ss (Goal.returning start body).slot t
    rw [Stmt.relabel, merges] at ended
    obtain ⟨⟨kind, text⟩, span⟩ := t
    cases kind <;> first | exact ended | exact started
  | argument callee earlier outer =>
    have finished := finishCallMove merges ss callee earlier t.span outer
    have started := @Slot.startMove f ss (Goal.argument callee earlier outer).slot t
    obtain ⟨⟨kind, text⟩, span⟩ := t
    cases kind <;> first | exact started | exact congrArg Except.ok finished.symm
  | alternative start test first outer =>
    have ended := Slot.extendMove merges ss last
      (.conditional test first none (start.extend last)) outer t
    rw [Expr.relabel, merges] at ended
    obtain ⟨⟨kind, text⟩, span⟩ := t
    cases kind <;> first | exact ended | rfl
  | blockOpening owner =>
    have construct := @Owner.constructMove f ss owner
    obtain ⟨⟨kind, text⟩, span⟩ := t
    cases kind <;> simp [read, move, Token.move, moveResult, ParseError.move, construct,
      ParseError.wrongToken, Body.move]
  | parameter start name earlier outer | parameterEnd start name earlier outer =>
    obtain ⟨⟨kind, text⟩, span⟩ := t
    cases kind <;> simp [read, move, Token.move, moveResult, ParseError.move, Ident.relabel,
      ParseError.wrongToken, ParseError.noIdentifier, Owner.move]
  | _ =>
    obtain ⟨⟨kind, text⟩, span⟩ := t
    cases kind <;> rfl

end reading

end Scriptlet
