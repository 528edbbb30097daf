import Scriptlet.Integer
import Scriptlet.OpenTree
import Scriptlet.ParseError

/-! From tokens to trees, one token at a time.
A token is either built into the open tree or refused, and no later token changes that. A token
that cannot belong to an expression finishes it and is then read by the construct around it. Spans
reach to the token read before, which is `last` throughout. -/
namespace Scriptlet

/-- Finishes the operators that bind their operand at least as tightly as precedence `p`. -/
def reduce (p : Precedence) (last : Span) (e : Expr) : List Waiting → Expr × List Waiting
  | [] => (e, [])
  | w :: ws =>
      if w.precedence.rank < p.rank then (e, w :: ws) else reduce p last (w.apply last e) ws

def reduceAll (last : Span) (e : Expr) (waiting : List Waiting) : Expr :=
  waiting.foldl (fun operand w => w.apply last operand) e

namespace Slot

def start (slot : Slot) (t : Token) : Except ParseError Phase :=
  match t.kind with
  | .bang => .ok (.operand (slot.push (.unary .not t.span)))
  | .minus => .ok (.operand (slot.push (.unary .negate t.span)))
  | .integer =>
      match readInteger? t.text with
      | some n => .ok (.connective (.integer n t.span) slot)
      | none => .error ⟨.invalidInteger t.text, t.span⟩
  | .string => .ok (.connective (.string t.text t.span) slot)
  | .trueWord => .ok (.connective (.boolean true t.span) slot)
  | .falseWord => .ok (.connective (.boolean false t.span) slot)
  | .identifier => .ok (.connective (.name ⟨t.text, t.span⟩) slot)
  | .leftParen => .ok (.operand (Goal.grouped slot).slot)
  | .ifWord => .ok (.condition t.span slot)
  | .functionWord => .ok (.functionName t.span slot)
  | _ => .error (.noExpression t)

end Slot

namespace Owner

def construct : Owner → Construct
  | consequence .. => .ifBody
  | alternative .. => .elseBody
  | statement .. | function .. => .functionBody

def receive (last : Span) (b : Block) : Owner → Phase
  | statement start body => .statement (body.add (.block b (start.extend last)))
  | consequence start test outer => .alternative start test b outer
  | alternative start test first outer =>
      .connective (.conditional test first (some b) (start.extend last)) outer
  | function start name parameters outer =>
      .connective (.function name parameters b (start.extend last)) outer

end Owner

namespace Body

def read (body : Body) (t : Token) : Except ParseError Phase :=
  match t.kind with
  | .semicolon => .ok (.statement body)
  | .letWord => .ok (.bindingName t.span body)
  | .returnWord => .ok (.returnValue t.span body)
  | .leftBrace => .ok (.statement (.block t.span [] (.statement t.span body)))
  | .rightBrace =>
      match body with
      | program _ => .error (.noExpression t)
      | block opening earlier owner =>
          .ok (owner.receive t.span ⟨earlier.reverse, opening.extend t.span⟩)
  | .endOfInput =>
      match body with
      | program earlier => .ok (.program earlier.reverse)
      | block opening .. => .error ⟨.unclosedBlock, opening⟩
  | _ => (Goal.statement t.span body).slot.start t

end Body

def finishCall (callee : Expr) (earlier : List Expr) (last : Span) (outer : Slot) : Phase :=
  .connective (.call callee earlier.reverse (callee.span.extend last)) outer

namespace Goal

def receive (last : Span) (e : Expr) (goal : Goal) (t : Token) : Except ParseError Phase :=
  match goal with
  | whole => .ok (.expression e)
  | statement start body => (body.add (.expression e (start.extend last))).read t
  | binding start name body => (body.add (.binding name e (start.extend last))).read t
  | returning start body => (body.add (.returning (some e) (start.extend last))).read t
  | grouped outer =>
      match t.kind with
      | .rightParen => .ok (.connective e outer)
      | _ => .error (.wrongToken .rightParen .grouping t)
  | argument callee earlier outer =>
      match t.kind with
      | .comma => .ok (.argument callee (e :: earlier) outer)
      | .rightParen => .ok (finishCall callee (e :: earlier) t.span outer)
      | _ => .error (.wrongToken .comma .argumentList t)
  | condition start outer =>
      match t.kind with
      | .rightParen => .ok (.blockOpening (.consequence start e outer))
      | _ => .error (.wrongToken .rightParen .condition t)

end Goal

namespace Slot

def extend (last : Span) (e : Expr) (slot : Slot) (t : Token) : Except ParseError Phase :=
  match slot with
  | ⟨waiting, goal⟩ =>
      match Connective.ofKind? t.kind with
      | some (.binary op) =>
          let (e, waiting) := reduce op.precedence last e waiting
          .ok (.operand ⟨.binary op e :: waiting, goal⟩)
      | some .call =>
          let (e, waiting) := reduce .call last e waiting
          .ok (.argument e [] ⟨waiting, goal⟩)
      | none => goal.receive last (reduceAll last e waiting) t

end Slot

def Phase.read (last : Span) (phase : Phase) (t : Token) : Except ParseError Phase :=
  match phase with
  | statement body => body.read t
  | bindingName start body =>
      match t.kind with
      | .identifier => .ok (.bindingSign start ⟨t.text, t.span⟩ body)
      | _ => .error (.noIdentifier .letStatement t)
  | bindingSign start name body =>
      match t.kind with
      | .equal => .ok (.operand (Goal.binding start name body).slot)
      | _ => .error (.wrongToken .equal .letName t)
  | returnValue start body =>
      match t.kind with
      | .semicolon | .rightBrace | .endOfInput =>
          (body.add (.returning none (start.extend last))).read t
      | _ => (Goal.returning start body).slot.start t
  | operand slot => slot.start t
  | connective e slot => slot.extend last e t
  | argument callee earlier outer =>
      match t.kind with
      | .rightParen => .ok (finishCall callee earlier t.span outer)
      | _ => (Goal.argument callee earlier outer).slot.start t
  | condition start outer =>
      match t.kind with
      | .leftParen => .ok (.operand (Goal.condition start outer).slot)
      | _ => .error (.wrongToken .leftParen .ifWord t)
  | blockOpening owner =>
      match t.kind with
      | .leftBrace => .ok (.statement (.block t.span [] owner))
      | _ => .error (.wrongToken .leftBrace owner.construct t)
  | alternative start test first outer =>
      match t.kind with
      | .elseWord => .ok (.blockOpening (.alternative start test first outer))
      | _ => outer.extend last (.conditional test first none (start.extend last)) t
  | functionName start outer =>
      match t.kind with
      | .identifier => .ok (.parametersOpening start ⟨t.text, t.span⟩ outer)
      | .leftParen => .ok (.parameter start none [] outer)
      | _ => .error (.wrongToken .leftParen .functionWord t)
  | parametersOpening start name outer =>
      match t.kind with
      | .leftParen => .ok (.parameter start (some name) [] outer)
      | _ => .error (.wrongToken .leftParen .functionWord t)
  | parameter start name earlier outer =>
      match t.kind with
      | .rightParen => .ok (.blockOpening (.function start name earlier.reverse outer))
      | .identifier => .ok (.parameterEnd start name (⟨t.text, t.span⟩ :: earlier) outer)
      | _ => .error (.noIdentifier .parameterList t)
  | parameterEnd start name earlier outer =>
      match t.kind with
      | .rightParen => .ok (.blockOpening (.function start name earlier.reverse outer))
      | .comma => .ok (.parameter start name earlier outer)
      | _ => .error (.wrongToken .comma .parameterList t)
  | program statements => .ok (.program statements)
  | expression e => .ok (.expression e)

structure Parser where
  phase : Phase
  last : Span

namespace Parser

def read (p : Parser) (t : Token) : Except ParseError Parser := do
  return ⟨← p.phase.read p.last t, t.span⟩

/-- Reads tokens and then the end of input, which stands where the last token does if the tokens
have none. What follows an end of input is not looked at. -/
def finish (p : Parser) (ts : List Token) : Except ParseError Parser := do
  let p ← ts.foldlM read p
  p.read ⟨.endOfInput, p.last⟩

def ofProgram : Parser := ⟨.statement (.program []), .nowhere⟩

def ofExpression : Parser := ⟨.operand Goal.whole.slot, .nowhere⟩

end Parser

def parse (ts : List Token) : Except ParseError Program := do
  let p ← Parser.ofProgram.finish ts
  match p.phase with
  | .program statements => return ⟨statements⟩
  | _ => throw (.noExpression ⟨.endOfInput, p.last⟩)

def parseExpression (ts : List Token) : Except ParseError Expr := do
  let p ← Parser.ofExpression.finish ts
  match p.phase with
  | .expression e => return e
  | _ => throw (.noExpression ⟨.endOfInput, p.last⟩)

end Scriptlet
