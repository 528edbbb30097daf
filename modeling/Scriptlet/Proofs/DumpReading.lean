import Scriptlet.Proofs.Bare
import Scriptlet.Proofs.Dumping

/-! Trees read back from nested lists.
The word that a list begins with tells what the rest of it is. Only the heading of a function is no
tree: it is one word in front of a list of words, which might otherwise be read as a call. -/
namespace Scriptlet

def UnaryOp.ofSymbol? (symbol : String) : Option UnaryOp :=
  [negate, not].find? (·.symbol = symbol)

def BinaryOp.ofSymbol? (symbol : String) : Option BinaryOp :=
  [add, subtract, multiply, divide, equal, notEqual, less, lessEqual, greater, greaterEqual, and,
    or].find? (·.symbol = symbol)

def wordIdent (text : String) : Ident := ⟨text, .nowhere⟩

def ownName (front : String) : Option Ident :=
  if front = "" then none else some (wordIdent front)

def wordExpr (text : String) : Expr :=
  if text = "true" then .boolean true .nowhere
  else if text = "false" then .boolean false .nowhere
  else (natural? text.toList).elim (.name (wordIdent text)) fun n => .integer n .nowhere

def Datum.word? : Datum → Option String
  | .word text => some text
  | _ => none

namespace Node

def expr? : Node → Option Expr
  | expr e => some e
  | _ => none

def stmt? : Node → Option Stmt
  | stmt s => some s
  | expr e => some (.expression e .nowhere)
  | block b => some (.block b .nowhere)
  | introduced _ | parameter _ => none

end Node

structure Part where
  datum : Datum
  node? : Option Node

def assemble : String → List Part → Option Node
  | "if", [⟨_, some (.expr test)⟩, ⟨_, some (.block first)⟩] =>
      some (.expr (.conditional test first none .nowhere))
  | "if", [⟨_, some (.expr test)⟩, ⟨_, some (.block first)⟩, ⟨_, some (.block second)⟩] =>
      some (.expr (.conditional test first (some second) .nowhere))
  | "function", [⟨.group front .round names, _⟩, ⟨_, some (.block body)⟩] =>
      let parameters := (names.filterMap Datum.word?).map wordIdent
      some (.expr (.function (ownName front) parameters body .nowhere))
  | "call", ⟨_, some (.expr callee)⟩ :: arguments => do
      let arguments ← arguments.mapM fun part => part.node?.bind Node.expr?
      return .expr (.call callee arguments .nowhere)
  | "let", [⟨.word name, _⟩, ⟨_, some (.expr value)⟩] =>
      some (.stmt (.binding (wordIdent name) value .nowhere))
  | "return", [] => some (.stmt (.returning none .nowhere))
  | "return", [⟨_, some (.expr value)⟩] => some (.stmt (.returning (some value) .nowhere))
  | symbol, [⟨_, some (.expr operand)⟩] =>
      (UnaryOp.ofSymbol? symbol).map fun op => .expr (.unary op operand .nowhere)
  | symbol, [⟨_, some (.expr left)⟩, ⟨_, some (.expr right)⟩] =>
      (BinaryOp.ofSymbol? symbol).map fun op => .expr (.binary op left right .nowhere)
  | _, _ => none

mutual

def Datum.node? : Datum → Option Node
  | .word text => some (.expr (wordExpr text))
  | .quoted inner => some (.expr (.string inner .nowhere))
  | .group _ .round (.word head :: parts) => assemble head (readParts parts)
  | .group _ .round _ => none
  | .group _ .curly parts => do
      let statements ← (readParts parts).mapM fun part => part.node?.bind Node.stmt?
      return .block (.mk statements .nowhere)

def readParts : List Datum → List Part
  | [] => []
  | d :: ds => ⟨d, d.node?⟩ :: readParts ds

end

theorem listNode (head : String) (parts : List Datum) :
    (Datum.list head parts).node? = assemble head (readParts parts) := by
  rw [Datum.list, Datum.node?]

section words

variable {text : String}

theorem nameNumeral (lexical : Lexical .identifier text.toList) : natural? text.toList = none := by
  generalize text.toList = cs at lexical
  cases lexical with
  | spelled spelling => cases spelling
  | name first =>
    have letter := (wordNoDigit (nameStartIs.mpr first)).2
    simp [natural?, letter]

theorem nameReserved (lexical : Lexical .identifier text.toList) {kind : TokenKind}
    {word : String} (spelling : kind.spelling? = some word) : text ≠ word := by
  rintro rfl
  generalize split : text.toList = cs at lexical
  cases lexical with
  | spelled spelling => cases spelling
  | name _ _ free => exact free kind (by rw [spelling, ← split, String.ofList_toList])

theorem wordName (lexical : Lexical .identifier text.toList) :
    wordExpr text = .name (wordIdent text) := by
  have yes := nameReserved lexical (rfl : TokenKind.trueWord.spelling? = _)
  have no := nameReserved lexical (rfl : TokenKind.falseWord.spelling? = _)
  simp [wordExpr, yes, no, nameNumeral lexical]

theorem wordNumeral {n : Int} (least : 0 ≤ n) : wordExpr (toString n) = .integer n .nowhere := by
  have value : natural? (toString n).toList = some n.toNat := by
    rw [numeralText least, naturalNumeral]
  have noWord {word : String} (none : natural? word.toList = none) : toString n ≠ word := by
    rintro rfl
    cases none.symm.trans value
  have yes : toString n ≠ "true" := noWord (by decide)
  have no : toString n ≠ "false" := noWord (by decide)
  rw [wordExpr, if_neg yes, if_neg no, value, Option.elim_some, Int.toNat_of_nonneg least]

theorem namesRead (names : List Ident) :
    ((names.map Ident.datum).filterMap Datum.word?).map wordIdent = names.map Ident.bare := by
  induction names with
  | nil => rfl
  | cons i names ih => exact congrArg (i.bare :: ·) ih

theorem headingRead {name : Option Ident} (legal : ∀ i ∈ name, (Node.introduced i).Writable) :
    ownName (name.elim "" Ident.text) = name.map Ident.bare := by
  cases name with
  | none => rfl
  | some i =>
    have filled : i.text ≠ "" := by
      intro empty
      exact (namePlain (legal i rfl)).1 (empty ▸ rfl)
    exact if_neg filled

end words

section trees

def Node.ReadsBack : Node → Prop
  | stmt s => s.datum.node?.bind Node.stmt? = some s.bare
  | expr e => e.datum.node? = some (.expr e.bare)
  | block b => b.datum.node? = some (.block b.bare)
  | introduced _ | parameter _ => True

theorem partsRead {α β : Type} {datum : α → Datum} {pick : Node → Option β} {bare : α → β}
    {as : List α} (all : ∀ a ∈ as, (datum a).node?.bind pick = some (bare a)) :
    (readParts (as.map datum)).mapM (fun part => part.node?.bind pick) = some (as.map bare) := by
  induction as with
  | nil => rfl
  | cons a as ih =>
    obtain ⟨head, tail⟩ := List.forall_mem_cons.mp all
    rw [List.map_cons, readParts, List.mapM_cons, head, ih tail]
    rfl

theorem Node.Legal.readsBack {n : Node} (legal : n.Legal) : n.ReadsBack := by
  induction legal with
  | @mk n own inner ih =>
    have part (c : Node) (child : c ∈ n.children) : c.ReadsBack := ih c child
    clear ih
    cases n with
    | introduced i | parameter i => trivial
    | block b =>
      obtain ⟨ss, _⟩ := b
      have read := partsRead fun s member => part (.stmt s) (by simpa [children] using member)
      simp only [ReadsBack, Block.datum, Datum.node?, stmtsDataMap, read, Block.bare, bareStmtsMap]
      rfl
    | stmt s =>
      cases s with
      | binding name value =>
        have read : _ = _ := part (.expr value) (by simp [children])
        simp only [ReadsBack, Stmt.datum, listNode, readParts, read]
        rfl
      | returning value =>
        cases value with
        | none => rfl
        | some value =>
          have read : _ = _ := part (.expr value) (by simp [children])
          simp only [ReadsBack, Stmt.datum, listNode, readParts, read]
          rfl
      | expression value =>
        have read : _ = _ := part (.expr value) (by simp [children])
        simp only [ReadsBack, Stmt.datum, read]
        rfl
      | block body =>
        have read : _ = _ := part (.block body) (by simp [children])
        simp only [ReadsBack, Stmt.datum, read]
        rfl
    | expr e =>
      cases e with
      | integer value =>
        simp only [ReadsBack, Expr.datum, Datum.node?, wordNumeral own.1]
        rfl
      | boolean value => cases value <;> rfl
      | string value => rfl
      | name ident =>
        simp only [ReadsBack, Expr.datum, Ident.datum, Datum.node?, wordName own]
        rfl
      | unary op operand =>
        have read : _ = _ := part (.expr operand) (by simp [children])
        simp only [ReadsBack, Expr.datum, listNode, readParts, read]
        cases op <;> rfl
      | binary op left right =>
        have first : _ = _ := part (.expr left) (by simp [children])
        have second : _ = _ := part (.expr right) (by simp [children])
        simp only [ReadsBack, Expr.datum, listNode, readParts, first, second]
        cases op <;> rfl
      | conditional condition consequence alternative =>
        have test : _ = _ := part (.expr condition) (by simp [children])
        have first : _ = _ := part (.block consequence) (by simp [children])
        cases alternative with
        | none =>
          simp only [ReadsBack, Expr.datum, listNode, readParts, test, first]
          rfl
        | some alternative =>
          have second : _ = _ := part (.block alternative) (by simp [children])
          simp only [ReadsBack, Expr.datum, listNode, readParts, test, first, second]
          rfl
      | function name parameters body =>
        have read : _ = _ := part (.block body) (by simp [children])
        have names := namesRead parameters
        have own : ownName (name.elim "" Ident.text) = name.map Ident.bare := by
          refine headingRead fun i member => ?_
          cases inner (.introduced i) (by simpa [children] using member) with
          | mk own => exact own
        simp only [ReadsBack, Expr.datum, listNode, readParts, read, Expr.bare, ← names, ← own]
        rfl
      | call callee arguments =>
        have function : _ = _ := part (.expr callee) (by simp [children])
        have values := @partsRead _ _ Expr.datum Node.expr? Expr.bare arguments fun e member => by
          have read : _ = _ := part (.expr e) (by simp [children, member])
          rw [read]
          rfl
        simp only [ReadsBack, Expr.datum, listNode, readParts, function, exprsDataMap, assemble,
          values, Expr.bare, bareExprsMap]
        rfl

end trees

section spans

mutual

theorem Expr.dumpBare : ∀ e : Expr, e.bare.dump = e.dump
  | .integer .. | .boolean .. | .string .. | .name .. => by
      simp [Expr.bare, Expr.dump, Ident.bare]
  | .unary _ operand _ => by simp [Expr.bare, Expr.dump, operand.dumpBare]
  | .binary _ left right _ => by simp [Expr.bare, Expr.dump, left.dumpBare, right.dumpBare]
  | .conditional test first none _ => by
      simp [Expr.bare, Expr.dump, test.dumpBare, first.dumpBare]
  | .conditional test first (some second) _ => by
      simp [Expr.bare, Expr.dump, test.dumpBare, first.dumpBare, second.dumpBare]
  | .function name _ body _ => by
      cases name <;>
        simp [Expr.bare, Expr.dump, body.dumpBare, Ident.bare, Function.comp_def]
  | .call callee arguments _ => by
      simp [Expr.bare, Expr.dump, callee.dumpBare, exprsDumpBare arguments]

theorem exprsDumpBare : ∀ es : List Expr, dumpExprs (es.map Expr.bare) = dumpExprs es
  | [] => rfl
  | e :: es => by simp [dumpExprs, e.dumpBare, exprsDumpBare es]

theorem Stmt.dumpBare : ∀ s : Stmt, s.bare.dump = s.dump
  | .binding _ value _ => by simp [Stmt.bare, Stmt.dump, Ident.bare, value.dumpBare]
  | .returning none _ => by simp [Stmt.bare, Stmt.dump]
  | .returning (some value) _ => by simp [Stmt.bare, Stmt.dump, value.dumpBare]
  | .expression value _ => by simp [Stmt.bare, Stmt.dump, value.dumpBare]
  | .block body _ => by simp [Stmt.bare, Stmt.dump, body.dumpBare]

theorem stmtsDumpBare : ∀ ss : List Stmt, dumpStmts (ss.map Stmt.bare) = dumpStmts ss
  | [] => rfl
  | s :: ss => by simp [dumpStmts, s.dumpBare, stmtsDumpBare ss]

theorem Block.dumpBare : ∀ b : Block, b.bare.dump = b.dump
  | .mk ss _ => by simp [Block.bare, Block.dump, stmtsDumpBare ss]

end

theorem Program.dumpBare (p : Program) : p.bare.dump = p.dump := by
  simp [Program.bare, Program.dump, stmtsDumpBare]

end spans

section programs

variable {p q : Program}

theorem Program.dumpText (p : Program) :
    p.dump.toList = ['\n'].intercalate ((stmtsData p.statements).map Datum.text) := by
  simp [Program.dump, stmtsDumpText, Function.comp_def]

theorem Program.Legal.writable (legal : p.Legal) : ∀ d ∈ stmtsData p.statements, d.Writable := by
  rw [stmtsDataMap]
  exact List.forall_mem_map.mpr fun s member => (legal s member).dumpWritable

theorem Program.Legal.read (legal : p.Legal) :
    (readParts (stmtsData p.statements)).mapM (fun part => part.node?.bind Node.stmt?) =
      some p.bare.statements := by
  rw [stmtsDataMap, Program.bare, bareStmtsMap]
  exact partsRead fun s member => (legal s member).readsBack

theorem Program.Legal.dumpOnce (one : p.Legal) (other : q.Legal) (same : p.dump = q.dump) :
    p.bare = q.bare := by
  have texts := congrArg String.toList same
  rw [p.dumpText, q.dumpText] at texts
  have data := dataOnce (by decide) one.writable other.writable texts
  have read := one.read
  rw [data, other.read] at read
  exact congrArg Program.mk (Option.some.inj read).symm

end programs

/-- Two texts that can be read have the same dump just if their trees are the same apart from
spans. -/
theorem dumpsDistinguish {source other : String} {p q : Program} (one : readProgram source = .ok p)
    (two : readProgram other = .ok q) : p.dump = q.dump ↔ p.bare = q.bare := by
  constructor
  · exact (readLegal one).dumpOnce (readLegal two)
  · intro same
    rw [← p.dumpBare, ← q.dumpBare, same]

def terse : String := "function call(x)\x7b-x\x7d(\") \x7b\")"

def roomy : String := "(function call(x,)\x7b // of itself\n  -x;\n\x7d)(\") \x7b\");\n"

theorem terseRoomyAlike : ∃ p q, readProgram terse = .ok p ∧ readProgram roomy = .ok q ∧
    p.dump = "(call (function call(x) \x7b(- x)\x7d) \") \x7b\")" ∧ p.dump = q.dump ∧
    p.bare = q.bare := by
  have read {source text : String}
      (shown : (readProgram source).toOption.map Program.dump = some text) :
      ∃ p, readProgram source = .ok p ∧ p.dump = text := by
    cases result : readProgram source with
    | error f => rw [result] at shown; cases shown
    | ok p => rw [result] at shown; exact ⟨p, rfl, Option.some.inj shown⟩
  obtain ⟨p, one, dump⟩ :=
    @read terse "(call (function call(x) \x7b(- x)\x7d) \") \x7b\")" (by decide +kernel)
  obtain ⟨q, two, same⟩ := @read roomy p.dump (by rw [dump]; decide +kernel)
  exact ⟨p, q, one, two, dump, same.symm, (dumpsDistinguish one two).mp same.symm⟩

end Scriptlet
