import Scriptlet.Proofs.Datum
import Scriptlet.Proofs.Legality

/-! Trees can be told from their dumps.
A dump is the text of nested lists, and from the lists of a tree that can be written the tree can be
read back, but for its spans: every list begins with a word that tells what the rest of it is. -/
namespace Scriptlet

def Datum.list (head : String) (parts : List Datum) : Datum :=
  .group "" .round (.word head :: parts)

def Ident.datum (i : Ident) : Datum := .word i.text

mutual

def Expr.datum : Expr → Datum
  | .integer value _ => .word (toString value)
  | .boolean value _ => .word (toString value)
  | .string value _ => .quoted value
  | .name ident => ident.datum
  | .unary op operand _ => .list op.symbol [operand.datum]
  | .binary op left right _ => .list op.symbol [left.datum, right.datum]
  | .conditional condition consequence none _ => .list "if" [condition.datum, consequence.datum]
  | .conditional condition consequence (some alternative) _ =>
      .list "if" [condition.datum, consequence.datum, alternative.datum]
  | .function name parameters body _ =>
      let heading := .group (name.elim "" Ident.text) .round (parameters.map Ident.datum)
      .list "function" [heading, body.datum]
  | .call callee arguments _ => .list "call" (callee.datum :: exprsData arguments)

def exprsData : List Expr → List Datum
  | [] => []
  | e :: es => e.datum :: exprsData es

def Stmt.datum : Stmt → Datum
  | .binding name value _ => .list "let" [name.datum, value.datum]
  | .returning none _ => .list "return" []
  | .returning (some value) _ => .list "return" [value.datum]
  | .expression value _ => value.datum
  | .block body _ => body.datum

def stmtsData : List Stmt → List Datum
  | [] => []
  | s :: ss => s.datum :: stmtsData ss

def Block.datum : Block → Datum
  | .mk statements _ => .group "" .curly (stmtsData statements)

end

@[simp] theorem exprsDataMap (es : List Expr) : exprsData es = es.map Expr.datum := by
  induction es with
  | nil => rfl
  | cons e es ih => simp [exprsData, ih]

@[simp] theorem stmtsDataMap (ss : List Stmt) : stmtsData ss = ss.map Stmt.datum := by
  induction ss with
  | nil => rfl
  | cons s ss ih => simp [stmtsData, ih]

section texts

theorem spacedList (head : String) (words : List String) (parts : List Datum)
    (same : words.map String.toList = parts.map Datum.text) :
    ("(" ++ spaced (head :: words) ++ ")").toList = (Datum.list head parts).text := by
  simp [spaced, Datum.list, Datum.text, String.toList_intercalate, same, Bracket.opening,
    Bracket.closing]

theorem headingText (name : String) (parameters : List Ident) :
    (name ++ "(" ++ spaced (parameters.map Ident.text) ++ ")").toList =
      (Datum.group name .round (parameters.map Ident.datum)).text := by
  have words : (Datum.text ∘ Ident.datum) = String.toList ∘ Ident.text := rfl
  simp [spaced, Datum.text, words, Bracket.opening, Bracket.closing]

mutual

theorem Expr.dumpText : ∀ e : Expr, e.dump.toList = e.datum.text
  | .integer .. | .boolean .. | .name .. => by simp [Expr.dump, Expr.datum, Ident.datum, Datum.text]
  | .string .. => by simp [Expr.dump, Expr.datum, Datum.text]
  | .unary _ operand _ => by
      rw [Expr.dump, Expr.datum]
      exact spacedList _ _ _ (by simp [operand.dumpText])
  | .binary _ left right _ => by
      rw [Expr.dump, Expr.datum]
      exact spacedList _ _ _ (by simp [left.dumpText, right.dumpText])
  | .conditional test first none _ => by
      rw [Expr.dump, Expr.datum]
      exact spacedList _ _ _ (by simp [test.dumpText, first.dumpText])
  | .conditional test first (some second) _ => by
      rw [Expr.dump, Expr.datum]
      exact spacedList _ _ _ (by simp [test.dumpText, first.dumpText, second.dumpText])
  | .function name parameters body _ => by
      rw [Expr.dump, Expr.datum]
      refine spacedList _ _ _ ?_
      rw [List.map_cons, headingText]
      simp [body.dumpText]
  | .call callee arguments _ => by
      rw [Expr.dump, Expr.datum]
      exact spacedList _ _ _ (by simp [callee.dumpText, exprsDumpText arguments])

theorem exprsDumpText :
    ∀ es : List Expr, (dumpExprs es).map String.toList = es.map fun e => e.datum.text
  | [] => rfl
  | e :: es => by simp [dumpExprs, e.dumpText, exprsDumpText es]

theorem Stmt.dumpText : ∀ s : Stmt, s.dump.toList = s.datum.text
  | .binding name value _ => by
      rw [Stmt.dump, Stmt.datum]
      exact spacedList _ _ _ (by simp [Ident.datum, Datum.text, value.dumpText])
  | .returning none _ => by rw [Stmt.dump, Stmt.datum]; decide
  | .returning (some value) _ => by
      rw [Stmt.dump, Stmt.datum]
      exact spacedList _ _ _ (by simp [value.dumpText])
  | .expression value _ => by rw [Stmt.dump, Stmt.datum, value.dumpText]
  | .block body _ => by rw [Stmt.dump, Stmt.datum, body.dumpText]

theorem stmtsDumpText :
    ∀ ss : List Stmt, (dumpStmts ss).map String.toList = ss.map fun s => s.datum.text
  | [] => rfl
  | s :: ss => by simp [dumpStmts, s.dumpText, stmtsDumpText ss]

theorem Block.dumpText : ∀ b : Block, b.dump.toList = b.datum.text
  | .mk ss _ => by
      simp [Block.dump, Block.datum, spaced, Datum.text, stmtsDumpText ss, Bracket.opening,
        Bracket.closing, Function.comp_def]

end

end texts

section writing

variable {c : Char}

theorem namePartPlain (part : NamePart c) : Plain c := by
  have word := namePartIs.mpr part
  refine ⟨fun stop => ?_, fun opening => ?_⟩
  · simp only [stops, List.mem_cons, List.not_mem_nil, or_false] at stop
    rcases stop with rfl | rfl | rfl | rfl <;> exact absurd word (by decide)
  · simp only [openings, List.mem_cons, List.not_mem_nil, or_false] at opening
    rcases opening with rfl | rfl | rfl <;> exact absurd word (by decide)

theorem namePlain {text : String} (lexical : Lexical .identifier text.toList) :
    PlainWord text := by
  unfold PlainWord
  generalize text.toList = cs at lexical
  cases lexical with
  | spelled spelling => cases spelling
  | name first others =>
    refine ⟨by simp, List.forall_mem_cons.mpr ⟨namePartPlain (.inl first), ?_⟩⟩
    exact fun c member => namePartPlain (others c member)

theorem numeralPlain {n : Int} (least : 0 ≤ n) : PlainWord (toString n) := by
  rw [PlainWord, numeralText least]
  refine ⟨Nat.toDigits_ne_nil, fun c member => ?_⟩
  exact namePartPlain (.inr (digitIs.mp (numeralDigits _ c member)))

theorem symbolPlain (op : UnaryOp) : PlainWord op.symbol := by
  cases op <;> decide +kernel

theorem signPlain (op : BinaryOp) : PlainWord op.symbol := by
  cases op <;> decide +kernel

theorem listWritable {head : String} {parts : List Datum} (plain : PlainWord head)
    (all : ∀ d ∈ parts, d.Writable) : (Datum.list head parts).Writable :=
  .group (by simp) (List.forall_mem_cons.mpr ⟨.word plain, all⟩)

@[simp] def Node.datum : Node → Datum
  | stmt s => s.datum
  | expr e => e.datum
  | block b => b.datum
  | introduced i | parameter i => i.datum

theorem Node.Legal.dumpWritable {n : Node} (legal : n.Legal) : n.datum.Writable := by
  induction legal with
  | @mk n own _ ih =>
    have part (c : Node) (child : c ∈ n.children) : c.datum.Writable := ih c child
    clear ih
    cases n with
    | introduced i | parameter i => exact .word (namePlain own)
    | block b =>
      obtain ⟨ss, _⟩ := b
      refine .group (by simp) ?_
      simpa [children] using part
    | stmt s =>
      cases s with
      | binding name value =>
        exact listWritable (by decide +kernel) (by simpa [children] using part)
      | returning value =>
        cases value with
        | none => exact listWritable (by decide +kernel) (by simp)
        | some value =>
          exact listWritable (by decide +kernel) (by simpa [children] using part)
      | expression value => exact part (.expr value) (by simp [children])
      | block body => exact part (.block body) (by simp [children])
    | expr e =>
      cases e with
      | integer value => exact .word (numeralPlain own.1)
      | boolean value => cases value <;> exact .word (by decide +kernel)
      | string value => exact .quoted own
      | name ident => exact .word (namePlain own)
      | unary op operand =>
        exact listWritable (symbolPlain op) (by simpa [children] using part)
      | binary op left right =>
        exact listWritable (signPlain op) (by simpa [children] using part)
      | conditional condition consequence alternative =>
        cases alternative <;>
          exact listWritable (by decide +kernel) (by simpa [children] using part)
      | function name parameters body =>
        have inner := part (.block body) (by simp [children])
        have names : ∀ d ∈ parameters.map Ident.datum, d.Writable :=
          List.forall_mem_map.mpr fun i member => part (.parameter i) (by simp [children, member])
        have heading : (Datum.group (name.elim "" Ident.text) .round
            (parameters.map Ident.datum)).Writable := by
          cases name with
          | none => exact .group (by simp) names
          | some name =>
            cases part (.introduced name) (by simp [children]) with
            | word plain => exact .group plain.2 names
        exact listWritable (by decide +kernel) (by simpa using ⟨heading, inner⟩)
      | call callee arguments =>
        exact listWritable (by decide +kernel) (by simpa [children] using part)

end writing

end Scriptlet
