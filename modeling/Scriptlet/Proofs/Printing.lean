import Scriptlet.Dump
import Scriptlet.Proofs.Grammar
import Scriptlet.Proofs.LongestLexeme

/-! Trees as source text, with parentheses only where the grammar needs them.
Tokens stand apart by one space and a semicolon follows every statement. A printed token has no
place yet. All that is printed is lexical, and derives the tree it was printed from, if the tree
holds only names, integers and strings that can be written. -/
namespace Scriptlet

def Token.unplaced (kind : TokenKind) (text : String) : Token := ⟨⟨kind, text⟩, .nowhere⟩

def Token.fixed (kind : TokenKind) : Token := .unplaced kind (kind.spelling?.getD "")

def UnaryOp.kind : UnaryOp → TokenKind
  | negate => .minus
  | not => .bang

def BinaryOp.kind : BinaryOp → TokenKind
  | add => .plus
  | subtract => .minus
  | multiply => .asterisk
  | divide => .slash
  | equal => .doubleEqual
  | notEqual => .bangEqual
  | less => .less
  | lessEqual => .lessEqual
  | greater => .greater
  | greaterEqual => .greaterEqual
  | and => .doubleAmpersand
  | or => .doublePipe

def Expr.level : Expr → Precedence
  | .binary op .. => op.precedence
  | .unary .. => .unary
  | _ => .call

def groupedIf (needed : Prop) [Decidable needed] (ts : List Token) : List Token :=
  if needed then .fixed .leftParen :: (ts ++ [.fixed .rightParen]) else ts

def Ident.token (i : Ident) : Token := .unplaced .identifier i.text

def separated : List (List Token) → List Token
  | [] => []
  | ts :: later => ts ++ later.flatMap (.fixed .comma :: ·)

def parameterTokens (names : List Ident) : List Token := separated (names.map ([·.token]))

mutual

def Expr.tokens : Expr → List Token
  | .integer value _ => [.unplaced .integer (toString value)]
  | .boolean true _ => [.fixed .trueWord]
  | .boolean false _ => [.fixed .falseWord]
  | .string value _ => [.unplaced .string value]
  | .name ident => [ident.token]
  | .unary op operand _ =>
      .fixed op.kind :: groupedIf (operand.level.rank < Precedence.unary.rank) operand.tokens
  | .binary op left right _ =>
      groupedIf (left.level.rank < op.precedence.rank) left.tokens ++
        .fixed op.kind :: groupedIf (right.level.rank ≤ op.precedence.rank) right.tokens
  | .conditional condition consequence none _ =>
      .fixed .ifWord :: .fixed .leftParen ::
        (condition.tokens ++ .fixed .rightParen :: consequence.tokens)
  | .conditional condition consequence (some alternative) _ =>
      .fixed .ifWord :: .fixed .leftParen :: (condition.tokens ++ .fixed .rightParen ::
        (consequence.tokens ++ .fixed .elseWord :: alternative.tokens))
  | .function name parameters body _ =>
      .fixed .functionWord :: (name.toList.map Ident.token ++ .fixed .leftParen ::
        (parameterTokens parameters ++ .fixed .rightParen :: body.tokens))
  | .call callee arguments _ =>
      groupedIf (callee.level.rank < Precedence.call.rank) callee.tokens ++
        .fixed .leftParen :: (separated (exprsTokens arguments) ++ [.fixed .rightParen])

def exprsTokens : List Expr → List (List Token)
  | [] => []
  | e :: es => e.tokens :: exprsTokens es

def Stmt.tokens : Stmt → List Token
  | .binding name value _ => .fixed .letWord :: name.token :: .fixed .equal :: value.tokens
  | .returning none _ => [.fixed .returnWord]
  | .returning (some value) _ => .fixed .returnWord :: value.tokens
  | .expression value _ => value.tokens
  | .block body _ => body.tokens

def stmtsTokens : List Stmt → List Token
  | [] => []
  | s :: ss => s.tokens ++ .fixed .semicolon :: stmtsTokens ss

def Block.tokens : Block → List Token
  | .mk statements _ => .fixed .leftBrace :: (stmtsTokens statements ++ [.fixed .rightBrace])

end

@[simp] theorem exprsTokensMap (es : List Expr) : exprsTokens es = es.map Expr.tokens := by
  induction es with
  | nil => rfl
  | cons e es ih => simp [exprsTokens, ih]

def Program.print (p : Program) : String :=
  spaced ((stmtsTokens p.statements).map fun t => t.sourceText)

namespace Node

def tokens : Node → List Token
  | stmt s => s.tokens
  | expr e => e.tokens
  | block b => b.tokens
  | introduced i | parameter i => [i.token]

def Writable : Node → Prop
  | expr (.integer n _) => 0 ≤ n ∧ n ≤ 9223372036854775807
  | expr (.string s _) => '"' ∉ s.toList
  | expr (.name i) | introduced i | parameter i => Lexical .identifier i.text.toList
  | _ => True

inductive Legal : Node → Prop where
  | mk {n : Node} (own : n.Writable) (inner : ∀ c ∈ n.children, Legal c) : Legal n

end Node

def Program.Legal (p : Program) : Prop := ∀ s ∈ p.statements, (Node.stmt s).Legal

section numerals

theorem naturalDigits {ds : List Char} (some : ds ≠ []) (digits : ∀ d ∈ ds, d.isDigit) :
    natural? ds = .some (digitsValue ds) := by
  have inside : ds.all Char.isDigit := List.all_eq_true.mpr digits
  simp [natural?, some, inside]

theorem readDigits {ds : List Char} (some : ds ≠ []) (digits : ∀ d ∈ ds, d.isDigit) :
    readInteger? (.ofList ds) = checked? (digitsValue ds) := by
  unfold readInteger?
  rw [String.toList_ofList]
  split
  · exact absurd (digits '-' List.mem_cons_self) (by decide)
  · exact absurd (digits '+' List.mem_cons_self) (by decide)
  · rw [naturalDigits some digits, Option.bind_some]

theorem numeralDigits (n : Nat) : ∀ d ∈ Nat.toDigits 10 n, d.isDigit :=
  fun _ member => Nat.isDigit_of_mem_toDigits (by decide) (by decide) member

theorem numeralValue (n : Nat) : digitsValue (Nat.toDigits 10 n) = n :=
  Nat.ofDigitChars_ten_toDigits

theorem naturalNumeral (n : Nat) : natural? (Nat.toDigits 10 n) = some n := by
  rw [naturalDigits Nat.toDigits_ne_nil (numeralDigits n), numeralValue]

theorem numeralText {n : Int} (least : 0 ≤ n) : (toString n).toList = Nat.toDigits 10 n.toNat := by
  rw [Int.toString_eq_repr, Int.repr_eq_if, if_pos least, Nat.toList_repr]

theorem readNumeral {n : Int} (least : 0 ≤ n) (most : n ≤ 9223372036854775807) :
    readInteger? (toString n) = some n := by
  have range : checked? n = some n := by
    simp [checked?, fits, most]
    omega
  rw [← String.ofList_toList (s := toString n), numeralText least,
    readDigits Nat.toDigits_ne_nil (numeralDigits _), numeralValue, Int.toNat_of_nonneg least,
    range]

theorem lexicalNumeral {n : Int} (least : 0 ≤ n) : Lexical .integer (toString n).toList := by
  have digits := numeralDigits n.toNat
  rw [numeralText least]
  cases text : Nat.toDigits 10 n.toNat with
  | nil => exact absurd text Nat.toDigits_ne_nil
  | cons c cs => exact .integer fun d member => digitIs.mp (digits d (text ▸ member))

end numerals

section lexical

def Readable (ts : List Token) : Prop := ∀ t ∈ ts, Lexical t.kind t.sourceText.toList

variable {t : Token} {ts us : List Token}

theorem Readable.nil : Readable [] := fun _ member => nomatch member

theorem Readable.cons (head : Lexical t.kind t.sourceText.toList) (later : Readable ts) :
    Readable (t :: ts) := List.forall_mem_cons.mpr ⟨head, later⟩

theorem Readable.append (first : Readable ts) (second : Readable us) : Readable (ts ++ us) :=
  List.forall_mem_append.mpr ⟨first, second⟩

theorem Readable.fixed {kind : TokenKind} (spelling : kind.spelling?.isSome)
    (later : Readable ts) : Readable (.fixed kind :: ts) := by
  obtain ⟨text, spelling⟩ := Option.isSome_iff_exists.mp spelling
  have plain : (Token.fixed kind).sourceText = text := by
    simp [Token.fixed, Token.unplaced, spelling, spelledPlain spelling]
  exact .cons (plain.symm ▸ .spelled spelling) later

theorem Readable.grouped {needed : Prop} [Decidable needed] (inner : Readable ts) :
    Readable (groupedIf needed ts) := by
  unfold groupedIf
  split
  · exact .fixed rfl (.append inner (.fixed rfl .nil))
  · exact inner

theorem Readable.separated {tss : List (List Token)} (all : ∀ ts ∈ tss, Readable ts) :
    Readable (separated tss) := by
  cases tss with
  | nil => exact .nil
  | cons ts later =>
    obtain ⟨head, others⟩ := List.forall_mem_cons.mp all
    refine .append head fun t member => ?_
    obtain ⟨us, among, inside⟩ := List.mem_flatMap.mp member
    exact Readable.fixed rfl (others us among) t inside

theorem readableStmts {ss : List Stmt} (all : ∀ s ∈ ss, Readable s.tokens) :
    Readable (stmtsTokens ss) := by
  induction ss with
  | nil => exact .nil
  | cons s ss ih =>
    obtain ⟨head, later⟩ := List.forall_mem_cons.mp all
    exact .append head (.fixed rfl (ih later))

theorem Node.Legal.readable {n : Node} (legal : n.Legal) : Readable n.tokens := by
  induction legal with
  | @mk n own _ ih =>
    have part (c : Node) (child : c ∈ n.children) : Readable c.tokens := ih c child
    clear ih
    cases n with
    | introduced i | parameter i => exact .cons own .nil
    | block b =>
      obtain ⟨ss, _⟩ := b
      have inner := readableStmts fun s member => part (.stmt s) (by simpa [children] using member)
      exact .fixed rfl (.append inner (.fixed rfl .nil))
    | stmt s =>
      cases s with
      | binding name value =>
        have left := part (.introduced name) (by simp [children])
        have right := part (.expr value) (by simp [children])
        exact .fixed rfl (.append left (.fixed rfl right))
      | returning value =>
        cases value with
        | none => exact .fixed rfl .nil
        | some value => exact .fixed rfl (part (.expr value) (by simp [children]))
      | expression value => exact part (.expr value) (by simp [children])
      | block body => exact part (.block body) (by simp [children])
    | expr e =>
      cases e with
      | integer value => exact .cons (lexicalNumeral own.1) .nil
      | boolean value => cases value <;> exact .fixed rfl .nil
      | string value =>
        refine .cons ?_ .nil
        have text := stringText value.toList
        rw [String.ofList_toList] at text
        exact text.symm ▸ .string own
      | name ident => exact .cons own .nil
      | unary op operand =>
        have inner := part (.expr operand) (by simp [children])
        exact .fixed (by cases op <;> rfl) inner.grouped
      | binary op left right =>
        have first := part (.expr left) (by simp [children])
        have second := part (.expr right) (by simp [children])
        exact .append first.grouped (.fixed (by cases op <;> rfl) second.grouped)
      | conditional condition consequence alternative =>
        have test := part (.expr condition) (by simp [children])
        have first := part (.block consequence) (by simp [children])
        cases alternative with
        | none => exact .fixed rfl (.fixed rfl (.append test (.fixed rfl first)))
        | some alternative =>
          have second := part (.block alternative) (by simp [children])
          exact .fixed rfl (.fixed rfl (.append test (.fixed rfl (.append first
            (.fixed rfl second)))))
      | function name parameters body =>
        have names : Readable (parameterTokens parameters) :=
          .separated (List.forall_mem_map.mpr fun i member =>
            part (.parameter i) (by simp [children, member]))
        have inner := part (.block body) (by simp [children])
        have rest : Readable (.fixed .leftParen ::
            (parameterTokens parameters ++ .fixed .rightParen :: body.tokens)) :=
          .fixed rfl (names.append (.fixed rfl inner))
        cases name with
        | none => exact .fixed rfl rest
        | some name =>
          exact .fixed rfl (.append (part (.introduced name) (by simp [children])) rest)
      | call callee arguments =>
        have function := part (.expr callee) (by simp [children])
        have values : Readable (Scriptlet.separated (exprsTokens arguments)) := by
          rw [exprsTokensMap]
          exact .separated (List.forall_mem_map.mpr fun e member =>
            part (.expr e) (by simp [children, member]))
        exact .append function.grouped (.fixed rfl (.append values (.fixed rfl .nil)))

end lexical

section derivations

theorem groupedDerives {ts : List Token} {e : Expr} {p : Precedence} {needed : Prop}
    [Decidable needed] (inner : Derives ts (.expression e.level e))
    (enough : ¬ needed → p.rank ≤ e.level.rank) :
    Derives (groupedIf needed ts) (.expression p e) := by
  unfold groupedIf
  split
  · have grouped := Derives.grouped (l := .fixed .leftParen) (r := .fixed .rightParen) rfl
      (loosen (p := .lowest) (Nat.zero_le _) inner) rfl
    exact loosen (q := .call) (by cases p <;> decide) grouped
  · rename_i unneeded
    exact loosen (enough unneeded) inner

theorem binarySign (op : BinaryOp) : (op.kind, op) ∈ op.precedence.signs := by
  cases op <;> decide

theorem unarySign (op : UnaryOp) : (op.kind, op) ∈ unarySigns := by
  cases op <;> decide

theorem namesDerive {ts : List Token} {earlier : List Ident} (names : Names ts earlier)
    (later : List Ident) :
    Names (ts ++ (later.map ([·.token])).flatMap (.fixed .comma :: ·)) (earlier ++ later) := by
  induction later generalizing ts earlier with
  | nil => simpa using names
  | cons i later ih =>
    have more : Names (ts ++ [.fixed .comma, i.token]) (earlier ++ [i]) := .more names rfl rfl
    simpa using ih more

theorem parametersDerive (names : List Ident) : Parameters (parameterTokens names) names := by
  cases names with
  | nil => exact .none
  | cons i names =>
    have first : Names [i.token] [i] := .one rfl
    exact .plain (namesDerive first names)

theorem headingDerives (name : Option Ident) :
    Heading (.fixed .functionWord :: name.toList.map Ident.token) name := by
  cases name with
  | none => exact .anonymous rfl
  | some name => exact .named (n := name.token) rfl rfl

theorem sequenceDerives {ts : List Token} {earlier later : List Expr}
    (first : Derives ts (.sequence earlier))
    (all : ∀ e ∈ later, Derives e.tokens (.expression e.level e)) :
    Derives (ts ++ (later.map Expr.tokens).flatMap (.fixed .comma :: ·))
      (.sequence (earlier ++ later)) := by
  induction later generalizing ts earlier with
  | nil => simpa using first
  | cons e later ih =>
    obtain ⟨head, tail⟩ := List.forall_mem_cons.mp all
    have more : Derives (ts ++ .fixed .comma :: e.tokens) (.sequence (earlier ++ [e])) :=
      .more first rfl (loosen (Nat.zero_le _) head)
    simpa using ih more tail

theorem argumentsDerive {es : List Expr}
    (all : ∀ e ∈ es, Derives e.tokens (.expression e.level e)) :
    Derives (separated (exprsTokens es)) (.arguments es) := by
  rw [exprsTokensMap]
  cases es with
  | nil => exact .noArguments
  | cons e es =>
    obtain ⟨head, later⟩ := List.forall_mem_cons.mp all
    exact .plain (sequenceDerives (.one (loosen (Nat.zero_le _) head)) later)

theorem stmtsDerive {ss : List Stmt} (all : ∀ s ∈ ss, Derives s.tokens (.statement s)) :
    Derives (stmtsTokens ss) (.statements ss) := by
  induction ss with
  | nil => exact .noStatements
  | cons s ss ih =>
    obtain ⟨head, later⟩ := List.forall_mem_cons.mp all
    refine .followed head (.semicolon rfl (ih later)) ?_
    -- A semicolon ends every statement.
    cases s with
    | returning value => cases value <;> simp [Stmt.mayPrecede, Token.fixed, Token.unplaced,
        Connective.ofKind?]
    | _ => simp [Stmt.mayPrecede, Token.fixed, Token.unplaced, Connective.ofKind?]

def Node.Derivable : Node → Prop
  | stmt s => Derives s.tokens (.statement s)
  | expr e => Derives e.tokens (.expression e.level e)
  | block b => Derives b.tokens (.block b)
  | introduced _ | parameter _ => True

theorem Node.Legal.derivable {n : Node} (legal : n.Legal) : n.Derivable := by
  induction legal with
  | @mk n own _ ih =>
    have part (c : Node) (child : c ∈ n.children) : c.Derivable := ih c child
    clear ih
    cases n with
    | introduced i | parameter i => trivial
    | block b =>
      obtain ⟨ss, _⟩ := b
      have inner := stmtsDerive fun s member => part (.stmt s) (by simpa [children] using member)
      exact .braces rfl inner rfl
    | stmt s =>
      cases s with
      | binding name value =>
        have inner : Derives _ _ := part (.expr value) (by simp [children])
        exact .binding (n := name.token) rfl rfl rfl (loosen (Nat.zero_le _) inner)
      | returning value =>
        cases value with
        | none => exact .returning rfl
        | some value =>
          have inner : Derives _ _ := part (.expr value) (by simp [children])
          exact .returningValue rfl (loosen (Nat.zero_le _) inner)
      | expression value =>
        have inner : Derives _ _ := part (.expr value) (by simp [children])
        exact .expressionStatement (loosen (Nat.zero_le _) inner)
      | block body => exact .blockStatement (part (.block body) (by simp [children]))
    | expr e =>
      cases e with
      | integer value => exact .integer rfl (readNumeral own.1 own.2)
      | boolean value =>
        cases value with
        | true => exact .trueWord rfl
        | false => exact .falseWord rfl
      | string value => exact .string (t := .unplaced .string value) rfl
      | name ident => exact .name (t := ident.token) rfl
      | unary op operand =>
        have inner : Derives _ _ := part (.expr operand) (by simp [children])
        exact .unary (unarySign op) (groupedDerives inner Nat.le_of_not_lt)
      | binary op left right =>
        have first : Derives _ _ := part (.expr left) (by simp [children])
        have second : Derives _ _ := part (.expr right) (by simp [children])
        refine .binary (binarySign op) (groupedDerives first Nat.le_of_not_lt)
          (groupedDerives second fun tighter => ?_)
        have higher := Nat.lt_of_not_le tighter
        exact rankNext higher ▸ higher
      | conditional condition consequence alternative =>
        have test : Derives _ _ := part (.expr condition) (by simp [children])
        have first : Derives _ _ := part (.block consequence) (by simp [children])
        cases alternative with
        | none => exact .conditional rfl rfl (loosen (Nat.zero_le _) test) rfl first
        | some alternative =>
          have second : Derives _ _ := part (.block alternative) (by simp [children])
          exact .alternative rfl rfl (loosen (Nat.zero_le _) test) rfl first rfl second
      | function name parameters body =>
        have inner : Derives _ _ := part (.block body) (by simp [children])
        exact .function (headingDerives name) rfl (parametersDerive parameters) rfl inner
      | call callee arguments =>
        have function : Derives _ _ := part (.expr callee) (by simp [children])
        have values : Derives _ (.arguments arguments) :=
          argumentsDerive fun e member => part (.expr e) (by simp [children, member])
        exact .call (groupedDerives function Nat.le_of_not_lt) rfl values rfl

end derivations

end Scriptlet
