import Scriptlet.Proofs.Bare

/-! The grammar of programs, as what token lists may be read as.
Expressions have levels, each built from the next tighter one; an operator's left operand has the
level of the operator and its right operand the next one. Only kinds matter, and the texts of
names, strings and integers; spans are free in every rule. The end of input is no token of the
grammar. What makes it unambiguous is that a statement takes all tokens it can: see
`Stmt.mayPrecede`. -/
namespace Scriptlet

def Precedence.next : Precedence → Precedence
  | lowest => disjunction
  | disjunction => conjunction
  | conjunction => equality
  | equality => comparison
  | comparison => sum
  | sum => product
  | product => unary
  | unary | call => call

def Precedence.signs : Precedence → List (TokenKind × BinaryOp)
  | disjunction => [(.doublePipe, .or)]
  | conjunction => [(.doubleAmpersand, .and)]
  | equality => [(.doubleEqual, .equal), (.bangEqual, .notEqual)]
  | comparison =>
      [(.less, .less), (.greater, .greater), (.lessEqual, .lessEqual),
       (.greaterEqual, .greaterEqual)]
  | sum => [(.plus, .add), (.minus, .subtract)]
  | product => [(.asterisk, .multiply), (.slash, .divide)]
  | lowest | unary | call => []

def unarySigns : List (TokenKind × UnaryOp) := [(.bang, .not), (.minus, .negate)]

/- Whether the tokens that follow a statement in its list leave it as it is. An expression goes on
at every connective, and `return` takes an expression unless the statement ends there. -/
def Stmt.mayPrecede (following : List Token) : Stmt → Prop
  | block .. => True
  | returning none _ => ∀ t ∈ following.head?, t.kind = .semicolon
  | binding .. | returning (some _) _ | expression .. =>
      ∀ t ∈ following.head?, Connective.ofKind? t.kind = none

inductive Names : List Token → List Ident → Prop where
  | one {t span} (name : t.kind = .identifier) : Names [t] [⟨t.text, span⟩]
  | more {ts names comma t span} (earlier : Names ts names) (separator : comma.kind = .comma)
      (name : t.kind = .identifier) : Names (ts ++ [comma, t]) (names ++ [⟨t.text, span⟩])

inductive Parameters : List Token → List Ident → Prop where
  | none : Parameters [] []
  | plain {ts names} (all : Names ts names) : Parameters ts names
  | trailing {ts names comma} (all : Names ts names) (separator : comma.kind = .comma) :
      Parameters (ts ++ [comma]) names

inductive Heading : List Token → Option Ident → Prop where
  | anonymous {f} (word : f.kind = .functionWord) : Heading [f] none
  | named {f n span} (word : f.kind = .functionWord) (name : n.kind = .identifier) :
      Heading [f, n] (some ⟨n.text, span⟩)

inductive Phrase where
  | expression (level : Precedence) (e : Expr)
  | sequence (es : List Expr)
  | arguments (es : List Expr)
  | block (b : Block)
  | statement (s : Stmt)
  | statements (ss : List Stmt)

open Phrase

inductive Derives : List Token → Phrase → Prop where
  | tighter {ts level e} (inner : Derives ts (expression level.next e)) :
      Derives ts (expression level e)
  | binary {ls t rs level op left right span} (sign : (t.kind, op) ∈ level.signs)
      (first : Derives ls (expression level left))
      (second : Derives rs (expression level.next right)) :
      Derives (ls ++ t :: rs) (expression level (.binary op left right span))
  | unary {t ts op operand span} (sign : (t.kind, op) ∈ unarySigns)
      (inner : Derives ts (expression .unary operand)) :
      Derives (t :: ts) (expression .unary (.unary op operand span))
  | call {ts l us r callee arguments span} (function : Derives ts (expression .call callee))
      (opening : l.kind = .leftParen) (values : Derives us (.arguments arguments))
      (closing : r.kind = .rightParen) :
      Derives (ts ++ l :: (us ++ [r])) (expression .call (.call callee arguments span))
  | integer {t n span} (kind : t.kind = .integer) (value : readInteger? t.text = some n) :
      Derives [t] (expression .call (.integer n span))
  | string {t span} (kind : t.kind = .string) :
      Derives [t] (expression .call (.string t.text span))
  | trueWord {t span} (kind : t.kind = .trueWord) :
      Derives [t] (expression .call (.boolean true span))
  | falseWord {t span} (kind : t.kind = .falseWord) :
      Derives [t] (expression .call (.boolean false span))
  | name {t span} (kind : t.kind = .identifier) :
      Derives [t] (expression .call (.name ⟨t.text, span⟩))
  | grouped {l ts r e} (opening : l.kind = .leftParen) (inner : Derives ts (expression .lowest e))
      (closing : r.kind = .rightParen) : Derives (l :: (ts ++ [r])) (expression .call e)
  | conditional {i l ts r us test first span} (word : i.kind = .ifWord)
      (opening : l.kind = .leftParen) (condition : Derives ts (expression .lowest test))
      (closing : r.kind = .rightParen) (consequence : Derives us (block first)) :
      Derives (i :: l :: (ts ++ r :: us)) (expression .call (.conditional test first none span))
  | alternative {i l ts r us w vs test first second span} (word : i.kind = .ifWord)
      (opening : l.kind = .leftParen) (condition : Derives ts (expression .lowest test))
      (closing : r.kind = .rightParen) (consequence : Derives us (block first))
      (otherwise : w.kind = .elseWord) (last : Derives vs (block second)) :
      Derives (i :: l :: (ts ++ r :: (us ++ w :: vs)))
        (expression .call (.conditional test first (some second) span))
  | function {hs own l ts r us parameters body span} (heading : Heading hs own)
      (opening : l.kind = .leftParen) (names : Parameters ts parameters)
      (closing : r.kind = .rightParen) (inner : Derives us (block body)) :
      Derives (hs ++ l :: (ts ++ r :: us)) (expression .call (.function own parameters body span))
  | one {ts e} (only : Derives ts (expression .lowest e)) : Derives ts (sequence [e])
  | more {ts comma us es e} (earlier : Derives ts (sequence es)) (separator : comma.kind = .comma)
      (last : Derives us (expression .lowest e)) :
      Derives (ts ++ comma :: us) (sequence (es ++ [e]))
  | noArguments : Derives [] (arguments [])
  | plain {ts es} (all : Derives ts (sequence es)) : Derives ts (arguments es)
  | trailing {ts comma es} (all : Derives ts (sequence es)) (separator : comma.kind = .comma) :
      Derives (ts ++ [comma]) (arguments es)
  | braces {l ts r ss span} (opening : l.kind = .leftBrace) (inner : Derives ts (statements ss))
      (closing : r.kind = .rightBrace) : Derives (l :: (ts ++ [r])) (block (.mk ss span))
  | binding {w n s ts own value span} (word : w.kind = .letWord) (name : n.kind = .identifier)
      (sign : s.kind = .equal) (inner : Derives ts (expression .lowest value)) :
      Derives (w :: n :: s :: ts) (statement (.binding ⟨n.text, own⟩ value span))
  | returning {w span} (word : w.kind = .returnWord) :
      Derives [w] (statement (.returning none span))
  | returningValue {w ts value span} (word : w.kind = .returnWord)
      (inner : Derives ts (expression .lowest value)) :
      Derives (w :: ts) (statement (.returning (some value) span))
  | expressionStatement {ts value span} (inner : Derives ts (expression .lowest value)) :
      Derives ts (statement (.expression value span))
  | blockStatement {ts body span} (inner : Derives ts (block body)) :
      Derives ts (statement (.block body span))
  | noStatements : Derives [] (statements [])
  | semicolon {t ts ss} (sign : t.kind = .semicolon) (later : Derives ts (statements ss)) :
      Derives (t :: ts) (statements ss)
  | followed {ts us s ss} (head : Derives ts (statement s)) (later : Derives us (statements ss))
      (whole : s.mayPrecede us) : Derives (ts ++ us) (statements (s :: ss))

def beforeEnd (ts : List Token) : List Token := ts.takeWhile (·.kind ≠ .endOfInput)

def Derived (ts : List Token) (p : Program) : Prop :=
  ∃ q : Program, Derives ts (statements q.statements) ∧ q.bare = p.bare

theorem rankNext {p q : Precedence} (h : p.rank < q.rank) : p.next.rank = p.rank + 1 := by
  cases p with
  | call => cases q <;> contradiction
  | _ => rfl

theorem rankInjective {p q : Precedence} (h : p.rank = q.rank) : p = q := by
  cases p <;> cases q <;> first | rfl | contradiction

theorem loosen {ts e} {p q : Precedence} (looser : p.rank ≤ q.rank)
    (inner : Derives ts (expression q e)) : Derives ts (expression p e) := by
  rcases Nat.eq_or_lt_of_le looser with same | lower
  · rwa [rankInjective same]
  · have step := rankNext lower
    exact .tighter (loosen (step ▸ lower) inner)
termination_by q.rank - p.rank
decreasing_by omega

namespace TokenKind

def startsExpression : TokenKind → Bool
  | bang | minus | integer | string | trueWord | falseWord | identifier | leftParen | ifWord
  | functionWord => true
  | _ => false

def startsStatement (k : TokenKind) : Bool :=
  k.startsExpression || k = letWord || k = returnWord || k = leftBrace

end TokenKind

namespace Phrase

def opens : Phrase → List Token → Prop
  | expression _ _, ts | sequence _, ts => ∃ t us, ts = t :: us ∧ t.kind.startsExpression
  | block _, ts => ∃ t us, ts = t :: us ∧ t.kind = .leftBrace
  | statement _, ts => ∃ t us, ts = t :: us ∧ t.kind.startsStatement
  | arguments _, ts => ∀ t ∈ ts.head?, t.kind.startsExpression
  | statements _, ts => ∀ t ∈ ts.head?, t.kind = .semicolon ∨ t.kind.startsStatement

end Phrase

theorem opensInside {k : TokenKind} (opens : k = .semicolon ∨ k.startsStatement) :
    k ≠ .elseWord ∧ k ≠ .rightBrace ∧ k ≠ .endOfInput := by
  rcases opens with rfl | starts
  · decide
  · cases k <;> first | contradiction | decide

theorem opensAppend {ts : List Token} {p : Token → Prop} (us : List Token)
    (h : ∃ t rest, ts = t :: rest ∧ p t) : ∃ t rest, ts ++ us = t :: rest ∧ p t := by
  obtain ⟨t, rest, rfl, ht⟩ := h
  exact ⟨t, rest ++ us, rfl, ht⟩

theorem signStarts {k : TokenKind} {op : UnaryOp} (sign : (k, op) ∈ unarySigns) :
    k.startsExpression := by
  simp only [unarySigns, List.mem_cons, Prod.mk.injEq, List.not_mem_nil, or_false] at sign
  rcases sign with ⟨rfl, _⟩ | ⟨rfl, _⟩ <;> rfl

theorem Derives.opens {ts phrase} (h : Derives ts phrase) : phrase.opens ts := by
  induction h with
  | tighter _ ih | one _ ih => exact ih
  | binary _ _ _ ih _ | call _ _ _ _ ih _ | more _ _ _ ih _ => exact opensAppend _ ih
  | unary sign _ _ => exact ⟨_, _, rfl, signStarts sign⟩
  | integer kind | string kind | trueWord kind | falseWord kind | name kind | grouped kind
  | conditional kind | alternative kind => exact ⟨_, _, rfl, by rw [kind]; rfl⟩
  | function heading =>
    cases heading with
    | anonymous word | named word => exact ⟨_, _, rfl, by rw [word]; rfl⟩
  | noArguments | noStatements => simp [Phrase.opens]
  | plain _ ih | trailing _ _ ih =>
    obtain ⟨t, us, rfl, starts⟩ := ih
    simpa [Phrase.opens] using starts
  | braces opening => exact ⟨_, _, rfl, opening⟩
  | binding word | returning word | returningValue word =>
    exact ⟨_, _, rfl, by rw [word]; rfl⟩
  | expressionStatement _ ih =>
    obtain ⟨t, us, rfl, starts⟩ := ih
    exact ⟨t, us, rfl, by simp [TokenKind.startsStatement, starts]⟩
  | blockStatement _ ih =>
    obtain ⟨t, us, rfl, kind⟩ := ih
    exact ⟨t, us, rfl, by rw [kind]; rfl⟩
  | semicolon sign => simp [Phrase.opens, sign]
  | followed _ _ _ ih _ =>
    obtain ⟨t, us, rfl, starts⟩ := ih
    simpa [Phrase.opens] using .inr starts

def Endless (ts : List Token) : Prop := ∀ t ∈ ts, t.kind ≠ .endOfInput

@[simp] theorem endlessNil : Endless [] := by
  simp [Endless]

@[simp] theorem endlessCons {t : Token} {ts : List Token} :
    Endless (t :: ts) ↔ t.kind ≠ .endOfInput ∧ Endless ts :=
  List.forall_mem_cons

@[simp] theorem endlessAppend {ts us : List Token} :
    Endless (ts ++ us) ↔ Endless ts ∧ Endless us :=
  List.forall_mem_append

theorem signInside {p : Precedence} {k : TokenKind} {op : BinaryOp} (sign : (k, op) ∈ p.signs) :
    k ≠ .endOfInput := by
  rintro rfl
  cases p <;> simp [Precedence.signs] at sign

theorem startInside {k : TokenKind} (starts : k.startsExpression) : k ≠ .endOfInput := by
  rintro rfl
  contradiction

theorem Names.endless {ts names} (h : Names ts names) : Endless ts := by
  induction h with
  | one name => simp [name]
  | more _ separator name ih => simp [ih, separator, name]

theorem Parameters.endless {ts names} (h : Parameters ts names) : Endless ts := by
  cases h with
  | none => simp
  | plain all => exact all.endless
  | trailing all separator => simp [all.endless, separator]

theorem Heading.endless {ts own} (h : Heading ts own) : Endless ts := by
  cases h <;> simp [*]

theorem Derives.endless {ts phrase} (h : Derives ts phrase) : Endless ts := by
  induction h with
  | binary sign _ _ ih ih' => simp [signInside sign, ih, ih']
  | unary sign _ ih => simp [startInside (signStarts sign), ih]
  | function heading _ names _ _ ih => simp [heading.endless, names.endless, *]
  | _ => simp [*]

end Scriptlet
