import Scriptlet.Proofs.OperationRules
import Scriptlet.Session

/-! The rules of evaluation, as what can be derived of a task in a scope and a store.
An outcome that is no result passes unchanged from the part in which it arises through all that is
around it, up to the call or program it leaves. `limit` bounds the bodies that are running, of which
there are `active`. -/
namespace Scriptlet

inductive Bound (s : Store) (name : String) (v : Value) : List Nat → Prop where
  | here {own outer} (found : (s.frame own).lookup name = some v) : Bound s name v (own :: outer)
  | outward {own outer} (absent : (s.frame own).lookup name = none) (around : Bound s name v outer) :
      Bound s name v (own :: outer)

def Unbound (s : Store) (name : String) (chain : List Nat) : Prop :=
  ∀ own ∈ chain, (s.frame own).lookup name = none

def Store.create (s : Store) : Store := { s with created := s.created + 1 }

def Store.defineAll (scope : Scope) : List Ident → List Value → Store → Store
  | p :: ps, v :: vs, s => defineAll scope ps vs (s.define scope p.text v)
  | _, _, s => s

namespace Outcome

variable {α β : Type}

inductive Out : Outcome α → Outcome β → Prop where
  | leaving (v : Value) : Out (.leaving v) (.leaving v)
  | failure (e : EvalError) : Out (.failure e) (.failure e)

def ofExcept (span : Span) : Except EvalFault α → Outcome α
  | .ok a => .result a
  | .error fault => .failure ⟨fault, span⟩

def ofCall : Outcome Value → Outcome Value
  | .leaving v => .result v
  | o => o

def final : Outcome Value → Except EvalError Value
  | .result v | .leaving v => .ok v
  | .failure e => .error e

end Outcome

/- What is to be evaluated, with the type of its results. Statements come with the value so far. -/
inductive Job : Type → Type where
  | expr (e : Expr) : Job Value
  | exprs (es : List Expr) : Job (List Value)
  | stmt (s : Stmt) : Job Value
  | stmts (last : Value) (ss : List Stmt) : Job Value
  | block (b : Block) : Job Value
  | application (f : Closure) (arguments : List Value) (span : Span) : Job Value

open Outcome Job

inductive Runs (limit : Nat) :
    {α : Type} → Nat → Scope → Store → Job α → Outcome α → Store → Prop where
  | integer {active scope s n span} : Runs limit active scope s (expr (.integer n span))
      (result (.integer n)) s
  | boolean {active scope s b span} : Runs limit active scope s (expr (.boolean b span))
      (result (.boolean b)) s
  | string {active scope s text span} : Runs limit active scope s (expr (.string text span))
      (result (.string text)) s
  | name {active scope s ident v} (bound : Bound s ident.text v scope.chain) :
      Runs limit active scope s (expr (.name ident)) (result v) s
  | unbound {active scope s ident} (absent : Unbound s ident.text scope.chain) :
      Runs limit active scope s (expr (.name ident))
        (failure ⟨.unboundIdentifier ident.text, ident.span⟩) s
  | unary {active scope s s₁ op operand span v r}
      (inner : Runs limit active scope s (expr operand) (result v) s₁)
      (computed : UnaryRule op v r) :
      Runs limit active scope s (expr (.unary op operand span)) (ofExcept span r) s₁
  | unaryOut {active scope s s₁ op operand span o o'}
      (inner : Runs limit active scope s (expr operand) o s₁) (out : Out o o') :
      Runs limit active scope s (expr (.unary op operand span)) o' s₁
  | binary {active scope s s₁ s₂ op left right span v w r}
      (first : Runs limit active scope s (expr left) (result v) s₁)
      (second : Runs limit active scope s₁ (expr right) (result w) s₂)
      (computed : BinaryRule op v w r) :
      Runs limit active scope s (expr (.binary op left right span)) (ofExcept span r) s₂
  | leftOut {active scope s s₁ op left right span o o'}
      (first : Runs limit active scope s (expr left) o s₁) (out : Out o o') :
      Runs limit active scope s (expr (.binary op left right span)) o' s₁
  | rightOut {active scope s s₁ s₂ op left right span v o o'}
      (first : Runs limit active scope s (expr left) (result v) s₁)
      (second : Runs limit active scope s₁ (expr right) o s₂) (out : Out o o') :
      Runs limit active scope s (expr (.binary op left right span)) o' s₂
  | consequence {active scope s s₁ s₂ test first second span v o}
      (condition : Runs limit active scope s (expr test) (result v) s₁) (holds : ¬ Falsy v)
      (branch : Runs limit active scope s₁ (block first) o s₂) :
      Runs limit active scope s (expr (.conditional test first second span)) o s₂
  | alternative {active scope s s₁ s₂ test first second span v o}
      (condition : Runs limit active scope s (expr test) (result v) s₁) (fails : Falsy v)
      (branch : Runs limit active scope s₁ (block second) o s₂) :
      Runs limit active scope s (expr (.conditional test first (some second) span)) o s₂
  | noAlternative {active scope s s₁ test first span v}
      (condition : Runs limit active scope s (expr test) (result v) s₁)
      (fails : Falsy v) :
      Runs limit active scope s (expr (.conditional test first none span)) (result .unit) s₁
  | conditionOut {active scope s s₁ test first second span o o'}
      (condition : Runs limit active scope s (expr test) o s₁) (out : Out o o') :
      Runs limit active scope s (expr (.conditional test first second span)) o' s₁
  | anonymous {active scope s parameters body span} :
      Runs limit active scope s (expr (.function none parameters body span))
        (result (.function ⟨s.created, none, parameters, body, scope⟩)) s.create
  | named {active scope s own parameters body span f}
      (function : f = .function ⟨s.created, some own, parameters, body, scope⟩) :
      Runs limit active scope s (expr (.function (some own) parameters body span))
        (result f) (s.create.define scope own.text f)
  | call {active scope s s₁ s₂ s₃ callee arguments span f vs o}
      (function : Runs limit active scope s (expr callee) (result (.function f)) s₁)
      (values : Runs limit active scope s₁ (exprs arguments) (result vs) s₂)
      (applied : Runs limit active scope s₂ (application f vs span) o s₃) :
      Runs limit active scope s (expr (.call callee arguments span)) o s₃
  | notCallable {active scope s s₁ callee arguments span v}
      (other : Runs limit active scope s (expr callee) (result v) s₁)
      (kind : ∀ f, v ≠ .function f) :
      Runs limit active scope s (expr (.call callee arguments span))
        (failure ⟨.notCallable v, callee.span⟩) s₁
  | calleeOut {active scope s s₁ callee arguments span o o'}
      (function : Runs limit active scope s (expr callee) o s₁) (out : Out o o') :
      Runs limit active scope s (expr (.call callee arguments span)) o' s₁
  | argumentsOut {active scope s s₁ s₂ callee arguments span f o o'}
      (function : Runs limit active scope s (expr callee) (result (.function f)) s₁)
      (values : Runs limit active scope s₁ (exprs arguments) o s₂) (out : Out o o') :
      Runs limit active scope s (expr (.call callee arguments span)) o' s₂
  | noExprs {active scope s} : Runs limit active scope s (exprs []) (result []) s
  | moreExprs {active scope s s₁ s₂ e es v vs}
      (head : Runs limit active scope s (expr e) (result v) s₁)
      (tail : Runs limit active scope s₁ (exprs es) (result vs) s₂) :
      Runs limit active scope s (exprs (e :: es)) (result (v :: vs)) s₂
  | headOut {active scope s s₁ e es o o'}
      (head : Runs limit active scope s (expr e) o s₁) (out : Out o o') :
      Runs limit active scope s (exprs (e :: es)) o' s₁
  | tailOut {active scope s s₁ s₂ e es v o o'}
      (head : Runs limit active scope s (expr e) (result v) s₁)
      (tail : Runs limit active scope s₁ (exprs es) o s₂) (out : Out o o') :
      Runs limit active scope s (exprs (e :: es)) o' s₂
  | wrongArity {active scope s f vs span} (differ : f.parameters.length ≠ vs.length) :
      Runs limit active scope s (application f vs span)
        (failure ⟨.wrongArity (f.name.map Ident.text) f.parameters.length vs.length, span⟩) s
  | tooDeep {active scope s f vs span} (arity : f.parameters.length = vs.length)
      (full : limit ≤ active) :
      Runs limit active scope s (application f vs span) (failure ⟨.tooDeep limit, span⟩) s
  | entered {active scope s inner s₁ s₂ f vs span o} (arity : f.parameters.length = vs.length)
      (free : active < limit) (opened : s.openChild f.scope = (inner, s₁))
      (body : Runs limit (active + 1) inner (s₁.defineAll inner f.parameters vs)
        (stmts .unit f.body.statements) o s₂) :
      Runs limit active scope s (application f vs span) o.ofCall s₂
  | binding {active scope s s₁ own e span v}
      (value : Runs limit active scope s (expr e) (result v) s₁) :
      Runs limit active scope s (stmt (.binding own e span)) (result .unit)
        (s₁.define scope own.text v)
  | bindingOut {active scope s s₁ own e span o o'}
      (value : Runs limit active scope s (expr e) o s₁) (out : Out o o') :
      Runs limit active scope s (stmt (.binding own e span)) o' s₁
  | returning {active scope s span} :
      Runs limit active scope s (stmt (.returning none span)) (leaving .unit) s
  | returningValue {active scope s s₁ e span v}
      (value : Runs limit active scope s (expr e) (result v) s₁) :
      Runs limit active scope s (stmt (.returning (some e) span)) (leaving v) s₁
  | returningOut {active scope s s₁ e span o o'}
      (value : Runs limit active scope s (expr e) o s₁) (out : Out o o') :
      Runs limit active scope s (stmt (.returning (some e) span)) o' s₁
  | expression {active scope s s₁ e span o} (value : Runs limit active scope s (expr e) o s₁) :
      Runs limit active scope s (stmt (.expression e span)) o s₁
  | blockStatement {active scope s s₁ b span o} (body : Runs limit active scope s (block b) o s₁) :
      Runs limit active scope s (stmt (.block b span)) o s₁
  | noStatements {active scope s last} :
      Runs limit active scope s (stmts last []) (result last) s
  | moreStatements {active scope s s₁ s₂ last t ts v o}
      (head : Runs limit active scope s (stmt t) (result v) s₁)
      (tail : Runs limit active scope s₁ (stmts v ts) o s₂) :
      Runs limit active scope s (stmts last (t :: ts)) o s₂
  | statementOut {active scope s s₁ last t ts o o'}
      (head : Runs limit active scope s (stmt t) o s₁) (out : Out o o') :
      Runs limit active scope s (stmts last (t :: ts)) o' s₁
  | inside {active scope s inner s₁ s₂ ss span o} (opened : s.openChild scope = (inner, s₁))
      (body : Runs limit active inner s₁ (stmts .unit ss) o s₂) :
      Runs limit active scope s (block (.mk ss span)) o s₂

/- A program runs in the global scope with no body active; its value may also leave it. -/
inductive ProgramRuns (limit : Nat) (globals : Scope) (s : Store) (p : Program) :
    Except EvalError Value → Store → Prop where
  | ended {v s₁} (body : Runs limit 0 globals s (stmts .unit p.statements) (result v) s₁) :
      ProgramRuns limit globals s p (.ok v) s₁
  | left {v s₁} (body : Runs limit 0 globals s (stmts .unit p.statements) (leaving v) s₁) :
      ProgramRuns limit globals s p (.ok v) s₁
  | failed {e s₁} (body : Runs limit 0 globals s (stmts .unit p.statements) (failure e) s₁) :
      ProgramRuns limit globals s p (.error e) s₁

end Scriptlet
