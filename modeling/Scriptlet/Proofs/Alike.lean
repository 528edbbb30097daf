import Mathlib.Data.List.Forall2
import Scriptlet.Proofs.Relabeling
import Scriptlet.Proofs.RulesExact

/-! Evaluation under other labels.
Two runs are alike if what they do differs in nothing but labels: names are exchanged by one map
that keeps them apart, and each function has the spans of its tree changed by some map of a given
set, from the moment it is created. All that evaluation is made of keeps machines alike, so trees
that are alike are evaluated alike. Numbers of scopes and of functions are the same in both runs,
hence also which functions are the same. -/
namespace Scriptlet

structure Labeling where
  name : String → String
  distinct : name.Injective
  spans : (Span → Span) → Prop

def Closure.relabel (n : String → String) (g : Span → Span) (f : Closure) : Closure :=
  ⟨f.creation, f.name.map (Ident.relabel n g), f.parameters.map (Ident.relabel n g),
    f.body.relabel n g, f.scope⟩

inductive ExceptAlike {ε α : Type} (E : ε → ε → Prop) (R : α → α → Prop) :
    Except ε α → Except ε α → Prop where
  | ok {a a'} (values : R a a') : ExceptAlike E R (.ok a) (.ok a')
  | error {e e'} (errors : E e e') : ExceptAlike E R (.error e) (.error e')

section relations

variable (L : Labeling)

inductive Value.Alike : Value → Value → Prop where
  | integer (k : Int) : Alike (.integer k) (.integer k)
  | boolean (b : Bool) : Alike (.boolean b) (.boolean b)
  | string (s : String) : Alike (.string s) (.string s)
  | function {g} (allowed : L.spans g) (f : Closure) :
      Alike (.function f) (.function (f.relabel L.name g))
  | unit : Alike .unit .unit

inductive EvalFault.Alike : EvalFault → EvalFault → Prop where
  | unboundIdentifier (name : String) :
      Alike (.unboundIdentifier name) (.unboundIdentifier (L.name name))
  | illegalUnary (op : UnaryOp) {v v'} (operand : v.Alike L v') :
      Alike (.illegalUnary op v) (.illegalUnary op v')
  | illegalBinary (op : BinaryOp) {v v' w w'} (left : v.Alike L v') (right : w.Alike L w') :
      Alike (.illegalBinary op v w) (.illegalBinary op v' w')
  | notCallable {v v'} (callee : v.Alike L v') : Alike (.notCallable v) (.notCallable v')
  | wrongArity (function : Option String) (expected given : Nat) :
      Alike (.wrongArity function expected given)
        (.wrongArity (function.map L.name) expected given)
  | divisionByZero : Alike .divisionByZero .divisionByZero
  | integerOverflow (symbol : String) : Alike (.integerOverflow symbol) (.integerOverflow symbol)
  | tooDeep (depth : Nat) : Alike (.tooDeep depth) (.tooDeep depth)

structure EvalError.Alike (e e' : EvalError) : Prop where
  fault : e.fault.Alike L e'.fault
  span : ∃ g, L.spans g ∧ e'.span = g e.span

def Binding.Alike (b b' : String × Value) : Prop := b'.1 = L.name b.1 ∧ b.2.Alike L b'.2

def Frame.Alike : Frame → Frame → Prop := List.Forall₂ (Binding.Alike L)

structure Store.Alike (s s' : Store) : Prop where
  size : s'.frames.size = s.frames.size
  created : s'.created = s.created
  frames : ∀ i, Frame.Alike L (s.frame i) (s'.frame i)

structure Machine.Alike (m m' : Machine) : Prop where
  store : m.store.Alike L m'.store
  current : m'.current = m.current
  active : m'.active = m.active

inductive Outcome.Alike {α : Type} (R : α → α → Prop) : Outcome α → Outcome α → Prop where
  | result {a a'} (values : R a a') : Alike R (.result a) (.result a')
  | leaving {v v'} (values : v.Alike L v') : Alike R (.leaving v) (.leaving v')
  | failure {e e'} (errors : e.Alike L e') : Alike R (.failure e) (.failure e')

def Exec.Alike {α : Type} (R : α → α → Prop) (x y : Exec α) : Prop :=
  ∀ m m', m.Alike L m' → (x m).1.Alike L R (y m').1 ∧ (x m).2.Alike L (y m').2

def Application.Alike (apply : Application) : Prop :=
  ∀ f g vs vs' span h, L.spans g → L.spans h → List.Forall₂ (Value.Alike L) vs vs' →
    (apply f vs span).Alike L (Value.Alike L) (apply (f.relabel L.name g) vs' (h span))

end relations

section operators

variable {L : Labeling} {v v' w w' : Value}

theorem Value.Alike.truthy (same : v.Alike L v') : v'.truthy = v.truthy := by
  cases same <;> rfl

theorem Value.Alike.equal (left : v.Alike L v') (right : w.Alike L w') :
    v'.same w' = v.same w := by
  cases left <;> cases right <;> rfl

theorem UnaryOp.applyAlike (op : UnaryOp) (operand : v.Alike L v') :
    ExceptAlike (EvalFault.Alike L) (Value.Alike L) (op.apply v) (op.apply v') := by
  cases op with
  | not =>
    rw [apply, apply, operand.truthy]
    exact .ok (.boolean _)
  | negate =>
    cases operand with
    | integer k =>
      rw [apply]
      split
      · exact .ok (.integer _)
      · exact .error (.integerOverflow _)
    | boolean b => exact .error (.illegalUnary _ (.boolean b))
    | string s => exact .error (.illegalUnary _ (.string s))
    | function allowed f => exact .error (.illegalUnary _ (.function allowed f))
    | unit => exact .error (.illegalUnary _ .unit)

theorem BinaryOp.arithmeticAlike (op : BinaryOp) (f : Int → Int → Int) (left : v.Alike L v')
    (right : w.Alike L w') : ExceptAlike (EvalFault.Alike L) (Value.Alike L)
      (op.arithmetic f v w) (op.arithmetic f v' w') := by
  have illegal := EvalFault.Alike.illegalBinary op left right
  cases left with
  | integer k =>
    cases right with
    | integer l =>
      rw [arithmetic]
      split
      · exact .ok (.integer _)
      · exact .error (.integerOverflow _)
    | _ => exact .error illegal
  | _ => exact .error illegal

theorem BinaryOp.comparisonAlike (op : BinaryOp) (p : Int → Int → Bool) (left : v.Alike L v')
    (right : w.Alike L w') : ExceptAlike (EvalFault.Alike L) (Value.Alike L)
      (op.comparison p v w) (op.comparison p v' w') := by
  have illegal := EvalFault.Alike.illegalBinary op left right
  cases left with
  | integer k =>
    cases right with
    | integer l => exact .ok (.boolean _)
    | _ => exact .error illegal
  | _ => exact .error illegal

theorem BinaryOp.applyAlike (op : BinaryOp) (left : v.Alike L v') (right : w.Alike L w') :
    ExceptAlike (EvalFault.Alike L) (Value.Alike L) (op.apply v w) (op.apply v' w') := by
  cases op with
  | add | subtract | multiply => exact arithmeticAlike _ _ left right
  | less | lessEqual | greater | greaterEqual => exact comparisonAlike _ _ left right
  | equal | notEqual =>
    rw [apply, apply, left.equal right]
    exact .ok (.boolean _)
  | and | or =>
    rw [apply, apply, left.truthy, right.truthy]
    exact .ok (.boolean _)
  | divide =>
    have quotient := arithmeticAlike divide Int.tdiv left right
    cases left with
    | integer k =>
      cases right with
      | integer l =>
        simp only [apply]
        split
        · exact .error .divisionByZero
        · exact quotient
      | _ => exact quotient
    | _ => exact quotient

end operators

section stores

variable {L : Labeling} {s s' : Store} {v v' : Value}

theorem Frame.Alike.lookup {frame frame' : Frame} (alike : Frame.Alike L frame frame')
    (name : String) : Option.Rel (Value.Alike L) (frame.lookup name)
      (frame'.lookup (L.name name)) := by
  induction alike with
  | nil => exact .none
  | @cons b b' frame frame' same _ ih =>
    obtain ⟨own, v⟩ := b
    obtain ⟨own', v'⟩ := b'
    obtain ⟨rfl, values⟩ := same
    by_cases found : name = own
    · subst found
      rw [List.lookup_cons_self, List.lookup_cons_self]
      exact .some values
    · have apart := mt (@L.distinct name own) found
      rw [List.lookup_cons, List.lookup_cons, beq_false_of_ne found, beq_false_of_ne apart]
      exact ih

theorem Frame.Alike.parameters {vs vs' : List Value}
    (values : List.Forall₂ (Value.Alike L) vs vs') (names : List String) :
    Frame.Alike L (names.zip vs).reverse ((names.map L.name).zip vs').reverse := by
  refine List.rel_reverse ?_
  induction values generalizing names with
  | nil => simp
  | cons same _ ih =>
    cases names with
    | nil => exact .nil
    | cons name names => exact .cons ⟨rfl, same⟩ (ih names)

theorem Store.Alike.lookup (stores : s.Alike L s') (scope : Scope) (name : String) :
    Option.Rel (Value.Alike L) (s.lookup? scope name) (s'.lookup? scope (L.name name)) := by
  unfold Store.lookup?
  induction scope.chain with
  | nil => exact .none
  | cons own outer ih =>
    have found := (stores.frames own).lookup name
    rw [List.findSome?_cons, List.findSome?_cons]
    revert found
    cases (s.frame own).lookup name <;> cases (s'.frame own).lookup (L.name name) <;> intro found
    · exact ih
    · cases found
    · cases found
    · exact found

theorem Store.Alike.define (stores : s.Alike L s') (scope : Scope) (name : String)
    (values : v.Alike L v') :
    (s.define scope name v).Alike L (s'.define scope (L.name name) v') where
  size := by simp [Store.define, stores.size]
  created := stores.created
  frames i := by
    rw [Store.frameDefine, Store.frameDefine, stores.size]
    split
    · exact .cons ⟨rfl, values⟩ (stores.frames i)
    · exact stores.frames i

theorem Store.Alike.openScope (stores : s.Alike L s') (outer : List Nat) {frame frame' : Frame}
    (bindings : Frame.Alike L frame frame') :
    (s'.openScope outer frame').1 = (s.openScope outer frame).1 ∧
      (s.openScope outer frame).2.Alike L (s'.openScope outer frame').2 := by
  refine ⟨by simp [Store.openScope, stores.size], ?_, stores.created, fun i => ?_⟩
  · simp [Store.openScope, stores.size]
  · rw [Store.frameOpen, Store.frameOpen, stores.size]
    split
    · exact bindings
    · exact stores.frames i

end stores

section actions

variable {L : Labeling} {α β : Type} {R : α → α → Prop} {S : β → β → Prop}

namespace Exec

theorem pureAlike {a a' : α} (values : R a a') :
    Exec.Alike L R (Pure.pure a) (Pure.pure a') :=
  fun _ _ machines => ⟨.result values, machines⟩

theorem bindAlike {x x' : Exec α} {f f' : α → Exec β} (first : x.Alike L R x')
    (next : ∀ a a', R a a' → (f a).Alike L S (f' a')) : Exec.Alike L S (x >>= f) (x' >>= f') := by
  intro m m' machines
  obtain ⟨outcomes, after⟩ := first m m' machines
  change (bind x f m).1.Alike L S (bind x' f' m').1 ∧ (bind x f m).2.Alike L (bind x' f' m').2
  simp only [bind]
  revert outcomes after
  obtain ⟨o, m₁⟩ := x m
  obtain ⟨o', m₁'⟩ := x' m'
  intro outcomes after
  cases outcomes with
  | result values => exact next _ _ values m₁ m₁' after
  | leaving values => exact ⟨.leaving values, after⟩
  | failure errors => exact ⟨.failure errors, after⟩

theorem failAlike {fault fault' : EvalFault} {span : Span} {g : Span → Span}
    (faults : fault.Alike L fault') (allowed : L.spans g) :
    Exec.Alike L R (fail fault span) (fail fault' (g span)) :=
  fun _ _ machines => ⟨.failure ⟨faults, g, allowed, rfl⟩, machines⟩

theorem leaveAlike {v v' : Value} (values : v.Alike L v') :
    Exec.Alike L R (leave v) (leave v') :=
  fun _ _ machines => ⟨.leaving values, machines⟩

theorem liftAlike {r r' : Except EvalFault α} {span : Span} {g : Span → Span}
    (computed : ExceptAlike (EvalFault.Alike L) R r r') (allowed : L.spans g) :
    Exec.Alike L R (lift r span) (lift r' (g span)) := by
  intro m m' machines
  cases computed with
  | ok values => exact ⟨.result values, machines⟩
  | error faults => exact ⟨.failure ⟨faults, g, allowed, rfl⟩, machines⟩

theorem lookupAlike {g : Span → Span} (allowed : L.spans g) (ident : Ident) :
    Exec.Alike L (Value.Alike L) (lookup ident) (lookup (ident.relabel L.name g)) := by
  intro m m' machines
  have found := machines.store.lookup m.current ident.text
  simp only [lookup, Ident.relabel, machines.current]
  revert found
  cases m.store.lookup? m.current ident.text <;>
    cases m'.store.lookup? m.current (L.name ident.text) <;> intro found
  · exact ⟨.failure ⟨.unboundIdentifier _, g, allowed, rfl⟩, machines⟩
  · cases found
  · cases found
  · cases found with | some values => exact ⟨.result values, machines⟩

theorem defineAlike {g : Span → Span} {v v' : Value} (name : Ident) (values : v.Alike L v') :
    Exec.Alike L (· = ·) (define name v) (define (name.relabel L.name g) v') := by
  intro m m' machines
  refine ⟨.result rfl, ?_, machines.current, machines.active⟩
  simp only [define, Ident.relabel, machines.current]
  exact machines.store.define m.current name.text values

theorem createAlike {g : Span → Span} (name : Option Ident) (parameters : List Ident)
    (body : Block) : Exec.Alike L (fun f f' => f' = f.relabel L.name g)
      (create name parameters body) (create (name.map (Ident.relabel L.name g))
        (parameters.map (Ident.relabel L.name g)) (body.relabel L.name g)) := by
  intro m m' machines
  obtain ⟨stores, current, active⟩ := machines
  have created := stores.created
  refine ⟨.result ?_, ⟨stores.size, congrArg (· + 1) created, stores.frames⟩, current, active⟩
  simp only [Closure.relabel, created, current]

theorem insideAlike {x x' : Exec α} (outer : Scope) {frame frame' : Frame}
    (bindings : Frame.Alike L frame frame') (body : x.Alike L R x') :
    Exec.Alike L R (inside outer frame x) (inside outer frame' x') := by
  intro m m' machines
  obtain ⟨scopes, stores⟩ := machines.store.openScope outer.chain bindings
  have opened : Machine.Alike L
      ⟨(m.store.openScope outer.chain frame).2, (m.store.openScope outer.chain frame).1, m.active⟩
      ⟨(m'.store.openScope outer.chain frame').2, (m'.store.openScope outer.chain frame').1,
        m'.active⟩ := ⟨stores, scopes, machines.active⟩
  have ends := body _ _ opened
  exact ⟨ends.1, ends.2.store, machines.current, ends.2.active⟩

theorem nestedAlike {x x' : Exec α} (body : x.Alike L R x') :
    Exec.Alike L R (nested x) (nested x') := by
  intro m m' machines
  simp only [nested, machines.current]
  exact insideAlike m.current .nil body m m' machines

theorem tooDeepAlike {span : Span} {g : Span → Span} (allowed : L.spans g) :
    Exec.Alike L R (tooDeep span) (tooDeep (g span)) := by
  intro m m' machines
  refine ⟨.failure ⟨?_, g, allowed, rfl⟩, machines⟩
  simp only [machines.active]
  exact .tooDeep _

theorem calledAlike {g : Span → Span} {body body' : Exec Value} {vs vs' : List Value} (f : Closure)
    (arguments : List.Forall₂ (Value.Alike L) vs vs')
    (bodies : body.Alike L (Value.Alike L) body') :
    Exec.Alike L (Value.Alike L) (called f vs body) (called (f.relabel L.name g) vs' body') := by
  intro m m' machines
  have bindings := Frame.Alike.parameters arguments (f.parameters.map Ident.text)
  have names : (f.relabel L.name g).parameters.map Ident.text =
      (f.parameters.map Ident.text).map L.name := by
    simp [Closure.relabel, Ident.relabel]
  have entered : Machine.Alike L { m with active := m.active + 1 }
      { m' with active := m'.active + 1 } :=
    ⟨machines.store, machines.current, congrArg (· + 1) machines.active⟩
  have ends := insideAlike f.scope bindings bodies _ _ entered
  simp only [called, names, show (f.relabel L.name g).scope = f.scope from rfl]
  revert ends
  cases inside f.scope _ body _ with | mk o m₁ =>
  cases inside f.scope _ body' _ with | mk o' m₁' =>
  rintro ⟨outcomes, after⟩
  have left : Machine.Alike L { m₁ with active := m₁.active - 1 }
      { m₁' with active := m₁'.active - 1 } :=
    ⟨after.store, after.current, congrArg (· - 1) after.active⟩
  cases outcomes with
  | result values => exact ⟨.result values, left⟩
  | leaving values => exact ⟨.result values, left⟩
  | failure errors => exact ⟨.failure errors, left⟩

end Exec

end actions

section evaluation

open Exec

variable {L : Labeling} {apply : Application} {g : Span → Span}

mutual

theorem Expr.evalAlike (applies : apply.Alike L) (allowed : L.spans g) : ∀ e : Expr,
    Exec.Alike L (Value.Alike L) (evalExpr apply e) (evalExpr apply (e.relabel L.name g))
  | .integer k _ => by
      simp only [Expr.relabel, evalExpr]
      exact pureAlike (.integer k)
  | .boolean b _ => by
      simp only [Expr.relabel, evalExpr]
      exact pureAlike (.boolean b)
  | .string s _ => by
      simp only [Expr.relabel, evalExpr]
      exact pureAlike (.string s)
  | .name ident => by
      simp only [Expr.relabel, evalExpr]
      exact lookupAlike allowed ident
  | .unary op operand _ => by
      simp only [Expr.relabel, evalExpr]
      exact bindAlike (operand.evalAlike applies allowed) fun _ _ values => liftAlike (op.applyAlike values) allowed
  | .binary op left right _ => by
      simp only [Expr.relabel, evalExpr]
      refine bindAlike (left.evalAlike applies allowed) fun _ _ first => ?_
      refine bindAlike (right.evalAlike applies allowed) fun _ _ second => ?_
      exact liftAlike (op.applyAlike first second) allowed
  | .conditional test first none _ => by
      simp only [Expr.relabel, evalExpr]
      refine bindAlike (test.evalAlike applies allowed) fun v v' values => ?_
      rw [values.truthy]
      split
      · exact first.evalAlike applies allowed
      · exact pureAlike .unit
  | .conditional test first (some second) _ => by
      simp only [Expr.relabel, evalExpr]
      refine bindAlike (test.evalAlike applies allowed) fun v v' values => ?_
      rw [values.truthy]
      split
      · exact first.evalAlike applies allowed
      · exact second.evalAlike applies allowed
  | .function own parameters body _ => by
      simp only [Expr.relabel, evalExpr]
      refine bindAlike (createAlike own parameters body) fun f f' same => ?_
      subst same
      have value := Value.Alike.function allowed f
      cases own with
      | none => exact pureAlike value
      | some own => exact bindAlike (defineAlike own value) fun _ _ _ => pureAlike value
  | .call callee arguments span => by
      simp only [Expr.relabel, evalExpr, relabelExprsMap, Expr.spanRelabel]
      refine bindAlike (callee.evalAlike applies allowed) fun v v' values => ?_
      cases values with
      | function created f =>
        refine bindAlike (argumentsAlike applies allowed arguments) fun vs vs' values => ?_
        exact applies f _ vs vs' span g created allowed values
      | integer k => exact failAlike (.notCallable (.integer k)) allowed
      | boolean b => exact failAlike (.notCallable (.boolean b)) allowed
      | string s => exact failAlike (.notCallable (.string s)) allowed
      | unit => exact failAlike (.notCallable .unit) allowed

theorem argumentsAlike (applies : apply.Alike L) (allowed : L.spans g) : ∀ es : List Expr,
    Exec.Alike L (List.Forall₂ (Value.Alike L)) (evalExprs apply es)
      (evalExprs apply (es.map (Expr.relabel L.name g)))
  | [] => by
      simp only [List.map_nil, evalExprs]
      exact pureAlike .nil
  | e :: es => by
      simp only [List.map_cons, evalExprs]
      refine bindAlike (e.evalAlike applies allowed) fun _ _ first => ?_
      exact bindAlike (argumentsAlike applies allowed es) fun _ _ others => pureAlike (.cons first others)

theorem Stmt.evalAlike (applies : apply.Alike L) (allowed : L.spans g) : ∀ t : Stmt,
    Exec.Alike L (Value.Alike L) (evalStmt apply t) (evalStmt apply (t.relabel L.name g))
  | .binding own value _ => by
      simp only [Stmt.relabel, evalStmt]
      refine bindAlike (value.evalAlike applies allowed) fun _ _ values => ?_
      exact bindAlike (defineAlike own values) fun _ _ _ => pureAlike .unit
  | .returning none _ => by
      simp only [Stmt.relabel, evalStmt]
      exact leaveAlike .unit
  | .returning (some value) _ => by
      simp only [Stmt.relabel, evalStmt]
      exact bindAlike (value.evalAlike applies allowed) fun _ _ values => leaveAlike values
  | .expression value _ => by
      simp only [Stmt.relabel, evalStmt]
      exact value.evalAlike applies allowed
  | .block body _ => by
      simp only [Stmt.relabel, evalStmt]
      exact body.evalAlike applies allowed

theorem statementsAlike (applies : apply.Alike L) (allowed : L.spans g) :
    ∀ (ts : List Stmt) {last last' : Value}, last.Alike L last' →
    Exec.Alike L (Value.Alike L) (evalStmts apply last ts)
      (evalStmts apply last' (ts.map (Stmt.relabel L.name g)))
  | [], _, _, values => by
      simp only [List.map_nil, evalStmts]
      exact pureAlike values
  | t :: ts, _, _, _ => by
      simp only [List.map_cons, evalStmts]
      exact bindAlike (t.evalAlike applies allowed) fun _ _ values => statementsAlike applies allowed ts values

theorem Block.evalAlike (applies : apply.Alike L) (allowed : L.spans g) : ∀ b : Block,
    Exec.Alike L (Value.Alike L) (evalBlock apply b) (evalBlock apply (b.relabel L.name g))
  | .mk ts _ => by
      simp only [Block.relabel, relabelStmtsMap, evalBlock]
      exact nestedAlike (statementsAlike applies allowed ts .unit)

end

theorem arityAlike {f : Closure} {g h : Span → Span} {vs vs' : List Value} {span : Span} (n : Nat)
    (allowed : L.spans h) (values : List.Forall₂ (Value.Alike L) vs vs')
    (differ : f.parameters.length ≠ vs.length) : Exec.Alike L (Value.Alike L)
      (applyWithin n f vs span) (applyWithin n (f.relabel L.name g) vs' (h span)) := by
  have arity : (f.relabel L.name g).parameters.length = f.parameters.length := List.length_map _
  have own : (f.relabel L.name g).name.map Ident.text = (f.name.map Ident.text).map L.name := by
    cases named : f.name <;> simp [Closure.relabel, Ident.relabel, named]
  rw [applyWrongArity differ, applyWrongArity (by rwa [arity, ← values.length_eq]), arity,
    ← values.length_eq, own]
  exact failAlike (.wrongArity _ _ _) allowed

theorem applyAlike (L : Labeling) (n : Nat) : (applyWithin n).Alike L := by
  -- By induction on how many bodies may still be entered.
  induction n with
  | zero =>
    intro f g vs vs' span h created allowed values
    by_cases arity : f.parameters.length = vs.length
    · rw [applyTooDeep arity, applyTooDeep (by simpa [Closure.relabel, ← values.length_eq])]
      exact tooDeepAlike allowed
    · exact arityAlike 0 allowed values arity
  | succ n ih =>
    intro f g vs vs' span h created allowed values
    by_cases arity : f.parameters.length = vs.length
    · rw [applyEntered arity, applyEntered (by simpa [Closure.relabel, ← values.length_eq])]
      have body := statementsAlike ih created f.body.statements .unit
      rw [← Block.statementsRelabel] at body
      exact calledAlike f values body
    · exact arityAlike (n + 1) allowed values arity

end evaluation

section sessions

variable {L : Labeling} {s s' : Session} {m m' : Machine} {g : Span → Span}

theorem programAlike (machines : m.Alike L m') (allowed : L.spans g) (n : Nat) (p : Program) :
    ExceptAlike (EvalError.Alike L) (Value.Alike L) (evalProgram n p m).1
        (evalProgram n (p.relabel L.name g) m').1 ∧
      (evalProgram n p m).2.Alike L (evalProgram n (p.relabel L.name g) m').2 := by
  have ends := statementsAlike (applyAlike L n) allowed p.statements .unit m m' machines
  simp only [evalProgram, Program.relabel, relabelStmtsMap]
  revert ends
  cases evalStmts _ .unit p.statements m with | mk o m =>
  cases evalStmts _ .unit (p.statements.map _) m' with | mk o' m' =>
  rintro ⟨outcomes, after⟩
  cases outcomes with
  | result values => exact ⟨.ok values, after⟩
  | leaving values => exact ⟨.ok values, after⟩
  | failure errors => exact ⟨.error errors, after⟩

structure Session.Alike (L : Labeling) (s s' : Session) : Prop where
  machine : s.machine.Alike L s'.machine
  globals : s'.globals = s.globals
  limit : s'.limit = s.limit

namespace Session.Alike

variable (sessions : s.Alike L s')
include sessions

theorem evaluate (allowed : L.spans g) (p : Program) :
    ExceptAlike (EvalError.Alike L) (Value.Alike L) (s.evaluate p).1
        (s'.evaluate (p.relabel L.name g)).1 ∧
      (s.evaluate p).2.Alike L (s'.evaluate (p.relabel L.name g)).2 := by
  have start : Machine.Alike L ⟨s.machine.store, s.globals, 0⟩ ⟨s'.machine.store, s'.globals, 0⟩ :=
    ⟨sessions.machine.store, sessions.globals, rfl⟩
  obtain ⟨answers, machines⟩ := programAlike start allowed s.limit p
  simp only [Session.evaluate, sessions.limit]
  exact ⟨answers, machines, sessions.globals, rfl⟩

theorem get (name : String) :
    Option.Rel (Value.Alike L) (s.get? name) (s'.get? (L.name name)) := by
  simp only [Session.get?, sessions.globals]
  exact sessions.machine.store.lookup s.globals name

theorem globalNames (own : L.name = id) : s'.globalNames = s.globalNames := by
  have keys : ∀ {frame frame' : Frame}, Frame.Alike L frame frame' →
      frame'.map Prod.fst = frame.map Prod.fst := by
    intro frame frame' bindings
    induction bindings with
    | nil => rfl
    | cons same _ ih => rw [List.map_cons, List.map_cons, ih, same.1, own, id]
  simp only [Session.globalNames, Store.localNames, sessions.globals,
    keys (sessions.machine.store.frames s.globals.own)]

end Session.Alike

end sessions

section identity

variable {L : Labeling} (own : L.name = id) (still : L.spans id)
include own still

theorem Value.alikeSelf (v : Value) : v.Alike L v := by
  cases v with
  | integer k => exact .integer k
  | boolean b => exact .boolean b
  | string s => exact .string s
  | unit => exact .unit
  | function f =>
    have same : f.relabel L.name id = f := by
      simp [Closure.relabel, own, Ident.relabelSelf, Block.relabelSelf]
    have alike := Value.Alike.function still f
    rwa [same] at alike

theorem Store.alikeSelf (s : Store) : s.Alike L s := by
  refine ⟨rfl, rfl, fun i => List.forall₂_same.mpr fun b _ => ?_⟩
  exact ⟨by rw [own, id], Value.alikeSelf own still b.2⟩

theorem Session.alikeSelf (s : Session) : s.Alike L s :=
  ⟨⟨Store.alikeSelf own still _, rfl, rfl⟩, rfl, rfl⟩

end identity

end Scriptlet