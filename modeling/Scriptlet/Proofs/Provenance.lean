import Scriptlet.Proofs.Nodes
import Scriptlet.Proofs.Sessions

/-! Where functions and errors come from.
A realm says what may take part in an evaluation: nodes of trees, with all that is below them, names
and frames. Evaluation never leaves it. A body belongs to it if its function was created there, so
errors are due to nodes of it however many calls lead to them. -/
namespace Scriptlet

open Outcome Job

/- The node that an error is due to, with the span that it carries. -/
inductive EvalError.DueTo : EvalError → Node → Prop where
  | unbound (ident : Ident) :
      DueTo ⟨.unboundIdentifier ident.text, ident.span⟩ (.expr (.name ident))
  | illegalUnary {op v operand span} :
      DueTo ⟨.illegalUnary op v, span⟩ (.expr (.unary op operand span))
  | illegalBinary {op v w left right span} :
      DueTo ⟨.illegalBinary op v w, span⟩ (.expr (.binary op left right span))
  | byZero {left right span} :
      DueTo ⟨.divisionByZero, span⟩ (.expr (.binary .divide left right span))
  | unaryOverflow {op operand span} :
      DueTo ⟨.integerOverflow op.symbol, span⟩ (.expr (.unary op operand span))
  | binaryOverflow {op left right span} :
      DueTo ⟨.integerOverflow op.symbol, span⟩ (.expr (.binary op left right span))
  | notCallable {v callee arguments span} :
      DueTo ⟨.notCallable v, callee.span⟩ (.expr (.call callee arguments span))
  | wrongArity {function expected given callee arguments span} :
      DueTo ⟨.wrongArity function expected given, span⟩ (.expr (.call callee arguments span))
  | tooDeep {depth callee arguments span} :
      DueTo ⟨.tooDeep depth, span⟩ (.expr (.call callee arguments span))

structure Realm where
  nodes : Node → Prop
  names : String → Prop
  frames : Nat → Prop
  below : ∀ {n c}, nodes n → c ∈ n.children → nodes c
  named : ∀ {n ident}, nodes n → n.naming? = some ident → names ident.text

section membership

variable (R : Realm)

def Scope.In (scope : Scope) : Prop := ∀ i ∈ scope.chain, R.frames i

def Closure.In (f : Closure) : Prop := R.nodes (.block f.body) ∧ f.scope.In R

def Value.In (v : Value) : Prop := ∀ f, v = .function f → f.In R

/- Frames that are yet to come are of the realm. What other names are bound to does not matter. -/
structure Store.In (s : Store) : Prop where
  fresh : ∀ i, s.frames.size ≤ i → R.frames i
  values : ∀ i name v, R.frames i → R.names name → (s.frame i).lookup name = some v → v.In R

def Job.In : {α : Type} → Job α → Prop
  | _, expr e => R.nodes (.expr e)
  | _, exprs es => ∀ e ∈ es, R.nodes (.expr e)
  | _, stmt t => R.nodes (.stmt t)
  | _, stmts last ts => last.In R ∧ ∀ t ∈ ts, R.nodes (.stmt t)
  | _, block b => R.nodes (.block b)
  | _, application f vs span => f.In R ∧ (∀ v ∈ vs, v.In R) ∧
      ∃ callee arguments, R.nodes (.expr (.call callee arguments span))

def Job.Yields : {α : Type} → Job α → α → Prop
  | _, exprs _, vs => ∀ v ∈ vs, v.In R
  | _, expr _, v | _, stmt _, v | _, stmts .., v | _, block _, v | _, application .., v => v.In R

def Outcome.In {α : Type} (yields : α → Prop) : Outcome α → Prop
  | result a => yields a
  | leaving v => v.In R
  | failure e => ∃ n, R.nodes n ∧ e.DueTo n

end membership

section nodes

variable {R : Realm} {e callee test left right : Expr} {es : List Expr} {t : Stmt}
  {ts : List Stmt} {first second b : Block} {alternative : Option Block} {own : Ident}
  {name : Option Ident} {parameters : List Ident} {op : UnaryOp} {sign : BinaryOp} {span : Span}

namespace Realm

theorem unary (h : R.nodes (.expr (.unary op e span))) : R.nodes (.expr e) :=
  R.below h (by simp [Node.children])

theorem binary (h : R.nodes (.expr (.binary sign left right span))) :
    R.nodes (.expr left) ∧ R.nodes (.expr right) :=
  ⟨R.below h (by simp [Node.children]), R.below h (by simp [Node.children])⟩

theorem conditional (h : R.nodes (.expr (.conditional test first alternative span))) :
    R.nodes (.expr test) ∧ R.nodes (.block first) ∧ ∀ b ∈ alternative, R.nodes (.block b) := by
  refine ⟨R.below h (by simp [Node.children]), R.below h (by simp [Node.children]), ?_⟩
  rintro b rfl
  exact R.below h (by simp [Node.children])

theorem function (h : R.nodes (.expr (.function name parameters b span))) :
    R.nodes (.block b) ∧ ∀ own ∈ name, R.names own.text := by
  refine ⟨R.below h (by simp [Node.children]), ?_⟩
  rintro own rfl
  exact R.named (n := .introduced own) (R.below h (by simp [Node.children])) rfl

theorem call (h : R.nodes (.expr (.call callee es span))) :
    R.nodes (.expr callee) ∧ ∀ e ∈ es, R.nodes (.expr e) :=
  ⟨R.below h (by simp [Node.children]), fun e member => R.below h (by simp [Node.children, member])⟩

theorem binding (h : R.nodes (.stmt (.binding own e span))) :
    R.names own.text ∧ R.nodes (.expr e) :=
  ⟨R.named (n := .introduced own) (R.below h (by simp [Node.children])) rfl,
    R.below h (by simp [Node.children])⟩

theorem returning (h : R.nodes (.stmt (.returning (some e) span))) : R.nodes (.expr e) :=
  R.below h (by simp [Node.children])

theorem expression (h : R.nodes (.stmt (.expression e span))) : R.nodes (.expr e) :=
  R.below h (by simp [Node.children])

theorem blockStatement (h : R.nodes (.stmt (.block b span))) : R.nodes (.block b) :=
  R.below h (by simp [Node.children])

theorem statements (h : R.nodes (.block b)) : ∀ t ∈ b.statements, R.nodes (.stmt t) := by
  cases b with
  | mk ts span => exact fun t member => R.below h (List.mem_map_of_mem member)

end Realm

end nodes

section stores

variable {R : Realm} {s s₁ : Store} {scope inner outer : Scope} {v : Value}

theorem Value.In.plain (other : ∀ f, v ≠ .function f) : v.In R :=
  fun f same => absurd same (other f)

theorem Realm.creates {creation : Nat} {name : Option Ident} {parameters : List Ident} {b : Block}
    {span : Span} (node : R.nodes (.expr (.function name parameters b span)))
    (visible : scope.In R) : (Value.function ⟨creation, name, parameters, b, scope⟩).In R := by
  rintro _ ⟨⟩
  exact ⟨(R.function node).1, visible⟩

theorem Store.In.create (store : s.In R) : s.create.In R := ⟨store.fresh, store.values⟩

theorem Store.In.define (store : s.In R) (scope : Scope) {name : String}
    (own : R.names name → v.In R) : (s.define scope name v).In R where
  fresh i beyond := store.fresh i (by rwa [Store.sizeDefine] at beyond)
  values i other w visible known found := by
    rw [Store.frameDefine] at found
    split at found
    · rw [List.lookup_cons] at found
      split at found
      · rename_i same
        obtain rfl := eq_of_beq same
        cases found
        exact own known
      · exact store.values i other w visible known found
    · exact store.values i other w visible known found

theorem Store.In.openChild (store : s.In R) (around : outer.In R)
    (opened : s.openChild outer = (inner, s₁)) : inner.In R ∧ s₁.In R := by
  refine ⟨?_, ?_, ?_⟩
  · cases opened
    exact List.forall_mem_cons.mpr ⟨store.fresh _ (Nat.le_refl _), around⟩
  · intro i beyond
    rw [openedSize opened] at beyond
    exact store.fresh i (Nat.le_of_succ_le beyond)
  · intro i name v visible known found
    rw [openedFrame opened] at found
    split at found
    · cases found
    · exact store.values i name v visible known found

theorem Store.In.defineAll {vs : List Value} (ps : List Ident) (store : s.In R)
    (own : ∀ v ∈ vs, v.In R) : (s.defineAll scope ps vs).In R := by
  induction ps generalizing vs s with
  | nil => exact store
  | cons p ps ih =>
    cases vs with
    | nil => exact store
    | cons v vs =>
      obtain ⟨here, others⟩ := List.forall_mem_cons.mp own
      exact ih (store.define scope fun _ => here) others

theorem Bound.value {name : String} {chain : List Nat} (bound : Bound s name v chain)
    (store : s.In R) (visible : ∀ i ∈ chain, R.frames i) (known : R.names name) : v.In R := by
  induction bound with
  | here found => exact store.values _ name v (visible _ (.head _)) known found
  | outward _ _ ih => exact ih fun i member => visible i (.tail _ member)

end stores

section outcomes

variable {R : Realm} {α β : Type} {yields : α → Prop} {o : Outcome α}

theorem Outcome.In.out {o' : Outcome β} {further : β → Prop} (own : o.In R yields)
    (out : o.Out o') : o'.In R further := by
  cases out with
  | leaving v => exact own
  | failure e => exact own

theorem Outcome.In.ofCall {o : Outcome Value} (own : o.In R (Value.In R)) :
    o.ofCall.In R (Value.In R) := by
  cases o <;> exact own

theorem UnaryRule.stays {op : UnaryOp} {v : Value} {r operand span} (rule : UnaryRule op v r)
    (node : R.nodes (.expr (.unary op operand span))) :
    (ofExcept span r).In R (Value.In R) := by
  cases rule with
  | not | negate => exact .plain (by simp)
  | overflow => exact ⟨_, node, .unaryOverflow⟩
  | illegal => exact ⟨_, node, .illegalUnary⟩

theorem BinaryRule.stays {op : BinaryOp} {v w : Value} {r left right span}
    (rule : BinaryRule op v w r) (node : R.nodes (.expr (.binary op left right span))) :
    (ofExcept span r).In R (Value.In R) := by
  cases rule with
  | exact | ordered | equal | notEqual | and | or => exact .plain (by simp)
  | overflow => exact ⟨_, node, .binaryOverflow⟩
  | byZero => exact ⟨_, node, .byZero⟩
  | illegal => exact ⟨_, node, .illegalBinary⟩

end outcomes

theorem Runs.stays {R : Realm} {limit : Nat} {α : Type} {active scope s s₁} {job : Job α}
    {o : Outcome α} (h : Runs limit active scope s job o s₁) (visible : scope.In R)
    (store : s.In R) (own : job.In R) : o.In R (job.Yields R) ∧ s₁.In R := by
  -- The store goes from each part to the next one.
  induction h with
  | integer | boolean | string | returning => exact ⟨.plain (by simp), store⟩
  | name bound => exact ⟨bound.value store visible (R.named own rfl), store⟩
  | unbound => exact ⟨⟨_, own, .unbound _⟩, store⟩
  | unary _ computed ih => exact ⟨computed.stays own, (ih visible store (R.unary own)).2⟩
  | unaryOut _ out ih => exact (ih visible store (R.unary own)).imp_left (·.out out)
  | binary _ _ computed ih ih' =>
    have first := ih visible store (R.binary own).1
    exact ⟨computed.stays own, (ih' visible first.2 (R.binary own).2).2⟩
  | leftOut _ out ih => exact (ih visible store (R.binary own).1).imp_left (·.out out)
  | rightOut _ _ out ih ih' =>
    have first := ih visible store (R.binary own).1
    exact (ih' visible first.2 (R.binary own).2).imp_left (·.out out)
  | consequence _ _ _ ih ih' =>
    have condition := ih visible store (R.conditional own).1
    exact ih' visible condition.2 (R.conditional own).2.1
  | alternative _ _ _ ih ih' =>
    have condition := ih visible store (R.conditional own).1
    exact ih' visible condition.2 ((R.conditional own).2.2 _ rfl)
  | noAlternative _ _ ih =>
    exact ⟨.plain (by simp), (ih visible store (R.conditional own).1).2⟩
  | conditionOut _ out ih => exact (ih visible store (R.conditional own).1).imp_left (·.out out)
  | anonymous => exact ⟨R.creates own visible, store.create⟩
  | named function =>
    subst function
    exact ⟨R.creates own visible, store.create.define _ fun _ => R.creates own visible⟩
  | call _ _ _ ih ih' ih'' =>
    have function := ih visible store (R.call own).1
    have values := ih' visible function.2 (R.call own).2
    exact ih'' visible values.2 ⟨function.1 _ rfl, values.1, _, _, own⟩
  | notCallable _ _ ih => exact ⟨⟨_, own, .notCallable⟩, (ih visible store (R.call own).1).2⟩
  | calleeOut _ out ih => exact (ih visible store (R.call own).1).imp_left (·.out out)
  | argumentsOut _ _ out ih ih' =>
    have function := ih visible store (R.call own).1
    exact (ih' visible function.2 (R.call own).2).imp_left (·.out out)
  | noExprs => exact ⟨nofun, store⟩
  | moreExprs _ _ ih ih' =>
    obtain ⟨here, later⟩ := List.forall_mem_cons.mp own
    have head := ih visible store here
    have tail := ih' visible head.2 later
    exact ⟨List.forall_mem_cons.mpr ⟨head.1, tail.1⟩, tail.2⟩
  | headOut _ out ih => exact (ih visible store (own _ (.head _))).imp_left (·.out out)
  | tailOut _ _ out ih ih' =>
    obtain ⟨here, later⟩ := List.forall_mem_cons.mp own
    exact (ih' visible (ih visible store here).2 later).imp_left (·.out out)
  | wrongArity =>
    obtain ⟨_, _, _, _, node⟩ := own
    exact ⟨⟨_, node, .wrongArity⟩, store⟩
  | tooDeep =>
    obtain ⟨_, _, _, _, node⟩ := own
    exact ⟨⟨_, node, .tooDeep⟩, store⟩
  | @entered _ _ _ _ _ _ f _ _ _ _ _ opened _ ih =>
    obtain ⟨⟨body, around⟩, values, _⟩ := own
    obtain ⟨inner, store⟩ := store.openChild around opened
    have ends :=
      ih inner (store.defineAll f.parameters values) ⟨.plain (by simp), R.statements body⟩
    exact ends.imp_left Outcome.In.ofCall
  | binding _ ih =>
    have value := ih visible store (R.binding own).2
    exact ⟨.plain (by simp), value.2.define _ fun _ => value.1⟩
  | bindingOut _ out ih => exact (ih visible store (R.binding own).2).imp_left (·.out out)
  | returningValue _ ih => exact ih visible store (R.returning own)
  | returningOut _ out ih => exact (ih visible store (R.returning own)).imp_left (·.out out)
  | expression _ ih => exact ih visible store (R.expression own)
  | blockStatement _ ih => exact ih visible store (R.blockStatement own)
  | noStatements => exact ⟨own.1, store⟩
  | moreStatements _ _ ih ih' =>
    obtain ⟨here, later⟩ := List.forall_mem_cons.mp own.2
    have head := ih visible store here
    exact ih' visible head.2 ⟨head.1, later⟩
  | statementOut _ out ih =>
    exact (ih visible store (own.2 _ (.head _))).imp_left (·.out out)
  | inside opened _ ih =>
    obtain ⟨inner, store⟩ := store.openChild visible opened
    exact ih inner store ⟨.plain (by simp), R.statements own⟩

section sessions

variable {R : Realm} {s : Session} {p : Program} {source : String} {e : EvalError}

theorem Session.evaluateStays (visible : s.globals.In R) (store : s.machine.store.In R)
    (own : ∀ t ∈ p.statements, R.nodes (.stmt t)) :
    (∀ e, (s.evaluate p).1 = .error e → ∃ n, R.nodes n ∧ e.DueTo n) ∧
      (s.evaluate p).2.machine.store.In R := by
  obtain ⟨o, after, body⟩ :=
    settles (Nat.zero_le s.limit) s.globals s.machine.store (.stmts .unit p.statements)
  obtain ⟨within, inside⟩ := body.stays visible store ⟨.plain (by simp), own⟩
  rw [evaluateEnds body]
  refine ⟨?_, inside⟩
  rintro e failed
  cases o with
  | failure d =>
    cases failed
    exact within
  | result | leaving => cases failed

def Realm.readFrom (texts : List String) : Realm where
  nodes n := ∃ text ∈ texts, ∃ p, readProgram text = .ok p ∧ p.Has n
  names _ := True
  frames _ := True
  below := by
    rintro n c ⟨text, among, p, read, t, statement, inner⟩ child
    exact ⟨text, among, p, read, t, statement, inner.child child⟩
  named _ _ := trivial

theorem Session.runStays {texts : List String} (among : source ∈ texts)
    (store : s.machine.store.In (.readFrom texts)) :
    (∀ e, (s.run source).1 = .error (.eval e) →
        ∃ n, (Realm.readFrom texts).nodes n ∧ e.DueTo n) ∧
      (s.run source).2.machine.store.In (.readFrom texts) := by
  have stays : ∀ p, readProgram source = .ok p → _ := fun p read =>
    s.evaluateStays (fun _ _ => trivial) store
      fun t statement => ⟨source, among, p, read, t, statement, .self _⟩
  constructor
  · intro e failed
    obtain ⟨p, read, ends⟩ := Session.runFails failed
    exact (stays p read).1 e ends
  · cases read : readProgram source with
    | error f => rwa [Session.runRefused read]
    | ok p =>
      rw [Session.runProgram read]
      exact (stays p read).2

theorem Session.historyStays {texts earlier : List String} (among : ∀ text ∈ earlier, text ∈ texts)
    (store : s.machine.store.In (.readFrom texts)) :
    (s.after (earlier.map .run)).machine.store.In (.readFrom texts) := by
  induction earlier generalizing s with
  | nil => exact store
  | cons text earlier ih =>
    obtain ⟨here, later⟩ := List.forall_mem_cons.mp among
    exact ih later (Session.runStays here store).2

theorem Session.startIn (R : Realm) (every : ∀ i, R.frames i) (limit : Nat) :
    (start limit).machine.store.In R where
  fresh i _ := every i
  values i name v _ _ found := by
    change ((Store.empty.openScope [] []).2.frame i).lookup name = some v at found
    rw [Store.frameOpen] at found
    split at found <;> cases found

/-- Whatever sources were run before, an error in the evaluation of a source is due to a node of the
program in this source or in one of those, of the kind and with the name or operator that the error
tells, and has its span, or that of its callee if that is no function. -/
theorem errorsHaveSources (limit : Nat) (earlier : List String)
    (failed : (((Session.start limit).after (earlier.map .run)).run source).1 =
      .error (.eval e)) :
    ∃ text ∈ earlier ++ [source], ∃ p n, readProgram text = .ok p ∧ p.Has n ∧ e.DueTo n := by
  let R := Realm.readFrom (earlier ++ [source])
  have before : ((Session.start limit).after (earlier.map .run)).machine.store.In R :=
    Session.historyStays (fun _ => List.mem_append_left _)
      (Session.startIn R (fun _ => trivial) limit)
  have among : source ∈ earlier ++ [source] := List.mem_append_right _ (.head _)
  obtain ⟨n, ⟨text, read, p, ok, inner⟩, due⟩ := (Session.runStays among before).1 e failed
  exact ⟨text, read, p, n, ok, inner, due⟩

def halfBound : String := "let half = function(n) \x7b n / 0 \x7d"

def halfCalled : String := "half(8)"

theorem halfFails : ∃ e, e.message = "division by zero at 1:26" ∧
    (((Session.start 1).after [.run halfBound]).run halfCalled).1 = .error (.eval e) ∧
    ∃ text ∈ [halfBound, halfCalled], ∃ p n,
      readProgram text = .ok p ∧ p.Has n ∧ e.DueTo n := by
  have shown : (match (((Session.start 1).after [.run halfBound]).run halfCalled).1 with
      | .error (.eval e) => e.message
      | _ => "") = "division by zero at 1:26" := by
    decide +kernel
  split at shown
  · rename_i e failed
    exact ⟨e, shown, failed, errorsHaveSources 1 [halfBound] failed⟩
  · exact absurd shown (by decide)

end sessions

end Scriptlet
