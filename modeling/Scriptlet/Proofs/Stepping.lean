import Scriptlet.Proofs.Rules

/-! Evaluation one step at a time.
A step goes down to one part of a job or ends one part, and what is to be done after that part is
pending. Nothing bounds the steps: the limit is only compared with the number of active bodies. -/
namespace Scriptlet

open Outcome Job

inductive Pending : Type → Type where
  | done : Pending Value
  | operand (op : UnaryOp) (span : Span) (k : Pending Value) : Pending Value
  | left (op : BinaryOp) (right : Expr) (span : Span) (k : Pending Value) : Pending Value
  | right (op : BinaryOp) (left : Value) (span : Span) (k : Pending Value) : Pending Value
  | condition (first : Block) (second : Option Block) (k : Pending Value) : Pending Value
  | callee (place : Span) (arguments : List Expr) (span : Span) (k : Pending Value) : Pending Value
  | arguments (f : Closure) (span : Span) (k : Pending Value) : Pending (List Value)
  | head (es : List Expr) (k : Pending (List Value)) : Pending Value
  | tail (v : Value) (k : Pending (List Value)) : Pending (List Value)
  | binding (own : Ident) (k : Pending Value) : Pending Value
  | returning (k : Pending Value) : Pending Value
  | statements (ts : List Stmt) (k : Pending Value) : Pending Value
  | scope (around : Scope) (k : Pending Value) : Pending Value
  | body (k : Pending Value) : Pending Value

inductive Focus (α : Type) where
  | todo (job : Job α)
  | ended (o : Outcome α)

structure Config where
  {α : Type}
  focus : Focus α
  pending : Pending α
  machine : Machine

def Pending.perform {α : Type} (k : Pending α) (x : Exec α) (m : Machine) : Config :=
  ⟨.ended (x m).1, k, (x m).2⟩

def Pending.enter (k : Pending Value) (around inner : Scope) (ts : List Stmt) (m : Machine) :
    Config :=
  ⟨.todo (stmts .unit ts), .scope around k, { m with current := inner }⟩

def Job.begin (limit : Nat) : {α : Type} → Job α → Pending α → Machine → Config
  | _, expr (.integer n _), k, m => k.perform (pure (.integer n)) m
  | _, expr (.boolean b _), k, m => k.perform (pure (.boolean b)) m
  | _, expr (.string text _), k, m => k.perform (pure (.string text)) m
  | _, expr (.name ident), k, m => k.perform (Exec.lookup ident) m
  | _, expr (.unary op e span), k, m => ⟨.todo (expr e), .operand op span k, m⟩
  | _, expr (.binary op e e' span), k, m => ⟨.todo (expr e), .left op e' span k, m⟩
  | _, expr (.conditional test first second _), k, m =>
      ⟨.todo (expr test), .condition first second k, m⟩
  | _, expr (.function own parameters body _), k, m =>
      k.perform (do
        let f ← Exec.create own parameters body
        match own with
        | some own => Exec.define own (.function f)
        | none => pure ()
        pure (.function f)) m
  | _, expr (.call e es span), k, m => ⟨.todo (expr e), .callee e.span es span k, m⟩
  | _, exprs [], k, m => k.perform (pure []) m
  | _, exprs (e :: es), k, m => ⟨.todo (expr e), .head es k, m⟩
  | _, stmt (.binding own e _), k, m => ⟨.todo (expr e), .binding own k, m⟩
  | _, stmt (.returning none _), k, m => k.perform (Exec.leave .unit) m
  | _, stmt (.returning (some e) _), k, m => ⟨.todo (expr e), .returning k, m⟩
  | _, stmt (.expression e _), k, m => ⟨.todo (expr e), k, m⟩
  | _, stmt (.block b _), k, m => ⟨.todo (block b), k, m⟩
  | _, stmts last [], k, m => k.perform (pure last) m
  | _, stmts _ (t :: ts), k, m => ⟨.todo (stmt t), .statements ts k, m⟩
  | _, block (.mk ts _), k, m =>
      let (inner, store) := m.store.openChild m.current
      k.enter m.current inner ts { m with store := store }
  | _, application f vs span, k, m =>
      if f.parameters.length ≠ vs.length then
        k.perform
          (Exec.fail (.wrongArity (f.name.map Ident.text) f.parameters.length vs.length) span) m
      else if limit ≤ m.active then
        k.perform (Exec.fail (.tooDeep limit) span) m
      else
        let (inner, store) := m.store.openChild f.scope
        k.body.enter m.current inner f.body.statements
          { m with store := store.defineAll inner f.parameters vs, active := m.active + 1 }

def Pending.resume : {α : Type} → Pending α → α → Machine → Option Config
  | _, done, _, _ => none
  | _, operand op span k, v, m => k.perform (Exec.lift (op.apply v) span) m
  | _, left op e span k, v, m => some ⟨.todo (expr e), .right op v span k, m⟩
  | _, right op v span k, w, m => k.perform (Exec.lift (op.apply v w) span) m
  | _, condition first second k, v, m =>
      if v.truthy then some ⟨.todo (block first), k, m⟩
      else match second with
        | some second => some ⟨.todo (block second), k, m⟩
        | none => k.perform (pure .unit) m
  | _, callee place es span k, v, m =>
      match v with
      | .function f => some ⟨.todo (exprs es), .arguments f span k, m⟩
      | v => k.perform (Exec.fail (.notCallable v) place) m
  | _, arguments f span k, vs, m => some ⟨.todo (application f vs span), k, m⟩
  | _, head es k, v, m => some ⟨.todo (exprs es), .tail v k, m⟩
  | _, tail v k, vs, m => k.perform (pure (v :: vs)) m
  | _, binding own k, v, m => k.perform (do Exec.define own v; pure .unit) m
  | _, returning k, v, m => k.perform (Exec.leave v) m
  | _, statements ts k, v, m => some ⟨.todo (stmts v ts), k, m⟩
  | _, scope around k, v, m => some ⟨.ended (result v), k, { m with current := around }⟩
  | _, body k, v, m => some ⟨.ended (result v), k, { m with active := m.active - 1 }⟩

/- What is no result ends all that is pending up to the call it leaves, but for the return to the
scopes and to the number of bodies there were before. -/
def Pending.unwind (o : {β : Type} → Outcome β) : {α : Type} → Pending α → Machine → Option Config
  | _, done, _ => none
  | _, operand _ _ k, m | _, left _ _ _ k, m | _, right _ _ _ k, m | _, condition _ _ k, m
  | _, callee _ _ _ k, m | _, arguments _ _ k, m | _, binding _ k, m | _, returning k, m
  | _, statements _ k, m => some ⟨.ended o, k, m⟩
  | _, head _ k, m | _, tail _ k, m => some ⟨.ended o, k, m⟩
  | _, scope around k, m => some ⟨.ended o, k, { m with current := around }⟩
  | _, body k, m => some ⟨.ended (ofCall o), k, { m with active := m.active - 1 }⟩

namespace Config

def step (limit : Nat) : Config → Option Config
  | ⟨.todo job, k, m⟩ => some (job.begin limit k m)
  | ⟨.ended (.result a), k, m⟩ => k.resume a m
  | ⟨.ended (.leaving v), k, m⟩ => k.unwind (.leaving v) m
  | ⟨.ended (.failure e), k, m⟩ => k.unwind (.failure e) m

def steps (limit : Nat) : Nat → Config → Option Config
  | 0, c => some c
  | n + 1, c => (c.step limit).bind (steps limit n)

end Config

inductive Reaches (limit : Nat) : Config → Config → Prop where
  | here (c : Config) : Reaches limit c c
  | next {c d e} (first : c.step limit = some d) (rest : Reaches limit d e) : Reaches limit c e

namespace Reaches

variable {limit : Nat} {c d e : Config}

theorem trans (first : Reaches limit c d) (second : Reaches limit d e) : Reaches limit c e := by
  induction first with
  | here => exact second
  | next step _ ih => exact .next step (ih second)

theorem steps (h : Reaches limit c d) : ∃ n, c.steps limit n = some d := by
  induction h with
  | here => exact ⟨0, rfl⟩
  | next step _ ih =>
    obtain ⟨n, rest⟩ := ih
    exact ⟨n + 1, by simp only [Config.steps, step, Option.bind, rest]⟩

end Reaches

end Scriptlet
