import Scriptlet.Proofs.Joining

/-! Returning at the end of a body, and falling off it.
A value that leaves from the end passes through the same scopes as one that is the result there, so
the caller cannot tell one from the other. Where nothing is returned, an empty block can stand, and
all that is left of it is an empty scope. -/
namespace Scriptlet

open Outcome

/- Some of the returns in the last place are gone: of the list, of a block that stands last in it,
or of the branches of a conditional that does. -/
inductive TailReplaced : List Stmt → List Stmt → Prop where
  | same (ts : List Stmt) : TailReplaced ts ts
  | value {ts e a b} : TailReplaced (ts ++ [.returning (some e) a]) (ts ++ [.expression e b])
  | nothing {ts a b c} : TailReplaced (ts ++ [.returning none a]) (ts ++ [.block (.mk [] b) c])
  | block {ts first first' a b c d} (inner : TailReplaced first first') :
      TailReplaced (ts ++ [.block (.mk first a) b]) (ts ++ [.block (.mk first' c) d])
  | branch {ts e first first' a b c d x y} (inner : TailReplaced first first') :
      TailReplaced (ts ++ [.expression (.conditional e (.mk first a) none b) x])
        (ts ++ [.expression (.conditional e (.mk first' c) none d) y])
  | branches {ts e first first' second second' a b c d x y z w}
      (inner : TailReplaced first first') (other : TailReplaced second second') :
      TailReplaced (ts ++ [.expression (.conditional e (.mk first a) (some (.mk second b)) x) y])
        (ts ++ [.expression (.conditional e (.mk first' c) (some (.mk second' d)) z) w])

structure SameEnd (r r' : Outcome Value × Machine) : Prop where
  outcome : r'.1.ofCall = r.1.ofCall
  machine : r'.2 = r.2 ∨ r'.2 = { r.2 with store := r.2.store.openRoot.2 }

section ends

variable {apply : Application} {α : Type} {x y : Exec Value} {ts us : List Stmt} {t u : Stmt}

theorem SameEnd.refl (r : Outcome Value × Machine) : SameEnd r r := ⟨rfl, .inl rfl⟩

theorem sameAfter {f g : α → Exec Value} (next : ∀ a m, SameEnd (f a m) (g a m)) (x : Exec α)
    (m : Machine) : SameEnd ((x >>= f) m) ((x >>= g) m) := by
  change SameEnd (Exec.bind x f m) (Exec.bind x g m)
  simp only [Exec.bind]
  cases x m with | mk o m =>
  cases o with
  | result a => exact next a m
  | leaving | failure => exact .refl _

theorem sameLeaving (x : Exec Value) (m : Machine) : SameEnd ((x >>= Exec.leave) m) (x m) := by
  change SameEnd (Exec.bind x Exec.leave m) _
  simp only [Exec.bind]
  cases x m with | mk o m =>
  cases o with
  | result v => exact ⟨rfl, .inl rfl⟩
  | leaving | failure => exact .refl _

theorem sameInside (inner : ∀ m, SameEnd (x m) (y m)) (outer : Scope) (frame : Frame)
    (m : Machine) : SameEnd (Exec.inside outer frame x m) (Exec.inside outer frame y m) := by
  obtain ⟨outcome, machine⟩ := inner
    { m with store := (m.store.openScope outer.chain frame).2,
             current := (m.store.openScope outer.chain frame).1 }
  refine ⟨outcome, machine.imp ?_ ?_⟩ <;>
    exact fun same => congrArg (fun after : Machine => { after with current := m.current }) same

theorem sameBlock {a b : Span} (m : Machine)
    (inner : ∀ m, SameEnd (evalStmts apply .unit ts m) (evalStmts apply .unit us m)) :
    SameEnd (evalBlock apply (.mk ts a) m) (evalBlock apply (.mk us b) m) := by
  simp only [evalBlock]
  exact sameInside inner m.current [] m

theorem calledOutcome (f : Closure) (vs : List Value) (x : Exec Value) (m : Machine) :
    Exec.called f vs x m =
      let r := Exec.inside f.scope ((f.parameters.map Ident.text).zip vs).reverse x
        { m with active := m.active + 1 }
      (r.1.ofCall, { r.2 with active := r.2.active - 1 }) := by
  simp only [Exec.called]
  split <;> simp_all [ofCall]

theorem sameCalled (inner : ∀ m, SameEnd (x m) (y m)) (f : Closure) (vs : List Value)
    (m : Machine) : SameEnd (Exec.called f vs x m) (Exec.called f vs y m) := by
  obtain ⟨outcome, machine⟩ := sameInside inner f.scope
    ((f.parameters.map Ident.text).zip vs).reverse { m with active := m.active + 1 }
  rw [calledOutcome, calledOutcome]
  let leave (after : Machine) : Machine := { after with active := after.active - 1 }
  refine ⟨congrArg ofCall outcome, machine.imp ?_ ?_⟩ <;> exact fun same => congrArg leave same

theorem stmtsSingle (apply : Application) (v : Value) (t : Stmt) (m : Machine) :
    evalStmts apply v [t] m = evalStmt apply t m := by
  simp only [evalStmts]
  change Exec.bind _ _ m = _
  simp only [Exec.bind]
  cases evalStmt apply t m with | mk o m =>
  cases o <;> rfl

theorem sameLast (last : ∀ m, SameEnd (evalStmt apply t m) (evalStmt apply u m)) (v : Value)
    (m : Machine) :
    SameEnd (evalStmts apply v (ts ++ [t]) m) (evalStmts apply v (ts ++ [u]) m) := by
  rw [stmtsAppend, stmtsAppend]
  refine sameAfter (fun w m => ?_) _ m
  rw [stmtsSingle, stmtsSingle]
  exact last m

end ends

theorem TailReplaced.sameEnd {apply : Application} {ts us : List Stmt}
    (replaced : TailReplaced ts us) (v : Value) (m : Machine) :
    SameEnd (evalStmts apply v ts m) (evalStmts apply v us m) := by
  induction replaced generalizing v m with
  | same => exact .refl _
  | value =>
    refine sameLast (fun m => ?_) v m
    simp only [evalStmt]
    exact sameLeaving _ m
  | nothing =>
    refine sameLast (fun m => ?_) v m
    simp only [evalStmt, evalBlock, evalStmts]
    exact ⟨rfl, .inr rfl⟩
  | block inner ih =>
    refine sameLast (fun m => ?_) v m
    simp only [evalStmt]
    exact sameBlock m (ih .unit)
  | branch inner ih =>
    refine sameLast (fun m => ?_) v m
    simp only [evalStmt, evalExpr]
    refine sameAfter (fun w m => ?_) _ m
    split
    · exact sameBlock m (ih .unit)
    · exact .refl _
  | branches inner other ih ih' =>
    refine sameLast (fun m => ?_) v m
    simp only [evalStmt, evalExpr]
    refine sameAfter (fun w m => ?_) _ m
    split
    · exact sameBlock m (ih .unit)
    · exact sameBlock m (ih' .unit)

theorem Store.frameRoot (store : Store) (i : Nat) :
    store.openRoot.2.frame i = store.frame i := by
  rw [Store.openRoot, Store.frameOpen]
  split
  · rename_i last
    simp [Store.frame, last]
  · rfl

namespace Session

structure SameEnd (r r' : Except EvalError Value × Session) : Prop where
  answer : r'.1 = r.1
  bindings : ∀ i, r'.2.machine.store.frame i = r.2.machine.store.frame i
  session : r'.2 = r.2 ∨ r'.2 = r.2.withStore r.2.machine.store.openRoot.2

theorem sameEndOf {s : Session} {r r' : Outcome Value × Machine} (same : Scriptlet.SameEnd r r') :
    SameEnd (r.1.final, { s with machine := r.2 }) (r'.1.final, { s with machine := r'.2 }) := by
  have final (o : Outcome Value) : o.ofCall.final = o.final := by cases o <;> rfl
  obtain ⟨outcome, machine⟩ := same
  refine ⟨?_, fun i => ?_, machine.imp ?_ ?_⟩
  · exact (final r'.1).symm.trans ((congrArg Outcome.final outcome).trans (final r.1))
  · rcases machine with same | same
    · exact congrArg (·.store.frame i) same
    · exact (congrArg (·.store.frame i) same).trans (r.2.store.frameRoot i)
  · exact fun same => congrArg (fun m => { s with machine := m }) same
  · exact fun same => congrArg (fun m => { s with machine := m }) same

theorem evaluateOutcome (s : Session) (p : Program) :
    s.evaluate p =
      let r := evalStmts (applyWithin s.limit) .unit p.statements ⟨s.machine.store, s.globals, 0⟩
      (r.1.final, { s with machine := r.2 }) :=
  evaluateStatements rfl

end Session

theorem sameApplied {ts us : List Stmt} (replaced : TailReplaced ts us) {f : Closure}
    (body : f.body.statements = ts) (span : Span) (n : Nat) (vs : List Value) (place : Span)
    (m : Machine) :
    SameEnd (applyWithin n f vs place m)
      (applyWithin n { f with body := .mk us span } vs place m) := by
  by_cases arity : f.parameters.length = vs.length
  · cases n with
    | zero =>
      rw [applyTooDeep arity, applyTooDeep (f := { f with body := .mk us span }) arity]
      exact .refl _
    | succ n =>
      rw [applyEntered arity, applyEntered (f := { f with body := .mk us span }) arity, body]
      exact sameCalled (replaced.sameEnd .unit) f vs m
  · rw [applyWrongArity arity, applyWrongArity (f := { f with body := .mk us span }) arity]
    exact .refl _

/-- To return a value at the end of a body or program, or to have it there as the last value, is
the same: in whatever state and at whatever depth, the program gives one answer and the call gives
one, and all scopes have the same bindings. -/
theorem tailReturnsFallThrough {ts us : List Stmt} (replaced : TailReplaced ts us) (s : Session) :
    Session.SameEnd (s.evaluate ⟨ts⟩) (s.evaluate ⟨us⟩) ∧
    ∀ (f : Closure) (span : Span), f.body.statements = ts → ∀ vs place,
      Session.SameEnd (s.call f vs place) (s.call { f with body := .mk us span } vs place) := by
  constructor
  · rw [Session.evaluateOutcome, Session.evaluateOutcome]
    exact Session.sameEndOf (replaced.sameEnd .unit _)
  · intro f span body vs place
    rw [Session.callOutcome, Session.callOutcome]
    exact Session.sameEndOf (sameApplied replaced body span _ vs place _)

def choice (one other : Stmt) : List Stmt :=
  let branches : Expr := .conditional (.name ⟨"x", .nowhere⟩) (.mk [one] .nowhere)
    (some (.mk [other] .nowhere)) .nowhere
  [.block (.mk [.expression branches .nowhere] .nowhere) .nowhere]

def chosen : List Stmt :=
  choice (.returning (some (.integer 1 .nowhere)) .nowhere) (.returning none .nowhere)

def fallen : List Stmt :=
  choice (.expression (.integer 1 .nowhere) .nowhere) (.block (.mk [] .nowhere) .nowhere)

theorem chosenOrFallen :
    let f : Closure := ⟨0, none, [⟨"x", .nowhere⟩], .mk chosen .nowhere, ⟨0, []⟩⟩
    TailReplaced chosen fallen ∧ chosen ≠ fallen ∧
    (((Session.start 1).define "x" (.boolean true)).evaluate ⟨fallen⟩).1 = .ok (.integer 1) ∧
    ((Session.start 1).call { f with body := .mk fallen .nowhere } [.integer 0] .nowhere).1 =
      .ok .unit := by
  intro f
  have replaced : TailReplaced chosen fallen :=
    @TailReplaced.block [] _ _ _ _ _ _
      (@TailReplaced.branches [] _ _ _ _ _ _ _ _ _ _ _ _ _ (@TailReplaced.value [] _ _ _)
        (@TailReplaced.nothing [] _ _ _))
  refine ⟨replaced, by simp [chosen, fallen, choice], ?_, ?_⟩
  · rw [(tailReturnsFallThrough replaced _).1.answer]
    rfl
  · rw [((tailReturnsFallThrough replaced _).2 f .nowhere rfl _ _).answer]
    rfl

end Scriptlet
