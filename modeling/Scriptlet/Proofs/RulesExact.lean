import Scriptlet.Proofs.Rules

/-! Evaluation does exactly what the rules derive.
Every derivation is what evaluation computes, and every job has a derivation, so there is one
outcome and one store for each. On the way out of a job its scope and the number of active bodies
are those of its start. -/
namespace Scriptlet

def Job.exec (apply : Application) : {α : Type} → Job α → Exec α
  | _, .expr e => evalExpr apply e
  | _, .exprs es => evalExprs apply es
  | _, .stmt s => evalStmt apply s
  | _, .stmts last ss => evalStmts apply last ss
  | _, .block b => evalBlock apply b
  | _, .application f vs span => apply f vs span

theorem boundLookup {s : Store} {name : String} {v : Value} {chain : List Nat} :
    Bound s name v chain ↔ chain.findSome? (fun own => (s.frame own).lookup name) = some v := by
  constructor
  · intro bound
    induction bound with
    | here found => simp [found]
    | outward absent _ ih => simp [absent, ih]
  · intro found
    induction chain with
    | nil => cases found
    | cons own outer ih =>
      cases first : (s.frame own).lookup name with
      | none => exact .outward first (ih (by simpa [first] using found))
      | some w =>
        obtain rfl : w = v := by simpa [first] using found
        exact .here first

theorem unboundLookup {s : Store} {name : String} {chain : List Nat} :
    Unbound s name chain ↔ chain.findSome? (fun own => (s.frame own).lookup name) = none :=
  List.findSome?_eq_none_iff.symm

theorem Store.frameOpen (s : Store) (outer : List Nat) (frame : Frame) (i : Nat) :
    (s.openScope outer frame).2.frame i = if i = s.frames.size then frame else s.frame i := by
  simp only [openScope, Store.frame, Array.getD_eq_getD_getElem?, Array.getElem?_push]
  split <;> rfl

theorem Store.frameDefine (s : Store) (scope : Scope) (name : String) (v : Value) (i : Nat) :
    (s.define scope name v).frame i =
      if scope.own = i ∧ i < s.frames.size then (name, v) :: s.frame i else s.frame i := by
  by_cases inside : i < s.frames.size
  · simp [Store.frame, Store.define, Array.getElem_modify, inside]
  · simp [Store.frame, Store.define, inside]

theorem Store.sameFrames {s s₁ : Store} (sizes : s.frames.size = s₁.frames.size)
    (frames : ∀ i, s.frame i = s₁.frame i) (created : s.created = s₁.created) : s = s₁ := by
  obtain ⟨frames₀, created₀⟩ := s
  obtain rfl : created₀ = s₁.created := created
  refine congrArg (Store.mk · s₁.created) (Array.ext sizes fun i inside inside₁ => ?_)
  simpa [Store.frame, inside, inside₁] using frames i

theorem pushModify (frames : Array Frame) (frame : Frame) (f : Frame → Frame) :
    (frames.push frame).modify frames.size f = frames.push (f frame) := by
  apply Array.ext
  · simp
  · intro i _ _
    by_cases last : i = frames.size
    · subst last
      simp [Array.getElem_modify]
    · have inside : i < frames.size := by simp_all; omega
      simp [Array.getElem_modify, Array.getElem_push_lt, inside, Ne.symm last]

theorem defineAllFrame {s : Store} {outer : List Nat} (ps : List Ident) (vs : List Value)
    (frame : Frame) : (s.openScope outer frame).2.defineAll ⟨s.frames.size, outer⟩ ps vs =
      (s.openScope outer (((ps.map Ident.text).zip vs).reverse ++ frame)).2 := by
  induction ps generalizing vs frame with
  | nil => cases vs <;> rfl
  | cons p ps ih =>
    cases vs with
    | nil => rfl
    | cons v vs =>
      have next := ih vs ((p.text, v) :: frame)
      simp only [Store.openScope, Store.defineAll, Store.define, pushModify] at next ⊢
      simpa using next

theorem enteredFrame {s s₁ : Store} {f : Closure} {inner : Scope} (vs : List Value)
    (opened : s.openChild f.scope = (inner, s₁)) :
    s.openScope f.scope.chain ((f.parameters.map Ident.text).zip vs).reverse =
      (inner, s₁.defineAll inner f.parameters vs) := by
  have frame := @defineAllFrame s f.scope.chain f.parameters vs []
  cases opened
  exact Prod.ext rfl (by simpa [Store.openScope] using frame.symm)

namespace Exec

variable {α β : Type} {x : Exec α} {f : α → Exec β} {m m' : Machine}

theorem bindResult {a : α} (ends : x m = (.result a, m')) : (x >>= f) m = f a m' := by
  change bind x f m = _
  simp only [bind, ends]

theorem bindOut {o : Outcome α} {o' : Outcome β} (ends : x m = (o, m')) (out : o.Out o') :
    (x >>= f) m = (o', m') := by
  change bind x f m = _
  cases out <;> simp only [bind, ends]

theorem liftExcept (r : Except EvalFault α) (span : Span) :
    lift r span m = (Outcome.ofExcept span r, m) := by
  cases r <;> rfl

theorem lookupBound {ident : Ident} {v : Value}
    (bound : Bound m.store ident.text v m.current.chain) : lookup ident m = (.result v, m) := by
  simp only [lookup, Store.lookup?, boundLookup.mp bound]

theorem lookupUnbound {ident : Ident} (absent : Unbound m.store ident.text m.current.chain) :
    lookup ident m = (.failure ⟨.unboundIdentifier ident.text, ident.span⟩, m) := by
  simp only [lookup, Store.lookup?, unboundLookup.mp absent]

theorem insideEnds {s s₁ s₂ : Store} {outer scope inner : Scope} {frame : Frame} {active : Nat}
    {o : Outcome α} (opened : s.openScope outer.chain frame = (inner, s₁))
    (ends : x ⟨s₁, inner, active⟩ = (o, ⟨s₂, inner, active⟩)) :
    inside outer frame x ⟨s, scope, active⟩ = (o, ⟨s₂, scope, active⟩) := by
  simp only [inside, opened, ends]

end Exec

section
variable {n : Nat} {f : Closure} {vs : List Value} {span : Span}

theorem applyWrongArity (differ : f.parameters.length ≠ vs.length) :
    applyWithin n f vs span =
      Exec.fail (.wrongArity (f.name.map Ident.text) f.parameters.length vs.length) span := by
  cases n <;> simp only [applyWithin] <;> exact if_pos differ

theorem applyTooDeep (arity : f.parameters.length = vs.length) :
    applyWithin 0 f vs span = Exec.tooDeep span := by
  simp only [applyWithin]
  exact if_neg (not_not_intro arity)

theorem applyEntered (arity : f.parameters.length = vs.length) :
    applyWithin (n + 1) f vs span =
      Exec.called f vs (evalStmts (applyWithin n) .unit f.body.statements) := by
  simp only [applyWithin]
  exact if_neg (not_not_intro arity)

end

theorem Runs.exec {limit : Nat} {α : Type} {active scope s s₁} {job : Job α} {o : Outcome α}
    (h : Runs limit active scope s job o s₁) (within : active ≤ limit) :
    job.exec (applyWithin (limit - active)) ⟨s, scope, active⟩ = (o, ⟨s₁, scope, active⟩) := by
  induction h with
  | integer | boolean | string | noExprs | noStatements =>
    simp only [Job.exec, evalExpr, evalExprs, evalStmts]
    rfl
  | name bound =>
    simp only [Job.exec, evalExpr]
    exact Exec.lookupBound bound
  | unbound absent =>
    simp only [Job.exec, evalExpr]
    exact Exec.lookupUnbound absent
  | unary _ computed ih =>
    simp only [Job.exec, evalExpr] at ih ⊢
    rw [Exec.bindResult (ih within), Exec.liftExcept, computed.apply]
  | binary _ _ computed ih ih' =>
    simp only [Job.exec, evalExpr] at ih ih' ⊢
    rw [Exec.bindResult (ih within), Exec.bindResult (ih' within), Exec.liftExcept, computed.apply]
  | unaryOut _ out ih | leftOut _ out ih | calleeOut _ out ih =>
    simp only [Job.exec, evalExpr] at ih ⊢
    rw [Exec.bindOut (ih within) out]
  | rightOut _ _ out ih ih' =>
    simp only [Job.exec, evalExpr] at ih ih' ⊢
    rw [Exec.bindResult (ih within), Exec.bindOut (ih' within) out]
  | @consequence _ _ _ _ _ _ _ second _ _ _ _ holds _ ih ih' =>
    simp only [Job.exec] at ih ih' ⊢
    cases second <;> simp only [evalExpr] <;>
      rw [Exec.bindResult (ih within), if_pos (truthyFalsy.mpr holds), ih' within]
  | alternative _ fails _ ih ih' =>
    simp only [Job.exec, evalExpr] at ih ih' ⊢
    rw [Exec.bindResult (ih within), falsyTruthy.mp fails]
    exact ih' within
  | noAlternative _ fails ih =>
    simp only [Job.exec, evalExpr] at ih ⊢
    rw [Exec.bindResult (ih within), falsyTruthy.mp fails]
    rfl
  | @conditionOut _ _ _ _ _ _ second _ _ _ _ out ih =>
    simp only [Job.exec] at ih ⊢
    cases second <;> simp only [evalExpr] <;> rw [Exec.bindOut (ih within) out]
  | anonymous =>
    simp only [Job.exec, evalExpr]
    rfl
  | named function =>
    subst function
    simp only [Job.exec, evalExpr]
    rfl
  | call _ _ _ ih ih' ih'' =>
    simp only [Job.exec, evalExpr] at ih ih' ih'' ⊢
    rw [Exec.bindResult (ih within)]
    dsimp only
    rw [Exec.bindResult (ih' within), ih'' within]
  | @notCallable _ _ _ _ _ _ _ v _ kind ih =>
    simp only [Job.exec, evalExpr] at ih ⊢
    rw [Exec.bindResult (ih within)]
    cases v with
    | function f => exact absurd rfl (kind f)
    | _ => rfl
  | argumentsOut _ _ out ih ih' =>
    simp only [Job.exec, evalExpr] at ih ih' ⊢
    rw [Exec.bindResult (ih within)]
    dsimp only
    rw [Exec.bindOut (ih' within) out]
  | moreExprs _ _ ih ih' =>
    simp only [Job.exec, evalExprs] at ih ih' ⊢
    rw [Exec.bindResult (ih within), Exec.bindResult (ih' within)]
    rfl
  | headOut _ out ih =>
    simp only [Job.exec, evalExprs] at ih ⊢
    rw [Exec.bindOut (ih within) out]
  | tailOut _ _ out ih ih' =>
    simp only [Job.exec, evalExprs] at ih ih' ⊢
    rw [Exec.bindResult (ih within), Exec.bindOut (ih' within) out]
  | wrongArity differ =>
    simp only [Job.exec, applyWrongArity differ]
    rfl
  | tooDeep arity full =>
    obtain rfl := Nat.le_antisymm within full
    simp only [Job.exec, Nat.sub_self, applyTooDeep arity]
    rfl
  | @entered active scope s inner s₁ s₂ f vs span o arity free opened body ih =>
    have remaining : limit - active = limit - (active + 1) + 1 := by omega
    have frame := enteredFrame vs opened
    simp only [Job.exec] at ih ⊢
    rw [remaining, applyEntered arity]
    simp only [Exec.called, Exec.insideEnds frame (ih free), Nat.add_sub_cancel]
    cases o <;> rfl
  | binding _ ih =>
    simp only [Job.exec, evalStmt] at ih ⊢
    rw [Exec.bindResult (ih within)]
    rfl
  | bindingOut _ out ih | returningOut _ out ih =>
    simp only [Job.exec, evalStmt] at ih ⊢
    rw [Exec.bindOut (ih within) out]
  | returning =>
    simp only [Job.exec, evalStmt]
    rfl
  | returningValue _ ih =>
    simp only [Job.exec, evalStmt] at ih ⊢
    rw [Exec.bindResult (ih within)]
    rfl
  | expression _ ih | blockStatement _ ih =>
    simp only [Job.exec, evalStmt] at ih ⊢
    exact ih within
  | moreStatements _ _ ih ih' =>
    simp only [Job.exec, evalStmts] at ih ih' ⊢
    rw [Exec.bindResult (ih within), ih' within]
  | statementOut _ out ih =>
    simp only [Job.exec, evalStmts] at ih ⊢
    rw [Exec.bindOut (ih within) out]
  | inside opened _ ih =>
    simp only [Job.exec, evalBlock] at ih ⊢
    exact Exec.insideEnds opened (ih within)

theorem Runs.unique {limit : Nat} {α : Type} {active scope s s₁ s₂} {job : Job α} {o o' : Outcome α}
    (h : Runs limit active scope s job o s₁) (h' : Runs limit active scope s job o' s₂)
    (within : active ≤ limit) : o = o' ∧ s₁ = s₂ := by
  have same := (h.exec within).symm.trans (h'.exec within)
  simpa using same

def Settles (limit active : Nat) (scope : Scope) (s : Store) {α : Type} (job : Job α) : Prop :=
  ∃ o s₁, Runs limit active scope s job o s₁

theorem Settles.ends {limit active : Nat} {scope : Scope} {s : Store} {α : Type} {job : Job α}
    (β : Type) (h : Settles limit active scope s job) :
    (∃ v s₁, Runs limit active scope s job (.result v) s₁) ∨
      ∃ o s₁, ∃ o' : Outcome β, Runs limit active scope s job o s₁ ∧ o.Out o' := by
  obtain ⟨o, s₁, ran⟩ := h
  cases o with
  | result v => exact .inl ⟨v, s₁, ran⟩
  | leaving v => exact .inr ⟨_, s₁, _, ran, .leaving v⟩
  | failure e => exact .inr ⟨_, s₁, _, ran, .failure e⟩

def Applies (limit active : Nat) : Prop :=
  ∀ scope s f vs span, Settles limit active scope s (.application f vs span)

section

variable {limit active : Nat}

mutual

theorem exprSettles (applies : Applies limit active) (scope : Scope) (s : Store) :
    ∀ e, Settles limit active scope s (.expr e)
  | .integer _ _ => ⟨_, _, .integer⟩
  | .boolean _ _ => ⟨_, _, .boolean⟩
  | .string _ _ => ⟨_, _, .string⟩
  | .name ident => by
    cases found : scope.chain.findSome? fun own => (s.frame own).lookup ident.text with
    | none => exact ⟨_, _, .unbound (unboundLookup.mpr found)⟩
    | some v => exact ⟨_, _, .name (boundLookup.mpr found)⟩
  | .unary op operand _ => by
    obtain ⟨v, s₁, inner⟩ | ⟨o, s₁, o', inner, out⟩ :=
      (exprSettles applies scope s operand).ends Value
    · exact ⟨_, _, .unary inner (applyUnary op v)⟩
    · exact ⟨_, _, .unaryOut inner out⟩
  | .binary op left right _ => by
    obtain ⟨v, s₁, first⟩ | ⟨o, s₁, o', first, out⟩ := (exprSettles applies scope s left).ends Value
    · obtain ⟨w, s₂, second⟩ | ⟨o, s₂, o', second, out⟩ :=
        (exprSettles applies scope s₁ right).ends Value
      · exact ⟨_, _, .binary first second (applyBinary op v w)⟩
      · exact ⟨_, _, .rightOut first second out⟩
    · exact ⟨_, _, .leftOut first out⟩
  | .conditional test first none _ => by
    obtain ⟨v, s₁, condition⟩ | ⟨o, s₁, o', condition, out⟩ :=
      (exprSettles applies scope s test).ends Value
    · by_cases falsy : Falsy v
      · exact ⟨_, _, .noAlternative condition falsy⟩
      · obtain ⟨o, s₂, branch⟩ := blockSettles applies scope s₁ first
        exact ⟨_, _, .consequence condition falsy branch⟩
    · exact ⟨_, _, .conditionOut condition out⟩
  | .conditional test first (some second) _ => by
    obtain ⟨v, s₁, condition⟩ | ⟨o, s₁, o', condition, out⟩ :=
      (exprSettles applies scope s test).ends Value
    · by_cases falsy : Falsy v
      · obtain ⟨o, s₂, branch⟩ := blockSettles applies scope s₁ second
        exact ⟨_, _, .alternative condition falsy branch⟩
      · obtain ⟨o, s₂, branch⟩ := blockSettles applies scope s₁ first
        exact ⟨_, _, .consequence condition falsy branch⟩
    · exact ⟨_, _, .conditionOut condition out⟩
  | .function none _ _ _ => ⟨_, _, .anonymous⟩
  | .function (some _) _ _ _ => ⟨_, _, .named rfl⟩
  | .call callee arguments span => by
    obtain ⟨v, s₁, function⟩ | ⟨o, s₁, o', function, out⟩ :=
      (exprSettles applies scope s callee).ends Value
    · by_cases callable : ∃ f, v = .function f
      · obtain ⟨f, rfl⟩ := callable
        obtain ⟨vs, s₂, values⟩ | ⟨o, s₂, o', values, out⟩ :=
          (exprsSettles applies scope s₁ arguments).ends Value
        · obtain ⟨o, s₃, applied⟩ := applies scope s₂ f vs span
          exact ⟨_, _, .call function values applied⟩
        · exact ⟨_, _, .argumentsOut function values out⟩
      · exact ⟨_, _, .notCallable function fun f same => callable ⟨f, same⟩⟩
    · exact ⟨_, _, .calleeOut function out⟩

theorem exprsSettles (applies : Applies limit active) (scope : Scope) (s : Store) :
    ∀ es, Settles limit active scope s (.exprs es)
  | [] => ⟨_, _, .noExprs⟩
  | e :: es => by
    obtain ⟨v, s₁, head⟩ | ⟨o, s₁, o', head, out⟩ :=
      (exprSettles applies scope s e).ends (List Value)
    · obtain ⟨vs, s₂, tail⟩ | ⟨o, s₂, o', tail, out⟩ :=
        (exprsSettles applies scope s₁ es).ends (List Value)
      · exact ⟨_, _, .moreExprs head tail⟩
      · exact ⟨_, _, .tailOut head tail out⟩
    · exact ⟨_, _, .headOut head out⟩

theorem stmtSettles (applies : Applies limit active) (scope : Scope) (s : Store) :
    ∀ t, Settles limit active scope s (.stmt t)
  | .binding _ e _ => by
    obtain ⟨v, s₁, value⟩ | ⟨o, s₁, o', value, out⟩ := (exprSettles applies scope s e).ends Value
    · exact ⟨_, _, .binding value⟩
    · exact ⟨_, _, .bindingOut value out⟩
  | .returning none _ => ⟨_, _, .returning⟩
  | .returning (some e) _ => by
    obtain ⟨v, s₁, value⟩ | ⟨o, s₁, o', value, out⟩ := (exprSettles applies scope s e).ends Value
    · exact ⟨_, _, .returningValue value⟩
    · exact ⟨_, _, .returningOut value out⟩
  | .expression e _ => by
    obtain ⟨o, s₁, value⟩ := exprSettles applies scope s e
    exact ⟨_, _, .expression value⟩
  | .block b _ => by
    obtain ⟨o, s₁, body⟩ := blockSettles applies scope s b
    exact ⟨_, _, .blockStatement body⟩

theorem stmtsSettles (applies : Applies limit active) (scope : Scope) (s : Store) (last : Value) :
    ∀ ts, Settles limit active scope s (.stmts last ts)
  | [] => ⟨_, _, .noStatements⟩
  | t :: ts => by
    obtain ⟨v, s₁, head⟩ | ⟨o, s₁, o', head, out⟩ := (stmtSettles applies scope s t).ends Value
    · obtain ⟨o, s₂, tail⟩ := stmtsSettles applies scope s₁ v ts
      exact ⟨_, _, .moreStatements head tail⟩
    · exact ⟨_, _, .statementOut head out⟩

theorem blockSettles (applies : Applies limit active) (scope : Scope) (s : Store) :
    ∀ b, Settles limit active scope s (.block b)
  | .mk ts _ => by
    obtain ⟨o, s₂, body⟩ :=
      stmtsSettles applies (s.openChild scope).1 (s.openChild scope).2 .unit ts
    exact ⟨_, _, .inside rfl body⟩

end

end

theorem applicationSettles {limit : Nat} (remaining : Nat) :
    ∀ active, active + remaining = limit → Applies limit active := by
  -- A body may be larger than its call, so the induction is on how many may still be entered.
  induction remaining with
  | zero =>
    intro active total scope s f vs span
    by_cases arity : f.parameters.length = vs.length
    · exact ⟨_, _, .tooDeep arity (by omega)⟩
    · exact ⟨_, _, .wrongArity arity⟩
  | succ remaining ih =>
    intro active total scope s f vs span
    by_cases arity : f.parameters.length = vs.length
    · have deeper := ih (active + 1) (by omega)
      obtain ⟨o, s₂, body⟩ := stmtsSettles deeper (s.openChild f.scope).1
        ((s.openChild f.scope).2.defineAll (s.openChild f.scope).1 f.parameters vs) .unit
        f.body.statements
      exact ⟨_, _, .entered arity (by omega) rfl body⟩
    · exact ⟨_, _, .wrongArity arity⟩

theorem settles {limit active : Nat} (within : active ≤ limit) {α : Type} (scope : Scope)
    (s : Store) (job : Job α) : Settles limit active scope s job := by
  have applies := applicationSettles (limit - active) active (Nat.add_sub_cancel' within)
  cases job with
  | expr e => exact exprSettles applies scope s e
  | exprs es => exact exprsSettles applies scope s es
  | stmt t => exact stmtSettles applies scope s t
  | stmts last ts => exact stmtsSettles applies scope s last ts
  | block b => exact blockSettles applies scope s b
  | application f vs span => exact applies scope s f vs span

theorem Job.execEnds {α : Type} (job : Job α) (n : Nat) (m : Machine) : ∃ o store,
    Runs (m.active + n) m.active m.current m.store job o store ∧
      job.exec (applyWithin n) m = (o, ⟨store, m.current, m.active⟩) := by
  obtain ⟨o, store, ran⟩ := settles (Nat.le_add_right m.active n) m.current m.store job
  have ends := ran.exec (Nat.le_add_right m.active n)
  rw [Nat.add_sub_cancel_left] at ends
  exact ⟨o, store, ran, ends⟩

theorem programSettles (limit : Nat) (globals : Scope) (s : Store) (p : Program) :
    ∃ r s₁, ProgramRuns limit globals s p r s₁ := by
  obtain ⟨o, s₁, body⟩ := settles (Nat.zero_le limit) globals s (.stmts .unit p.statements)
  cases o with
  | result v => exact ⟨.ok v, s₁, .ended body⟩
  | leaving v => exact ⟨.ok v, s₁, .left body⟩
  | failure e => exact ⟨.error e, s₁, .failed body⟩

theorem evaluateStatements {s : Session} {p : Program} {o : Outcome Value} {m : Machine}
    (ends : evalStmts (applyWithin s.limit) .unit p.statements
      ⟨s.machine.store, s.globals, 0⟩ = (o, m)) :
    s.evaluate p = (o.final, { s with machine := m }) := by
  simp only [Session.evaluate, evalProgram, ends]
  cases o <;> rfl

theorem evaluateEnds {s : Session} {p : Program} {o : Outcome Value} {store : Store}
    (body : Runs s.limit 0 s.globals s.machine.store (.stmts .unit p.statements) o store) :
    s.evaluate p = (o.final, { s with machine := ⟨store, s.globals, 0⟩ }) :=
  evaluateStatements (body.exec (Nat.zero_le _))

theorem Session.callOutcome (s : Session) (f : Closure) (vs : List Value) (span : Span) :
    s.call f vs span =
      let r := applyWithin (s.limit - s.machine.active) f vs span s.machine
      (r.1.final, { s with machine := r.2 }) := by
  simp only [Session.call]
  split <;> simp_all [Outcome.final]

theorem callEnds {s : Session} {f : Closure} {vs : List Value} {span : Span} {o : Outcome Value}
    {store : Store} (applied : Runs s.limit s.machine.active s.machine.current s.machine.store
      (.application f vs span) o store) (within : s.machine.active ≤ s.limit) :
    s.call f vs span =
      (o.final, { s with machine := ⟨store, s.machine.current, s.machine.active⟩ }) := by
  have ends := applied.exec within
  simp only [Job.exec] at ends
  rw [Session.callOutcome, ends]

theorem ProgramRuns.evaluate {s : Session} {p : Program} {r : Except EvalError Value}
    {store : Store} (h : ProgramRuns s.limit s.globals s.machine.store p r store) :
    s.evaluate p = (r, { s with machine := ⟨store, s.globals, 0⟩ }) := by
  cases h with
  | ended body | left body | failed body => exact evaluateEnds body

/-- Whatever a session holds and however low its limit is, a program has one outcome by the rules,
with one content of all scopes, and evaluation gives it. -/
theorem evaluatesExactlyRules (s : Session) (p : Program) (r : Except EvalError Value)
    (store : Store) : ProgramRuns s.limit s.globals s.machine.store p r store ↔
      (s.evaluate p).1 = r ∧ (s.evaluate p).2.machine.store = store := by
  constructor
  · intro derived
    simp only [derived.evaluate, and_self]
  · rintro ⟨rfl, rfl⟩
    obtain ⟨r, store, derived⟩ := programSettles s.limit s.globals s.machine.store p
    rw [derived.evaluate]
    exact derived

end Scriptlet
