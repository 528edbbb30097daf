import Scriptlet.Proofs.Sessions
import Scriptlet.Proofs.Stepping

/-! Stepping comes to an end.
From a job with any work pending, steps lead to its outcome with that work still pending; by
induction on what the rules derive, which they do for every job. -/
namespace Scriptlet

open Outcome Job

theorem performEnds {α : Type} {k : Pending α} {x : Exec α} {m m' : Machine} {o : Outcome α}
    (ends : x m = (o, m')) : k.perform x m = ⟨.ended o, k, m'⟩ := by
  simp only [Pending.perform, ends]

section

variable {limit : Nat} {m m' : Machine}

theorem stepOut {α β : Type} {o : Outcome α} {o' : Outcome β} {p : Pending α} {k : Pending β}
    (out : o.Out o')
    (unwinds : ∀ x : {γ : Type} → Outcome γ, p.unwind x m = some ⟨.ended x, k, m'⟩) :
    Config.step limit ⟨.ended o, p, m⟩ = some ⟨.ended o', k, m'⟩ := by
  cases out with
  | leaving v => exact unwinds (.leaving v)
  | failure e => exact unwinds (.failure e)

theorem stepScope {o : Outcome Value} {around : Scope} {k : Pending Value} :
    Config.step limit ⟨.ended o, .scope around k, m⟩ =
      some ⟨.ended o, k, { m with current := around }⟩ := by
  cases o <;> rfl

theorem stepBody {o : Outcome Value} {k : Pending Value} :
    Config.step limit ⟨.ended o, .body k, m⟩ =
      some ⟨.ended o.ofCall, k, { m with active := m.active - 1 }⟩ := by
  cases o <;> rfl

end

theorem Runs.reaches {limit : Nat} {α : Type} {active scope s s₁} {job : Job α} {o : Outcome α}
    (h : Runs limit active scope s job o s₁) (k : Pending α) :
    Reaches limit ⟨.todo job, k, ⟨s, scope, active⟩⟩ ⟨.ended o, k, ⟨s₁, scope, active⟩⟩ := by
  induction h with
  | integer | boolean | string | noExprs | noStatements | returning | anonymous =>
    exact .next rfl (.here _)
  | named function =>
    subst function
    exact .next rfl (.here _)
  | name bound =>
    refine .next rfl ?_
    rw [Job.begin, performEnds (Exec.lookupBound bound)]
    exact .here _
  | unbound absent =>
    refine .next rfl ?_
    rw [Job.begin, performEnds (Exec.lookupUnbound absent)]
    exact .here _
  | unary _ computed ih =>
    refine .next rfl ((ih _).trans (.next rfl ?_))
    rw [computed.apply, performEnds (Exec.liftExcept _ _)]
    exact .here _
  | binary _ _ computed ih ih' =>
    refine .next rfl ((ih _).trans (.next rfl ((ih' _).trans (.next rfl ?_))))
    rw [computed.apply, performEnds (Exec.liftExcept _ _)]
    exact .here _
  | unaryOut _ out ih | leftOut _ out ih | conditionOut _ out ih | calleeOut _ out ih
  | headOut _ out ih | bindingOut _ out ih | returningOut _ out ih | statementOut _ out ih =>
    exact .next rfl ((ih _).trans (.next (stepOut out fun _ => rfl) (.here _)))
  | rightOut _ _ out ih ih' | argumentsOut _ _ out ih ih' =>
    refine .next rfl ((ih _).trans (.next rfl ((ih' _).trans ?_)))
    exact .next (stepOut out fun _ => rfl) (.here _)
  | tailOut _ _ out ih ih' =>
    refine .next rfl ((ih _).trans (.next rfl ((ih' _).trans ?_)))
    exact .next (stepOut out fun _ => rfl) (.here _)
  | consequence _ holds _ ih ih' =>
    refine .next rfl ((ih _).trans (.next ?_ (ih' _)))
    exact if_pos (truthyFalsy.mpr holds)
  | alternative _ fails _ ih ih' =>
    refine .next rfl ((ih _).trans (.next ?_ (ih' _)))
    simp [Config.step, Pending.resume, falsyTruthy.mp fails]
  | noAlternative _ fails ih =>
    refine .next rfl ((ih _).trans (.next ?_ (.here _)))
    simp [Config.step, Pending.resume, falsyTruthy.mp fails]
    rfl
  | call _ _ _ ih ih' ih'' =>
    exact .next rfl ((ih _).trans (.next rfl ((ih' _).trans (.next rfl (ih'' _)))))
  | @notCallable _ _ _ _ _ _ _ v _ kind ih =>
    refine .next rfl ((ih _).trans (.next ?_ (.here _)))
    cases v with
    | function f => exact absurd rfl (kind f)
    | _ => rfl
  | moreExprs _ _ ih ih' =>
    exact .next rfl ((ih _).trans (.next rfl ((ih' _).trans (.next rfl (.here _)))))
  | wrongArity differ =>
    refine .next rfl ?_
    rw [Job.begin, if_pos differ]
    exact .here _
  | tooDeep arity full =>
    refine .next rfl ?_
    rw [Job.begin, if_neg (not_not_intro arity), if_pos full]
    exact .here _
  | entered arity free opened _ ih =>
    refine .next rfl ?_
    rw [Job.begin, if_neg (not_not_intro arity), if_neg (Nat.not_le.mpr free)]
    simp only [opened]
    exact (ih _).trans (.next stepScope (.next stepBody (.here _)))
  | binding _ ih | returningValue _ ih =>
    exact .next rfl ((ih _).trans (.next rfl (.here _)))
  | expression _ ih | blockStatement _ ih =>
    exact .next rfl (ih _)
  | moreStatements _ _ ih ih' =>
    exact .next rfl ((ih _).trans (.next rfl (ih' _)))
  | inside opened _ ih =>
    refine .next rfl ?_
    simp only [Job.begin, opened]
    exact (ih _).trans (.next stepScope (.here _))

theorem stepsLast {limit n : Nat} {c d : Config} (run : c.steps limit n = some d)
    (last : d.step limit = none) : c.steps limit (n + 1) = none := by
  induction n generalizing c with
  | zero =>
    obtain rfl : c = d := Option.some.inj run
    simp only [Config.steps, last, Option.bind]
  | succ n ih =>
    rw [Config.steps] at run ⊢
    cases first : c.step limit with
    | none => simp [first] at run
    | some next =>
      simp only [first, Option.bind] at run ⊢
      exact ih run

def Halts (limit : Nat) (c : Config) (r : Except EvalError Value) (m : Machine) : Prop :=
  ∃ n o, c.steps limit n = some ⟨.ended o, .done, m⟩ ∧ c.steps limit (n + 1) = none ∧ o.final = r

theorem Runs.halts {limit : Nat} {active scope s s₁} {job : Job Value} {o : Outcome Value}
    (h : Runs limit active scope s job o s₁) :
    Halts limit ⟨.todo job, .done, ⟨s, scope, active⟩⟩ o.final ⟨s₁, scope, active⟩ := by
  obtain ⟨n, run⟩ := (h.reaches .done).steps
  have last : Config.step limit ⟨.ended o, .done, ⟨s₁, scope, active⟩⟩ = none := by
    cases o <;> rfl
  exact ⟨n, o, run, stepsLast run last, rfl⟩

namespace Session

def evaluating (s : Session) (p : Program) : Config :=
  ⟨.todo (stmts .unit p.statements), .done, { s.machine with current := s.globals, active := 0 }⟩

def calling (s : Session) (f : Closure) (vs : List Value) (span : Span) : Config :=
  ⟨.todo (application f vs span), .done, s.machine⟩

theorem evaluateHalts (s : Session) (p : Program) :
    Halts s.limit (s.evaluating p) (s.evaluate p).1 (s.evaluate p).2.machine := by
  obtain ⟨o, store, body⟩ :=
    settles (Nat.zero_le s.limit) s.globals s.machine.store (.stmts .unit p.statements)
  rw [evaluateEnds body]
  exact body.halts

theorem callHalts {s : Session} (within : s.machine.active ≤ s.limit) (f : Closure)
    (vs : List Value) (span : Span) :
    Halts s.limit (s.calling f vs span) (s.call f vs span).1 (s.call f vs span).2.machine := by
  obtain ⟨o, store, applied⟩ :=
    settles within s.machine.current s.machine.store (.application f vs span)
  rw [callEnds applied within]
  exact applied.halts

end Session

/-- After any history of a session, whatever its limit is, stepping through a program or a call of
a function from outside halts, and does so with what evaluation gives. -/
theorem evaluationHalts (limit : Nat) (actions : List Action) :
    let s := (Session.start limit).after actions
    (∀ p, Halts limit (s.evaluating p) (s.evaluate p).1 (s.evaluate p).2.machine) ∧
      ∀ f vs span,
        Halts limit (s.calling f vs span) (s.call f vs span).1 (s.call f vs span).2.machine := by
  intro s
  have rest : s.AtRest := Session.reachableAtRest limit actions
  have same : s.limit = limit := Session.reachableLimit limit actions
  have within : s.machine.active ≤ s.limit := rest.idle ▸ Nat.zero_le _
  rw [← same]
  constructor
  · exact s.evaluateHalts
  · exact Session.callHalts within

end Scriptlet
