import Scriptlet.Proofs.CallDepth

/-! Where function values come from.
Every function value is what some evaluation of a literal gave, so the functions of a history are
listed in the order in which literals were evaluated. What is done with a session from outside takes
its function values from this list, for there are no others. A moment is a state between any two
steps of such a history. -/
namespace Scriptlet

open Outcome Job

section holding

def Value.function? : Value → Option Closure
  | .function f => some f
  | _ => none

theorem Value.functionThere {v : Value} {f : Closure} :
    v.function? = some f ↔ v = .function f := by
  cases v <;> simp [function?]

def Job.values : {α : Type} → Job α → List Value
  | _, stmts last _ => [last]
  | _, application f vs _ => .function f :: vs
  | _, expr _ | _, exprs _ | _, stmt _ | _, block _ => []

namespace Pending

def parts : {α : Type} → Pending α → α → List Value
  | _, arguments .., vs | _, tail .., vs => vs
  | _, done, v | _, operand .., v | _, left .., v | _, right .., v | _, condition .., v
  | _, callee .., v | _, head .., v | _, binding .., v | _, returning .., v | _, statements .., v
  | _, scope .., v | _, body .., v => [v]

def values : {α : Type} → Pending α → List Value
  | _, done => []
  | _, right _ v _ k => v :: k.values
  | _, arguments f _ k => .function f :: k.values
  | _, tail v k => v :: k.values
  | _, operand _ _ k | _, left _ _ _ k | _, condition _ _ k | _, callee _ _ _ k | _, head _ k
  | _, binding _ k | _, returning k | _, statements _ k | _, scope _ k | _, body k => k.values

def scopes : {α : Type} → Pending α → List Scope
  | _, done => []
  | _, scope around k => around :: k.scopes
  | _, operand _ _ k | _, left _ _ _ k | _, right _ _ _ k | _, condition _ _ k | _, callee _ _ _ k
  | _, arguments _ _ k | _, head _ k | _, tail _ k | _, binding _ k | _, returning k
  | _, statements _ k | _, body k => k.scopes

end Pending

def Outcome.values {α : Type} (parts : α → List Value) : Outcome α → List Value
  | result a => parts a
  | leaving v => [v]
  | failure e => e.fault.operands

def Focus.values {α : Type} (k : Pending α) : Focus α → List Value
  | .todo job => job.values
  | .ended o => o.values k.parts

namespace Config

/- A value is there as an operand, an argument or a result, also of what is pending, or is bound in
some scope, if only under a binding that came later. -/
inductive Holds (c : Config) (v : Value) : Prop where
  | focus (member : v ∈ c.focus.values c.pending)
  | pending (member : v ∈ c.pending.values)
  | bound {i name} (member : (name, v) ∈ c.machine.store.frame i)

inductive HasScope (c : Config) : Scope → Prop where
  | current : HasScope c c.machine.current
  | pending {scope} (member : scope ∈ c.pending.scopes) : HasScope c scope
  | captured {f : Closure} (held : c.Holds (.function f)) : HasScope c f.scope

end Config

end holding

inductive Config.Literal : Option Ident → List Ident → Block → Config → Prop where
  | mk {name parameters body span k m} :
      Literal name parameters body ⟨.todo (expr (.function name parameters body span)), k, m⟩

inductive Config.Yields (f : Closure) : Config → Prop where
  | mk {k : Pending Value} {m} : Yields f ⟨.ended (.result (.function f)), k, m⟩

inductive Creates (limit : Nat) : Config → List Closure → Config → Prop where
  | here (c : Config) : Creates limit c [] c
  | literal {name parameters body c d e f fs} (literal : c.Literal name parameters body)
      (step : c.step limit = some d) (function : d.Yields f) (rest : Creates limit d fs e) :
      Creates limit c (f :: fs) e
  | other {c d e fs} (other : ∀ name parameters body, ¬ c.Literal name parameters body)
      (step : c.step limit = some d) (rest : Creates limit d fs e) : Creates limit c fs e

def Value.From (fs : List Closure) (v : Value) : Prop := ∀ f, v = .function f → f ∈ fs

def Action.From (fs : List Closure) : Action → Prop
  | .define _ v => v.From fs
  | .call f vs _ => f ∈ fs ∧ ∀ v ∈ vs, v.From fs
  | .run _ | .evaluate _ | .runApart _ => True

namespace Session

def apart (s : Session) : Session :=
  let (globals, store) := s.machine.store.openRoot
  ⟨⟨store, globals, 0⟩, globals, defaultLimit⟩

inductive Starts (s : Session) : Action → Nat → Config → Prop where
  | evaluate (p : Program) : Starts s (.evaluate p) s.limit (s.evaluating p)
  | run {source p} (read : readProgram source = .ok p) :
      Starts s (.run source) s.limit (s.evaluating p)
  | runApart {source p} (read : readProgram source = .ok p) :
      Starts s (.runApart source) defaultLimit (s.apart.evaluating p)
  | call (f : Closure) (vs : List Value) (span : Span) :
      Starts s (.call f vs span) s.limit (s.calling f vs span)

inductive Gives (s : Session) : Action → List Closure → Prop where
  | evaluated {a limit c o m fs} (starts : s.Starts a limit c)
      (creates : Creates limit c fs ⟨.ended o, .done, m⟩) : Gives s a fs
  | nothing {a} (idle : ∀ limit c, ¬ s.Starts a limit c) : Gives s a []

end Session

/- What a session comes to, with the scopes that are held outside and the functions created. Outside
it is possible to act on the session, to open scopes of one's own, to bind names in them, and to
create functions in them. -/
inductive History (limit : Nat) : Session → List Scope → List Closure → Prop where
  | start : History limit (.start limit) [(Session.start limit).globals] []
  | act {s held fs a gs} (history : History limit s held fs) (known : a.From fs)
      (gives : s.Gives a gs) : History limit (s.act a) held (fs ++ gs)
  | opened {s held fs outer} (history : History limit s held fs)
      (around : outer = [] ∨ ∃ scope ∈ held, outer = scope.chain) :
      History limit (s.withStore (s.machine.store.openScope outer []).2)
        (held ++ [(s.machine.store.openScope outer []).1]) fs
  | bound {s held fs scope name v} (history : History limit s held fs) (among : scope ∈ held)
      (known : v.From fs) :
      History limit (s.withStore (s.machine.store.define scope name v)) held fs
  | created {s held fs scope} (name : Option Ident) (parameters : List Ident) (body : Block)
      (history : History limit s held fs) (among : scope ∈ held) :
      History limit (s.withStore s.machine.store.create) held
        (fs ++ [⟨s.machine.store.created, name, parameters, body, scope⟩])

inductive Moment (limit : Nat) : List Scope → List Closure → Config → Prop where
  | mk {s held fs a bound c gs d} (history : History limit s held fs) (known : a.From fs)
      (starts : s.Starts a bound c) (creates : Creates bound c gs d) :
      Moment limit held (fs ++ gs) d

section creating

variable {limit : Nat} {c d e : Config} {f g : Closure} {fs : List Closure}

theorem yieldsOnce (one : c.Yields f) (other : c.Yields g) : f = g := by
  cases one
  cases other
  rfl

theorem literalYields {name : Option Ident} {parameters : List Ident} {body : Block}
    (literal : c.Literal name parameters body) (step : c.step limit = some d) :
    ∃ f, d.Yields f := by
  cases literal
  cases name <;> cases step <;> exact ⟨_, .mk⟩

theorem Creates.reaches (creates : Creates limit c fs d) : Reaches limit c d := by
  induction creates with
  | here => exact .here _
  | literal _ step _ _ ih | other _ step _ ih => exact .next step ih

theorem Reaches.creates (run : Reaches limit c d) : ∃ fs, Creates limit c fs d := by
  induction run with
  | here => exact ⟨[], .here _⟩
  | @next c _ _ step _ ih =>
    obtain ⟨fs, rest⟩ := ih
    by_cases some : ∃ name parameters body, c.Literal name parameters body
    · obtain ⟨name, parameters, body, literal⟩ := some
      obtain ⟨f, function⟩ := literalYields literal step
      exact ⟨f :: fs, .literal literal step function rest⟩
    · exact ⟨fs, .other (fun name parameters body literal =>
        some ⟨name, parameters, body, literal⟩) step rest⟩

end creating

section sessions

variable {limit bound : Nat} {s : Session} {a : Action} {c : Config} {fs : List Closure}
  {held : List Scope}

theorem Session.Starts.halts (starts : s.Starts a bound c) (rest : s.AtRest) :
    ∃ o m, Reaches bound c ⟨.ended o, .done, m⟩ ∧ s.act a = s.withStore m.store := by
  cases starts with
  | evaluate p =>
    obtain ⟨o, run, _⟩ := haltsReaches.mp (s.evaluateHalts p)
    obtain ⟨r, store, ends⟩ := rest.evaluate p
    exact ⟨o, _, run, by simp only [act, ends, withStore]⟩
  | @run source p read =>
    obtain ⟨o, run, _⟩ := haltsReaches.mp (s.evaluateHalts p)
    obtain ⟨r, store, ends⟩ := rest.evaluate p
    exact ⟨o, _, run, by simp only [act, runProgram read, ends, withStore]⟩
  | @runApart source p read =>
    obtain ⟨o, run, _⟩ := haltsReaches.mp (s.apart.evaluateHalts p)
    have acted : s.act (.runApart source) = s.withStore (s.apart.run source).2.machine.store := rfl
    exact ⟨o, _, run, by rw [acted, runProgram read]⟩
  | call f vs span =>
    have within : s.machine.active ≤ s.limit := rest.idle ▸ Nat.zero_le _
    obtain ⟨o, run, _⟩ := haltsReaches.mp (callHalts within f vs span)
    obtain ⟨r, store, ends⟩ := rest.call f vs span
    exact ⟨o, _, run, by simp only [act, ends, withStore]⟩

theorem Session.givesSomehow (rest : s.AtRest) (a : Action) : ∃ gs, s.Gives a gs := by
  by_cases some : ∃ bound c, s.Starts a bound c
  · obtain ⟨bound, c, starts⟩ := some
    obtain ⟨o, m, run, _⟩ := starts.halts rest
    obtain ⟨gs, creates⟩ := run.creates
    exact ⟨gs, .evaluated starts creates⟩
  · exact ⟨[], .nothing fun bound c starts => some ⟨bound, c, starts⟩⟩

theorem History.atRest (history : History limit s held fs) : s.AtRest := by
  induction history with
  | start => exact Session.startAtRest limit
  | act _ _ _ ih =>
    obtain ⟨store, acted⟩ := ih.act _
    exact acted ▸ ih.withStore store
  | opened _ _ ih | bound _ _ _ ih | created _ _ _ _ _ ih => exact ih.withStore _

theorem History.rooted (history : History limit s held fs) : s.Rooted := by
  induction history with
  | start => exact ⟨rfl, Nat.zero_lt_one⟩
  | act _ _ _ ih => exact ih.after [_]
  | @opened s held fs outer _ _ ih =>
    refine ⟨ih.outermost, Nat.lt_of_lt_of_le ih.there ?_⟩
    simp [Session.withStore, Store.openScope]
  | @bound s held fs scope name v _ _ _ ih =>
    refine ⟨ih.outermost, ?_⟩
    rw [Session.withStore, Store.sizeDefine]
    exact ih.there
  | created _ _ _ _ _ ih => exact ⟨ih.outermost, ih.there⟩

theorem History.goesOn (history : History limit s held fs) (known : a.From fs) :
    ∃ gs, History limit (s.act a) held (fs ++ gs) := by
  obtain ⟨gs, gives⟩ := Session.givesSomehow history.atRest a
  exact ⟨gs, history.act known gives⟩

theorem betweenPrograms (limit : Nat) (p q : Program) :
    ∃ fs, Moment limit [(Session.start limit).globals] fs
      (((Session.start limit).after [.evaluate p]).evaluating q) := by
  have begun : History limit (.start limit) _ _ := .start
  obtain ⟨fs, history⟩ := begun.goesOn (a := .evaluate p) trivial
  exact ⟨_, .mk history (a := .evaluate q) trivial (.evaluate q) (.here _)⟩

end sessions

end Scriptlet
