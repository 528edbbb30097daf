import Scriptlet.Proofs.Joining

/-! What a run leaves that fails.
A source that cannot be read leaves a session as it is. One that is read fails in one statement:
those before it have had all their effects and those behind it have none. The failing one leaves no
bindings but those of functions that it named on the way, for a binding that fails binds nothing. -/
namespace Scriptlet

open Outcome Job

/- The names of the functions that a statement creates outside its blocks, branches and bodies. -/
def Stmt.creates : Stmt → List String
  | .binding _ value _ => value.binds
  | t => t.binds

section failing

variable {e : EvalError} {m m' : Machine}

theorem Exec.bindFails {α β : Type} {x : Exec α} {f : α → Exec β}
    (fails : (x >>= f) m = (failure e, m')) : x m = (failure e, m') ∨
      ∃ a between, x m = (result a, between) ∧ f a between = (failure e, m') := by
  cases ends : x m with | mk o between =>
  cases o with
  | result a =>
    rw [bindResult ends] at fails
    exact .inr ⟨a, between, rfl, fails⟩
  | leaving v =>
    rw [bindOut ends (.leaving v)] at fails
    cases fails
  | failure d =>
    rw [bindOut ends (.failure d)] at fails
    cases fails
    exact .inl rfl

theorem stmtFails {n : Nat} {t : Stmt} (fails : evalStmt (applyWithin n) t m = (failure e, m')) :
    Keeps m.current t.creates m.store m'.store := by
  have whole := (stmt t).execKeeps n m
  simp only [Job.exec, fails] at whole
  cases t with
  | binding own value span =>
    simp only [evalStmt] at fails
    rcases Exec.bindFails fails with first | ⟨v, between, _, defined⟩
    · have kept := (expr value).execKeeps n m
      simp only [Job.exec, first] at kept
      exact kept
    · cases defined
  | returning | expression | block => exact whole

theorem stmtsFail {apply : Application} {ss : List Stmt} {last : Value}
    (fails : evalStmts apply last ss m = (failure e, m')) :
    ∃ earlier t later v between, ss = earlier ++ t :: later ∧
      evalStmts apply last earlier m = (result v, between) ∧
      evalStmt apply t between = (failure e, m') := by
  induction ss generalizing last m with
  | nil => cases fails
  | cons t ss ih =>
    simp only [evalStmts] at fails
    rcases Exec.bindFails fails with here | ⟨v, between, head, tail⟩
    · exact ⟨[], t, ss, last, m, rfl, rfl, here⟩
    · obtain ⟨earlier, t', later, w, between', rfl, first, behind⟩ := ih tail
      refine ⟨t :: earlier, t', later, w, between', rfl, ?_, behind⟩
      simp only [evalStmts]
      rw [Exec.bindResult head, first]

end failing

namespace Session

structure FailsAt (s : Session) (earlier : List Stmt) (t : Stmt) (e : EvalError) : Prop where
  before : ∃ v, s.outcome ⟨earlier⟩ = result v
  fails : (evalStmt (applyWithin s.limit) t (s.evaluate ⟨earlier⟩).2.machine).1 = failure e

structure Failed (before : Session) (t : Stmt) (after : Session) : Prop where
  globals : ∀ name ∉ t.creates, after.get? name = before.get? name
  scopes : Keeps before.globals t.creates before.machine.store after.machine.store
  unbound : ∀ own value span, t = .binding own value span → own.text ∉ value.binds →
    after.get? own.text = before.get? own.text

section

variable {s : Session} {p : Program} {source : String} {earlier : List Stmt} {t : Stmt}
  {e : EvalError} {f : Failure}

theorem Rooted.failed {after : Session} (rooted : s.Rooted) (same : after.globals = s.globals)
    (keeps : Keeps s.globals t.creates s.machine.store after.machine.store) :
    s.Failed t after := by
  have kept := rooted.getKept same keeps
  refine ⟨kept, keeps, ?_⟩
  rintro own value span rfl absent
  exact kept own.text absent

theorem FailsAt.ends (fails : s.FailsAt earlier t e) : ∃ store,
    Keeps s.globals t.creates (s.evaluate ⟨earlier⟩).2.machine.store store ∧
      ∀ later, s.evaluate ⟨earlier ++ t :: later⟩ =
        (.error e, { s with machine := ⟨store, s.globals, 0⟩ }) := by
  obtain ⟨⟨v, ended⟩, fails⟩ := fails
  obtain ⟨between, first⟩ := s.statementsEnd ⟨earlier⟩
  rw [evaluateStatements first] at fails ⊢
  obtain ⟨o, store, _, last⟩ := (stmt t).execEnds s.limit ⟨between, s.globals, 0⟩
  simp only [Job.exec] at last
  obtain rfl : o = failure e := by rwa [last] at fails
  refine ⟨store, stmtFails last, fun later => ?_⟩
  rw [ended] at first
  have whole : evalStmts (applyWithin s.limit) .unit (earlier ++ t :: later)
      ⟨s.machine.store, s.globals, 0⟩ = (failure e, ⟨store, s.globals, 0⟩) := by
    rw [stmtsAppend, Exec.bindResult first, evalStmts, Exec.bindOut last (.failure e)]
  exact evaluateStatements whole

theorem evaluateFails (failed : (s.evaluate p).1 = .error e) :
    ∃ earlier t later, p.statements = earlier ++ t :: later ∧ s.FailsAt earlier t e := by
  obtain ⟨store, ends⟩ := s.statementsEnd p
  rw [evaluateStatements ends] at failed
  have out : s.outcome p = failure e := by
    cases ended : s.outcome p with
    | failure d =>
      rw [ended] at failed
      exact congrArg failure (Except.error.inj failed)
    | result | leaving =>
      rw [ended] at failed
      cases failed
  rw [out] at ends
  obtain ⟨earlier, t, later, v, between, split, first, last⟩ := stmtsFail ends
  refine ⟨earlier, t, later, split, ⟨v, ?_⟩, ?_⟩
  · rw [outcome, first]
  · rw [evaluateStatements first, last]

end

end Session

/-- Whatever was done before, a source that cannot be read changes nothing. A source fails in its
evaluation if and only if it comes to a statement that fails, all before it having results. Then the
globals are those that the statements before it leave, but for functions that the failing one named,
and a failing binding keeps what its name was bound to. What stands behind it does not matter. -/
theorem failureKeepsEarlier (limit : Nat) (actions : List Action) (source : String) :
    let s := (Session.start limit).after actions
    (∀ f, (s.run source).1 = .error f → (∀ e, f ≠ .eval e) → (s.run source).2 = s) ∧
    (∀ e, (s.run source).1 = .error (.eval e) ↔ ∃ p earlier t later,
      readProgram source = .ok p ∧ p.statements = earlier ++ t :: later ∧ s.FailsAt earlier t e) ∧
    ∀ p earlier t later e, readProgram source = .ok p → p.statements = earlier ++ t :: later →
      s.FailsAt earlier t e → (s.evaluate ⟨earlier⟩).2.Failed t (s.run source).2 ∧
        ∀ others, s.evaluate ⟨earlier ++ t :: others⟩ = (.error e, (s.run source).2) := by
  intro s
  refine ⟨?_, ?_, ?_⟩
  · intro f failed unread
    rw [Session.runRefused (Session.runUnread failed unread)]
  · intro e
    constructor
    · intro failed
      obtain ⟨p, read, failed⟩ := Session.runFails failed
      obtain ⟨earlier, t, later, split, fails⟩ := Session.evaluateFails failed
      exact ⟨p, earlier, t, later, read, split, fails⟩
    · rintro ⟨⟨_⟩, earlier, t, later, read, rfl, fails⟩
      obtain ⟨store, _, ends⟩ := fails.ends
      rw [Session.runProgram read, ends later]
      rfl
  · rintro ⟨_⟩ earlier t later e read rfl fails
    obtain ⟨store, keeps, ends⟩ := fails.ends
    have run : (s.run source).2 = (s.evaluate ⟨earlier ++ t :: later⟩).2 := by
      rw [Session.runProgram read]
    have globals : (s.evaluate ⟨earlier⟩).2.globals = s.globals := (s.evaluateKeeps _).1
    have before : (s.evaluate ⟨earlier⟩).2.Rooted :=
      Session.Rooted.after (Session.reachableRooted limit actions) [.evaluate ⟨earlier⟩]
    rw [run, ends later]
    rw [← globals] at keeps
    exact ⟨before.failed globals.symm keeps, ends⟩

def spoiling : String := "let x = 1 let x = -function y()\x7b\x7d z"

def Span.ofColumns (i j : Nat) : Span := ⟨⟨i, 1, i + 1⟩, ⟨j, 1, j + 1⟩⟩

def boundFirst : Stmt :=
  .binding ⟨"x", .ofColumns 4 5⟩ (.integer 1 (.ofColumns 8 9)) (.ofColumns 0 9)

def spoiled : Stmt :=
  let own : Ident := ⟨"y", .ofColumns 28 29⟩
  let created : Expr := .function (some own) [] (.mk [] (.ofColumns 31 33)) (.ofColumns 19 33)
  .binding ⟨"x", .ofColumns 14 15⟩ (.unary .negate created (.ofColumns 18 33)) (.ofColumns 10 33)

def unreached : Stmt := .expression (.name ⟨"z", .ofColumns 34 35⟩) (.ofColumns 34 35)

theorem spoilingKeeps : ∃ f : Closure,
    let s := Session.start 1
    let e : EvalError := ⟨.illegalUnary .negate (.function f), .ofColumns 18 33⟩
    readProgram spoiling = .ok ⟨[boundFirst] ++ spoiled :: [unreached]⟩ ∧
      s.FailsAt [boundFirst] spoiled e ∧ (s.run spoiling).1 = .error (.eval e) ∧
      (s.run spoiling).2.get? "x" = some (.integer 1) ∧
      (s.run spoiling).2.get? "y" = some (.function f) ∧
      s.evaluate ⟨[boundFirst, spoiled]⟩ = (.error e, (s.run spoiling).2) := by
  let f : Closure := ⟨0, some ⟨"y", .ofColumns 28 29⟩, [], .mk [] (.ofColumns 31 33), ⟨0, []⟩⟩
  let e : EvalError := ⟨.illegalUnary .negate (.function f), .ofColumns 18 33⟩
  have tokens : tokenize spoiling = .ok
      [⟨⟨.letWord, "let"⟩, .ofColumns 0 3⟩, ⟨⟨.identifier, "x"⟩, .ofColumns 4 5⟩,
       ⟨⟨.equal, "="⟩, .ofColumns 6 7⟩, ⟨⟨.integer, "1"⟩, .ofColumns 8 9⟩,
       ⟨⟨.letWord, "let"⟩, .ofColumns 10 13⟩, ⟨⟨.identifier, "x"⟩, .ofColumns 14 15⟩,
       ⟨⟨.equal, "="⟩, .ofColumns 16 17⟩, ⟨⟨.minus, "-"⟩, .ofColumns 18 19⟩,
       ⟨⟨.functionWord, "function"⟩, .ofColumns 19 27⟩, ⟨⟨.identifier, "y"⟩, .ofColumns 28 29⟩,
       ⟨⟨.leftParen, "("⟩, .ofColumns 29 30⟩, ⟨⟨.rightParen, ")"⟩, .ofColumns 30 31⟩,
       ⟨⟨.leftBrace, "\x7b"⟩, .ofColumns 31 32⟩, ⟨⟨.rightBrace, "\x7d"⟩, .ofColumns 32 33⟩,
       ⟨⟨.identifier, "z"⟩, .ofColumns 34 35⟩, .endAt ⟨35, 1, 36⟩] := by
    decide +kernel
  have read : readProgram spoiling = .ok ⟨[boundFirst] ++ spoiled :: [unreached]⟩ :=
    readProgramTokens.mpr ⟨_, tokens, rfl⟩
  have fails : (Session.start 1).FailsAt [boundFirst] spoiled e := ⟨⟨.unit, rfl⟩, rfl⟩
  obtain ⟨_, failure, leaves⟩ := failureKeepsEarlier 1 [] spoiling
  obtain ⟨left, others⟩ := leaves _ _ _ _ e read rfl fails
  have kept := left.unbound _ _ _ rfl (by decide)
  refine ⟨f, read, fails, (failure e).mpr ⟨_, _, _, _, read, rfl, fails⟩, kept, ?_, others []⟩
  have named := congrArg (·.2.get? "y") (others [])
  exact named.symm

end Scriptlet
