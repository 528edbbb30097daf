import Scriptlet.Proofs.Alike
import Scriptlet.Proofs.JoinedTexts
import Scriptlet.Proofs.Sessions
import Scriptlet.Proofs.ViablePrefix

/-! One source after another, and one source with the statements of both.
A semicolon ends all that the end of input would end, and behind it a list is read as from the start.
So one source has the statements of both, and evaluation goes on from those of the first as it would
start again: all bodies are left and the current scope is the global one. -/
namespace Scriptlet

section ending

variable {e t : Token} {ss : List Stmt} (stop : e.kind = .endOfInput) (sign : t.kind = .semicolon)
include stop sign

theorem Body.goesOn (body : Body) (ends : body.read e = .ok (.program ss)) :
    body.read t = .ok (.statement (.program ss.reverse)) := by
  cases body with
  | program earlier =>
    simp only [Body.read, stop, sign, Except.ok.injEq, Phase.program.injEq] at ends ⊢
    rw [← ends, List.reverse_reverse]
  | block opening earlier owner =>
    simp only [Body.read, stop] at ends
    cases ends

theorem Goal.goesOn (last : Span) (x : Expr) (goal : Goal)
    (ends : goal.receive last x e = .ok (.program ss)) :
    goal.receive last x t = .ok (.statement (.program ss.reverse)) := by
  cases goal with
  | whole => cases ends
  | statement start body => exact Body.goesOn stop sign _ ends
  | binding start name body => exact Body.goesOn stop sign _ ends
  | returning start body => exact Body.goesOn stop sign _ ends
  | grouped outer | argument callee earlier outer | condition start outer =>
    simp only [Goal.receive, stop] at ends
    cases ends

theorem Slot.goesOn (last : Span) (x : Expr) (slot : Slot)
    (ends : slot.extend last x e = .ok (.program ss)) :
    slot.extend last x t = .ok (.statement (.program ss.reverse)) := by
  obtain ⟨waiting, goal⟩ := slot
  simp only [Slot.extend, stop, sign, Connective.ofKind?] at ends ⊢
  exact Goal.goesOn stop sign last _ goal ends

theorem Phase.goesOn (last : Span) (phase : Phase) (unclosed : ¬ phase.Closed)
    (ends : phase.read last e = .ok (.program ss)) :
    phase.read last t = .ok (.statement (.program ss.reverse)) := by
  cases phase with
  | statement body => exact Body.goesOn stop sign body ends
  | connective x slot => exact Slot.goesOn stop sign last x slot ends
  | returnValue start body =>
    simp only [Phase.read, stop, sign] at ends ⊢
    exact Body.goesOn stop sign _ ends
  | alternative start test first outer =>
    simp only [Phase.read, stop, sign] at ends ⊢
    exact Slot.goesOn stop sign last _ outer ends
  | program | expression => exact absurd trivial unclosed
  | _ =>
    simp only [Phase.read, Slot.start, stop] at ends
    cases ends

end ending

section parsing

variable {ts us : List Token} {p q : Parser} {f : Span → Span}

theorem endlessUnclosed (inside : Endless ts) (run : ts.foldlM Parser.read .ofProgram = .ok q) :
    ¬ q.phase.Closed := by
  intro closed
  obtain ⟨ss, phase⟩ := closedProgram run closed
  have after := parserRun parserStart run
  rw [List.nil_append, phase] at after
  cases after with
  | program derives stop =>
    simp only [endlessAppend, endlessCons] at inside
    exact inside.2.1 stop

def Parser.move (f : Span → Span) (ss : List Stmt) (p : Parser) : Parser :=
  ⟨p.phase.move f ss, f p.last⟩

theorem Parser.readMove (merges : Merges f) (ss : List Stmt) {t : Token} (ok : p.read t = .ok q) :
    (p.move f ss).read (t.move f) = .ok (q.move f ss) := by
  have moved := Phase.readMove merges ss p.last p.phase t
  simp only [Parser.read, bind, Except.bind] at ok
  split at ok
  · cases ok
  · rename_i phase read
    cases ok
    rw [read] at moved
    simp only [Parser.read, Parser.move, moved, moveResult, bind, Except.bind]
    rfl

theorem runMove (merges : Merges f) (ss : List Stmt) (run : us.foldlM Parser.read p = .ok q) :
    (us.map (Token.move f)).foldlM Parser.read (p.move f ss) = .ok (q.move f ss) := by
  induction us generalizing p with
  | nil =>
    cases run
    rfl
  | cons t us ih =>
    rw [List.foldlM_cons] at run
    cases read : p.read t with
    | error d =>
      rw [read] at run
      cases run
    | ok next =>
      rw [read] at run
      rw [List.map_cons, List.foldlM_cons, Parser.readMove merges ss read]
      exact ih run

theorem runFrom {body : Body} {a b : Span} (some : us ≠ []) :
    us.foldlM Parser.read ⟨.statement body, a⟩ = us.foldlM Parser.read ⟨.statement body, b⟩ := by
  cases us with
  | nil => exact absurd rfl some
  | cons u us => rfl

theorem parseJoined {e t : Token} {one other : Program} (merges : Merges f) (inside : Endless ts)
    (stop : e.kind = .endOfInput) (first : parse (ts ++ [e]) = .ok one)
    (sign : t.kind = .semicolon) (second : parse us = .ok other) (ended : ¬ Endless us) :
    parse (ts ++ t :: us.map (Token.move f)) =
      .ok ⟨one.statements ++ other.statements.map (Stmt.relabel id f)⟩ := by
  obtain ⟨q, run, ends⟩ := parsedBefore stop first
  have behind := Phase.goesOn stop sign q.last q.phase (endlessUnclosed inside run) ends
  obtain ⟨r, run', phase⟩ := parsedRun second ended
  have some : us.map (Token.move f) ≠ [] := by
    intro none
    rw [List.map_eq_nil_iff.mp none] at ended
    exact ended endlessNil
  have moved := runMove merges one.statements.reverse run'
  have next : q.read t = .ok ⟨.statement (.program one.statements.reverse), t.span⟩ := by
    simp only [Parser.read, behind, bind, Except.bind]
    rfl
  refine programParses (q := r.move f one.statements.reverse) ?_ ?_
  · rw [List.foldlM_append, run]
    change List.foldlM Parser.read q _ = _
    rw [List.foldlM_cons, next]
    exact (runFrom some).trans moved
  · simp [Parser.move, phase, Phase.move]

end parsing

section evaluating

theorem stmtsAppend (apply : Application) (last : Value) (ts us : List Stmt) (m : Machine) :
    evalStmts apply last (ts ++ us) m =
      (evalStmts apply last ts >>= fun v => evalStmts apply v us) m := by
  induction ts generalizing last m with
  | nil =>
    simp only [List.nil_append, evalStmts]
    rfl
  | cons t ts ih =>
    simp only [List.cons_append, evalStmts]
    change Exec.bind _ _ m = Exec.bind (Exec.bind _ _) _ m
    simp only [Exec.bind]
    cases evalStmt apply t m with | mk o m =>
    cases o with
    | result v => exact ih v m
    | _ => rfl

theorem stmtsFrom {apply : Application} {ts : List Stmt} (some : ts ≠ []) (v w : Value) :
    evalStmts apply v ts = evalStmts apply w ts := by
  cases ts with
  | nil => exact absurd rfl some
  | cons t ts => simp only [evalStmts]

end evaluating

namespace Session

variable {s : Session} {p q : Program}

def outcome (p : Program) (s : Session) : Outcome Value :=
  (evalStmts (applyWithin s.limit) .unit p.statements ⟨s.machine.store, s.globals, 0⟩).1

theorem statementsEnd (s : Session) (p : Program) : ∃ store,
    evalStmts (applyWithin s.limit) .unit p.statements ⟨s.machine.store, s.globals, 0⟩ =
      (s.outcome p, ⟨store, s.globals, 0⟩) := by
  obtain ⟨o, store, _, ends⟩ :=
    (Job.stmts .unit p.statements).execEnds s.limit ⟨s.machine.store, s.globals, 0⟩
  simp only [Job.exec] at ends
  exact ⟨store, by rw [outcome, ends]⟩

theorem evaluateBoth {v : Value} (ended : s.outcome p = .result v) (some : q.statements ≠ []) :
    s.evaluate ⟨p.statements ++ q.statements⟩ = (s.evaluate p).2.evaluate q := by
  obtain ⟨store, first⟩ := s.statementsEnd p
  obtain ⟨store', second⟩ := statementsEnd { s with machine := ⟨store, s.globals, 0⟩ } q
  rw [evaluateStatements first, evaluateStatements second]
  refine evaluateStatements ?_
  rw [ended] at first
  rw [stmtsAppend, Exec.bindResult first, stmtsFrom some v .unit]
  exact second

theorem evaluateFirst (out : ∀ v, s.outcome p ≠ .result v) (ss : List Stmt) :
    s.evaluate ⟨p.statements ++ ss⟩ = s.evaluate p := by
  obtain ⟨store, first⟩ := s.statementsEnd p
  have unchanged : (s.outcome p).Out (s.outcome p) := by
    cases ended : s.outcome p with
    | result v => exact absurd ended (out v)
    | leaving v => exact .leaving v
    | failure e => exact .failure e
  rw [evaluateStatements first]
  exact evaluateStatements ((stmtsAppend ..).trans (Exec.bindOut first unchanged))

end Session

section steps

variable {s : Session} {first second : String} {p q : Program}

/- In the single run functions and places of the second source lie behind what leads to it. Those
there were before lie where they did. -/
def leading (first : String) : Labeling :=
  ⟨id, Function.injective_id, fun g => g = id ∨ g = Span.behind (lead first).toList⟩

inductive Failure.Alike (L : Labeling) : Failure → Failure → Prop where
  | eval {e e'} (errors : e.Alike L e') : Alike L (.eval e) (.eval e')

structure Session.GlobalsAlike (L : Labeling) (s s' : Session) : Prop where
  names : s'.globalNames = s.globalNames
  values : ∀ name, Option.Rel (Value.Alike L) (s.get? name) (s'.get? name)

theorem joinedProgram (one : readProgram first = .ok p) (other : readProgram second = .ok q) :
    readProgram (joined first second) = .ok
      ⟨p.statements ++ (q.relabel id (Span.behind (lead first).toList)).statements⟩ := by
  obtain ⟨ts, tokens, read⟩ := readProgramTokens.mp one
  obtain ⟨us, tokens', read'⟩ := readProgramTokens.mp other
  obtain ⟨t, sign, whole⟩ := joinedTokens tokens tokens'
  obtain ⟨inner, rfl, inside⟩ := (tokenizeLexes tokens).laid.ends
  obtain ⟨inner', rfl, _⟩ := (tokenizeLexes tokens').laid.ends
  rw [beforeEndStop inside rfl []] at whole
  have ended : ¬ Endless (inner' ++ [.endAt (Position.start.afterAll second.toList)]) := by
    simp [Token.endAt, Lexeme.endOfInput]
  have merges := mergesBehind (lead first).toList
  have parsed := parseJoined merges inside rfl read sign read' ended
  rw [Program.relabel, relabelStmtsMap]
  exact readProgramTokens.mpr ⟨_, whole, parsed⟩

theorem ExceptAlike.failures {L : Labeling} {r r' : Except EvalError Value}
    (answers : ExceptAlike (EvalError.Alike L) (Value.Alike L) r r') :
    ExceptAlike (Failure.Alike L) (Value.Alike L) (r.mapError .eval) (r'.mapError .eval) := by
  cases answers with
  | ok values => exact .ok values
  | error errors => exact .error (.eval errors)

/-- Two sources in turn come to what one does that has the statements of both, with a semicolon on a
line between them, if all statements of the first one have results: there is one value or one error
and the globals are the same, but that functions and places of the second one lie behind the first
one. If a statement of the first one leaves it or fails, this one source is as good as the first. -/
theorem stepsCompose (one : readProgram first = .ok p) (other : readProgram second = .ok q)
    (some : q.statements ≠ []) :
    (∀ v, s.outcome p = .result v →
      let steps := (s.run first).2.run second
      let whole := s.run (joined first second)
      ExceptAlike (Failure.Alike (leading first)) (Value.Alike (leading first)) steps.1 whole.1 ∧
        steps.2.Alike (leading first) whole.2 ∧
        steps.2.GlobalsAlike (leading first) whole.2) ∧
    ((∀ v, s.outcome p ≠ .result v) → s.run (joined first second) = s.run first) := by
  have both := joinedProgram one other
  constructor
  · intro v ended
    have more : (q.relabel id (Span.behind (lead first).toList)).statements ≠ [] := by
      simpa [Program.relabel] using some
    have start := (s.evaluate p).2.alikeSelf (L := leading first) rfl (.inl rfl)
    obtain ⟨answers, sessions⟩ := start.evaluate (.inr rfl) q
    simp only [Session.runProgram one, Session.runProgram other, Session.runProgram both,
      Session.evaluateBoth ended more]
    exact ⟨answers.failures, sessions, sessions.globalNames rfl, sessions.get⟩
  · intro out
    rw [Session.runProgram both, Session.runProgram one, Session.evaluateFirst out]

def twoBound : String := "let x = 2 // two"

def twoBoundTree : Program :=
  ⟨[.binding ⟨"x", ⟨⟨4, 1, 5⟩, ⟨5, 1, 6⟩⟩⟩ (.integer 2 ⟨⟨8, 1, 9⟩, ⟨9, 1, 10⟩⟩)
    ⟨⟨0, 1, 1⟩, ⟨9, 1, 10⟩⟩]⟩

def xDivided : String := "x / 0"

def xDividedTree : Program :=
  let whole : Span := ⟨⟨0, 1, 1⟩, ⟨5, 1, 6⟩⟩
  ⟨[.expression (.binary .divide (.name ⟨"x", ⟨⟨0, 1, 1⟩, ⟨1, 1, 2⟩⟩⟩)
    (.integer 0 ⟨⟨4, 1, 5⟩, ⟨5, 1, 6⟩⟩) whole) whole]⟩

theorem xDividedFollows :
    readProgram twoBound = .ok twoBoundTree ∧ readProgram xDivided = .ok xDividedTree ∧
      (Session.start 1).outcome twoBoundTree = .result .unit ∧
      ExceptAlike (Failure.Alike (leading twoBound)) (Value.Alike (leading twoBound))
        (((Session.start 1).run twoBound).2.run xDivided).1
        ((Session.start 1).run (joined twoBound xDivided)).1 ∧
      (∀ v, (Session.start 1).outcome xDividedTree ≠ .result v) ∧
      (Session.start 1).run (joined xDivided twoBound) = (Session.start 1).run xDivided := by
  have tokens : tokenize twoBound = .ok
      [⟨⟨.letWord, "let"⟩, ⟨⟨0, 1, 1⟩, ⟨3, 1, 4⟩⟩⟩, ⟨⟨.identifier, "x"⟩, ⟨⟨4, 1, 5⟩, ⟨5, 1, 6⟩⟩⟩,
       ⟨⟨.equal, "="⟩, ⟨⟨6, 1, 7⟩, ⟨7, 1, 8⟩⟩⟩, ⟨⟨.integer, "2"⟩, ⟨⟨8, 1, 9⟩, ⟨9, 1, 10⟩⟩⟩,
       .endAt ⟨16, 1, 17⟩] := by
    decide +kernel
  have tokens' : tokenize xDivided = .ok
      [⟨⟨.identifier, "x"⟩, ⟨⟨0, 1, 1⟩, ⟨1, 1, 2⟩⟩⟩, ⟨⟨.slash, "/"⟩, ⟨⟨2, 1, 3⟩, ⟨3, 1, 4⟩⟩⟩,
       ⟨⟨.integer, "0"⟩, ⟨⟨4, 1, 5⟩, ⟨5, 1, 6⟩⟩⟩, .endAt ⟨5, 1, 6⟩] := by
    decide +kernel
  have one : readProgram twoBound = .ok twoBoundTree := readProgramTokens.mpr ⟨_, tokens, rfl⟩
  have other : readProgram xDivided = .ok xDividedTree := readProgramTokens.mpr ⟨_, tokens', rfl⟩
  have ended : (Session.start 1).outcome twoBoundTree = .result .unit := rfl
  have out : ∀ v, (Session.start 1).outcome xDividedTree ≠ .result v := nofun
  exact ⟨one, other, ended, ((stepsCompose one other (List.cons_ne_nil _ _)).1 _ ended).1, out,
    (stepsCompose other one (List.cons_ne_nil _ _)).2 out⟩

end steps

end Scriptlet
