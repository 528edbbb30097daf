import Scriptlet.Proofs.Relabeled
import Scriptlet.Proofs.Sessions
import Scriptlet.Proofs.ViablePrefix

/-! Blanks, line breaks and comments change no meaning.
Sources of the same lexemes have the same tree but for spans, or are refused with the same fault at
the same token. Sessions that hold the same but for spans go on to do so: to evaluate a bare tree in
a bare session is to evaluate the tree and to forget the spans of what comes out. -/
namespace Scriptlet

section reading

variable {ts us : List Token} {k : Nat} {t : Token} {e : ParseError}

theorem suppliedLexemes (same : ts.map Token.toLexeme = us.map Token.toLexeme) :
    (supplied ts).map Token.toLexeme = (supplied us).map Token.toLexeme := by
  simp [supplied, same]

theorem readAlike {q r : Parser} {u : Token} (phases : r.phase.bare = q.phase.bare)
    (lexemes : u.toLexeme = t.toLexeme) (fault : q.read t = .error e) :
    ∃ d, r.read u = .error d ∧ d.fault = e.fault := by
  have first := Phase.readBare q.last q.phase t
  have second := Phase.readBare r.last r.phase u
  rw [readFault fault] at first
  rw [phases, show u.bare = t.bare by rw [Token.bare, lexemes, Token.bare], first] at second
  cases read : r.phase.read r.last u with
  | ok next =>
    rw [read] at second
    cases second
  | error d =>
    rw [read] at second
    refine ⟨d, by simp [Parser.read, read, bind, Except.bind], ?_⟩
    exact (congrArg ParseError.fault (Except.error.inj second)).symm

theorem RefusedAt.elsewhere (refused : RefusedAt ts k t e)
    (same : ts.map Token.toLexeme = us.map Token.toLexeme) :
    ∃ u d, RefusedAt us k u d ∧ d.fault = e.fault := by
  obtain ⟨q, found, run, fault⟩ := refused
  have lexemes := suppliedLexemes same
  have before : ((supplied ts).take k).map Token.toLexeme =
      ((supplied us).take k).map Token.toLexeme := by
    rw [List.map_take, List.map_take, lexemes]
  have here : ((supplied us)[k]?).map Token.toLexeme = some t.toLexeme := by
    rw [← List.getElem?_map, ← lexemes, List.getElem?_map, found, Option.map_some]
  obtain ⟨u, found', lexeme⟩ := Option.map_eq_some_iff.mp here
  have read := runBare .ofProgram ((supplied ts).take k)
  rw [feedLexemes before, runBare, run] at read
  cases run' : ((supplied us).take k).foldlM Parser.read .ofProgram with
  | error d =>
    rw [run'] at read
    cases read
  | ok r =>
    rw [run'] at read
    obtain ⟨d, fault', faults⟩ := readAlike (Except.ok.inj read) lexeme fault
    exact ⟨u, d, ⟨r, found', run', fault'⟩, faults⟩

/- One tree but for spans, or one fault that is due to the tokens of one index. -/
inductive SameReading (ts us : List Token) : Prop where
  | parsed {p q} (first : parse ts = .ok p) (second : parse us = .ok q) (trees : p.bare = q.bare)
  | refused {d e k t u} (first : parse ts = .error d) (second : parse us = .error e)
      (faults : d.fault = e.fault) (place : Attributed ts d k t) (other : Attributed us e k u)

theorem sameReading (same : ts.map Token.toLexeme = us.map Token.toLexeme) : SameReading ts us := by
  cases read : parse ts with
  | ok p =>
    obtain ⟨q, other, trees⟩ := parseLexemes same.symm ⟨p, read, rfl⟩
    exact .parsed read other trees.symm
  | error d =>
    obtain ⟨k, t, refused⟩ := refusedSomewhere read
    obtain ⟨u, e, refused', faults⟩ := refused.elsewhere same
    exact .refused read refused'.refuses faults.symm refused.attributed refused'.attributed

end reading

section values

def Closure.bare (f : Closure) : Closure :=
  ⟨f.creation, f.name.map Ident.bare, f.parameters.map Ident.bare, f.body.bare, f.scope⟩

def Value.bare : Value → Value
  | function f => .function f.bare
  | v => v

def EvalFault.bare : EvalFault → EvalFault
  | illegalUnary op operand => .illegalUnary op operand.bare
  | illegalBinary op left right => .illegalBinary op left.bare right.bare
  | notCallable callee => .notCallable callee.bare
  | fault => fault

def EvalError.bare (e : EvalError) : EvalError := ⟨e.fault.bare, .nowhere⟩

def Failure.bare : Failure → Failure
  | lex e => .lex e
  | parse e => .parse e.bare
  | eval e => .eval e.bare

def bareAnswer : Except Failure Value → Except Failure Value
  | .ok v => .ok v.bare
  | .error f => .error f.bare

def Frame.bare (frame : Frame) : Frame := frame.map fun b => (b.1, b.2.bare)

def Store.bare (s : Store) : Store := ⟨s.frames.map Frame.bare, s.created⟩

def Session.bare (s : Session) : Session :=
  { s with machine := { s.machine with store := s.machine.store.bare } }

structure Session.SameGlobals (s s' : Session) : Prop where
  names : s.globalNames = s'.globalNames
  values : ∀ name, (s.get? name).map Value.bare = (s'.get? name).map Value.bare

def spanless : Labeling := ⟨id, Function.injective_id, (· = fun _ => .nowhere)⟩

theorem Closure.relabelBare (f : Closure) : f.relabel id (fun _ => .nowhere) = f.bare := by
  simp [relabel, bare, Ident.relabelBare, Block.relabelBare]

theorem Value.relabelBare (v : Value) : v.relabel id (fun _ => .nowhere) = v.bare := by
  cases v with
  | function f => exact congrArg Value.function f.relabelBare
  | _ => rfl

theorem EvalError.relabelBare (e : EvalError) : e.relabel id (fun _ => .nowhere) = e.bare := by
  obtain ⟨fault, span⟩ := e
  refine congrArg (EvalError.mk · .nowhere) ?_
  cases fault with
  | wrongArity function expected given =>
    simp only [EvalFault.relabel, EvalFault.bare, Option.map_id, id]
  | illegalUnary | illegalBinary | notCallable =>
    simp only [EvalFault.relabel, EvalFault.bare, Value.relabelBare]
  | _ => rfl

theorem Store.relabelBare (s : Store) : s.relabel id (fun _ => .nowhere) = s.bare := by
  have frames : Frame.relabel id (fun _ => .nowhere) = Frame.bare := by
    funext frame
    simp only [Frame.relabel, Frame.bare, id, Value.relabelBare]
  rw [Store.relabel, frames, Store.bare]

theorem Session.relabelBare (s : Session) : s.relabel id (fun _ => .nowhere) = s.bare := by
  rw [Session.relabel, Store.relabelBare, Session.bare]

theorem Session.alikeBare (s : Session) : s.Alike spanless s.bare :=
  Session.alikeOnly.mpr s.relabelBare.symm

end values

section running

variable {s s' : Session} {source other : String} {ts us : List Token}

theorem Session.evaluateBare (s : Session) (p : Program) :
    bareAnswer ((s.evaluate p).1.mapError .eval) = (s.bare.evaluate p.bare).1.mapError .eval ∧
      (s.evaluate p).2.bare = (s.bare.evaluate p.bare).2 := by
  have tree : p.relabel id (fun _ => .nowhere) = p.bare := by
    simp [Program.relabel, Program.bare, stmtsRelabelBare]
  have ends := s.evaluateRelabel Function.injective_id (fun _ => .nowhere) p
  rw [tree, Session.relabelBare, Session.relabelBare] at ends
  rw [ends]
  refine ⟨?_, rfl⟩
  cases (s.evaluate p).1 with
  | ok v => exact congrArg Except.ok v.relabelBare.symm
  | error e => exact congrArg (Except.error ∘ Failure.eval) e.relabelBare.symm

theorem Session.sameGlobals (same : s.bare = s'.bare) : s.SameGlobals s' := by
  constructor
  · rw [← s.alikeBare.globalNames rfl, ← s'.alikeBare.globalNames rfl, same]
  · intro name
    have values : Value.relabel id (fun _ => .nowhere) = Value.bare := funext Value.relabelBare
    have bare (s : Session) : s.bare.get? name = (s.get? name).map Value.bare := by
      have found := s.getRelabel Function.injective_id (fun _ => .nowhere) name
      rwa [Session.relabelBare, values] at found
    rw [← bare, ← bare, same]

theorem SameReading.runs (reading : SameReading ts us) (first : tokenize source = .ok ts)
    (second : tokenize other = .ok us) (sessions : s.bare = s'.bare) :
    bareAnswer (s.run source).1 = bareAnswer (s'.run other).1 ∧
      (s.run source).2.bare = (s'.run other).2.bare := by
  cases reading with
  | @parsed p q read read' trees =>
    have one := readProgramTokens.mpr ⟨ts, first, read⟩
    have two := readProgramTokens.mpr ⟨us, second, read'⟩
    obtain ⟨answer, after⟩ := s.evaluateBare p
    obtain ⟨answer', after'⟩ := s'.evaluateBare q
    simp only [Session.runProgram one, Session.runProgram two, answer, after, answer', after',
      sessions, trees, and_self]
  | @refused d e _ _ _ read read' faults =>
    have bare : d.bare = e.bare := congrArg (ParseError.mk · .nowhere) faults
    rw [Session.runRefused (readProgramRefused first read),
      Session.runRefused (readProgramRefused second read')]
    simp only [bareAnswer, Failure.bare, bare, sessions, and_self]

/-- Texts of the same lexemes are read alike and run alike, in sessions that are the same but for
spans: there is one value or one failure, and the globals have the same names and values, all but
for spans. -/
theorem layoutIrrelevant (first : tokenize source = .ok ts) (second : tokenize other = .ok us)
    (same : ts.map Token.toLexeme = us.map Token.toLexeme) :
    SameReading ts us ∧ ∀ s s' : Session, s.bare = s'.bare →
      bareAnswer (s.run source).1 = bareAnswer (s'.run other).1 ∧
        (s.run source).2.bare = (s'.run other).2.bare ∧
        (s.run source).2.SameGlobals (s'.run other).2 := by
  have reading := sameReading same
  refine ⟨reading, fun s s' sessions => ?_⟩
  obtain ⟨answers, after⟩ := reading.runs first second sessions
  exact ⟨answers, after, Session.sameGlobals after⟩

def dense : String := "let half=function(n)\x7bn/0\x7d;half(8)"

def spread : String :=
  "let half = // of a number\n\tfunction (n) \x7b\r\n\t\tn / 0\n\t\x7d;\n\nhalf(8)\n"

theorem spreadSame : ∃ ts us, tokenize dense = .ok ts ∧ tokenize spread = .ok us ∧ ts ≠ us ∧
    SameReading ts us ∧
    bareAnswer ((Session.start 1).run dense).1 = bareAnswer ((Session.start 1).run spread).1 ∧
    ((Session.start 1).run dense).2.SameGlobals ((Session.start 1).run spread).2 := by
  have first : tokenize dense = .ok ((tokenize dense).toOption.getD []) := by decide +kernel
  have second : tokenize spread = .ok ((tokenize spread).toOption.getD []) := by decide +kernel
  obtain ⟨reading, runs⟩ := layoutIrrelevant first second (by decide +kernel)
  obtain ⟨answers, _, globals⟩ := runs (.start 1) (.start 1) rfl
  exact ⟨_, _, first, second, by decide +kernel, reading, answers, globals⟩

end running

end Scriptlet
