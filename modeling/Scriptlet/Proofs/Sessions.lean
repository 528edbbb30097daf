import Scriptlet.Proofs.Frames

/-! The sessions there can be.
Whatever is done with a session, before and after it no body is active and the current scope is the
global one. The limit and the global scope never change, and the global scope has none around it. -/
namespace Scriptlet

section reading

variable {source : String} {ts : List Token} {p : Program} {e : ParseError} {f : Failure}

theorem readProgramTokens : readProgram source = .ok p ↔
    ∃ ts, tokenize source = .ok ts ∧ parse ts = .ok p := by
  unfold readProgram
  cases tokenize source with
  | error e =>
    change Except.error _ = Except.ok p ↔ _
    simp
  | ok ts =>
    change (parse ts).mapError Failure.parse = .ok p ↔ _
    cases read : parse ts with
    | error e =>
      change Except.error _ = Except.ok p ↔ _
      simp [read]
    | ok q =>
      change Except.ok q = Except.ok p ↔ _
      simp [read]

theorem readProgramUnread {e : LexError} (fault : tokenize source = .error e) :
    readProgram source = .error (.lex e) := by
  unfold readProgram
  rw [fault]
  rfl

theorem readProgramRefused (ok : tokenize source = .ok ts) (refused : parse ts = .error e) :
    readProgram source = .error (.parse e) := by
  unfold readProgram
  rw [ok]
  change (parse ts).mapError Failure.parse = _
  rw [refused]
  rfl

theorem readProgramFails (refused : readProgram source = .error f) :
    (∃ e, f = .lex e ∧ tokenize source = .error e) ∨
      ∃ ts e, f = .parse e ∧ tokenize source = .ok ts ∧ parse ts = .error e := by
  cases lexed : tokenize source with
  | error e =>
    rw [readProgramUnread lexed] at refused
    exact .inl ⟨e, (Except.error.inj refused).symm, rfl⟩
  | ok ts =>
    cases parsed : parse ts with
    | error e =>
      rw [readProgramRefused lexed parsed] at refused
      exact .inr ⟨ts, e, (Except.error.inj refused).symm, rfl, parsed⟩
    | ok p =>
      rw [readProgramTokens.mpr ⟨ts, lexed, parsed⟩] at refused
      cases refused

theorem readProgramError (refused : readProgram source = .error f) (e : EvalError) :
    f ≠ .eval e := by
  rcases readProgramFails refused with ⟨d, rfl, _⟩ | ⟨ts, d, rfl, _⟩ <;> nofun

theorem Session.runProgram (ok : readProgram source = .ok p) (s : Session) :
    s.run source = ((s.evaluate p).1.mapError .eval, (s.evaluate p).2) := by
  simp only [Session.run, ok]

theorem Session.runRefused (refused : readProgram source = .error f) (s : Session) :
    s.run source = (.error f, s) := by
  simp only [Session.run, refused]

theorem Session.runFails {s : Session} {e : EvalError}
    (failed : (s.run source).1 = .error (.eval e)) :
    ∃ p, readProgram source = .ok p ∧ (s.evaluate p).1 = .error e := by
  cases read : readProgram source with
  | error f =>
    rw [Session.runRefused read] at failed
    exact absurd (Except.error.inj failed) (readProgramError read e)
  | ok p =>
    rw [Session.runProgram read] at failed
    refine ⟨p, rfl, ?_⟩
    cases ends : (s.evaluate p).1 with
    | ok v =>
      rw [ends] at failed
      cases failed
    | error d =>
      rw [ends] at failed
      cases failed
      rfl

theorem Session.runUnread {s : Session} (failed : (s.run source).1 = .error f)
    (unread : ∀ e, f ≠ .eval e) : readProgram source = .error f := by
  cases read : readProgram source with
  | error g =>
    rw [Session.runRefused read] at failed
    exact congrArg Except.error (Except.error.inj failed)
  | ok p =>
    rw [Session.runProgram read] at failed
    cases ends : (s.evaluate p).1 with
    | ok v =>
      rw [ends] at failed
      cases failed
    | error e =>
      rw [ends] at failed
      exact absurd (Except.error.inj failed).symm (unread e)

end reading

inductive Action where
  | run (source : String)
  | evaluate (p : Program)
  | runApart (source : String)
  | define (name : String) (v : Value)
  | call (f : Closure) (arguments : List Value) (span : Span)

namespace Session

def act (s : Session) : Action → Session
  | .run source => (s.run source).2
  | .evaluate p => (s.evaluate p).2
  | .runApart source => (s.runApart source).2
  | .define name v => s.define name v
  | .call f arguments span => (s.call f arguments span).2

def after (s : Session) (actions : List Action) : Session := actions.foldl act s

def withStore (s : Session) (store : Store) : Session :=
  { s with machine := { s.machine with store := store } }

structure AtRest (s : Session) : Prop where
  idle : s.machine.active = 0
  outside : s.machine.current = s.globals

namespace AtRest

variable {s : Session} (rest : s.AtRest)
include rest

theorem withStore (store : Store) : (s.withStore store).AtRest := ⟨rest.idle, rest.outside⟩

theorem evaluate (p : Program) : ∃ r store, s.evaluate p = (r, s.withStore store) := by
  obtain ⟨r, store, derived⟩ := programSettles s.limit s.globals s.machine.store p
  refine ⟨r, store, ?_⟩
  simp only [derived.evaluate, Session.withStore, rest.idle, rest.outside]

theorem call (f : Closure) (vs : List Value) (span : Span) :
    ∃ r store, s.call f vs span = (r, s.withStore store) := by
  have within : s.machine.active ≤ s.limit := rest.idle ▸ Nat.zero_le _
  obtain ⟨o, store, applied⟩ :=
    settles within s.machine.current s.machine.store (.application f vs span)
  exact ⟨o.final, store, callEnds applied within⟩

theorem act (a : Action) : ∃ store, s.act a = s.withStore store := by
  cases a with
  | run source =>
    simp only [Session.act, Session.run]
    cases readProgram source with
    | error f => exact ⟨s.machine.store, rfl⟩
    | ok p =>
      obtain ⟨r, store, ends⟩ := rest.evaluate p
      exact ⟨store, congrArg Prod.snd ends⟩
  | evaluate p =>
    obtain ⟨r, store, ends⟩ := rest.evaluate p
    exact ⟨store, congrArg Prod.snd ends⟩
  | runApart source => exact ⟨_, rfl⟩
  | define name v => exact ⟨_, rfl⟩
  | call f arguments span =>
    obtain ⟨r, store, ends⟩ := rest.call f arguments span
    exact ⟨store, congrArg Prod.snd ends⟩

theorem after (actions : List Action) : ∃ store, s.after actions = s.withStore store := by
  induction actions generalizing s with
  | nil => exact ⟨s.machine.store, rfl⟩
  | cons a actions ih =>
    obtain ⟨store, acted⟩ := rest.act a
    obtain ⟨last, ends⟩ := ih (acted ▸ rest.withStore store)
    refine ⟨last, ends.trans ?_⟩
    rw [acted]
    rfl

end AtRest

theorem startAtRest (limit : Nat) : (start limit).AtRest := ⟨rfl, rfl⟩

theorem reachableAtRest (limit : Nat) (actions : List Action) :
    ((start limit).after actions).AtRest := by
  obtain ⟨store, ends⟩ := (startAtRest limit).after actions
  exact ends ▸ (startAtRest limit).withStore store

theorem reachableLimit (limit : Nat) (actions : List Action) :
    ((start limit).after actions).limit = limit := by
  obtain ⟨store, ends⟩ := (startAtRest limit).after actions
  rw [ends]
  rfl

structure Rooted (s : Session) : Prop where
  outermost : s.globals.outer = []
  there : s.globals.own < s.machine.store.frames.size

section rooted

variable {s : Session}

theorem Rooted.get (rooted : s.Rooted) (name : String) :
    s.get? name = (s.machine.store.frame s.globals.own).lookup name := by
  simp only [get?, Store.lookup?, Scope.chain, rooted.outermost, List.findSome?_singleton]

theorem Rooted.getKept {s' : Session} {names : List String} (rooted : s.Rooted)
    (same : s'.globals = s.globals)
    (keeps : Keeps s.globals names s.machine.store s'.machine.store) :
    ∀ name ∉ names, s'.get? name = s.get? name := by
  intro name other
  have rooted' : s'.Rooted :=
    ⟨same ▸ rooted.outermost, same ▸ Nat.lt_of_lt_of_le rooted.there keeps.grown⟩
  rw [rooted.get, rooted'.get, same]
  exact keeps.bindings _ rooted.there name other

theorem evaluateKeeps (s : Session) (p : Program) : (s.evaluate p).2.globals = s.globals ∧
    Keeps s.globals (p.statements.flatMap Stmt.binds) s.machine.store
      (s.evaluate p).2.machine.store := by
  obtain ⟨o, store, body⟩ :=
    settles (Nat.zero_le s.limit) s.globals s.machine.store (.stmts .unit p.statements)
  rw [evaluateEnds body]
  exact ⟨rfl, body.keeps⟩

theorem runGrows (s : Session) (source : String) : (s.run source).2.globals = s.globals ∧
    s.machine.store.frames.size ≤ (s.run source).2.machine.store.frames.size := by
  cases read : readProgram source with
  | error f =>
    rw [runRefused read]
    exact ⟨rfl, Nat.le_refl _⟩
  | ok p =>
    rw [runProgram read]
    exact (s.evaluateKeeps p).imp_right (·.grown)

theorem actGrows (s : Session) (a : Action) : (s.act a).globals = s.globals ∧
    s.machine.store.frames.size ≤ (s.act a).machine.store.frames.size := by
  cases a with
  | run source => exact s.runGrows source
  | evaluate p => exact (s.evaluateKeeps p).imp_right (·.grown)
  | runApart source =>
    refine ⟨rfl, Nat.le_trans ?_ (runGrows _ source).2⟩
    exact Nat.le_of_lt (Nat.lt_of_lt_of_eq (Nat.lt_succ_self _) (Array.size_push []).symm)
  | define name v => exact ⟨rfl, Nat.le_of_eq (s.machine.store.sizeDefine _ name v).symm⟩
  | call f arguments span =>
    have kept := (Job.application f arguments span).execKeeps (s.limit - s.machine.active) s.machine
    simp only [Job.exec] at kept
    simp only [act, call]
    split <;> rename_i ends <;> exact ⟨rfl, by simpa only [ends] using kept.grown⟩

theorem Rooted.after (rooted : s.Rooted) (actions : List Action) : (s.after actions).Rooted := by
  induction actions generalizing s with
  | nil => exact rooted
  | cons a actions ih =>
    obtain ⟨globals, grown⟩ := s.actGrows a
    refine ih ⟨?_, ?_⟩
    · rw [globals]
      exact rooted.outermost
    · rw [globals]
      exact Nat.lt_of_lt_of_le rooted.there grown

theorem reachableRooted (limit : Nat) (actions : List Action) :
    ((start limit).after actions).Rooted :=
  Rooted.after ⟨rfl, Nat.zero_lt_one⟩ actions

end rooted

end Session

end Scriptlet
