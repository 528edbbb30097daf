import Scriptlet.Evaluation
import Scriptlet.Failure
import Scriptlet.Parsing

/-! Running sources one after another.
A session keeps its global bindings from one source to the next. A source that cannot be read
leaves it as it is; one that fails in evaluation leaves what it did before. At most `limit`
function bodies run inside each other. -/
namespace Scriptlet

structure Session where
  machine : Machine
  globals : Scope
  limit : Nat

def defaultLimit : Nat := 10000

def readProgram (source : String) : Except Failure Program := do
  let tokens ← (tokenize source).mapError .lex
  (parse tokens).mapError .parse

namespace Session

def start (limit : Nat) : Session :=
  let (globals, store) := Store.empty.openRoot
  ⟨⟨store, globals, 0⟩, globals, limit⟩

def evaluate (p : Program) (s : Session) : Except EvalError Value × Session :=
  let (r, m) := evalProgram s.limit p { s.machine with current := s.globals, active := 0 }
  (r, { s with machine := m })

def run (source : String) (s : Session) : Except Failure Value × Session :=
  match readProgram source with
  | .error f => (.error f, s)
  | .ok p =>
      let (r, s) := s.evaluate p
      (r.mapError .eval, s)

def call (f : Closure) (arguments : List Value) (span : Span) (s : Session) :
    Except EvalError Value × Session :=
  match applyWithin (s.limit - s.machine.active) f arguments span s.machine with
  | (.result v, m) | (.leaving v, m) => (.ok v, { s with machine := m })
  | (.failure e, m) => (.error e, { s with machine := m })

def define (name : String) (v : Value) (s : Session) : Session :=
  { s with machine := { s.machine with store := s.machine.store.define s.globals name v } }

def get? (s : Session) (name : String) : Option Value := s.machine.store.lookup? s.globals name

def globalNames (s : Session) : List String := s.machine.store.localNames s.globals

/-- Runs a source with globals of its own and the default limit. Nothing of this session can be
seen by it, and its functions differ from all of this session. -/
def runApart (source : String) (s : Session) : Except Failure Value × Session :=
  let (globals, store) := s.machine.store.openRoot
  let apart : Session := ⟨⟨store, globals, 0⟩, globals, defaultLimit⟩
  let (r, apart) := apart.run source
  (r, { s with machine := { s.machine with store := apart.machine.store } })

end Session

def run (source : String) (limit : Nat) : Except Failure Value :=
  ((Session.start limit).run source).1

end Scriptlet
