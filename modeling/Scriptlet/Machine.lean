import Scriptlet.EvalError
import Scriptlet.Store

/-! Actions on the state of an evaluation.
Names are looked up and bound in the current scope; `active` counts the function bodies that are
running. An action ends with a result, with a value that leaves the function or program it runs in,
or with an error. However it ends, what it stored stays, and the scope and call around it go on. -/
namespace Scriptlet

structure Machine where
  store : Store
  current : Scope
  active : Nat

inductive Outcome (α : Type) where
  | result (a : α)
  | leaving (v : Value)
  | failure (e : EvalError)

def Exec (α : Type) : Type := Machine → Outcome α × Machine

namespace Exec

variable {α β : Type}

@[inline] def pure (a : α) : Exec α := fun m => (.result a, m)

@[inline] def bind (x : Exec α) (f : α → Exec β) : Exec β := fun m =>
  match x m with
  | (.result a, m) => f a m
  | (.leaving v, m) => (.leaving v, m)
  | (.failure e, m) => (.failure e, m)

@[always_inline] instance : Monad Exec where
  pure := pure
  bind := bind

@[inline] def fail (fault : EvalFault) (span : Span) : Exec α := fun m =>
  (.failure ⟨fault, span⟩, m)

@[inline] def leave (v : Value) : Exec α := fun m => (.leaving v, m)

@[inline] def lift (r : Except EvalFault α) (span : Span) : Exec α := fun m =>
  match r with
  | .ok a => (.result a, m)
  | .error fault => (.failure ⟨fault, span⟩, m)

def lookup (name : Ident) : Exec Value := fun m =>
  match m.store.lookup? m.current name.text with
  | some v => (.result v, m)
  | none => (.failure ⟨.unboundIdentifier name.text, name.span⟩, m)

def define (name : Ident) (v : Value) : Exec Unit := fun m =>
  (.result (), { m with store := m.store.define m.current name.text v })

def create (name : Option Ident) (parameters : List Ident) (body : Block) : Exec Closure := fun m =>
  (.result ⟨m.store.created, name, parameters, body, m.current⟩,
    { m with store := { m.store with created := m.store.created + 1 } })

@[inline] def inside (outer : Scope) (frame : Frame) (x : Exec α) : Exec α := fun m =>
  let before := m.current
  let (scope, store) := m.store.openScope outer.chain frame
  let (outcome, m) := x { m with store := store, current := scope }
  (outcome, { m with current := before })

@[inline] def nested (x : Exec α) : Exec α := fun m => inside m.current [] x m

/- Leaving a body gives the value of the call. Of parameters with one name the last one counts. -/
@[inline] def called (f : Closure) (arguments : List Value) (body : Exec Value) : Exec Value :=
  fun m =>
    let frame := ((f.parameters.map Ident.text).zip arguments).reverse
    let (outcome, m) := inside f.scope frame body { m with active := m.active + 1 }
    let m := { m with active := m.active - 1 }
    match outcome with
    | .leaving v => (.result v, m)
    | outcome => (outcome, m)

def tooDeep (span : Span) : Exec α := fun m => (.failure ⟨.tooDeep m.active, span⟩, m)

end Exec

end Scriptlet
