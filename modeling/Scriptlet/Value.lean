import Scriptlet.Syntax

/-! What expressions evaluate to.
A function keeps the scope it was created in. Two functions are the same only if they stem from
one evaluation of one literal, so each creation has a number of its own. A scope is known by the
frames that names are looked up in: its own one, then those around it, the nearest first. -/
namespace Scriptlet

structure Scope where
  own : Nat
  outer : List Nat
  deriving DecidableEq, Repr

def Scope.chain (s : Scope) : List Nat := s.own :: s.outer

structure Closure where
  creation : Nat
  name : Option Ident
  parameters : List Ident
  body : Block
  scope : Scope
  deriving Repr

inductive Value where
  | integer (value : Int)
  | boolean (value : Bool)
  | string (value : String)
  | function (closure : Closure)
  | unit
  deriving Repr

namespace Value

def typeName : Value → String
  | integer _ => "integer"
  | boolean _ => "boolean"
  | string _ => "string"
  | function _ => "function"
  | unit => "unit"

def truthy : Value → Bool
  | integer n => n ≠ 0
  | boolean b => b
  | string s => s ≠ ""
  | function _ => true
  | unit => false

def same : Value → Value → Bool
  | integer m, integer n => m = n
  | boolean a, boolean b => a = b
  | string s, string t => s = t
  | function f, function g => f.creation = g.creation
  | unit, unit => true
  | _, _ => false

def text : Value → String
  | integer n => toString n
  | boolean b => toString b
  | string s => s
  | function f =>
      match f.name with
      | some name => s!"<function {name.text}>"
      | none => "<function>"
  | unit => "unit"

end Value

end Scriptlet
