import Scriptlet.Value

/-! The bindings of all scopes, and how many functions were created.
A frame is shared by all that can reach it, so a definition is seen by every scope whose chain
holds the frame and by no other. Frames are never removed and chains never change. The latest
binding of a name comes first in its frame. -/
namespace Scriptlet

abbrev Frame := List (String × Value)

structure Store where
  frames : Array Frame
  created : Nat

namespace Store

def empty : Store := ⟨#[], 0⟩

def openScope (outer : List Nat) (frame : Frame) (s : Store) : Scope × Store :=
  (⟨s.frames.size, outer⟩, { s with frames := s.frames.push frame })

def openRoot (s : Store) : Scope × Store := s.openScope [] []

def openChild (outer : Scope) (s : Store) : Scope × Store := s.openScope outer.chain []

def define (scope : Scope) (name : String) (v : Value) (s : Store) : Store :=
  { s with frames := s.frames.modify scope.own ((name, v) :: ·) }

def frame (s : Store) (own : Nat) : Frame := s.frames.getD own []

def lookup? (s : Store) (scope : Scope) (name : String) : Option Value :=
  scope.chain.findSome? fun own => (s.frame own).lookup name

def localNames (s : Store) (scope : Scope) : List String :=
  ((s.frame scope.own).map Prod.fst).eraseDups.mergeSort fun a b => decide (a ≤ b)

end Store

end Scriptlet
