import Scriptlet.Position

/-! A reader over a text: the characters that remain and the place of the first of them.
The place depends on nothing but the characters taken so far. -/
namespace Scriptlet

structure Cursor where
  rest : List Char
  position : Position
  deriving DecidableEq, Repr

namespace Cursor

def ofString (source : String) : Cursor := ⟨source.toList, .start⟩

def peek? (c : Cursor) : Option Char := c.rest.head?

def take? (c : Cursor) : Option (Char × Cursor) :=
  match c.rest with
  | [] => none
  | ch :: rest => some (ch, ⟨rest, c.position.after ch⟩)

def takeIf? (p : Char → Bool) (c : Cursor) : Option Cursor :=
  match c.take? with
  | some (ch, c) => if p ch then some c else none
  | none => none

def takeWhile (p : Char → Bool) (c : Cursor) : Cursor :=
  ⟨c.rest.dropWhile p, c.position.afterAll (c.rest.takeWhile p)⟩

end Cursor

def dropBytes? : Nat → List Char → Option (List Char)
  | 0, cs => some cs
  | _ + 1, [] => none
  | n + 1, c :: cs => if c.utf8Size ≤ n + 1 then dropBytes? (n + 1 - c.utf8Size) cs else none

def takeBytes? : Nat → List Char → Option (List Char)
  | 0, _ => some []
  | _ + 1, [] => none
  | n + 1, c :: cs =>
      if c.utf8Size ≤ n + 1 then (takeBytes? (n + 1 - c.utf8Size) cs).map (c :: ·) else none

/-- The bytes from `start` up to `stop`. There is no such text if they are out of order, if `stop`
lies past the end, or if one of them lies inside a character. -/
def slice? (source : String) (start stop : Nat) : Option String :=
  if start ≤ stop then
    ((dropBytes? start source.toList).bind (takeBytes? (stop - start))).map String.ofList
  else none

end Scriptlet
