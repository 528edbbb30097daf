/-! Places in a source text and the stretches between them.
A place counts UTF-8 bytes from 0 and lines and columns from 1. Only a line feed starts a new
line, and a column counts characters. Places are ordered by byte, then line, then column; which
text a place belongs to is not recorded. -/
namespace Scriptlet

structure Position where
  byte : Nat
  line : Nat
  column : Nat
  deriving DecidableEq, Repr

namespace Position

def start : Position := ⟨0, 1, 1⟩

def after (p : Position) (c : Char) : Position :=
  if c = '\n' then ⟨p.byte + c.utf8Size, p.line + 1, 1⟩
  else ⟨p.byte + c.utf8Size, p.line, p.column + 1⟩

def afterAll (p : Position) (cs : List Char) : Position := cs.foldl after p

def order (p q : Position) : Ordering :=
  (compare p.byte q.byte).then ((compare p.line q.line).then (compare p.column q.column))

def earlier (p q : Position) : Position := if order q p = .lt then q else p

def later (p q : Position) : Position := if order p q = .lt then q else p

def text (p : Position) : String := s!"{p.line}:{p.column}"

theorem afterAllNil (p : Position) : p.afterAll [] = p := rfl

theorem afterAllCons (p : Position) (c : Char) (cs : List Char) :
    p.afterAll (c :: cs) = (p.after c).afterAll cs := rfl

theorem afterAllAppend (p : Position) (cs ds : List Char) :
    p.afterAll (cs ++ ds) = (p.afterAll cs).afterAll ds := by
  simp [afterAll, List.foldl_append]

end Position

structure Span where
  start : Position
  stop : Position
  deriving DecidableEq, Repr

namespace Span

def nowhere : Span := ⟨⟨0, 0, 0⟩, ⟨0, 0, 0⟩⟩

def emptyAt (p : Position) : Span := ⟨p, p⟩

def extend (a b : Span) : Span := ⟨a.start.earlier b.start, a.stop.later b.stop⟩

def text (s : Span) : String := s.start.text

end Span

end Scriptlet
