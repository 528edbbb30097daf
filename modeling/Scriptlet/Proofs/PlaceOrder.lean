import Scriptlet.Proofs.Lookahead

/-! Places in the order of their text.
Places are compared by byte, then line, then column, which makes an order of all places there are.
A reader's place is told by the characters it has taken, and each one moves it on in bytes and in
lines and columns alike. So for places in one text any of these orders is the order of all three,
and two spans of the text are extended to the least one around them. -/
namespace Scriptlet

section orders

def Position.AtMost (p q : Position) : Prop := (p.order q).isLE

def Span.Within (inner outer : Span) : Prop :=
  outer.start.AtMost inner.start ∧ inner.stop.AtMost outer.stop

structure LeastAround (a b s : Span) : Prop where
  first : a.Within s
  second : b.Within s
  least : ∀ t : Span, a.Within t → b.Within t → s.Within t

instance : Std.TransCmp Position.order :=
  inferInstanceAs (Std.TransCmp (compareLex (compareOn Position.byte)
    (compareLex (compareOn Position.line) (compareOn Position.column))))

variable {p q r : Position} {a b s t : Span}

namespace Position

theorem orderSame : p.order q = .eq ↔ p = q := by
  obtain ⟨byte, line, column⟩ := p
  obtain ⟨byte', line', column'⟩ := q
  simp [order, Ordering.then_eq_eq]

theorem AtMost.refl (p : Position) : p.AtMost p := by
  simp [AtMost, orderSame.mpr rfl]

theorem AtMost.trans (first : p.AtMost q) (second : q.AtMost r) : p.AtMost r :=
  Std.TransCmp.isLE_trans first second

theorem AtMost.same (first : p.AtMost q) (second : q.AtMost p) : p = q :=
  orderSame.mp (Std.OrientedCmp.isLE_antisymm first second)

theorem atMostBefore (before : p.order q = .lt) : p.AtMost q := Ordering.isLE_of_eq_lt before

theorem atMostOr (behind : q.order p ≠ .lt) : p.AtMost q :=
  Std.OrientedCmp.isGE_iff_isLE.mp (Ordering.isGE_iff_ne_lt.mpr behind)

theorem earlierBoth (p q : Position) : (p.earlier q).AtMost p ∧ (p.earlier q).AtMost q := by
  unfold earlier
  split
  · rename_i before
    exact ⟨atMostBefore before, .refl q⟩
  · rename_i behind
    exact ⟨.refl p, atMostOr behind⟩

theorem laterBoth (p q : Position) : p.AtMost (p.later q) ∧ q.AtMost (p.later q) := by
  unfold later
  split
  · rename_i before
    exact ⟨atMostBefore before, .refl q⟩
  · rename_i behind
    exact ⟨.refl p, atMostOr behind⟩

theorem earlierKeeps (holds : Position → Prop) (first : holds p) (second : holds q) :
    holds (p.earlier q) := by
  unfold earlier
  split <;> assumption

theorem laterKeeps (holds : Position → Prop) (first : holds p) (second : holds q) :
    holds (p.later q) := by
  unfold later
  split <;> assumption

end Position

theorem Span.Within.same (first : a.Within b) (second : b.Within a) : a = b := by
  obtain ⟨start, stop⟩ := a
  obtain ⟨start', stop'⟩ := b
  obtain rfl : start = start' := second.1.same first.1
  obtain rfl : stop = stop' := first.2.same second.2
  rfl

theorem extendLeast (a b : Span) : LeastAround a b (a.extend b) where
  first := ⟨(Position.earlierBoth _ _).1, (Position.laterBoth _ _).1⟩
  second := ⟨(Position.earlierBoth _ _).2, (Position.laterBoth _ _).2⟩
  least t first second := ⟨Position.earlierKeeps t.start.AtMost first.1 second.1,
    Position.laterKeeps (·.AtMost t.stop) first.2 second.2⟩

theorem leastExtend : LeastAround a b s ↔ s = a.extend b := by
  constructor
  · intro around
    have extended := extendLeast a b
    exact (around.least _ extended.first extended.second).same
      (extended.least _ around.first around.second)
  · rintro rfl
    exact extendLeast a b

end orders

section advancing

structure Position.Before (p q : Position) : Prop where
  byte : p.byte < q.byte
  line : p.line < q.line ∨ p.line = q.line ∧ p.column < q.column

structure SameOrder (p q : Position) : Prop where
  byte : p.order q = compare p.byte q.byte
  line : p.order q = (compare p.line q.line).then (compare p.column q.column)

variable {p q r : Position} {cs : List Char}

theorem Position.Before.trans (first : p.Before q) (second : q.Before r) : p.Before r := by
  obtain ⟨byte, line⟩ := first
  obtain ⟨byte', line'⟩ := second
  constructor <;> omega

theorem beforeAfter (p : Position) (c : Char) : p.Before (p.after c) := by
  have byte : p.byte < (p.after c).byte := by
    rw [afterByte]
    exact Nat.lt_add_of_pos_right c.utf8Size_pos
  refine ⟨byte, ?_⟩
  unfold Position.after
  split
  · exact .inl (Nat.lt_succ_self _)
  · exact .inr ⟨rfl, Nat.lt_succ_self _⟩

theorem beforeAfterAll (p : Position) (some : cs ≠ []) : p.Before (p.afterAll cs) := by
  induction cs generalizing p with
  | nil => exact absurd rfl some
  | cons c cs ih =>
    rw [Position.afterAllCons]
    by_cases last : cs = []
    · rw [last]
      exact beforeAfter p c
    · exact (beforeAfter p c).trans (ih _ last)

theorem Position.Before.orders (before : p.Before q) :
    p.order q = .lt ∧ compare p.byte q.byte = .lt ∧
      (compare p.line q.line).then (compare p.column q.column) = .lt := by
  have bytes : compare p.byte q.byte = .lt := Nat.compare_eq_lt.mpr before.byte
  refine ⟨by rw [Position.order, bytes]; rfl, bytes, ?_⟩
  rcases before.line with lower | ⟨same, further⟩
  · rw [Nat.compare_eq_lt.mpr lower]
    rfl
  · rw [Nat.compare_eq_eq.mpr same, Nat.compare_eq_lt.mpr further]
    rfl

theorem Position.Before.sameOrder (before : p.Before q) : SameOrder p q := by
  obtain ⟨order, bytes, places⟩ := before.orders
  exact ⟨order.trans bytes.symm, order.trans places.symm⟩

theorem SameOrder.swap (same : SameOrder p q) : SameOrder q p := by
  have order : q.order p = (p.order q).swap := Std.OrientedCmp.eq_swap
  constructor
  · rw [order, same.byte, Nat.compare_swap]
  · rw [order, same.line, Ordering.swap_then, Nat.compare_swap, Nat.compare_swap]

theorem SameOrder.refl (p : Position) : SameOrder p p := by
  have order : p.order p = .eq := Position.orderSame.mpr rfl
  constructor
  · rw [order, Nat.compare_eq_eq.mpr rfl]
  · rw [order, Nat.compare_eq_eq.mpr rfl, Nat.compare_eq_eq.mpr rfl]
    rfl

theorem sameOrderAfter {before rest before' rest' : List Char}
    (both : before ++ rest = before' ++ rest') (p : Position) :
    SameOrder (p.afterAll before) (p.afterAll before') := by
  have onward (q : Position) (more : List Char) : SameOrder q (q.afterAll more) := by
    by_cases none : more = []
    · rw [none]
      exact .refl q
    · exact (beforeAfterAll q none).sameOrder
  rcases List.append_eq_append_iff.mp both with ⟨more, rfl, _⟩ | ⟨more, rfl, _⟩
  · rw [Position.afterAllAppend]
    exact onward _ more
  · rw [Position.afterAllAppend]
    exact (onward _ more).swap

end advancing

section reading

def Peeker.Alike (r s : Peeker) : Prop := ∀ actions,
  (performAll perform actions r).1 = (performAll perform actions s).1 ∧
    (performAll perform actions r).2.position = (performAll perform actions s).2.position

def readBy (source : String) (actions : List CursorAction) : List Answer × Peeker :=
  performAll Peeker.perform actions (.ofString source)

def Reached (source : String) (p : Position) : Prop :=
  ∃ actions, (readBy source actions).2.position = p

structure SpanIn (source : String) (s : Span) : Prop where
  start : Reached source s.start
  stop : Reached source s.stop
  order : s.start.AtMost s.stop

/- What actions on a new reader answer, where they bring it, and that looking ahead there changes
nothing. A cursor would answer and stand alike. -/
structure ReadsUpTo (source : String) (actions : List CursorAction) (before rest : List Char) :
    Prop where
  takes : TakesAll actions source.toList (readBy source actions).1 before rest
  located : Located source (readBy source actions).2.position before rest
  unseen : (readBy source actions).2.Alike ((readBy source actions).2.perform .peek).2
  cursor : performAll Cursor.perform actions (.ofString source) =
    ((readBy source actions).1, ⟨rest, (readBy source actions).2.position⟩)

variable {source : String} {p q : Position} {a b : Span} {r s : Peeker} {c : Cursor}

theorem Peeker.Shows.alike (first : r.Shows c) (second : s.Shows c) : r.Alike s := by
  intro actions
  obtain ⟨answers, shows⟩ := first.performAll actions
  obtain ⟨answers', shows'⟩ := second.performAll actions
  exact ⟨answers.trans answers'.symm, shows.position.trans shows'.position.symm⟩

theorem readPlace (source : String) (actions : List CursorAction) : ∃ before rest,
    TakesAll actions source.toList (readBy source actions).1 before rest ∧
      (readBy source actions).2.Shows ⟨rest, Position.start.afterAll before⟩ ∧
      performAll Cursor.perform actions (.ofString source) =
        ((readBy source actions).1, ⟨rest, Position.start.afterAll before⟩) := by
  obtain ⟨answers, shows⟩ := (Peeker.Shows.start source).performAll actions
  obtain ⟨before, takes, place⟩ := Cursor.takesAll actions (.ofString source)
  have cursor : (performAll Cursor.perform actions (.ofString source)).2 =
      ⟨_, Position.start.afterAll before⟩ := congrArg (Cursor.mk _) place
  exact ⟨before, _, answers ▸ takes, cursor ▸ shows, Prod.ext answers.symm cursor⟩

theorem readsUpTo (source : String) (actions : List CursorAction) :
    ∃ before rest, ReadsUpTo source actions before rest := by
  obtain ⟨before, rest, takes, shows, cursor⟩ := readPlace source actions
  refine ⟨before, rest, takes, ?_, shows.alike shows.look, ?_⟩
  · rw [shows.position]
    exact locatedAfter takes.split
  · rw [shows.position, cursor]

theorem Reached.sameOrder (first : Reached source p) (second : Reached source q) :
    SameOrder p q := by
  obtain ⟨actions, rfl⟩ := first
  obtain ⟨actions', rfl⟩ := second
  obtain ⟨before, rest, takes, shows, _⟩ := readPlace source actions
  obtain ⟨before', rest', takes', shows', _⟩ := readPlace source actions'
  rw [shows.position, shows'.position]
  exact sameOrderAfter (takes.split.symm.trans takes'.split) .start

theorem SpanIn.extend (first : SpanIn source a) (second : SpanIn source b) :
    SpanIn source (a.extend b) where
  start := Position.earlierKeeps (Reached source) first.start second.start
  stop := Position.laterKeeps (Reached source) first.stop second.stop
  order := ((Position.earlierBoth _ _).1.trans first.order).trans (Position.laterBoth _ _).1

/-- Whatever is done with a reader of a text, its place is told by the characters it has taken: by
their bytes, their line feeds and the characters behind the last one of these. Taking while a test
holds stops before the first character that fails it, and looking ahead cannot be seen. So bytes,
lines with columns, and both together order the places reached in a text alike, and the span of two
spans of it is the least one around them. -/
theorem placesFollowText (source : String) :
    (∀ actions, ∃ before rest, ReadsUpTo source actions before rest) ∧
      (∀ p q, Reached source p → Reached source q → SameOrder p q) ∧
      ∀ a b, SpanIn source a → SpanIn source b →
        SpanIn source (a.extend b) ∧ ∀ s, LeastAround a b s ↔ s = a.extend b :=
  ⟨readsUpTo source, fun _ _ => Reached.sameOrder,
    fun _ _ first second => ⟨first.extend second, fun _ => leastExtend⟩⟩

example : (readBy "é\nd" [.take, .peek, .takeIf (· = '\n'), .takeIf (· = 'x')]).2.position =
    ⟨3, 2, 1⟩ := by
  decide +kernel

end reading

end Scriptlet
