import Scriptlet.Proofs.Lines

/-! A reader that looks one character ahead.
Its characters come with their byte offsets, and its place takes the offset of the character that
comes next, which it has to look at for that. What it has looked at it holds until it is taken. This
cannot be seen from outside: whatever is asked of it, it answers and stands as a cursor does, which
holds nothing but the characters that remain. -/
namespace Scriptlet

inductive CursorAction where
  | peek
  | take
  | takeIf (p : Char → Bool)
  | takeWhile (p : Char → Bool)

inductive Answer where
  | character (c : Option Char)
  | taken (some : Bool)
  | nothing

def performAll {σ : Type} (perform : CursorAction → σ → Answer × σ) :
    List CursorAction → σ → List Answer × σ
  | [], s => ([], s)
  | a :: actions, s =>
      let (answer, s) := perform a s
      let (answers, s) := performAll perform actions s
      (answer :: answers, s)

namespace Cursor

def perform (a : CursorAction) (c : Cursor) : Answer × Cursor :=
  match a with
  | .peek => (.character c.peek?, c)
  | .take =>
      match c.take? with
      | some (ch, c) => (.character (some ch), c)
      | none => (.character none, c)
  | .takeIf p =>
      match c.takeIf? p with
      | some c => (.taken true, c)
      | none => (.taken false, c)
  | .takeWhile p => (.nothing, c.takeWhile p)

end Cursor

def indexed (n : Nat) : List Char → List (Nat × Char)
  | [] => []
  | c :: cs => (n, c) :: indexed (n + c.utf8Size) cs

/- It may hold a character that it has looked at, or that there was none. -/
structure Peeker where
  source : String
  seen : Option (Option (Nat × Char))
  coming : List (Nat × Char)
  position : Position

namespace Peeker

def ofString (source : String) : Peeker := ⟨source, none, indexed 0 source.toList, .start⟩

def look (r : Peeker) : Option (Nat × Char) × Peeker :=
  match r.seen with
  | some item => (item, r)
  | none => (r.coming.head?, { r with seen := some r.coming.head?, coming := r.coming.tail })

def pull (r : Peeker) : Option (Nat × Char) × Peeker :=
  match r.seen with
  | some item => (item, { r with seen := none })
  | none => (r.coming.head?, { r with coming := r.coming.tail })

def take (r : Peeker) : Option Char × Peeker :=
  match r.pull with
  | (none, r) => (none, r)
  | (some (_, c), r) =>
      let (item, r) := r.look
      let byte := (item.map Prod.fst).getD r.source.utf8ByteSize
      let position : Position :=
        if c = '\n' then ⟨byte, r.position.line + 1, 1⟩
        else ⟨byte, r.position.line, r.position.column + 1⟩
      (some c, { r with position := position })

def takeIf (p : Char → Bool) (r : Peeker) : Bool × Peeker :=
  match r.look with
  | (some (_, c), r) => if p c then (true, r.take.2) else (false, r)
  | (none, r) => (false, r)

def left (r : Peeker) : Nat :=
  match r.seen with
  | some (some _) => r.coming.length + 1
  | _ => r.coming.length

theorem lookLeft (r : Peeker) : r.look.2.left = r.left := by
  obtain ⟨source, seen, coming, position⟩ := r
  cases seen <;> cases coming <;> rfl

theorem lookSeen {r r' : Peeker} {item : Nat × Char} (look : r.look = (some item, r')) :
    r'.seen = some (some item) := by
  obtain ⟨source, seen, coming, position⟩ := r
  cases seen with
  | some held =>
    cases look
    rfl
  | none =>
    obtain ⟨first, rfl⟩ := Prod.mk.inj look
    exact congrArg some first

theorem takeLeft {r : Peeker} {item : Nat × Char} (seen : r.seen = some (some item)) :
    r.take.2.left < r.left := by
  obtain ⟨source, held, coming, position⟩ := r
  cases seen
  exact Nat.lt_succ_of_le (Nat.le_of_eq (lookLeft ⟨source, none, coming, position⟩))

def takeWhile (p : Char → Bool) (r : Peeker) : Peeker :=
  match _h : r.look with
  | (some (_, c), r') => if p c then takeWhile p r'.take.2 else r'
  | (none, r') => r'
termination_by r.left
decreasing_by
  rw [← lookLeft r, _h]
  exact takeLeft (lookSeen _h)

def perform (a : CursorAction) (r : Peeker) : Answer × Peeker :=
  match a with
  | .peek => (.character (r.look.1.map Prod.snd), r.look.2)
  | .take => (.character r.take.1, r.take.2)
  | .takeIf p => (.taken (r.takeIf p).1, (r.takeIf p).2)
  | .takeWhile p => (.nothing, r.takeWhile p)

end Peeker

section simulation

inductive Holds : Option (Option (Nat × Char)) → List (Nat × Char) → List (Nat × Char) → Prop where
  | unseen {items} : Holds none items items
  | seen {item items} : Holds (some (some item)) items (item :: items)
  | ended : Holds (some none) [] []

structure Peeker.Ahead (r : Peeker) (c : Cursor) : Prop where
  stands : Stands r.source c.position c.rest
  items : Holds r.seen r.coming (indexed c.position.byte c.rest)

structure Peeker.Shows (r : Peeker) (c : Cursor) : Prop extends r.Ahead c where
  position : r.position = c.position

namespace Peeker

variable {r : Peeker} {c : Cursor} {ch : Char} {cs : List Char} {p : Position}

theorem lookPosition (r : Peeker) : r.look.2.position = r.position := by
  unfold look
  split <;> rfl

theorem lookSource (r : Peeker) : r.look.2.source = r.source := by
  unfold look
  split <;> rfl

theorem Ahead.look (ahead : r.Ahead c) :
    r.look.1 = (indexed c.position.byte c.rest).head? ∧ r.look.2.Ahead c := by
  obtain ⟨source, seen, coming, position⟩ := r
  obtain ⟨stands, items⟩ := ahead
  generalize all : indexed c.position.byte c.rest = every at items
  cases items with
  | unseen =>
    subst all
    refine ⟨rfl, stands, ?_⟩
    cases indexed c.position.byte c.rest with
    | nil => exact .ended
    | cons => exact .seen
  | seen => exact ⟨rfl, stands, all ▸ .seen⟩
  | ended => exact ⟨rfl, stands, all ▸ .ended⟩

theorem Ahead.byte (ahead : r.Ahead c) :
    (r.look.1.map Prod.fst).getD r.source.utf8ByteSize = c.position.byte := by
  obtain ⟨cs, p⟩ := c
  rw [ahead.look.1]
  cases cs with
  | nil => exact ahead.stands.last.symm
  | cons => rfl

theorem Shows.start (source : String) : (ofString source).Shows (.ofString source) :=
  ⟨⟨standsAtStart source, .unseen⟩, rfl⟩

theorem Shows.look (shows : r.Shows c) : r.look.2.Shows c :=
  ⟨shows.toAhead.look.2, (lookPosition r).trans shows.position⟩

theorem Shows.pull (shows : r.Shows ⟨ch :: cs, p⟩) : ∃ r', r.pull = (some (p.byte, ch), r') ∧
    r'.position = p ∧ r'.Ahead ⟨cs, p.after ch⟩ := by
  obtain ⟨source, seen, coming, position⟩ := r
  obtain ⟨⟨stands, items⟩, rfl⟩ := shows
  have stands : Stands source (position.after ch) cs := @Stands.past source position [ch] cs stands
  have further :
      indexed (position.after ch).byte cs = indexed (position.byte + ch.utf8Size) cs := by
    rw [afterByte]
  refine ⟨⟨source, none, indexed (position.after ch).byte cs, position⟩, ?_, rfl, stands, .unseen⟩
  rw [further]
  generalize all : indexed position.byte (ch :: cs) = every at items
  cases items with
  | unseen =>
    subst all
    rfl
  | seen =>
    cases all
    rfl
  | ended => cases all

theorem Shows.pullEnd (shows : r.Shows ⟨[], p⟩) : ∃ r', r.pull = (none, r') ∧ r'.Shows ⟨[], p⟩ := by
  obtain ⟨source, seen, coming, position⟩ := r
  obtain ⟨⟨stands, items⟩, place⟩ := shows
  refine ⟨⟨source, none, [], position⟩, ?_, ⟨stands, .unseen⟩, place⟩
  generalize all : indexed p.byte [] = every at items
  cases items with
  | unseen =>
    subst all
    rfl
  | seen => cases all
  | ended => rfl

theorem Shows.take (shows : r.Shows ⟨ch :: cs, p⟩) :
    ∃ r', r.take = (some ch, r') ∧ r'.Shows ⟨cs, p.after ch⟩ := by
  obtain ⟨r', pulled, place, ahead⟩ := shows.pull
  simp only [Peeker.take, pulled]
  refine ⟨_, rfl, ⟨ahead.look.2.stands, ahead.look.2.items⟩, ?_⟩
  have byte := ahead.byte
  rw [afterByte] at byte
  simp only [lookPosition, lookSource, place, byte, Position.after]

theorem Shows.takeEnd (shows : r.Shows ⟨[], p⟩) :
    ∃ r', r.take = (none, r') ∧ r'.Shows ⟨[], p⟩ := by
  obtain ⟨r', pulled, after⟩ := shows.pullEnd
  exact ⟨r', by simp only [Peeker.take, pulled], after⟩

theorem takeWhileEnd {meets : Char → Bool} {r' : Peeker} (look : r.look = (none, r')) :
    r.takeWhile meets = r' := by
  rw [takeWhile]
  split <;> simp_all

theorem takeWhileSome {meets : Char → Bool} {n : Nat} {r' : Peeker}
    (look : r.look = (some (n, ch), r')) :
    r.takeWhile meets = if meets ch then r'.take.2.takeWhile meets else r' := by
  rw [takeWhile]
  split <;> simp_all

theorem Shows.takeWhile (shows : r.Shows ⟨cs, p⟩) (meets : Char → Bool) :
    (r.takeWhile meets).Shows (Cursor.takeWhile meets ⟨cs, p⟩) := by
  induction cs generalizing r p with
  | nil =>
    have look : r.look = (none, r.look.2) := Prod.ext shows.toAhead.look.1 rfl
    rw [takeWhileEnd look]
    exact shows.look
  | cons ch cs ih =>
    have look : r.look = (some (p.byte, ch), r.look.2) := Prod.ext shows.toAhead.look.1 rfl
    rw [takeWhileSome look]
    cases meeting : meets ch with
    | true =>
      obtain ⟨r', taken, after⟩ := shows.look.take
      rw [if_pos rfl, taken]
      simpa [Cursor.takeWhile, meeting, Position.afterAllCons] using ih after
    | false =>
      rw [if_neg Bool.false_ne_true]
      simpa [Cursor.takeWhile, meeting, Position.afterAllNil] using shows.look

theorem Shows.perform (shows : r.Shows c) (a : CursorAction) :
    (r.perform a).1 = (c.perform a).1 ∧ (r.perform a).2.Shows (c.perform a).2 := by
  obtain ⟨cs, p⟩ := c
  have first := shows.toAhead.look.1
  cases a with
  | peek =>
    refine ⟨congrArg Answer.character ?_, shows.look⟩
    rw [first]
    cases cs <;> rfl
  | take =>
    cases cs with
    | nil =>
      obtain ⟨r', taken, after⟩ := shows.takeEnd
      simp only [Peeker.perform, taken]
      exact ⟨rfl, after⟩
    | cons ch cs =>
      obtain ⟨r', taken, after⟩ := shows.take
      simp only [Peeker.perform, taken]
      exact ⟨rfl, after⟩
  | takeIf meets =>
    cases cs with
    | nil =>
      have look : r.look = (none, r.look.2) := Prod.ext first rfl
      rw [Peeker.perform, Peeker.takeIf, look]
      exact ⟨rfl, shows.look⟩
    | cons ch cs =>
      have look : r.look = (some (p.byte, ch), r.look.2) := Prod.ext first rfl
      obtain ⟨r', taken, after⟩ := shows.look.take
      rw [Peeker.perform, Peeker.takeIf, look]
      simp only [taken, Cursor.perform, Cursor.takeIf?, Cursor.take?]
      cases meets ch with
      | true => exact ⟨rfl, after⟩
      | false => exact ⟨rfl, shows.look⟩
  | takeWhile meets => exact ⟨rfl, shows.takeWhile meets⟩

theorem Shows.performAll (shows : r.Shows c) (actions : List CursorAction) :
    (performAll Peeker.perform actions r).1 = (performAll Cursor.perform actions c).1 ∧
      (performAll Peeker.perform actions r).2.Shows (performAll Cursor.perform actions c).2 := by
  induction actions generalizing r c with
  | nil => exact ⟨rfl, shows⟩
  | cons a actions ih =>
    obtain ⟨answer, after⟩ := shows.perform a
    obtain ⟨answers, last⟩ := ih after
    exact ⟨congrArg₂ List.cons answer answers, last⟩

end Peeker

end simulation

section taking

/- What an action answers, takes from the characters before it and leaves of them. -/
inductive Takes : CursorAction → List Char → Answer → List Char → List Char → Prop where
  | peek {cs} : Takes .peek cs (.character cs.head?) [] cs
  | take {c cs} : Takes .take (c :: cs) (.character (some c)) [c] cs
  | takeEnd : Takes .take [] (.character none) [] []
  | takeIf {p c cs} (meets : p c = true) : Takes (.takeIf p) (c :: cs) (.taken true) [c] cs
  | refused {p cs} (fails : ∀ c ∈ cs.head?, p c = false) :
      Takes (.takeIf p) cs (.taken false) [] cs
  | takeWhile {p taken rest} (meet : ∀ c ∈ taken, p c = true)
      (stops : ∀ c ∈ rest.head?, p c = false) :
      Takes (.takeWhile p) (taken ++ rest) .nothing taken rest

inductive TakesAll :
    List CursorAction → List Char → List Answer → List Char → List Char → Prop where
  | none {cs} : TakesAll [] cs [] [] cs
  | more {a actions cs answer taken rest answers others last}
      (first : Takes a cs answer taken rest) (later : TakesAll actions rest answers others last) :
      TakesAll (a :: actions) cs (answer :: answers) (taken ++ others) last

variable {a : CursorAction} {actions : List CursorAction} {cs taken rest : List Char}
  {answer : Answer} {answers : List Answer}

theorem Takes.split (takes : Takes a cs answer taken rest) : cs = taken ++ rest := by
  cases takes <;> rfl

theorem TakesAll.split (takes : TakesAll actions cs answers taken rest) : cs = taken ++ rest := by
  induction takes with
  | none => rfl
  | more first _ ih => rw [first.split, ih, List.append_assoc]

theorem Cursor.takes (a : CursorAction) (c : Cursor) : ∃ taken,
    Takes a c.rest (c.perform a).1 taken (c.perform a).2.rest ∧
      (c.perform a).2.position = c.position.afterAll taken := by
  obtain ⟨cs, p⟩ := c
  cases a with
  | peek => exact ⟨[], .peek, rfl⟩
  | take =>
    cases cs with
    | nil => exact ⟨[], .takeEnd, rfl⟩
    | cons c cs => exact ⟨[c], .take, rfl⟩
  | takeIf meets =>
    cases cs with
    | nil => exact ⟨[], .refused nofun, rfl⟩
    | cons c cs =>
      simp only [perform, takeIf?, take?]
      cases meeting : meets c with
      | true => exact ⟨[c], .takeIf meeting, rfl⟩
      | false => exact ⟨[], .refused (by simpa using meeting), rfl⟩
  | takeWhile meets =>
    refine ⟨cs.takeWhile meets, ?_, rfl⟩
    have takes : Takes (.takeWhile meets) (cs.takeWhile meets ++ cs.dropWhile meets) .nothing
        (cs.takeWhile meets) (cs.dropWhile meets) :=
      .takeWhile (takeWhileAll meets cs) (dropWhileStops meets cs)
    rwa [List.takeWhile_append_dropWhile] at takes

theorem Cursor.takesAll (actions : List CursorAction) (c : Cursor) : ∃ taken,
    TakesAll actions c.rest (performAll perform actions c).1 taken
        (performAll perform actions c).2.rest ∧
      (performAll perform actions c).2.position = c.position.afterAll taken := by
  induction actions generalizing c with
  | nil => exact ⟨[], .none, rfl⟩
  | cons a actions ih =>
    obtain ⟨taken, first, place⟩ := c.takes a
    obtain ⟨others, later, last⟩ := ih (c.perform a).2
    refine ⟨taken ++ others, .more first later, last.trans ?_⟩
    rw [place, Position.afterAllAppend]

end taking

end Scriptlet
