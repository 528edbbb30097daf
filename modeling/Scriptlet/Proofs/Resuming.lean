import Scriptlet.Proofs.Relabeling
import Scriptlet.Proofs.Tiling

/-! A reader has no memory.
What a call gives is settled by the text that remains, and its place is only carried along. So after
any calls, faults among them, a reader goes on as a new one does on the rest of the text, at places
that are further on. A call takes something unless it comes to the end of input, which then comes
again and again. -/
namespace Scriptlet

/- Where `q`, counted from `p` on, is in the whole text. Columns go on along the line of `p` only. -/
def Position.ahead (p q : Position) : Position :=
  ⟨p.byte + q.byte, p.line + (q.line - 1),
    if q.line = 1 then p.column + (q.column - 1) else q.column⟩

def Span.ahead (p : Position) (s : Span) : Span := ⟨p.ahead s.start, p.ahead s.stop⟩

def LexError.ahead (p : Position) : LexError → LexError
  | unterminatedString q => .unterminatedString (p.ahead q)
  | unrecognizedCharacter c q => .unrecognizedCharacter c (p.ahead q)

def aheadResult (p : Position) : Except LexError Token → Except LexError Token
  | .ok t => .ok (t.move (Span.ahead p))
  | .error e => .error (e.ahead p)

namespace Cursor

def past : Nat → Cursor → Cursor
  | 0, c => c
  | n + 1, c => past n c.next.2

structure Advances (c : Cursor) (taken : List Char) : Prop where
  rest : c.rest = taken ++ c.next.2.rest
  position : c.next.2.position = c.position.afterAll taken
  some : taken ≠ [] ∨ ∃ t, c.next.1 = .ok t ∧ t.kind = .endOfInput

end Cursor

structure Resumes (source : String) (n : Nat) (c : Cursor) : Prop where
  later : ∃ rest, slice? source c.position.byte source.utf8ByteSize = some rest ∧
    ∀ k, ((Cursor.ofString source).steps (n + k)).drop n =
      ((Cursor.ofString rest).steps k).map (aheadResult c.position)
  advances : ∃ taken, c.Advances taken
  text : ∀ t, c.next.1 = .ok t →
    slice? source t.span.start.byte t.span.stop.byte = some t.sourceText
  unterminated : ∀ p, c.next.1 = .error (.unterminatedString p) → c.next.2.rest = []
  ended : ∀ t, c.next.1 = .ok t → t.kind = .endOfInput →
    ∀ k, c.next.2.steps k = List.replicate k (.ok t)

section places

structure Position.Counted (p : Position) : Prop where
  line : 1 ≤ p.line
  column : 1 ≤ p.column

variable {p q : Position} {c : Char} {cs : List Char}

theorem aheadStart (p : Position) : p.ahead .start = p := rfl

theorem Position.Counted.after (counted : q.Counted) : (q.after c).Counted := by
  unfold Position.after
  split
  · exact ⟨Nat.le_add_left .., Nat.le_refl _⟩
  · exact ⟨counted.line, Nat.le_add_left ..⟩

theorem Position.Counted.afterAll (counted : q.Counted) : (q.afterAll cs).Counted := by
  induction cs generalizing q with
  | nil => exact counted
  | cons c cs ih => exact ih counted.after

theorem afterAhead (p : Position) (counted : q.Counted) (c : Char) :
    (p.ahead q).after c = p.ahead (q.after c) := by
  obtain ⟨line, column⟩ := counted
  unfold Position.after
  split
  · simp [Position.ahead]
    omega
  · by_cases first : q.line = 1
    · simp [Position.ahead, first]
      omega
    · simp [Position.ahead, first]
      omega

theorem afterAllAhead (p : Position) (counted : q.Counted) (cs : List Char) :
    (p.ahead q).afterAll cs = p.ahead (q.afterAll cs) := by
  induction cs generalizing q with
  | nil => rfl
  | cons c cs ih =>
    rw [Position.afterAllCons, afterAhead p counted, ih counted.after, Position.afterAllCons]

end places

section calls

variable {source : String} {taken rest : List Char} {gives : Position → Except LexError Token}
  {c : Cursor} {q : Position}

theorem Calls.ahead (calls : Calls taken rest gives) (p : Position) (counted : q.Counted) :
    gives (p.ahead q) = aheadResult p (gives q) := by
  cases calls with
  | token =>
    simp only [aheadResult, Token.move, Span.ahead, afterAllAhead p counted,
      afterAllAhead p counted.afterAll]
  | ended =>
    simp only [aheadResult, afterAllAhead p counted]
    rfl
  | unterminated | unrecognized => simp only [aheadResult, LexError.ahead, afterAllAhead p counted]

theorem stepsAhead (p : Position) (counted : q.Counted) (cs : List Char) (k : Nat) :
    (Cursor.mk cs (p.ahead q)).steps k = ((Cursor.mk cs q).steps k).map (aheadResult p) := by
  induction k generalizing q cs with
  | zero => rfl
  | succ k ih =>
    obtain ⟨taken, rest, gives, rfl, calls⟩ := callsSomehow cs
    simp only [Cursor.steps, calls.next, List.map_cons, calls.ahead p counted,
      afterAllAhead p counted, ih counted.afterAll]

theorem stepsPast (n k : Nat) (c : Cursor) : (c.steps (n + k)).drop n = (c.past n).steps k := by
  induction n generalizing c with
  | zero => rw [Nat.zero_add]; rfl
  | succ n ih => rw [Nat.add_right_comm, Cursor.steps, List.drop_succ_cons, ih, Cursor.past]

theorem ofStringOfList (cs : List Char) : Cursor.ofString (.ofList cs) = ⟨cs, .start⟩ := by
  rw [Cursor.ofString, String.toList_ofList]

theorem Cursor.calls (c : Cursor) : ∃ taken rest gives, c.rest = taken ++ rest ∧
    Calls taken rest gives ∧ c.next = (gives c.position, ⟨rest, c.position.afterAll taken⟩) := by
  obtain ⟨cs, p⟩ := c
  obtain ⟨taken, rest, gives, rfl, calls⟩ := callsSomehow cs
  exact ⟨taken, rest, gives, rfl, calls, calls.next p⟩

theorem Cursor.advances (c : Cursor) : ∃ taken, c.Advances taken := by
  obtain ⟨taken, rest, gives, split, calls, next⟩ := c.calls
  refine ⟨taken, by rw [next, split], by rw [next], ?_⟩
  rw [next]
  cases calls with
  | ended => exact .inr ⟨_, rfl, rfl⟩
  | @token skipped found rest gap code longest =>
    obtain ⟨c, cs, text, _⟩ := lexicalShape longest.lexical
    exact .inl (by simp [text])
  | unterminated | unrecognized => exact .inl (by simp)

theorem Stands.next (stands : Stands source c.position c.rest) :
    Stands source c.next.2.position c.next.2.rest := by
  obtain ⟨taken, rest, position, _⟩ := c.advances
  rw [position]
  exact (rest ▸ stands).past

theorem pastStands (source : String) (n : Nat) :
    let c := (Cursor.ofString source).past n
    Stands source c.position c.rest := by
  suffices ∀ c : Cursor, Stands source c.position c.rest →
      Stands source (c.past n).position (c.past n).rest from this _ (standsAtStart source)
  induction n with
  | zero => exact fun c stands => stands
  | succ n ih => exact fun c stands => ih c.next.2 stands.next

theorem nextText (stands : Stands source c.position c.rest) {t : Token} (ok : c.next.1 = .ok t) :
    slice? source t.span.start.byte t.span.stop.byte = some t.sourceText := by
  obtain ⟨taken, rest, gives, split, calls, next⟩ := c.calls
  rw [split] at stands
  rw [next] at ok
  cases calls with
  | ended =>
    cases ok
    exact (List.append_nil ([] : List Char) ▸ stands.past).slice
  | token =>
    cases ok
    rw [List.append_assoc] at stands
    exact stands.past.slice.trans (congrArg some String.ofList_toList)
  | unterminated | unrecognized => cases ok

theorem nextUnterminated {p : Position} (fault : c.next.1 = .error (.unterminatedString p)) :
    c.next.2.rest = [] := by
  obtain ⟨taken, rest, gives, _, calls, next⟩ := c.calls
  rw [next] at fault ⊢
  cases calls with
  | unterminated => rfl
  | ended | token | unrecognized => cases fault

theorem stepsEnd (p : Position) (k : Nat) :
    (Cursor.mk [] p).steps k = List.replicate k (.ok (.endAt p)) := by
  induction k with
  | zero => rfl
  | succ k ih =>
    rw [List.replicate_succ, ← ih]
    rfl

theorem nextEnd {t : Token} (ok : c.next.1 = .ok t) (last : t.kind = .endOfInput) (k : Nat) :
    c.next.2.steps k = List.replicate k (.ok t) := by
  obtain ⟨taken, rest, gives, _, calls, next⟩ := c.calls
  rw [next] at ok ⊢
  cases calls with
  | ended =>
    cases ok
    exact stepsEnd _ k
  | token gap code longest =>
    cases ok
    exact absurd last longest.lexical.inside
  | unterminated | unrecognized => cases ok

theorem comesToEnd (c : Cursor) : ∃ k ≤ c.rest.length, ∃ t, t.kind = .endOfInput ∧
    ∀ j, (c.past k).steps j = List.replicate j (.ok t) := by
  -- Each call before the end takes a character.
  induction size : c.rest.length using Nat.strongRecOn generalizing c with
  | ind size ih =>
  subst size
  obtain ⟨taken, rest, _, some | ⟨t, ok, last⟩⟩ := c.advances
  · have shorter : c.next.2.rest.length < c.rest.length := by
      rw [rest, List.length_append]
      exact Nat.lt_add_of_pos_left (List.length_pos_iff.mpr some)
    obtain ⟨k, within, ends⟩ := ih _ shorter c.next.2 rfl
    exact ⟨k + 1, Nat.lt_of_le_of_lt within shorter, ends⟩
  · refine ⟨0, Nat.zero_le _, t, last, fun j => ?_⟩
    cases j with
    | zero => rfl
    | succ j => rw [Cursor.past, Cursor.steps, ok, nextEnd ok last, List.replicate_succ]

theorem resumes (source : String) (n : Nat) :
    Resumes source n ((Cursor.ofString source).past n) := by
  have stands := pastStands source n
  refine ⟨⟨_, stands.remaining, fun k => ?_⟩, Cursor.advances _, fun _ => nextText stands,
    fun _ => nextUnterminated, fun _ => nextEnd⟩
  have start : Position.start.Counted := ⟨Nat.le_refl _, Nat.le_refl _⟩
  rw [stepsPast, ofStringOfList, ← stepsAhead _ start, aheadStart]

end calls

/-- After any calls on a text, whatever they gave, a reader goes on as a new reader of what is left
does, and its tokens are cut from the whole text. It comes to the end of input with no more calls
before it than the text has characters, and stays there. -/
theorem readerResumes (source : String) :
    (∀ n, Resumes source n ((Cursor.ofString source).past n)) ∧
    ∃ k ≤ source.length, ∃ t, t.kind = .endOfInput ∧
      ∀ j, ((Cursor.ofString source).steps (k + j)).drop k = List.replicate j (.ok t) := by
  refine ⟨resumes source, ?_⟩
  obtain ⟨k, within, t, last, again⟩ := comesToEnd (Cursor.ofString source)
  refine ⟨k, String.length_toList ▸ within, t, last, fun j => ?_⟩
  rw [stepsPast, again]

example : (Cursor.ofString "é &\n|\"x").steps 5 =
    [.error (.unrecognizedCharacter 'é' ⟨0, 1, 1⟩), .error (.unrecognizedCharacter '&' ⟨3, 1, 3⟩),
     .error (.unrecognizedCharacter '|' ⟨5, 2, 1⟩), .error (.unterminatedString ⟨6, 2, 2⟩),
     .ok (.endAt ⟨8, 2, 4⟩)] := by
  decide +kernel

end Scriptlet
