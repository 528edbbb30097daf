/-! Nested lists and their texts.
A datum is a word, a text in quotes, or data in brackets, with or without a word right before the
opening one. Data stand apart by one sign. Where a datum ends can be told from its text, so a text
is that of at most one datum, and of at most one row of data. -/
namespace Scriptlet

inductive Bracket where
  | round | curly

namespace Bracket

def opening : Bracket → Char
  | round => '('
  | curly => '{'

def closing : Bracket → Char
  | round => ')'
  | curly => '}'

theorem openingOnce {b c : Bracket} (same : b.opening = c.opening) : b = c := by
  cases b <;> cases c <;> first | rfl | contradiction

end Bracket

inductive Datum where
  | word (text : String)
  | quoted (inner : String)
  | group (front : String) (bracket : Bracket) (parts : List Datum)

mutual

def Datum.text : Datum → List Char
  | .word text => text.toList
  | .quoted inner => '"' :: (inner.toList ++ ['"'])
  | .group front bracket parts =>
      front.toList ++ bracket.opening :: ([' '].intercalate (dataTexts parts) ++ [bracket.closing])

def dataTexts : List Datum → List (List Char)
  | [] => []
  | d :: ds => d.text :: dataTexts ds

end

@[simp] theorem dataTextsMap (ds : List Datum) : dataTexts ds = ds.map Datum.text := by
  induction ds with
  | nil => rfl
  | cons d ds ih => simp [dataTexts, ih]

def stops : List Char := [' ', '\n', ')', '}']

def openings : List Char := ['"', '(', '{']

def Plain (c : Char) : Prop := c ∉ stops ∧ c ∉ openings

instance : DecidablePred Plain := fun c => inferInstanceAs (Decidable (c ∉ stops ∧ c ∉ openings))

def PlainWord (text : String) : Prop := text.toList ≠ [] ∧ ∀ c ∈ text.toList, Plain c

instance : DecidablePred PlainWord := fun text =>
  -- Goes through the text, not through all characters there are.
  @instDecidableAnd _ _ inferInstance (List.decidableBAll Plain text.toList)

inductive Datum.Writable : Datum → Prop where
  | word {text : String} (plain : PlainWord text) : Writable (.word text)
  | quoted {inner : String} (inside : '"' ∉ inner.toList) : Writable (.quoted inner)
  | group {front : String} {bracket : Bracket} {parts : List Datum}
      (plain : ∀ c ∈ front.toList, Plain c) (all : ∀ d ∈ parts, Writable d) :
      Writable (.group front bracket parts)

section runs

variable {p : Char → Prop} {cs ds r s : List Char}

theorem runOnce (one : ∀ c ∈ cs, p c) (other : ∀ c ∈ ds, p c) (oneEnds : ∀ c ∈ r.head?, ¬ p c)
    (otherEnds : ∀ c ∈ s.head?, ¬ p c) (same : cs ++ r = ds ++ s) : cs = ds ∧ r = s := by
  induction cs generalizing ds with
  | nil =>
    cases ds with
    | nil => exact ⟨rfl, same⟩
    | cons d ds =>
      obtain rfl : r = d :: (ds ++ s) := same
      exact absurd (other d List.mem_cons_self) (oneEnds d rfl)
  | cons c cs ih =>
    cases ds with
    | nil =>
      obtain rfl : c :: (cs ++ r) = s := same
      exact absurd (one c List.mem_cons_self) (otherEnds c rfl)
    | cons d ds =>
      obtain ⟨rfl, rest⟩ := List.cons.inj same
      obtain ⟨tails, rest⟩ :=
        ih (List.forall_mem_cons.mp one).2 (List.forall_mem_cons.mp other).2 rest
      exact ⟨congrArg (c :: ·) tails, rest⟩

theorem quotedRun (one : '"' ∉ cs) (other : '"' ∉ ds) (same : cs ++ '"' :: r = ds ++ '"' :: s) :
    cs = ds ∧ r = s := by
  have inside {body : List Char} (free : '"' ∉ body) : ∀ c ∈ body, c ≠ '"' :=
    fun c member quote => free (quote ▸ member)
  obtain ⟨texts, rests⟩ := runOnce (inside one) (inside other) (by simp) (by simp) same
  exact ⟨texts, (List.cons.inj rests).2⟩

theorem intercalateCons (sign : Char) (t : List Char) (ts : List (List Char)) :
    [sign].intercalate (t :: ts) = t ++ ts.flatMap (sign :: ·) := by
  induction ts generalizing t with
  | nil => simp
  | cons u ts ih => simp [ih]

end runs

namespace Datum

variable {d e : Datum} {ds es : List Datum} {r s : List Char} {sign : Char}

def front : Datum → String
  | word text => text
  | quoted _ => ""
  | group front _ _ => front

def behind (rest : List Char) : Datum → List Char
  | word _ => rest
  | quoted inner => '"' :: (inner.toList ++ '"' :: rest)
  | group _ bracket parts =>
      bracket.opening :: ([' '].intercalate (parts.map text) ++ bracket.closing :: rest)

theorem textSplits (d : Datum) (rest : List Char) :
    d.text ++ rest = d.front.toList ++ d.behind rest := by
  cases d <;> simp [text, front, behind]

theorem Writable.frontPlain (writable : d.Writable) : ∀ c ∈ d.front.toList, Plain c := by
  cases writable with
  | word plain => exact plain.2
  | group plain _ => exact plain
  | quoted _ => simp [front]

def Stops (rest : List Char) : Prop := ∀ c ∈ rest.head?, c ∈ stops

theorem behindStarts (d : Datum) (ends : Stops r) : ∀ c ∈ (d.behind r).head?, ¬ Plain c := by
  cases d with
  | word text => exact fun c head plain => plain.1 (ends c head)
  | quoted inner => simp [behind, Plain, openings]
  | group own bracket parts => cases bracket <;> simp [behind, Bracket.opening, Plain, openings]

theorem Writable.starts (writable : d.Writable) : ∃ c cs, d.text = c :: cs ∧ c ∉ stops := by
  cases writable with
  | @word w plain =>
    cases split : w.toList with
    | nil => exact absurd split plain.1
    | cons c cs => exact ⟨c, cs, split, (plain.2 c (split ▸ List.mem_cons_self)).1⟩
  | quoted => exact ⟨_, _, rfl, by decide⟩
  | @group own bracket parts plain =>
    cases split : own.toList with
    | nil =>
      refine ⟨bracket.opening, _, by simp [text, split]; rfl, ?_⟩
      cases bracket <;> decide
    | cons c cs =>
      exact ⟨c, _, by simp [text, split]; rfl, (plain c (split ▸ List.mem_cons_self)).1⟩

def Settled (d : Datum) : Prop :=
  ∀ {e r s}, e.Writable → Stops r → Stops s → d.text ++ r = e.text ++ s → d = e ∧ r = s

structure RowEnds (sign : Char) (rest : List Char) : Prop where
  stops : Stops rest
  other : rest.head? ≠ some sign

theorem stopsLater (among : sign ∈ stops) (ends : Stops r) (ts : List (List Char)) :
    Stops (ts.flatMap (sign :: ·) ++ r) := by
  cases ts with
  | nil => exact ends
  | cons t ts => simpa [Stops] using among

theorem laterOnce (among : sign ∈ stops) (settled : ∀ d ∈ ds, d.Settled)
    (writable : ∀ e ∈ es, e.Writable) (ends : RowEnds sign r) (ends' : RowEnds sign s)
    (same : (ds.map text).flatMap (sign :: ·) ++ r = (es.map text).flatMap (sign :: ·) ++ s) :
    ds = es ∧ r = s := by
  induction ds generalizing es with
  | nil =>
    cases es with
    | nil => exact ⟨rfl, same⟩
    | cons e es => exact absurd (congrArg List.head? same) ends.other
  | cons d ds ih =>
    cases es with
    | nil => exact absurd (congrArg List.head? same.symm) ends'.other
    | cons e es =>
      obtain ⟨head, tail⟩ := List.forall_mem_cons.mp settled
      obtain ⟨head', tail'⟩ := List.forall_mem_cons.mp writable
      simp only [List.map_cons, List.flatMap_cons, List.cons_append, List.append_assoc,
        List.cons.injEq, true_and] at same
      obtain ⟨rfl, later⟩ := head head' (stopsLater among ends.stops _)
        (stopsLater among ends'.stops _) same
      obtain ⟨tails, rest⟩ := ih tail tail' later
      exact ⟨congrArg (d :: ·) tails, rest⟩

theorem Writable.noStop (writable : d.Writable) (ends : Stops r) (rest : List Char) :
    r ≠ d.text ++ rest := by
  rintro rfl
  obtain ⟨c, cs, split, free⟩ := writable.starts
  exact free (ends c (by rw [split]; rfl))

theorem rowOnce (among : sign ∈ stops) (own : ∀ d ∈ ds, d.Writable)
    (settled : ∀ d ∈ ds, d.Settled) (writable : ∀ e ∈ es, e.Writable) (ends : RowEnds sign r)
    (ends' : RowEnds sign s)
    (same : [sign].intercalate (ds.map text) ++ r = [sign].intercalate (es.map text) ++ s) :
    ds = es ∧ r = s := by
  cases ds with
  | nil =>
    cases es with
    | nil => exact ⟨rfl, same⟩
    | cons e es =>
      rw [List.map_cons, intercalateCons, List.append_assoc] at same
      exact absurd same ((writable e List.mem_cons_self).noStop ends.stops _)
  | cons d ds =>
    cases es with
    | nil =>
      rw [List.map_cons, intercalateCons, List.append_assoc] at same
      exact absurd same.symm ((own d List.mem_cons_self).noStop ends'.stops _)
    | cons e es =>
      -- With the sign before its first datum, too, a row is what stands behind another datum.
      refine laterOnce among settled writable ends ends' ?_
      simpa [intercalateCons] using same

theorem closingEnds (bracket : Bracket) (rest : List Char) :
    RowEnds ' ' (bracket.closing :: rest) := by
  cases bracket <;> exact ⟨by simp [Stops, stops, Bracket.closing], by simp [Bracket.closing]⟩

def form : Datum → Option Char
  | word _ => none
  | quoted _ => some '"'
  | group _ bracket _ => some bracket.opening

theorem behindForm (d : Datum) (ends : Stops r) :
    (d.behind r).head?.filter (· ∉ stops) = d.form := by
  cases d with
  | word w =>
    cases head : r.head? with
    | none => simp [behind, form, head]
    | some c => simpa [behind, form, head] using ends c head
  | quoted inner => rfl
  | group own bracket parts => cases bracket <;> rfl

theorem Writable.splits (one : d.Writable) (other : e.Writable) (ends : Stops r) (ends' : Stops s)
    (same : d.text ++ r = e.text ++ s) :
    d.front = e.front ∧ d.form = e.form ∧ d.behind r = e.behind s := by
  rw [textSplits, textSplits] at same
  obtain ⟨words, rests⟩ := runOnce one.frontPlain other.frontPlain (behindStarts d ends)
    (behindStarts e ends') same
  refine ⟨String.toList_inj.mp words, ?_, rests⟩
  rw [← behindForm d ends, ← behindForm e ends', rests]

theorem Writable.settled (writable : d.Writable) : d.Settled := by
  induction writable with
  | word plain =>
    intro e r s other ends ends' same
    obtain ⟨words, forms, rest⟩ := (word plain).splits other ends ends' same
    cases other with
    | word => exact ⟨congrArg Datum.word words, rest⟩
    | quoted | group => cases forms
  | quoted inside =>
    intro e r s other ends ends' same
    obtain ⟨_, forms, rest⟩ := (quoted inside).splits other ends ends' same
    cases other with
    | quoted inside' =>
      obtain ⟨inner, rest⟩ := quotedRun inside inside' (List.cons.inj rest).2
      exact ⟨congrArg Datum.quoted (String.toList_inj.mp inner), rest⟩
    | word => cases forms
    | @group _ bracket => cases bracket <;> cases forms
  | @group own bracket parts plain all settled =>
    intro e r s other ends ends' same
    obtain ⟨words, forms, rest⟩ := (group plain all).splits other ends ends' same
    cases other with
    | group plain' all' =>
      obtain rfl := Bracket.openingOnce (Option.some.inj forms)
      obtain ⟨same, rest⟩ := rowOnce (by decide) all settled all' (closingEnds bracket r)
        (closingEnds bracket s) (List.cons.inj rest).2
      rw [show own = _ from words, same]
      exact ⟨rfl, (List.cons.inj rest).2⟩
    | word => cases forms
    | quoted => cases bracket <;> cases forms

end Datum

/-- A text is that of one row of data at most. -/
theorem dataOnce {sign : Char} {ds es : List Datum} (among : sign ∈ stops)
    (one : ∀ d ∈ ds, d.Writable) (other : ∀ e ∈ es, e.Writable)
    (same : [sign].intercalate (ds.map Datum.text) = [sign].intercalate (es.map Datum.text)) :
    ds = es := by
  have ends : Datum.RowEnds sign [] := ⟨by simp [Datum.Stops], by simp⟩
  refine (Datum.rowOnce among one (fun d member => (one d member).settled) other ends ends ?_).1
  rw [same]

end Scriptlet
