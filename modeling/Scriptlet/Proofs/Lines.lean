import Scriptlet.Failure
import Scriptlet.Proofs.JoinedTexts

/-! Lines of a text, and places in them.
A place counts the line feeds before it and the characters behind the last one of these, so it tells
its line and what stands before it there. A carriage return belongs to the end of a line only right
before the line feed. -/
namespace Scriptlet

def LineStart (above : List Char) : Prop := above = [] ∨ ∃ more, above = more ++ ['\n']

/- How a line ends, and what stands below it. Only the last line may have no end. -/
inductive LineEnd (line : List Char) : List Char → List Char → Prop where
  | feed {below} (plain : line.getLast? ≠ some '\r') : LineEnd line ['\n'] below
  | returned {below} : LineEnd line ['\r', '\n'] below
  | last : LineEnd line [] []

section places

variable {above ahead : List Char}

theorem lineSplit (before : List Char) :
    ∃ above ahead, before = above ++ ahead ∧ LineStart above ∧ '\n' ∉ ahead := by
  induction before with
  | nil => exact ⟨[], [], rfl, .inl rfl, nofun⟩
  | cons c before ih =>
    obtain ⟨above, ahead, rfl, rfl | ⟨more, rfl⟩, inside⟩ := ih
    · by_cases feed : c = '\n'
      · exact ⟨[c], ahead, rfl, .inr ⟨[], feed ▸ rfl⟩, inside⟩
      · exact ⟨[], c :: ahead, rfl, .inl rfl, by simp [Ne.symm feed, inside]⟩
    · exact ⟨c :: (more ++ ['\n']), ahead, rfl, .inr ⟨c :: more, rfl⟩, inside⟩

theorem columnInside (inside : '\n' ∉ ahead) (p : Position) :
    (p.afterAll ahead).column = p.column + ahead.length := by
  induction ahead generalizing p with
  | nil => rfl
  | cons c ahead ih =>
    obtain ⟨plain, inside⟩ := not_or.mp (mt List.mem_cons.mpr inside)
    rw [Position.afterAllCons, ih inside, Position.after, if_neg (Ne.symm plain), List.length_cons]
    exact Nat.add_right_comm p.column 1 ahead.length

theorem columnAt (start : LineStart above) (inside : '\n' ∉ ahead) :
    (Position.start.afterAll (above ++ ahead)).column = ahead.length + 1 := by
  have first : (Position.start.afterAll above).column = 1 := by
    obtain rfl | ⟨more, rfl⟩ := start
    · rfl
    · rw [Position.afterAllAppend]
      rfl
  rw [Position.afterAllAppend, columnInside inside, first, Nat.add_comm]

theorem behindLastFeed (start : LineStart above) (inside : '\n' ∉ ahead) :
    (above ++ ahead).reverse.takeWhile (· ≠ '\n') = ahead.reverse := by
  have plain : ∀ c ∈ ahead.reverse, decide (c ≠ '\n') = true := by
    intro c member
    exact decide_eq_true fun same => inside (same ▸ List.mem_reverse.mp member)
  rw [List.reverse_append, List.takeWhile_append_of_pos plain]
  obtain rfl | ⟨more, rfl⟩ := start <;> simp

end places

section located

open String (utf8Len)

/- A place told by what stands before it: its bytes, its line feeds, and the characters behind the
last one of these. -/
structure Located (source : String) (p : Position) (before rest : List Char) : Prop where
  text : source.toList = before ++ rest
  within : p.byte ≤ source.utf8ByteSize
  byte : p.byte = utf8Len before
  line : p.line = 1 + before.count '\n'
  column : p.column = 1 + (before.reverse.takeWhile (· ≠ '\n')).length

theorem locatedAfter {source : String} {before rest : List Char}
    (text : source.toList = before ++ rest) :
    Located source (Position.start.afterAll before) before rest := by
  have byte : (Position.start.afterAll before).byte = utf8Len before := by
    rw [afterAllByte]
    exact Nat.zero_add _
  refine ⟨text, ?_, byte, ?_, ?_⟩
  · rw [byte, ← String.utf8Len_toList, text, String.utf8Len_append]
    exact Nat.le_add_right _ _
  · rw [afterAllLine, Nat.add_comm]
    rfl
  · obtain ⟨above, ahead, rfl, start, inside⟩ := lineSplit before
    rw [columnAt start inside, behindLastFeed start inside, List.length_reverse, Nat.add_comm]

end located

section reading

variable {above ahead rest cs : List Char} {c : Char}

theorem linesMore (plain : c ≠ '\n') (whole : c = '\r' → cs.head? ≠ some '\n') :
    lines (c :: cs) = (c :: (lines cs).head?.getD []) :: (lines cs).tail := by
  rw [lines]
  · cases lines cs <;> rfl
  · exact plain
  · rintro rest rfl rfl
    exact whole rfl rfl

theorem linesReturn (cs : List Char) : lines ('\r' :: '\n' :: cs) = [] :: lines cs := by
  rw [lines]

theorem linesTail (plain : c ≠ '\n') (cs : List Char) :
    (lines (c :: cs)).tail = (lines cs).tail := by
  by_cases returned : c = '\r' ∧ cs.head? = some '\n'
  · obtain ⟨rfl, feed⟩ := returned
    obtain ⟨rest, rfl⟩ := List.head?_eq_some_iff.mp feed
    rw [linesReturn, lines]
  · rw [linesMore plain fun same feed => returned ⟨same, feed⟩, List.tail_cons]

theorem linesBelow (above cs : List Char) :
    (lines (above ++ '\n' :: cs)).drop (above.count '\n' + 1) = lines cs := by
  induction above with
  | nil => simp [lines]
  | cons c above ih =>
    by_cases feed : c = '\n'
    · subst feed
      simpa [lines] using ih
    · rw [List.cons_append, List.count_cons_of_ne feed, ← List.drop_tail, linesTail feed,
        List.drop_tail, ih]

theorem linesFrom (start : LineStart above) (cs : List Char) :
    (lines (above ++ cs))[above.count '\n']? = (lines cs).head? := by
  obtain rfl | ⟨more, rfl⟩ := start
  · exact List.head?_eq_getElem?.symm
  · have below := linesBelow more cs
    rw [List.count_append, List.append_assoc, ← List.head?_drop]
    exact congrArg List.head? below

theorem firstLine (filled : cs ≠ []) : ∃ line ending below, cs = line ++ (ending ++ below) ∧
    '\n' ∉ line ∧ LineEnd line ending below ∧ (lines cs).head? = some line := by
  induction cs with
  | nil => exact absurd rfl filled
  | cons c cs ih =>
    by_cases feed : c = '\n'
    · subst feed
      exact ⟨[], ['\n'], cs, rfl, nofun, .feed nofun, by rw [lines, List.head?_cons]⟩
    by_cases returned : c = '\r' ∧ cs.head? = some '\n'
    · obtain ⟨rfl, next⟩ := returned
      obtain ⟨rest, rfl⟩ := List.head?_eq_some_iff.mp next
      exact ⟨[], ['\r', '\n'], rest, rfl, nofun, .returned, by rw [linesReturn, List.head?_cons]⟩
    have more := linesMore feed fun same next => returned ⟨same, next⟩
    cases cs with
    | nil => exact ⟨[c], [], [], rfl, by simpa using Ne.symm feed, .last, by simp [more, lines]⟩
    | cons d cs =>
      obtain ⟨line, ending, below, split, inside, ends, first⟩ := ih (List.cons_ne_nil d cs)
      refine ⟨c :: line, ending, below, congrArg (c :: ·) split, ?_, ?_, ?_⟩
      · exact not_or.mpr ⟨Ne.symm feed, inside⟩ ∘ List.mem_cons.mp
      · cases ends with
        | feed plain =>
          refine .feed ?_
          cases line with
          | nil => exact fun same => returned ⟨Option.some.inj same, congrArg List.head? split⟩
          | cons e line => rwa [List.getLast?_cons_cons]
        | returned => exact .returned
        | last => exact .last
      · rw [more, first, List.head?_cons, Option.getD_some]

end reading

end Scriptlet
