import Scriptlet.Proofs.Cutting
import Scriptlet.Proofs.Rendering

/-! Errors of a session, shown with a line of a text.
What an error is due to may stand in a text that was run long before. A span does not tell its text,
so an error can be shown with a line of any text. With one that holds what it is due to the line is
the right one; with another it is so only if the two texts have the same line there. -/
namespace Scriptlet

def EvalError.LiesIn (e : EvalError) (text : String) : Prop :=
  ∃ p n, readProgram text = .ok p ∧ p.Has n ∧ e.DueTo n

/- The output shows a line of the text with a caret under the first character of what the error is
due to. -/
def EvalError.PointedOut (e : EvalError) (text output : String) : Prop :=
  ∃ above ahead c behind ending below cs,
    ShownIn text (.eval e) above ahead (c :: behind) ending below ∧
    slice? text e.span.start.byte e.span.stop.byte = some (.ofList (c :: cs)) ∧
    output = (Failure.eval e).render text

/- Shown with the source, an error that lies in the text is no more than its message or points to
where it lies. -/
def EvalError.ShownRight (e : EvalError) (text source : String) : Prop :=
  (Failure.eval e).render source = (Failure.eval e).message ∨
    e.PointedOut text ((Failure.eval e).render source)

section lines

variable {source text : String} {f : Failure} {ahead rest behind ending below : List Char}
  {c : Char}

theorem framedAgain {line other : String} (same : f.framed line = f.framed other) :
    line = other := by
  simpa only [Failure.framed, String.append_left_inj, String.append_right_inj] using same

theorem bareExactly : f.render source = f.message ↔ line? source f.position.line = none := by
  refine ⟨fun bare => ?_, renderBare⟩
  cases found : line? source f.position.line with
  | none => rfl
  | some line => exact absurd ((renderLine found).symm.trans bare) (framedLonger f line)

theorem renderedAlike : f.render source = f.render text ↔
    line? source f.position.line = line? text f.position.line := by
  refine ⟨fun same => ?_, fun same => by simp only [Failure.render, same]⟩
  cases found : line? source f.position.line with
  | none =>
    rw [bareExactly.mpr found] at same
    exact (bareExactly.mp same.symm).symm
  | some line =>
    cases other : line? text f.position.line with
    | none => exact absurd (same.trans (renderBare other)) (mt bareExactly.mp (by simp [found]))
    | some line' =>
      rw [renderLine found, renderLine other] at same
      exact congrArg some (framedAgain same)

theorem lineGoesOn (code : Code (c :: rest)) (ends : LineEnd ahead ending below)
    (split : behind ++ (ending ++ below) = c :: rest) : ∃ more, behind = c :: more := by
  cases behind with
  | cons d more => exact ⟨more, congrArg (· :: more) (List.cons.inj split).1⟩
  | nil =>
    cases code with
    | code plain _ =>
      cases ends with
      | feed =>
        cases split
        exact absurd newlineBlank plain
      | returned =>
        cases split
        exact absurd (.inr (.inr (.inr rfl))) plain
      | last => cases split

end lines

section texts

open String (utf8Len)

variable {source text : String} {e : EvalError} {before rest : List Char} {c : Char}
  {start stop : Nat}

theorem cutBegins (whole : source.toList = before ++ c :: rest) (byte : start = utf8Len before)
    (sound : Slice.Sound source ⟨start, stop⟩) (filled : start < stop) :
    ∃ cs, slice? source start stop = some (.ofList (c :: cs)) := by
  obtain ⟨cut, made⟩ := Option.isSome_iff_exists.mp (sliceExactly.mpr sound)
  have taken := made
  simp only [slice?, Option.ite_none_right_eq_some, Option.map_eq_some_iff, whole, byte,
    dropBytesExact, Option.bind_some] at taken
  obtain ⟨_, inside, took, same⟩ := taken
  obtain ⟨others, split, size⟩ := takeBytesSplits took
  cases inside with
  | nil =>
    rw [String.utf8Len_nil] at size
    omega
  | cons d inside =>
    obtain ⟨rfl, _⟩ := List.cons.inj split
    exact ⟨inside, by rw [made, same]⟩

theorem EvalError.LiesIn.marks (lies : e.LiesIn text) : ∃ before c rest cs,
    Marks text e.span.start before (c :: rest) ∧
    slice? text e.span.start.byte e.span.stop.byte = some (.ofList (c :: cs)) := by
  obtain ⟨p, n, read, inside, due⟩ := lies
  obtain ⟨ts, lexed, parsed⟩ := readProgramTokens.mp read
  obtain ⟨d, placed, span⟩ := due.placed lexed parsed inside
  obtain ⟨first, member, _, start⟩ := placed.starts
  obtain ⟨last, member', _, stop⟩ := placed.stops
  have filled := placed.filled
  rw [← span] at start stop filled
  have sound : ∀ t ∈ ts, Slice.Sound text ⟨t.span.start.byte, t.span.stop.byte⟩ := fun t member =>
    sliceExactly.mp (Option.isSome_of_eq_some
      ((tokenizeLexes lexed).laid.texts (standsAtStart text) t member))
  have whole : Slice.Sound text ⟨e.span.start.byte, e.span.stop.byte⟩ :=
    ⟨filled.le, stop ▸ (sound last member').within, start ▸ (sound first member).start,
      stop ▸ (sound last member').stop⟩
  obtain ⟨before, rest, marks⟩ := lexMarked lexed first member
  rw [← start] at marks
  have byte := marks.located.byte
  cases rest with
  | nil =>
    have size := marks.size
    have within : e.span.stop.byte ≤ text.utf8ByteSize := whole.within
    rw [← byte, String.utf8Len_nil] at size
    omega
  | cons c rest =>
    obtain ⟨cs, cut⟩ := cutBegins marks.text byte whole filled
    exact ⟨before, c, rest, cs, marks, cut⟩

theorem EvalError.LiesIn.pointed (lies : e.LiesIn text) :
    e.PointedOut text ((Failure.eval e).render text) := by
  obtain ⟨before, c, rest, cs, marks, cut⟩ := lies.marks
  obtain ⟨above, ahead, rfl, start, inside⟩ := lineSplit before
  obtain ⟨behind, ending, below, shown⟩ :=
    @Marks.shown text above ahead _ (.eval e) marks start inside (by simp)
  have split : behind ++ (ending ++ below) = c :: rest := by
    have both := shown.text.symm.trans marks.text
    simpa only [List.append_assoc, List.append_cancel_left_eq] using both
  obtain ⟨more, rfl⟩ := lineGoesOn marks.code shown.ends split
  exact ⟨above, ahead, c, more, ending, below, cs, shown, cut, rfl⟩

theorem EvalError.LiesIn.shownRight (lies : e.LiesIn text) : e.ShownRight text source ↔
    line? source e.span.start.line = none ∨
      line? source e.span.start.line = line? text e.span.start.line := by
  refine or_congr bareExactly ?_
  constructor
  · rintro ⟨_, _, _, _, _, _, _, _, _, same⟩
    exact renderedAlike.mp same
  · intro same
    have alike : (Failure.eval e).render source = (Failure.eval e).render text :=
      renderedAlike.mpr same
    exact alike ▸ lies.pointed

theorem errorLies {limit : Nat} {earlier : List String}
    (failed : (((Session.start limit).after (earlier.map .run)).run source).1 =
      .error (.eval e)) : ∃ text ∈ earlier ++ [source], e.LiesIn text := by
  have fresh := Session.startIn (.readFrom (earlier ++ [source])) (fun _ => trivial) limit
  have store := Session.historyStays (fun _ => List.mem_append_left [source]) fresh
  have among : source ∈ earlier ++ [source] := List.mem_append_right earlier (.head [])
  obtain ⟨n, ⟨text, member, p, read, inside⟩, due⟩ := (Session.runStays among store).1 e failed
  exact ⟨text, member, p, n, read, inside, due⟩

/-- Whatever sources were run before, an error in the evaluation of a source is due to something in
one of these texts. Shown with a text that holds it, the error points at the first character of it.
Shown with the source that was run last it does so, or is no more than its message, if and only if
this source has no line of that number or has the same one. -/
theorem sessionErrorsShown (limit : Nat) (earlier : List String)
    (failed : (((Session.start limit).after (earlier.map .run)).run source).1 =
      .error (.eval e)) :
    (∃ text ∈ earlier ++ [source], e.LiesIn text) ∧
    ∀ text, e.LiesIn text → e.PointedOut text ((Failure.eval e).render text) ∧
      (e.ShownRight text source ↔ line? source e.span.start.line = none ∨
        line? source e.span.start.line = line? text e.span.start.line) :=
  ⟨errorLies failed, fun _ lies => ⟨lies.pointed, lies.shownRight⟩⟩

theorem halfLies : ∃ e, (((Session.start 1).after [.run halfBound]).run halfCalled).1 =
      .error (.eval e) ∧
    (∃ text ∈ [halfBound, halfCalled], e.LiesIn text) ∧
    ∀ text, e.LiesIn text → e.PointedOut text ((Failure.eval e).render text) ∧
      (e.ShownRight text halfCalled ↔ line? halfCalled e.span.start.line = none ∨
        line? halfCalled e.span.start.line = line? text e.span.start.line) := by
  have shown : (match (((Session.start 1).after [.run halfBound]).run halfCalled).1 with
      | .error (.eval e) => e.message
      | _ => "") = "division by zero at 1:26" := by
    decide +kernel
  split at shown
  · rename_i e failed
    exact ⟨e, failed, sessionErrorsShown 1 [halfBound] failed⟩
  · exact absurd shown (by decide)

theorem halfMisshown : ∃ e, (((Session.start 1).after [.run halfBound]).run halfCalled).1 =
      .error (.eval e) ∧
    (Failure.eval e).render halfCalled = "eval error: division by zero at 1:26\n" ++
      "1 | half(8)\n  |                          ^" ∧
    (∃ text ∈ [halfBound, halfCalled], e.LiesIn text) ∧
    ∀ text ∈ [halfBound, halfCalled], ¬ e.ShownRight text halfCalled := by
  have shown : (match (((Session.start 1).after [.run halfBound]).run halfCalled).1 with
      | .error (.eval e) => some ((Failure.eval e).render halfCalled,
          (Failure.eval e).render halfBound, (Failure.eval e).position)
      | _ => none) =
      some ("eval error: division by zero at 1:26\n" ++
          "1 | half(8)\n  |                          ^",
        "eval error: division by zero at 1:26\n" ++
          "1 | let half = function(n) \x7b n / 0 \x7d\n  |                          ^",
        ⟨25, 1, 26⟩) := by
    decide +kernel
  split at shown
  · rename_i e failed
    simp only [Option.some.injEq, Prod.mk.injEq] at shown
    obtain ⟨called, bound, place⟩ := shown
    refine ⟨e, failed, called, @errorLies halfCalled e 1 [halfBound] failed, ?_⟩
    rintro text member (bare | ⟨above, ahead, c, behind, ending, below, cs, inside, _, same⟩)
    · have none := bareExactly.mp bare
      rw [place] at none
      exact absurd none (by decide +kernel)
    · rw [called] at same
      rcases List.mem_pair.mp member with rfl | rfl
      · exact absurd (same.trans bound) (by decide)
      -- The line is shorter than what would be before the caret.
      · have column : 26 = ahead.length + 1 :=
          (congrArg Position.column place).symm.trans inside.column
        have whole := congrArg List.length inside.text
        have size : halfCalled.toList.length = 7 := by decide +kernel
        simp only [size, List.length_append] at whole
        omega
  · cases shown

end texts

end Scriptlet
