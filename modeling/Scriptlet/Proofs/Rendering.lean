import Scriptlet.Proofs.Lines
import Scriptlet.Proofs.Provenance
import Scriptlet.Proofs.SpanNesting

/-! A failure is shown with the line that it points into.
Whatever stage a source fails in, the place of the failure is that of a token or of a character that
begins none. So it is no place inside the end of a line, and the line that it tells is there unless
the text has ended with the line above it. -/
namespace Scriptlet

section marks

/- A place that is reached through `before`, where no gap goes on. -/
structure Marks (source : String) (p : Position) (before rest : List Char) : Prop where
  text : source.toList = before ++ rest
  place : p = Position.start.afterAll before
  code : Code rest

def Marked (source : String) (p : Position) : Prop := ∃ before rest, Marks source p before rest

def MarkedResult (source : String) : Except LexError (List Token) → Prop
  | .ok ts => ∀ t ∈ ts, Marked source t.span.start
  | .error e => Marked source e.position

variable {source : String} {p : Position} {before skipped rest cs : List Char} {ts us : List Token}
  {tree : Program} {e : ParseError} {t : Token}

theorem marksBehind (text : source.toList = before ++ (skipped ++ rest))
    (place : p = Position.start.afterAll before) (code : Code rest) :
    Marks source (p.afterAll skipped) (before ++ skipped) rest :=
  ⟨by rw [text, List.append_assoc], by rw [place, Position.afterAllAppend], code⟩

theorem Lexes.marked {r : Except LexError (List Token)} (lexes : Lexes p cs r)
    (text : source.toList = before ++ cs) (place : p = Position.start.afterAll before) :
    MarkedResult source r := by
  induction lexes generalizing before with
  | @ended p skipped gap =>
    rw [← List.append_nil skipped] at text
    exact List.forall_mem_singleton.mpr ⟨_, _, marksBehind text place .ended⟩
  | @token p skipped start found stop rest r gap begins noComment longest ends _ ih =>
    obtain ⟨c, cs, split, code⟩ := longest.code noComment
    have mark := marksBehind text place (split ▸ code)
    rw [← begins] at mark
    have later := @ih (before ++ skipped ++ found.sourceText.toList)
      (by rw [mark.text, List.append_assoc (before ++ skipped)])
      (by rw [ends, mark.place, Position.afterAllAppend _ (before ++ skipped)])
    cases r with
    | error => exact later
    | ok others => exact List.forall_mem_cons.mpr ⟨⟨_, _, mark⟩, later⟩
  | unterminated gap =>
    exact ⟨_, _, marksBehind text place (.code (by simp [Blank]) (by simp))⟩
  | unrecognized gap foreign => exact ⟨_, _, marksBehind text place foreign.code⟩

theorem lexMarked {r : Except LexError (List Token)} (ends : tokenize source = r) :
    MarkedResult source r := by
  have start : source.toList = [] ++ source.toList := rfl
  exact (tokenizeLexes ends).marked start rfl

theorem bracesAmong (us : List Token) (braces : List Span) :
    ∀ b ∈ us.foldl braceAfter braces, b ∈ braces ∨ ∃ t ∈ us, t.span = b := by
  induction us generalizing braces with
  | nil => exact fun b member => .inl member
  | cons u us ih =>
    intro b member
    rcases ih _ b member with among | ⟨t, member, same⟩
    · unfold braceAfter at among
      split at among
      · rcases List.mem_cons.mp among with rfl | among
        · exact .inr ⟨u, .head us, rfl⟩
        · exact .inl among
      · exact .inl (List.mem_of_mem_tail among)
      · exact .inl among
    · exact .inr ⟨t, .tail u member, same⟩

theorem suppliedSpan (filled : ts ≠ []) (member : t ∈ supplied ts) : ∃ u ∈ ts, u.span = t.span := by
  rcases List.mem_append.mp member with member | member
  · exact ⟨t, member, rfl⟩
  · obtain rfl := List.mem_singleton.mp member
    refine ⟨ts.getLast filled, List.getLast_mem filled, ?_⟩
    rw [List.getLast?_eq_some_getLast filled]
    rfl

theorem refusedSpan (refused : parse ts = .error e) (filled : ts ≠ []) :
    ∃ t ∈ ts, t.span = e.span := by
  obtain ⟨k, t, refused⟩ := refusedSomewhere refused
  have here : t ∈ supplied ts := List.mem_of_getElem? refused.choose_spec.1
  have blames := refused.blames
  generalize braces : openBraces ((supplied ts).take k) = opened at blames
  cases blames with
  | unclosedBlock _ innermost =>
    subst braces
    have among := List.mem_of_mem_head? innermost
    rcases bracesAmong _ _ _ among with none | ⟨u, member, same⟩
    · cases none
    · exact same ▸ suppliedSpan filled (List.mem_of_mem_take member)
  | _ => exact suppliedSpan filled here

theorem EvalError.DueTo.spanned {e : EvalError} {n : Node} (due : e.DueTo n) :
    ∃ d, n.Has d ∧ e.span = d.span := by
  cases due with
  | @notCallable _ callee => exact ⟨.expr callee, .deeper (by simp [Node.children]) (.self _), rfl⟩
  | _ => exact ⟨_, .self _, rfl⟩

theorem EvalError.DueTo.placed {e : EvalError} {n : Node} (due : e.DueTo n)
    (lexed : tokenize source = .ok ts) (parsed : parse ts = .ok tree) (inside : tree.Has n) :
    ∃ d : Node, d.Placed ts ∧ e.span = d.span := by
  obtain ⟨d, inner, span⟩ := due.spanned
  obtain ⟨s, statement, above⟩ := inside
  exact ⟨d, nodePlaced lexed parsed ⟨s, statement, above.trans inner⟩, span⟩

theorem evalMarked {limit : Nat} {e : EvalError} (failed : run source limit = .error (.eval e)) :
    Marked source e.span.start := by
  -- There is one source, and nodes begin where tokens do.
  have fresh := Session.startIn (.readFrom [source]) (fun _ => trivial) limit
  obtain ⟨n, ⟨text, among, p, read, inside⟩, due⟩ :=
    (Session.runStays (.head []) fresh).1 e failed
  obtain rfl := List.mem_singleton.mp among
  obtain ⟨ts, lexed, parsed⟩ := readProgramTokens.mp read
  obtain ⟨d, placed, span⟩ := due.placed lexed parsed inside
  obtain ⟨t, member, _, start⟩ := placed.starts
  rw [span, start]
  exact lexMarked lexed t member

theorem readMarked {f : Failure} (refused : readProgram source = .error f) :
    Marked source f.position := by
  rcases readProgramFails refused with ⟨e, rfl, lexed⟩ | ⟨ts, e, rfl, lexed, parsed⟩
  · exact lexMarked lexed
  · obtain ⟨inner, split, _⟩ := (tokenizeLexes lexed).laid.ends
    obtain ⟨t, member, span⟩ := refusedSpan parsed (by simp [split])
    have marked := lexMarked lexed t member
    rwa [span] at marked

theorem failureMarked {limit : Nat} {f : Failure} (failed : run source limit = .error f) :
    Marked source f.position := by
  cases f with
  | eval e => exact evalMarked failed
  | lex e => exact readMarked (Session.runUnread failed fun _ => nofun)
  | parse e => exact readMarked (Session.runUnread failed fun _ => nofun)

end marks

section rendering

open String (utf8Len)

/- The end of a text that has no line there: it is empty, or its last line is ended. -/
def BehindLines (source : String) (p : Position) : Prop :=
  p.byte = source.utf8ByteSize ∧ (source = "" ∨ source.toList.getLast? = some '\n')

def Failure.framed (f : Failure) (line : String) : String :=
  f.message ++ "\n" ++ toString f.position.line ++ " | " ++ line ++ "\n" ++
    spaces (toString f.position.line).length ++ " | " ++ spaces (f.position.column - 1) ++ "^"

/- A failure shown with its line, which goes on from `above` to `below`: the place of the failure is
between `ahead` and `behind`, and under it there is a caret. -/
structure ShownIn (source : String) (f : Failure) (above ahead behind ending below : List Char) :
    Prop where
  text : source.toList = above ++ ((ahead ++ behind) ++ (ending ++ below))
  start : LineStart above
  inside : '\n' ∉ ahead ++ behind
  ends : LineEnd (ahead ++ behind) ending below
  byte : f.position.byte = utf8Len (above ++ ahead)
  line : f.position.line = above.count '\n' + 1
  column : f.position.column = ahead.length + 1
  shown : f.render source = f.message ++ "\n" ++
    toString f.position.line ++ " | " ++ .ofList (ahead ++ behind) ++ "\n" ++
    spaces (toString f.position.line).length ++ " | " ++ spaces (f.position.column - 1) ++ "^"

variable {source : String} {p : Position} {above ahead before rest : List Char} {f : Failure}

theorem Marks.size (marks : Marks source p before rest) :
    source.utf8ByteSize = utf8Len before + utf8Len rest := by
  rw [← String.utf8Len_toList, marks.text, String.utf8Len_append]

theorem Marks.located (marks : Marks source p before rest) : Located source p before rest := by
  rw [marks.place]
  exact locatedAfter marks.text

theorem Marks.number (marks : Marks source p (above ++ ahead) rest) (inside : '\n' ∉ ahead) :
    p.line = above.count '\n' + 1 := by
  rw [marks.place, afterAllLine, List.count_append, List.count_eq_zero.mpr inside]
  rfl

theorem Marks.line (marks : Marks source p (above ++ ahead) rest) (start : LineStart above)
    (inside : '\n' ∉ ahead) : line? source p.line = (lines (ahead ++ rest)).head?.map .ofList := by
  rw [marks.number inside, line?, marks.text, List.append_assoc, linesFrom start]

theorem Marks.behind (marks : Marks source p (above ++ ahead) rest) (start : LineStart above)
    (inside : '\n' ∉ ahead) : ahead ++ rest = [] ↔ BehindLines source p := by
  obtain ⟨text, _, byte, _⟩ := marks.located
  have whole := marks.size
  constructor
  · intro none
    obtain ⟨rfl, rfl⟩ := List.append_eq_nil_iff.mp none
    refine ⟨by rw [byte, whole]; rfl, ?_⟩
    rw [text]
    obtain rfl | ⟨more, rfl⟩ := start
    · exact .inl (String.toList_injective text)
    · exact .inr (by simp)
  · rintro ⟨last, ends⟩
    obtain rfl : rest = [] := by
      cases rest with
      | nil => rfl
      | cons c rest =>
        obtain ⟨n, size, _⟩ := bytesCons c rest
        omega
    rw [List.append_nil] at text ⊢
    rcases ends with rfl | fed
    · exact (List.append_eq_nil_iff.mp text.symm).2
    · rw [text] at fed
      cases ahead with
      | nil => rfl
      | cons c ahead =>
        rw [List.getLast?_append_cons] at fed
        exact absurd (List.mem_of_getLast? fed) inside

theorem lineAround {line ending below : List Char} (code : Code rest) (inside : '\n' ∉ ahead)
    (ends : LineEnd line ending below) (split : ahead ++ rest = line ++ (ending ++ below)) :
    ∃ behind, line = ahead ++ behind := by
  -- No place is inside of an end of a line, so only the first split is left.
  rcases List.append_eq_append_iff.mp split with ⟨behind, whole, _⟩ | ⟨more, rfl, tail⟩
  · exact ⟨behind, whole⟩
  · suffices none : more = [] by exact ⟨[], by rw [none, List.append_nil, List.append_nil]⟩
    have plain : '\n' ∉ more := fun member => inside (List.mem_append_right _ member)
    cases more with
    | nil => rfl
    | cons c more =>
      cases ends with
      | feed =>
        cases tail
        exact absurd (.head _) plain
      | returned =>
        cases more with
        | nil =>
          cases tail
          cases code with
          | code plain _ => exact absurd newlineBlank plain
        | cons d more =>
          cases tail
          exact absurd (.tail _ (.head _)) plain
      | last => cases tail

theorem renderBare (none : line? source f.position.line = none) : f.render source = f.message := by
  simp only [Failure.render, none]

theorem renderLine {line : String} (found : line? source f.position.line = some line) :
    f.render source = f.framed line := by
  simp only [Failure.render, found]
  rfl

theorem framedLonger (f : Failure) (line : String) : f.framed line ≠ f.message := by
  intro same
  have lengths := congrArg String.length same
  simp only [Failure.framed, String.length_append] at lengths
  have feed : "\n".length = 1 := rfl
  omega

theorem ShownIn.longer {above ahead behind ending below : List Char}
    (shown : ShownIn source f above ahead behind ending below) : f.render source ≠ f.message :=
  shown.shown.trans_ne (framedLonger f _)

theorem Marks.shown (marks : Marks source f.position (above ++ ahead) rest)
    (start : LineStart above) (inside : '\n' ∉ ahead) (filled : ahead ++ rest ≠ []) :
    ∃ behind ending below, ShownIn source f above ahead behind ending below := by
  obtain ⟨line, ending, below, split, plain, ends, first⟩ := firstLine filled
  obtain ⟨behind, rfl⟩ := lineAround marks.code inside ends split
  have found := marks.line start inside
  rw [first] at found
  refine ⟨behind, ending, below, ?_, start, plain, ends, marks.located.byte, marks.number inside,
    ?_, renderLine found⟩
  · rw [marks.text, List.append_assoc, split]
  · rw [marks.place, columnAt start inside]

/-- A failure of a source tells a place in it, by bytes, line and column. It is shown with the text
of that very line and a caret under the place, or by its message alone if the text has ended with
the line above. -/
theorem failureShown {limit : Nat} (failed : run source limit = .error f) :
    (∃ before rest, Located source f.position before rest) ∧
      (f.render source = f.message ↔ BehindLines source f.position) ∧
      (¬ BehindLines source f.position →
        ∃ above ahead behind ending below, ShownIn source f above ahead behind ending below) := by
  obtain ⟨before, rest, marks⟩ := failureMarked failed
  have located := marks.located
  obtain ⟨above, ahead, rfl, start, inside⟩ := lineSplit before
  have behind := marks.behind start inside
  refine ⟨⟨_, _, located⟩, ?_⟩
  by_cases none : ahead ++ rest = []
  · have bare : f.render source = f.message := by
      refine renderBare ?_
      rw [marks.line start inside, none]
      rfl
    have ended := behind.mp none
    exact ⟨iff_of_true bare ended, fun some => absurd ended some⟩
  · obtain ⟨after, ending, below, shown⟩ := marks.shown start inside none
    exact ⟨iff_of_false shown.longer (mt behind.mpr none), fun _ => ⟨_, _, _, _, _, shown⟩⟩

def wrapped : String := "let s = \"é\r\n\";\r\n  s - 1\r\n;s"

theorem wrappedShown : ∃ f, run wrapped 5 = .error f ∧
    f.render wrapped =
      "eval error: cannot apply `-` to string and integer at 3:3\n3 |   s - 1\n  |   ^" ∧
    (∃ before rest, Located wrapped f.position before rest) ∧
    ∃ above ahead behind ending below, ShownIn wrapped f above ahead behind ending below := by
  have text : (match run wrapped 5 with
      | .error f => f.render wrapped
      | .ok _ => "") =
      "eval error: cannot apply `-` to string and integer at 3:3\n3 |   s - 1\n  |   ^" := by
    decide +kernel
  split at text
  · rename_i f failed
    obtain ⟨located, _, shown⟩ := failureShown failed
    have unfed : wrapped ≠ "" ∧ wrapped.toList.getLast? ≠ some '\n' := by decide +kernel
    exact ⟨f, failed, text, located, shown fun behind => behind.2.elim unfed.1 unfed.2⟩
  · exact absurd text (by decide)

end rendering

end Scriptlet
