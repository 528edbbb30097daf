import Scriptlet.Proofs.ParsingExact
import Scriptlet.Proofs.Tiling

/-! Texts behind each other.
No lexeme but a string goes across a blank, so a text that has tokens keeps them when a line feed
and another text follow; a comment that is open at its end is closed by the line feed. What follows
has the tokens it has alone, at places that are further on. -/
namespace Scriptlet

section blanks

variable {b c : Char} {cs ds rest more : List Char} {found : Lexeme}

theorem Shape.noBlank (shape : Shape c cs) (blank : Blank b) (plain : c ≠ '"') : b ∉ c :: cs := by
  intro member
  rcases List.mem_cons.mp member with rfl | member
  · exact blankBegins blank shape
  · have part : ¬ isWordPart b := by rcases blank with rfl | rfl | rfl | rfl <;> decide
    cases shape with
    | quoted => exact plain rfl
    | digits _ others => exact part (by simp [isWordPart, others _ member])
    | word _ others => exact part (others _ member)
    | single => cases member
    | pair sign =>
      obtain rfl := List.mem_singleton.mp member
      unfold pairSign? at sign
      rcases blank with rfl | rfl | rfl | rfl <;> split at sign <;> contradiction

theorem prefixBefore (within : ds <+: cs ++ b :: more) (absent : b ∉ ds) : ds <+: cs := by
  refine List.prefix_of_prefix_length_le within (List.prefix_append _ _) (Nat.le_of_not_lt ?_)
  intro longer
  obtain ⟨further, rfl⟩ :=
    List.prefix_of_prefix_length_le (List.prefix_append cs _) within (Nat.le_of_lt longer)
  have behind := (List.prefix_append_right_inj cs).mp within
  cases further with
  | nil => simp at longer
  | cons d further =>
    obtain ⟨rfl, _⟩ := List.cons_prefix_cons.mp behind
    exact absent (by simp)

theorem Lexical.longest (lexical : Lexical found.kind found.sourceText.toList) :
    Longest found [] := by
  refine ⟨lexical, fun kind longer _ within => ?_⟩
  rw [List.append_nil] at within
  exact within.length_le

theorem Longest.beforeBlank (longest : Longest found rest) (blank : Blank b) (more : List Char) :
    Longest found (rest ++ b :: more) := by
  refine ⟨longest.lexical, fun kind longer other within => ?_⟩
  obtain ⟨c, cs, text, shape⟩ := lexicalShape longest.lexical
  have most := longest.most kind longer other
  rw [text] at within most ⊢
  obtain ⟨ds, rfl, shape', tail⟩ := prefixShape other within
  by_cases quote : c = '"'
  · subst quote
    obtain rfl := quotedOnce shape shape' tail
    exact Nat.le_refl _
  · rw [← List.append_assoc] at within
    exact most (prefixBefore within (shape'.noBlank blank quote))

theorem codeBeforeBlank (code : ¬ ['/', '/'] <+: cs) (blank : Blank b) :
    ¬ ['/', '/'] <+: cs ++ b :: more := by
  intro slashes
  refine code (prefixBefore slashes ?_)
  rcases blank with rfl | rfl | rfl | rfl <;> decide

end blanks

section joining

variable {p : Position} {cs rest more skipped : List Char} {r : Except LexError (List Token)}
  {ts us : List Token}

theorem Gap.append {first second : List Char} (gap : Gap first (second ++ rest))
    (later : Gap second rest) : Gap (first ++ second) rest := by
  generalize around : second ++ rest = behind at gap
  induction gap with
  | none => exact later
  | blank kind _ ih => exact .blank kind (ih around)
  | @comment body cs behind line stops _ ih =>
    subst around
    rw [List.cons_append, List.cons_append, List.append_assoc]
    exact .comment line (by rwa [List.append_assoc]) (ih rfl)

theorem Gap.beforeLine (gap : Gap cs rest) (more : List Char) : Gap cs (rest ++ '\n' :: more) := by
  induction gap with
  | none => exact .none
  | blank kind _ ih => exact .blank kind ih
  | @comment body cs rest line stops _ ih =>
    refine .comment line (fun c head => ?_) ih
    rw [← List.append_assoc] at head
    cases whole : cs ++ rest with
    | nil =>
      rw [whole] at head
      exact (Option.some.inj head).symm
    | cons d tail =>
      rw [whole] at head stops
      exact stops c head

theorem Lexes.afterGap (gap : Gap skipped cs) (lexes : Lexes (p.afterAll skipped) cs r) :
    Lexes p (skipped ++ cs) r := by
  cases lexes with
  | ended own =>
    rw [← Position.afterAllAppend]
    exact .ended (Gap.append (by rwa [List.append_nil]) own)
  | token own begins code longest ends later =>
    rw [← List.append_assoc]
    rw [← Position.afterAllAppend] at begins
    exact .token (gap.append own) begins code longest ends later
  | unterminated own unclosed =>
    rw [← List.append_assoc, ← Position.afterAllAppend]
    exact .unterminated (gap.append own) unclosed
  | unrecognized own foreign =>
    rw [← List.append_assoc, ← Position.afterAllAppend]
    exact .unrecognized (gap.append own) foreign

theorem Lexes.beforeLine (lexes : Lexes p cs (.ok ts))
    (later : Lexes (p.afterAll cs) ('\n' :: more) (.ok us)) :
    Lexes p (cs ++ '\n' :: more) (.ok (beforeEnd ts ++ us)) := by
  generalize result : Except.ok ts = r at lexes
  induction lexes generalizing ts with
  | ended gap =>
    cases result
    exact later.afterGap (gap.beforeLine more)
  | @token p skipped start found stop rest r gap begins code longest ends _ ih =>
    cases r with
    | error => cases result
    | ok inner =>
      cases result
      have inside : found.kind ≠ .endOfInput := longest.lexical.inside
      rw [Position.afterAllAppend, Position.afterAllAppend, ← begins, ← ends] at later
      have tail := ih later rfl
      rw [beforeEndCons, if_neg inside, List.append_assoc, List.append_assoc]
      refine .token (r := .ok _) (List.append_assoc .. ▸ gap.beforeLine more) begins ?_
        (longest.beforeBlank newlineBlank more) ends tail
      rw [← List.append_assoc]
      exact codeBeforeBlank code newlineBlank
  | unterminated => cases result
  | unrecognized => cases result

end joining

section places

open String (utf8Len)

variable {p : Position} {cs : List Char} {ts us : List Token}

/- Where in a text a place is that it has in what stands behind these whole lines. -/
def Position.behind (lines : List Char) (p : Position) : Position :=
  ⟨utf8Len lines + p.byte, lines.count '\n' + p.line, p.column⟩

def Span.behind (lines : List Char) (s : Span) : Span :=
  ⟨s.start.behind lines, s.stop.behind lines⟩

theorem orderBehind (lines : List Char) (p q : Position) :
    (p.behind lines).order (q.behind lines) = p.order q := by
  simp only [Position.order, Position.behind, Nat.compare_eq_ite_lt, Nat.add_lt_add_iff_left]

theorem mergesBehind (lines : List Char) : Merges (Span.behind lines) := by
  intro a b
  simp only [Span.extend, Span.behind, Position.earlier, Position.later, orderBehind]
  rw [apply_ite (Position.behind lines), apply_ite (Position.behind lines)]

theorem afterBehind (lines : List Char) (p : Position) (c : Char) :
    (p.behind lines).after c = (p.after c).behind lines := by
  unfold Position.after
  split <;> simp [Position.behind, Nat.add_assoc]

theorem afterAllBehind (lines : List Char) (p : Position) (cs : List Char) :
    (p.behind lines).afterAll cs = (p.afterAll cs).behind lines := by
  induction cs generalizing p with
  | nil => rfl
  | cons c cs ih => rw [Position.afterAllCons, Position.afterAllCons, afterBehind, ih]

theorem afterAllLine (p : Position) (cs : List Char) :
    (p.afterAll cs).line = cs.count '\n' + p.line := by
  induction cs generalizing p with
  | nil => simp [Position.afterAllNil]
  | cons c cs ih =>
    rw [Position.afterAllCons, ih, List.count_cons]
    by_cases line : c = '\n'
    · simp [Position.after, line]
      omega
    · simp [Position.after, line]

theorem afterLines (cs : List Char) :
    Position.start.afterAll (cs ++ ['\n']) = Position.start.behind (cs ++ ['\n']) := by
  have byte := afterAllByte .start (cs ++ ['\n'])
  have line := afterAllLine .start (cs ++ ['\n'])
  have column : (Position.start.afterAll (cs ++ ['\n'])).column = 1 := by
    rw [Position.afterAllAppend]
    rfl
  revert byte line column
  generalize Position.start.afterAll (cs ++ ['\n']) = q
  obtain ⟨byte, line, column⟩ := q
  rintro rfl rfl rfl
  simp [Position.behind, Position.start]

theorem Lexes.behind (lines : List Char) (lexes : Lexes p cs (.ok ts)) :
    Lexes (p.behind lines) cs (.ok (ts.map (Token.move (Span.behind lines)))) := by
  generalize result : Except.ok ts = r at lexes
  induction lexes generalizing ts with
  | @ended p skipped gap =>
    cases result
    have ended := Lexes.ended (p := p.behind lines) gap
    rwa [afterAllBehind] at ended
  | @token p skipped start found stop rest r gap begins code longest ends _ ih =>
    cases r with
    | error => cases result
    | ok inner =>
      cases result
      exact .token (r := .ok _) gap (by rw [begins, afterAllBehind]) code longest
        (by rw [ends, afterAllBehind]) (ih rfl)
  | unterminated => cases result
  | unrecognized => cases result

end places

section semicolon

def lead (first : String) : String := first ++ "\n;\n"

def joined (first second : String) : String := lead first ++ second

variable {first second : String} {ts us : List Token}

theorem lexesSemicolon {p : Position} {more : List Char}
    (later : Lexes (p.afterAll ['\n', ';', '\n']) more (.ok us)) :
    ∃ t : Token, t.kind = .semicolon ∧ Lexes p ('\n' :: ';' :: '\n' :: more) (.ok (t :: us)) := by
  have sign : Lexical .semicolon (Lexeme.mk .semicolon ";").sourceText.toList := .spelled rfl
  have longest : Longest ⟨.semicolon, ";"⟩ ('\n' :: more) :=
    sign.longest.beforeBlank newlineBlank more
  have gap {cs : List Char} : Gap ['\n'] cs := .blank newlineBlank .none
  have code : ¬ ['/', '/'] <+: ";".toList ++ '\n' :: more :=
    codeBeforeBlank (by decide) newlineBlank
  exact ⟨⟨⟨.semicolon, ";"⟩, _⟩, rfl, .token gap rfl code longest rfl (later.afterGap gap)⟩

theorem joinedTokens (one : tokenize first = .ok ts) (other : tokenize second = .ok us) :
    ∃ t : Token, t.kind = .semicolon ∧ tokenize (joined first second) =
      .ok (beforeEnd ts ++ t :: us.map (Token.move (Span.behind (lead first).toList))) := by
  have before : (lead first).toList = first.toList ++ ['\n', ';', '\n'] := by simp [lead]
  have lines : Position.start.afterAll (lead first).toList =
      Position.start.behind (lead first).toList := by
    rw [before, show ['\n', ';', '\n'] = ['\n', ';'] ++ ['\n'] from rfl, ← List.append_assoc]
    exact afterLines _
  have after : Lexes (Position.start.afterAll (lead first).toList) second.toList
      (.ok (us.map (Token.move (Span.behind (lead first).toList)))) :=
    lines ▸ (tokenizeLexes other).behind _
  nth_rewrite 1 [before] at after
  rw [Position.afterAllAppend] at after
  obtain ⟨t, sign, behind⟩ := lexesSemicolon after
  refine ⟨t, sign, ?_⟩
  have whole : (joined first second).toList = first.toList ++ '\n' :: ';' :: '\n' :: second.toList := by
    simp [joined, lead]
  rw [tokenize, Cursor.ofString, whole]
  exact ((tokenizeLexes one).beforeLine behind).tokens

end semicolon

end Scriptlet
