import Scriptlet.Proofs.LongestLexeme

/-! Tokens are exactly what the lexical grammar derives.
A reader skips a whole gap and then scans, so what it comes to is settled by the gap and by what
stands behind it. Every text has a derivation, and each one is what the reader does. -/
namespace Scriptlet

section gaps

variable {cs rest skipped : List Char}

theorem gapComment (cs : List Char) : gap true cs =
    cs.takeWhile (· ≠ '\n') ++ gap false (cs.dropWhile (· ≠ '\n')) := by
  induction cs with
  | nil => rfl
  | cons c cs ih =>
    by_cases line : c = '\n'
    · subst line
      simp [gap, isBlank]
    · simp [gap, line] at ih ⊢
      exact ih

theorem gapBlank {c : Char} (blank : Blank c) (cs : List Char) :
    gap false (c :: cs) = c :: gap false cs := by
  simp [gap, blankIs.mpr blank]

theorem gapSlashes (cs : List Char) : gap false ('/' :: '/' :: cs) = '/' :: '/' :: gap true cs := by
  simp [gap, isBlank]

/- What stands behind a gap: nothing, or the first character of no gap. -/
inductive Code : List Char → Prop where
  | ended : Code []
  | code {c cs} (plain : ¬ Blank c) (noComment : ¬ ['/', '/'] <+: c :: cs) : Code (c :: cs)

theorem gapNone (code : Code rest) : gap false rest = [] := by
  cases code with
  | ended => rfl
  | @code c cs plain noComment =>
    have slashes : ¬ (c = '/' ∧ cs.head? = some '/') := by
      rintro ⟨rfl, head⟩
      obtain ⟨cs, rfl⟩ := List.head?_eq_some_iff.mp head
      exact noComment ⟨cs, rfl⟩
    simp [gap, mt blankIs.mp plain, slashes]

theorem Gap.skips (skipped : Gap cs rest) (code : Code rest) : gap false (cs ++ rest) = cs := by
  induction skipped with
  | none => exact gapNone code
  | blank kind _ ih => rw [List.cons_append, gapBlank kind, ih code]
  | @comment body cs rest line stops _ ih =>
    have inside : ∀ c ∈ body, decide (c ≠ '\n') = true := by
      intro c member
      exact decide_eq_true fun same => line (same ▸ member)
    have taken : (cs ++ rest).takeWhile (· ≠ '\n') = [] ∧
        (cs ++ rest).dropWhile (· ≠ '\n') = cs ++ rest := by
      cases later : cs ++ rest with
      | nil => exact ⟨rfl, rfl⟩
      | cons c more =>
        rw [later] at stops
        have same := stops c rfl
        simp [same]
    rw [List.cons_append, List.cons_append, gapSlashes, gapComment, List.append_assoc,
      List.takeWhile_append_of_pos inside, List.dropWhile_append_of_pos inside, taken.1, taken.2,
      ih code, List.append_nil]

theorem gapSplits (cs : List Char) : ∃ skipped rest, cs = skipped ++ rest ∧ Gap skipped rest ∧
    Code rest := by
  induction size : cs.length using Nat.strongRecOn generalizing cs with
  | ind size ih =>
  subst size
  cases cs with
  | nil => exact ⟨[], [], rfl, .none, .ended⟩
  | cons c cs =>
    by_cases blank : Blank c
    · obtain ⟨skipped, rest, rfl, gap, code⟩ := ih cs.length (Nat.lt_succ_self _) cs rfl
      exact ⟨c :: skipped, rest, rfl, .blank blank gap, code⟩
    by_cases slashes : ['/', '/'] <+: c :: cs
    · obtain ⟨more, same⟩ := slashes
      have shorter : (more.dropWhile (· ≠ '\n')).length < (c :: cs).length := by
        rw [← same, List.length_append]
        exact Nat.lt_of_le_of_lt (dropWhileLength _ more) (Nat.lt_add_of_pos_left (by decide))
      obtain ⟨skipped, rest, split, gap, code⟩ := ih _ shorter _ rfl
      refine ⟨'/' :: '/' :: (more.takeWhile (· ≠ '\n') ++ skipped), rest, ?_, ?_, code⟩
      · simp only [← same, List.cons_append, List.nil_append, List.append_assoc, ← split,
          List.takeWhile_append_dropWhile]
      · refine .comment (fun member => ?_) (fun c head => ?_) gap
        · simpa using takeWhileAll _ _ _ member
        · rw [← split] at head
          simpa using dropWhileStops _ _ c head
    · exact ⟨[], c :: cs, rfl, .none, .code blank slashes⟩

end gaps

/- What one call takes and leaves of a text, and what it gives wherever it starts. -/
inductive Calls : List Char → List Char → (Position → Except LexError Token) → Prop where
  | ended {skipped} (gap : Gap skipped []) :
      Calls skipped [] fun p => .ok (.endAt (p.afterAll skipped))
  | token {skipped found rest} (gap : Gap skipped (found.sourceText.toList ++ rest))
      (code : ¬ ['/', '/'] <+: found.sourceText.toList ++ rest) (longest : Longest found rest) :
      Calls (skipped ++ found.sourceText.toList) rest fun p =>
        let start := p.afterAll skipped
        .ok ⟨found, ⟨start, start.afterAll found.sourceText.toList⟩⟩
  | unterminated {skipped rest} (gap : Gap skipped ('"' :: rest)) (unclosed : '"' ∉ rest) :
      Calls (skipped ++ '"' :: rest) [] fun p => .error (.unterminatedString (p.afterAll skipped))
  | unrecognized {skipped c rest} (gap : Gap skipped (c :: rest)) (foreign : Foreign c rest) :
      Calls (skipped ++ [c]) rest fun p => .error (.unrecognizedCharacter c (p.afterAll skipped))

section reading

variable {p : Position} {c : Char} {cs rest skipped : List Char} {found : Lexeme}

theorem tokensFault {reader after : Cursor} {e : LexError} (next : reader.next = (.error e, after)) :
    reader.tokens = .error e := by
  unfold Cursor.tokens
  split <;> simp_all

theorem tokensEnd {reader after : Cursor} {t : Token} (next : reader.next = (.ok t, after))
    (last : t.kind = .endOfInput) : reader.tokens = .ok [t] := by
  unfold Cursor.tokens
  split <;> simp_all

theorem tokensMore {reader after : Cursor} {t : Token} (next : reader.next = (.ok t, after))
    (inside : t.kind ≠ .endOfInput) : reader.tokens = after.tokens.map (t :: ·) := by
  rw [Cursor.tokens]
  split <;> simp_all
  cases after.tokens <;> rfl

theorem skipGapExact (gap : Gap skipped rest) (code : Code rest) (p : Position) :
    (Cursor.mk (skipped ++ rest) p).skipGap = ⟨rest, p.afterAll skipped⟩ := by
  simp [Cursor.skipGap, gap.skips code]

theorem Lexical.inside {kind : TokenKind} {text : List Char} (lexical : Lexical kind text) :
    kind ≠ .endOfInput := by
  rintro rfl
  cases lexical with
  | spelled spelling => cases spelling

theorem Longest.code (longest : Longest found rest)
    (noComment : ¬ ['/', '/'] <+: found.sourceText.toList ++ rest) :
    ∃ c cs, found.sourceText.toList ++ rest = c :: cs ∧ Code (c :: cs) := by
  obtain ⟨c, cs, split, shape⟩ := lexicalShape longest.lexical
  rw [split] at noComment ⊢
  exact ⟨c, cs ++ rest, rfl, .code (fun blank => blankBegins blank shape) noComment⟩

theorem Foreign.code (foreign : Foreign c cs) : Code (c :: cs) := by
  cases foreign with
  | lone doubled =>
    rcases doubled with rfl | rfl <;> exact .code (by simp [Blank]) (by simp)
  | unknown _ noGap =>
    refine .code (fun blank => noGap [] [] (.blank blank .none)) (fun slashes => ?_)
    obtain ⟨rfl, _⟩ := List.cons_prefix_cons.mp slashes
    have comment : Gap ('/' :: '/' :: ([] ++ [])) [] := .comment (by simp) (by simp) .none
    exact noGap _ _ comment

theorem Calls.next {taken : List Char} {gives : Position → Except LexError Token}
    (calls : Calls taken rest gives) (p : Position) :
    (Cursor.mk (taken ++ rest) p).next = (gives p, ⟨rest, p.afterAll taken⟩) := by
  cases calls with
  | ended gap => simp only [Cursor.next, skipGapExact gap .ended p]
  | token gap noComment longest =>
    obtain ⟨c, cs, split, code⟩ := longest.code noComment
    have skip := skipGapExact (split ▸ gap) code p
    simp only [List.append_assoc, split, Cursor.next, skip, scanLongest longest split.symm,
      Position.afterAllAppend]
  | unterminated gap unclosed =>
    have skip := skipGapExact gap (.code (by simp [Blank]) (by simp)) p
    simp only [List.append_nil, Cursor.next, skip, scanUnclosed unclosed, Position.afterAllAppend]
  | unrecognized gap foreign =>
    have skip := skipGapExact gap foreign.code p
    simp only [List.append_assoc, List.cons_append, List.nil_append, Cursor.next, skip,
      scanForeign foreign, Position.afterAllAppend]
    rfl

theorem callsSomehow (cs : List Char) :
    ∃ taken rest gives, cs = taken ++ rest ∧ Calls taken rest gives := by
  obtain ⟨skipped, rest, rfl, gap, code⟩ := gapSplits cs
  cases code with
  | ended => exact ⟨skipped, [], _, rfl, .ended gap⟩
  | @code c cs plain noComment =>
    have result := scanned c cs
    generalize scan c cs = outcome at result
    cases result with
    | lexeme split longest =>
      rw [split] at gap noComment ⊢
      exact ⟨_, _, _, (List.append_assoc ..).symm, .token gap noComment longest⟩
    | unterminated quote unclosed =>
      subst quote
      exact ⟨_, _, _, (List.append_nil _).symm, .unterminated gap unclosed⟩
    | unrecognized foreign =>
      have foreign := foreign.resolve_left plain
      exact ⟨_, _, _, List.append_cons .., .unrecognized gap foreign⟩

theorem Lexes.tokens {r : Except LexError (List Token)} (lexes : Lexes p cs r) :
    (Cursor.mk cs p).tokens = r := by
  induction lexes with
  | @ended p skipped gap =>
    have next := (Calls.ended gap).next p
    rw [List.append_nil] at next
    exact tokensEnd next rfl
  | @token p skipped start found stop rest r gap begins noComment longest ends _ ih =>
    subst begins ends
    have next := (Calls.token gap noComment longest).next p
    rw [List.append_assoc, Position.afterAllAppend] at next
    rw [← ih]
    exact tokensMore next longest.lexical.inside
  | @unterminated p skipped rest gap unclosed =>
    have next := (Calls.unterminated gap unclosed).next p
    rw [List.append_nil] at next
    exact tokensFault next
  | @unrecognized p skipped c rest gap foreign =>
    have next := (Calls.unrecognized gap foreign).next p
    rw [← List.append_cons] at next
    exact tokensFault next

theorem lexesSomehow (p : Position) (cs : List Char) : ∃ r, Lexes p cs r := by
  induction size : cs.length using Nat.strongRecOn generalizing p cs with
  | ind size ih =>
  subst size
  obtain ⟨taken, rest, gives, rfl, calls⟩ := callsSomehow cs
  cases calls with
  | ended gap =>
    rw [List.append_nil]
    exact ⟨_, .ended gap⟩
  | @token skipped found rest gap code longest =>
    have shorter : rest.length < (skipped ++ found.sourceText.toList ++ rest).length := by
      obtain ⟨c, cs, text, _⟩ := lexicalShape longest.lexical
      simp only [text, List.length_append, List.length_cons]
      omega
    obtain ⟨r, later⟩ := ih _ shorter _ rest rfl
    rw [List.append_assoc]
    exact ⟨_, .token gap rfl code longest rfl later⟩
  | unterminated gap unclosed =>
    rw [List.append_nil]
    exact ⟨_, .unterminated gap unclosed⟩
  | unrecognized gap foreign =>
    rw [← List.append_cons]
    exact ⟨_, .unrecognized gap foreign⟩

theorem tokenizeLexes {source : String} {r : Except LexError (List Token)}
    (ends : tokenize source = r) : Lexes .start source.toList r := by
  obtain ⟨r', lexes⟩ := lexesSomehow .start source.toList
  obtain rfl : r' = r := lexes.tokens.symm.trans ends
  exact lexes

/-- Tokens, and the one fault where there are none, are those the lexical grammar gives. -/
theorem lexesExactly (source : String) (r : Except LexError (List Token)) :
    tokenize source = r ↔ Lexes .start source.toList r := by
  exact ⟨tokenizeLexes, Lexes.tokens⟩

end reading

end Scriptlet
