import Scriptlet.Scanning

/-! The lexical grammar, as what texts may be read as.
A text is gaps and lexemes in turn. Where a gap ends, the longest lexeme that the text goes on with
is the next one; two slashes are no lexeme but open a comment. Reading ends with the text, or at the
first place where it goes on with neither. -/
namespace Scriptlet

def Blank (c : Char) : Prop := c = ' ' ∨ c = '\t' ∨ c = '\n' ∨ c = '\r'

def Digit (c : Char) : Prop := '0' ≤ c ∧ c ≤ '9'

def NameStart (c : Char) : Prop := 'A' ≤ c ∧ c ≤ 'Z' ∨ 'a' ≤ c ∧ c ≤ 'z' ∨ c = '_' ∨ c = '$'

def NamePart (c : Char) : Prop := NameStart c ∨ Digit c

/- A gap with what follows it. A comment goes on up to a line feed or the end of the text. -/
inductive Gap : List Char → List Char → Prop where
  | none {rest} : Gap [] rest
  | blank {c cs rest} (kind : Blank c) (later : Gap cs rest) : Gap (c :: cs) rest
  | comment {body cs rest} (line : '\n' ∉ body) (stops : ∀ c ∈ (cs ++ rest).head?, c = '\n')
      (later : Gap cs rest) : Gap ('/' :: '/' :: (body ++ cs)) rest

/- Signs and reserved words are spelled in one way; a name is no reserved word. -/
inductive Lexical : TokenKind → List Char → Prop where
  | spelled {kind text} (spelling : kind.spelling? = some text) : Lexical kind text.toList
  | name {c cs} (first : NameStart c) (others : ∀ d ∈ cs, NamePart d)
      (free : ∀ kind : TokenKind, kind.spelling? ≠ some (.ofList (c :: cs))) :
      Lexical .identifier (c :: cs)
  | integer {c cs} (digits : ∀ d ∈ c :: cs, Digit d) : Lexical .integer (c :: cs)
  | string {body} (inner : '"' ∉ body) : Lexical .string ('"' :: (body ++ ['"']))

structure Longest (found : Lexeme) (rest : List Char) : Prop where
  lexical : Lexical found.kind found.sourceText.toList
  most : ∀ kind longer, Lexical kind longer → longer <+: found.sourceText.toList ++ rest →
    longer.length ≤ found.sourceText.toList.length

/- A sign that only exists doubled and stands alone, or what neither a lexeme nor a gap begins
with. -/
inductive Foreign : Char → List Char → Prop where
  | lone {c cs} (doubled : c = '&' ∨ c = '|') (alone : cs.head? ≠ some c) : Foreign c cs
  | unknown {c cs} (noLexeme : ∀ kind text, ¬ Lexical kind (c :: text))
      (noGap : ∀ text rest, ¬ Gap (c :: text) rest) : Foreign c cs

inductive Lexes : Position → List Char → Except LexError (List Token) → Prop where
  | ended {p skipped} (gap : Gap skipped []) : Lexes p skipped (.ok [.endAt (p.afterAll skipped)])
  | token {p skipped start found stop rest r} (gap : Gap skipped (found.sourceText.toList ++ rest))
      (begins : start = p.afterAll skipped)
      (code : ¬ ['/', '/'] <+: found.sourceText.toList ++ rest) (longest : Longest found rest)
      (ends : stop = start.afterAll found.sourceText.toList) (later : Lexes stop rest r) :
      Lexes p (skipped ++ (found.sourceText.toList ++ rest)) (r.map (⟨found, ⟨start, stop⟩⟩ :: ·))
  | unterminated {p skipped rest} (gap : Gap skipped ('"' :: rest)) (unclosed : '"' ∉ rest) :
      Lexes p (skipped ++ '"' :: rest) (.error (.unterminatedString (p.afterAll skipped)))
  | unrecognized {p skipped c rest} (gap : Gap skipped (c :: rest)) (foreign : Foreign c rest) :
      Lexes p (skipped ++ c :: rest) (.error (.unrecognizedCharacter c (p.afterAll skipped)))

section characters

theorem blankIs {c : Char} : isBlank c = true ↔ Blank c := by
  simp [isBlank, Blank, or_assoc]

theorem newlineBlank : Blank '\n' := .inr (.inr (.inl rfl))

theorem digitIs {c : Char} : c.isDigit = true ↔ Digit c := by
  simp [Char.isDigit, Digit, Char.le_def]

theorem nameStartIs {c : Char} : isWordStart c = true ↔ NameStart c := by
  have letter : c.isAlpha = true ↔ 'A' ≤ c ∧ c ≤ 'Z' ∨ 'a' ≤ c ∧ c ≤ 'z' := by
    change (decide ('A' ≤ c ∧ c ≤ 'Z') || 'a' ≤ c && c ≤ 'z') = true ↔ _
    simp
  simp [isWordStart, NameStart, letter, or_assoc]

theorem namePartIs {c : Char} : isWordPart c = true ↔ NamePart c := by
  simp [isWordPart, NamePart, nameStartIs, digitIs]

end characters

end Scriptlet
