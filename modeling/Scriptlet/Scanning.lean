import Scriptlet.Cursor
import Scriptlet.Token

/-! From text to tokens.
Between lexemes stand gaps: blanks, and comments that run from two slashes to the end of the line.
At any other character the longest lexeme is taken: a sign of two characters before one of one, and
words and digits as far as they go. A fault takes its characters with it, so a reader can go on
behind it; reading a whole text stops at the first one. -/
namespace Scriptlet

inductive LexError where
  | unterminatedString (position : Position)
  | unrecognizedCharacter (character : Char) (position : Position)
  deriving DecidableEq, Repr

namespace LexError

def position : LexError → Position
  | unterminatedString p => p
  | unrecognizedCharacter _ p => p

def message : LexError → String
  | unterminatedString p => s!"unterminated string literal starting at {p.text}"
  | unrecognizedCharacter c p => s!"unrecognized character `{c}` at {p.text}"

end LexError

def isBlank (c : Char) : Bool := c = ' ' || c = '\t' || c = '\n' || c = '\r'

def isWordStart (c : Char) : Bool := c.isAlpha || c = '_' || c = '$'

def isWordPart (c : Char) : Bool := isWordStart c || c.isDigit

/-- The characters of the gap at the front; `comment` tells whether a comment is open. -/
def gap (comment : Bool) : List Char → List Char
  | [] => []
  | c :: cs =>
      if comment then c :: gap (c ≠ '\n') cs
      else if isBlank c then c :: gap false cs
      else if c = '/' ∧ cs.head? = some '/' then c :: gap true cs
      else []

def pairSign? : Char → Char → Option TokenKind
  | '=', '=' => some .doubleEqual
  | '!', '=' => some .bangEqual
  | '<', '=' => some .lessEqual
  | '>', '=' => some .greaterEqual
  | '&', '&' => some .doubleAmpersand
  | '|', '|' => some .doublePipe
  | _, _ => none

def sign? : Char → Option TokenKind
  | '(' => some .leftParen
  | ')' => some .rightParen
  | '{' => some .leftBrace
  | '}' => some .rightBrace
  | '+' => some .plus
  | '-' => some .minus
  | '*' => some .asterisk
  | '/' => some .slash
  | ',' => some .comma
  | ';' => some .semicolon
  | '!' => some .bang
  | '=' => some .equal
  | '<' => some .less
  | '>' => some .greater
  | _ => none

def Lexeme.ofWord (text : String) : Lexeme :=
  ⟨(TokenKind.keyword? text).getD .identifier, text⟩

inductive Scan where
  | lexeme (found : Lexeme) (rest : List Char)
  | unterminated
  | unrecognized
  deriving DecidableEq, Repr

def scan (c : Char) (cs : List Char) : Scan :=
  match cs.head?.bind (pairSign? c) with
  | some kind => .lexeme ⟨kind, .ofList (c :: cs.take 1)⟩ (cs.drop 1)
  | none =>
    match sign? c with
    | some kind => .lexeme ⟨kind, .ofList [c]⟩ cs
    | none =>
      if c = '"' then
        match cs.dropWhile (· ≠ '"') with
        | [] => .unterminated
        | _ :: rest => .lexeme ⟨.string, .ofList (cs.takeWhile (· ≠ '"'))⟩ rest
      else if c.isDigit then
        .lexeme ⟨.integer, .ofList (c :: cs.takeWhile Char.isDigit)⟩ (cs.dropWhile Char.isDigit)
      else if isWordStart c then
        .lexeme (.ofWord (.ofList (c :: cs.takeWhile isWordPart))) (cs.dropWhile isWordPart)
      else .unrecognized

namespace Cursor

def skipGap (c : Cursor) : Cursor :=
  let skipped := gap false c.rest
  ⟨c.rest.drop skipped.length, c.position.afterAll skipped⟩

/-- The next token or fault, and the reader behind its characters. At the end of the text the end
of input comes again and again. -/
def next (c : Cursor) : Except LexError Token × Cursor :=
  let c := c.skipGap
  match c.rest with
  | [] => (.ok (.endAt c.position), c)
  | ch :: cs =>
      match scan ch cs with
      | .lexeme found rest =>
          let stop := c.position.afterAll found.sourceText.toList
          (.ok ⟨found, ⟨c.position, stop⟩⟩, ⟨rest, stop⟩)
      | .unterminated =>
          (.error (.unterminatedString c.position), ⟨[], c.position.afterAll (ch :: cs)⟩)
      | .unrecognized =>
          (.error (.unrecognizedCharacter ch c.position), ⟨cs, c.position.after ch⟩)

end Cursor

theorem dropWhileLength (p : Char → Bool) (cs : List Char) :
    (cs.dropWhile p).length ≤ cs.length :=
  (List.dropWhile_suffix p).length_le

theorem scanShrinks {c cs found rest} (h : scan c cs = .lexeme found rest) :
    rest.length ≤ cs.length := by
  have bound := dropWhileLength
  unfold scan at h
  split at h
  · cases h; simp
  · split at h
    · cases h; exact Nat.le_refl _
    · split at h
      · split at h
        · cases h
        · rename_i tail eq
          cases h
          have := bound (· ≠ '"') cs
          rw [eq] at this
          simp only [List.length_cons] at this
          omega
      · split at h
        · cases h; exact bound _ _
        · split at h
          · cases h; exact bound _ _
          · cases h

namespace Cursor

theorem skipGapShrinks (c : Cursor) : c.skipGap.rest.length ≤ c.rest.length := by
  simp [skipGap]

theorem nextShrinks {c : Cursor} {token after} (h : c.next = (.ok token, after))
    (inside : token.kind ≠ .endOfInput) : after.rest.length < c.rest.length := by
  have bound := skipGapShrinks c
  unfold next at h
  dsimp only at h
  split at h
  · cases h; exact absurd rfl inside
  · rename_i ch cs eq
    rw [eq, List.length_cons] at bound
    split at h
    · rename_i found rest hs
      cases h
      have := scanShrinks hs
      simp only
      omega
    · cases h
    · cases h

/-- Tokens up to the end of input or the first fault. -/
def results (c : Cursor) : List (Except LexError Token) :=
  match _h : c.next with
  | (.error e, _) => [.error e]
  | (.ok token, after) =>
      if _inside : token.kind = .endOfInput then [.ok token] else .ok token :: after.results
termination_by c.rest.length
decreasing_by exact nextShrinks _h _inside

def tokens (c : Cursor) : Except LexError (List Token) :=
  match _h : c.next with
  | (.error e, _) => .error e
  | (.ok token, after) =>
      if _inside : token.kind = .endOfInput then .ok [token]
      else do return token :: (← after.tokens)
termination_by c.rest.length
decreasing_by exact nextShrinks _h _inside

def steps : Nat → Cursor → List (Except LexError Token)
  | 0, _ => []
  | n + 1, c => c.next.1 :: steps n c.next.2

end Cursor

def tokenize (source : String) : Except LexError (List Token) := (Cursor.ofString source).tokens

/- A reader that is asked for one result at a time. It is finished with the end of input, and with
a fault as well. -/
structure TokenStream where
  reader : Cursor
  finished : Bool
  deriving DecidableEq, Repr

namespace TokenStream

def ofString (source : String) : TokenStream := ⟨.ofString source, false⟩

def next (s : TokenStream) : Option (Except LexError Token) × TokenStream :=
  if s.finished then (none, s)
  else
    match s.reader.next with
    | (.ok token, after) => (some (.ok token), ⟨after, token.kind = .endOfInput⟩)
    | (.error e, after) => (some (.error e), ⟨after, true⟩)

def pulls : Nat → TokenStream → List (Option (Except LexError Token))
  | 0, _ => []
  | n + 1, s => s.next.1 :: pulls n s.next.2

end TokenStream

end Scriptlet
