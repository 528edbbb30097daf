import Scriptlet.Position

/-! The words and signs of the language.
A lexeme is a kind with its text; a token is a lexeme at a place. The text of a string literal is
what stands between its quotes, the text of the end of input is empty. Messages speak of signs and
reserved words by their spelling in backticks and of all other kinds by what they stand for. -/
namespace Scriptlet

inductive TokenKind where
  | leftParen | rightParen | leftBrace | rightBrace
  | plus | minus | asterisk | slash | comma | semicolon
  | bang | bangEqual | equal | doubleEqual | less | lessEqual | greater | greaterEqual
  | doubleAmpersand | doublePipe
  | identifier | integer | string
  | functionWord | letWord | trueWord | falseWord | ifWord | elseWord | returnWord
  | endOfInput
  deriving DecidableEq, Repr

namespace TokenKind

def spelling? : TokenKind → Option String
  | leftParen => some "("
  | rightParen => some ")"
  | leftBrace => some "\x7b"
  | rightBrace => some "\x7d"
  | plus => some "+"
  | minus => some "-"
  | asterisk => some "*"
  | slash => some "/"
  | comma => some ","
  | semicolon => some ";"
  | bang => some "!"
  | bangEqual => some "!="
  | equal => some "="
  | doubleEqual => some "=="
  | less => some "<"
  | lessEqual => some "<="
  | greater => some ">"
  | greaterEqual => some ">="
  | doubleAmpersand => some "&&"
  | doublePipe => some "||"
  | functionWord => some "function"
  | letWord => some "let"
  | trueWord => some "true"
  | falseWord => some "false"
  | ifWord => some "if"
  | elseWord => some "else"
  | returnWord => some "return"
  | identifier | integer | string | endOfInput => none

def keyword? : String → Option TokenKind
  | "function" => some functionWord
  | "let" => some letWord
  | "true" => some trueWord
  | "false" => some falseWord
  | "if" => some ifWord
  | "else" => some elseWord
  | "return" => some returnWord
  | _ => none

def description (kind : TokenKind) : String :=
  match kind, kind.spelling? with
  | _, some spelling => s!"`{spelling}`"
  | identifier, _ => "identifier"
  | integer, _ => "integer literal"
  | string, _ => "string literal"
  | _, none => "end of input"

end TokenKind

structure Lexeme where
  kind : TokenKind
  text : String
  deriving DecidableEq, Repr

namespace Lexeme

def endOfInput : Lexeme := ⟨.endOfInput, ""⟩

def sourceText (l : Lexeme) : String :=
  match l.kind with
  | .string => s!"\"{l.text}\""
  | _ => l.text

def description (l : Lexeme) : String :=
  match l.kind with
  | .identifier | .integer => s!"{l.kind.description} `{l.text}`"
  | .string => s!"string \"{l.text}\""
  | kind => kind.description

end Lexeme

structure Token extends Lexeme where
  span : Span
  deriving DecidableEq, Repr

def Token.endAt (p : Position) : Token := ⟨.endOfInput, .emptyAt p⟩

end Scriptlet
