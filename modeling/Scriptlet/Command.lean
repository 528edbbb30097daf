import Scriptlet.Dump
import Scriptlet.Session

/-! What the command writes, and the code it ends with.
A script is one source; its code tells whether it could be had, read and evaluated. Without a
script each line of the standard input is a source, all of them in one session. Failures do not end
it, but a line that is no text does. Values have a line of their own, and unit is not written. -/
namespace Scriptlet

structure Options where
  script : Option String
  limit : Nat
  printTokens : Bool
  printTree : Bool
  deriving DecidableEq, Repr

inductive ReadFailure where
  | notFound
  | directory
  | notDirectory
  | notText
  | other (reason : String)
  deriving DecidableEq, Repr

def ReadFailure.message : ReadFailure → String
  | notFound => "No such file or directory (os error 2)"
  | directory => "Is a directory (os error 21)"
  | notDirectory => "Not a directory (os error 20)"
  | notText => "stream did not contain valid UTF-8"
  | other reason => reason

structure Transcript where
  out : String
  err : String
  deriving DecidableEq, Repr

instance : Append Transcript := ⟨fun a b => ⟨a.out ++ b.out, a.err ++ b.err⟩⟩

structure Exit where
  transcript : Transcript
  code : Nat
  deriving DecidableEq, Repr

def padLeft (width : Nat) (s : String) : String := spaces (width - s.length) ++ s

def padRight (width : Nat) (s : String) : String := s ++ spaces (width - s.length)

def Token.row (t : Token) : String :=
  padLeft 7 t.span.text ++ "  " ++ padRight 18 t.kind.description ++ " " ++ t.text ++ "\n"

def tokenTable (ts : List Token) : String := String.join (ts.map Token.row)

def valueLine : Value → String
  | .unit => ""
  | v => v.text ++ "\n"

/-- What is shown of a source as far as it could be read, and its value. -/
def Options.perform (o : Options) (source : String) (s : Session) :
    (String × Except Failure Value) × Session :=
  match tokenize source with
  | .error e => (("", .error (.lex e)), s)
  | .ok ts =>
      let table := if o.printTokens then tokenTable ts else ""
      match parse ts with
      | .error e => ((table, .error (.parse e)), s)
      | .ok p =>
          let tree := if o.printTree then p.dump ++ "\n" else ""
          let (r, s) := s.evaluate p
          ((table ++ tree, r.mapError .eval), s)

def Options.transcribe (o : Options) (source : String) (s : Session) :
    (Transcript × Except Failure Value) × Session :=
  let ((shown, r), s) := o.perform source s
  match r with
  | .ok v => ((⟨shown ++ valueLine v, ""⟩, r), s)
  | .error f => ((⟨shown, f.render source ++ "\n"⟩, r), s)

def decode? (bytes : List UInt8) : Option String := String.fromUTF8? bytes.toByteArray

def Exit.unreadable (f : ReadFailure) : Exit := ⟨⟨"", s!"error: {f.message}\n"⟩, 74⟩

def exitCode : Except Failure Value → Nat
  | .ok _ => 0
  | .error (.lex _) | .error (.parse _) => 65
  | .error (.eval _) => 70

def Options.runScript (o : Options) (content : Except ReadFailure (List UInt8)) : Exit :=
  match content with
  | .error f => .unreadable f
  | .ok bytes =>
      match decode? bytes with
      | none => .unreadable .notText
      | some source =>
          let ((transcript, r), _) := o.transcribe source (.start o.limit)
          ⟨transcript, exitCode r⟩

def prompt : String := ">> "

/-- Bytes up to and with each line feed, and those behind the last one if there are any. -/
def chunks : List UInt8 → List (List UInt8)
  | [] => []
  | b :: bs =>
      if b = 10 then [b] :: chunks bs
      else
        match chunks bs with
        | [] => [[b]]
        | c :: cs => (b :: c) :: cs

def Options.answer (o : Options) (chunk : List UInt8) (s : Session) :
    Except Exit (Transcript × Session) :=
  match decode? chunk with
  | none => .error (.unreadable .notText)
  | some source =>
      let ((transcript, _), s) := o.transcribe source s
      .ok (transcript, s)

def Options.converse (o : Options) : List (List UInt8) → Session → Exit
  | [], _ => ⟨⟨prompt ++ "\n", ""⟩, 0⟩
  | chunk :: rest, s =>
      match o.answer chunk s with
      | .error stop => ⟨⟨prompt, ""⟩ ++ stop.transcript, stop.code⟩
      | .ok (transcript, s) =>
          let later := o.converse rest s
          ⟨⟨prompt, ""⟩ ++ transcript ++ later.transcript, later.code⟩

def Options.runPrompt (o : Options) (input : List UInt8) : Exit :=
  o.converse (chunks input) (.start o.limit)

/-- The whole command, given what its script file and its standard input hold. -/
def Options.exit (o : Options) (files : String → Except ReadFailure (List UInt8))
    (input : List UInt8) : Exit :=
  match o.script with
  | some path => o.runScript (files path)
  | none => o.runPrompt input

end Scriptlet
