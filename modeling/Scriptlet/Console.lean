import Scriptlet.Command
import Scriptlet.Integer

/-! The outer layer of the command, which turns its arguments into options.
Arguments are read from left to right. One that asks for help or the version settles the matter,
and so does one that has no place: an unknown flag, a value for a flag that takes none, a second
script. Whether flags were repeated and the limit is a count is judged when all have been read.
Nothing behind two hyphens is a flag, and a single hyphen is a name. -/
namespace Scriptlet

inductive Invocation where
  | run (options : Options)
  | version
  | help
  | misuse
  deriving DecidableEq, Repr

/-- A count below 2^64, with or without a plus sign. -/
def readCount? (text : String) : Option Nat :=
  let digits := match text.toList with
    | '+' :: cs => cs
    | cs => cs
  (natural? digits).bind fun n => if n < 18446744073709551616 then some n else none

structure Given where
  script : Option String
  limits : List (Option String)
  printTokens : Nat
  printTree : Nat

inductive Effect where
  | settled (invocation : Invocation)
  | given (g : Given)
  | awaitsLimit
  | endsFlags
  | operand

namespace Given

def nothing : Given := ⟨none, [], 0, 0⟩

def addLimit (value : Option String) (g : Given) : Given := { g with limits := value :: g.limits }

def limit? (g : Given) : Option Nat :=
  match g.limits with
  | [] => some defaultLimit
  | [some text] => readCount? text
  | _ => none

def settle (g : Given) : Invocation :=
  match g.limit? with
  | some limit =>
      if g.printTokens ≤ 1 ∧ g.printTree ≤ 1 then
        .run ⟨g.script, limit, g.printTokens = 1, g.printTree = 1⟩
      else .misuse
  | none => .misuse

def operands (g : Given) : List String → Invocation
  | [] => g.settle
  | path :: rest =>
      match g.script with
      | none => { g with script := some path }.operands rest
      | some _ => .misuse

def long (g : Given) : String → Option String → Effect
  | "", none => .endsFlags
  | "version", none => .settled .version
  | "help", none => .settled .help
  | "print-tokens", none => .given { g with printTokens := g.printTokens + 1 }
  | "print-ast", none => .given { g with printTree := g.printTree + 1 }
  | "max-call-depth", none => .awaitsLimit
  | "max-call-depth", some value => .given (g.addLimit (some value))
  | _, _ => .settled .misuse

def effect (g : Given) (argument : String) : Effect :=
  match argument.toList with
  | '-' :: '-' :: cs =>
      let name := String.ofList (cs.takeWhile (· ≠ '='))
      match cs.dropWhile (· ≠ '=') with
      | [] => g.long name none
      | _ :: value => g.long name (some (.ofList value))
  | '-' :: 'V' :: _ => .settled .version
  | '-' :: 'h' :: _ => .settled .help
  | '-' :: _ :: _ => .settled .misuse
  | _ => .operand

def isFlag (argument : String) : Bool :=
  match argument.toList with
  | '-' :: _ :: _ => true
  | _ => false

def read (g : Given) : List String → Invocation
  | [] => g.settle
  | argument :: rest =>
      match g.effect argument with
      | .settled invocation => invocation
      | .given g => g.read rest
      | .endsFlags => g.operands rest
      | .operand =>
          match g.script with
          | none => { g with script := some argument }.read rest
          | some _ => .misuse
      | .awaitsLimit =>
          match rest with
          | [] => (g.addLimit none).settle
          | text :: later =>
              if isFlag text then (g.addLimit none).read (text :: later)
              else (g.addLimit (some text)).read later

end Given

def readArguments (arguments : List String) : Invocation := Given.nothing.read arguments

def versionText : String := "rmonkey 0.1.0\n"

def helpText : String := String.join
  ["Runs a script, or starts a REPL without one\n\n",
   "  SCRIPT              Script file to run.\n",
   "  --max-call-depth N  Maximum depth of nested function calls.\n",
   "  --print-tokens      Print the token stream before evaluating.\n",
   "  --print-ast         Print the parsed program as s-expressions before evaluating.\n"]

def Invocation.exit (files : String → Except ReadFailure (List UInt8)) (input : List UInt8) :
    Invocation → Exit
  | run o => o.exit files input
  | version => ⟨⟨versionText, ""⟩, 0⟩
  | help => ⟨⟨helpText, ""⟩, 0⟩
  | misuse => ⟨⟨"", ""⟩, 2⟩

end Scriptlet
