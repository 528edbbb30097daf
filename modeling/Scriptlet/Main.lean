import Scriptlet.Console

/-! The command. It fetches bytes, writes transcripts and returns the exit code; what is written
is decided elsewhere. -/
namespace Scriptlet

def fetch (path : String) : IO (Except ReadFailure (List UInt8)) := do
  try
    return .ok (← IO.FS.readBinFile path).toList
  catch
    | .noFileOrDirectory .. => return .error .notFound
    | .inappropriateType _ code _ =>
        return .error (if code = 20 then .notDirectory else .directory)
    | e => return .error (.other (toString e))

def Transcript.write (t : Transcript) : IO Unit := do
  IO.print t.out
  (← IO.getStdout).flush
  IO.eprint t.err

def Exit.report (e : Exit) : IO UInt32 := do
  e.transcript.write
  return e.code.toUInt32

/-- The bytes up to and with the next line feed, none at the end of the input. -/
partial def nextChunk (input : IO.FS.Stream) (earlier : List UInt8) : IO (List UInt8) := do
  match (← input.read 1).toList with
  | [] => return earlier.reverse
  | b :: _ => if b = 10 then return (b :: earlier).reverse else nextChunk input (b :: earlier)

partial def serve (o : Options) (input : IO.FS.Stream) (s : Session) : IO UInt32 := do
  Transcript.write ⟨prompt, ""⟩
  let chunk ← nextChunk input []
  if chunk.isEmpty then
    Transcript.write ⟨"\n", ""⟩
    return 0
  match o.answer chunk s with
  | .error stop => stop.report
  | .ok (transcript, s) =>
      transcript.write
      serve o input s

end Scriptlet

open Scriptlet in
def main (arguments : List String) : IO UInt32 := do
  match readArguments arguments with
  | .run o =>
      match o.script with
      | some path => (o.runScript (← fetch path)).report
      | none => serve o (← IO.getStdin) (.start o.limit)
  | invocation => (invocation.exit (fun _ => .error .notFound) []).report
