import ForeignCall.Command.Run

/-!
# Program

Reads standard input where the command asks for it, prints the outcome and ends with its exit code.
-/

namespace ForeignCall.Command

/-- All that is left on a stream. -/
partial def readAll (stream : IO.FS.Stream) (before : ByteArray) : IO ByteArray := do
  let more ← stream.read 65536
  if more.isEmpty then return before else readAll stream (before ++ more)

def Outcome.print (outcome : Outcome) : IO UInt32 := do
  (← IO.getStdout).putStr outcome.stdout
  (← IO.getStderr).putStr outcome.stderr
  return outcome.exitCode

end ForeignCall.Command

open ForeignCall.Command in
def main (args : List String) : IO UInt32 := do
  match start args with
  | .finished outcome => outcome.print
  | .awaitingInput session =>
    let input ← readAll (← IO.getStdin) ByteArray.empty
    (session.finish input).print
