import PathQuery.Command.Run

/-!
# The program

Reads the standard input if the arguments call for it, runs the command, and prints.
-/

namespace PathQuery.Command

/-- Reads the standard input to its end, unless it is a terminal. -/
def readStdin : IO Stdin := do
  let stream ← IO.getStdin
  if ← stream.isTty then return .terminal
  return .piped (String.fromUTF8? (← stream.readBinToEnd))

def runProgram [Regex.Engine] (codec : Json.Codec)
    (read : List String → Except Outcome Invocation) (arguments : List String) : IO UInt32 := do
  let needed := match read arguments with
    | .ok invocation => invocation.input?.isNone
    | .error _ => false
  let stdin ← if needed then readStdin else pure .terminal
  let outcome := run codec read arguments stdin
  IO.print outcome.stdout
  outcome.message.forM IO.eprintln
  return .ofNat outcome.exit

end PathQuery.Command
