import PathQuery.Command.Basic

/-!
# Running the program

What the program prints and how it exits, given its arguments and its standard input. How arguments
are read is left open. Records are printed only once all of them are there, so a failure prints
none.
-/

namespace PathQuery.Command

/-- What the program is asked to do. -/
inductive Invocation
  /-- Run a query and print a record for each answer. -/
  | find (query : String) (input flags : Option String) (pretty : Bool)
  /-- Print the leaves of a document. -/
  | flatten (input : Option String) (raw pretty : Bool)
  deriving DecidableEq

/-- The input given with the arguments, without which it is read from the standard input. -/
def Invocation.input? : Invocation → Option String
  | find _ input _ _ => input
  | flatten input _ _ => input

/-- What the program ends with. -/
structure Outcome where
  exit : Nat
  stdout : String := ""
  /-- What is said about a failure on the standard error, where log lines can come before it. -/
  message : Option String := none
  deriving DecidableEq

/-- A value on a line, or on several. -/
def line (codec : Json.Codec) (pretty : Bool) (value : Json) : String :=
  (if pretty then codec.pretty value else codec.compact value) ++ "\n"

/-- The outcome of a command: what it prints, or the message of its error. -/
def outcome (result : Except Error String) : Outcome :=
  match result with
  | .ok text => { exit := 0, stdout := text }
  | .error error => { exit := 1, message := some error.message }

/-- What the standard input is. -/
inductive Stdin
  /-- A terminal, from which no input is read. -/
  | terminal
  /-- Bytes, and the text that they spell if they spell one. -/
  | piped (text : Option String)

/-- The input of a command: the one given with its arguments, or else what the standard input
holds. -/
def chooseInput (given : Option String) (stdin : Stdin) : Except Error (Option String) :=
  match given, stdin with
  | some text, _ => .ok (some text)
  | none, .piped (some text) => .ok (some text)
  | none, .piped none => .error .encoding
  | none, .terminal => .ok none

section Run

variable [Regex.Engine] (codec : Json.Codec)

def Invocation.output (invocation : Invocation) (stdin : Stdin) : Except Error String := do
  let input ← chooseInput invocation.input? stdin
  match invocation with
  | find query _ flags pretty =>
    let records ← Command.find codec query input flags
    return String.join (records.map (line codec pretty))
  | flatten _ raw pretty =>
    let leaves ← Command.flatten codec input raw
    return line codec pretty leaves

/-- Runs the program on its arguments and its standard input. Arguments that ask for no command
have an outcome of their own. -/
def run (read : List String → Except Outcome Invocation) (arguments : List String)
    (stdin : Stdin) : Outcome :=
  match read arguments with
  | .error outcome => outcome
  | .ok invocation => outcome (invocation.output codec stdin)

end Run

end PathQuery.Command
