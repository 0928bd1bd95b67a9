import PathQuery.Flatten
import PathQuery.Json.Codec
import PathQuery.Query

/-!
# Commands

What the two commands compute from their texts: `find` runs a query on a JSON text,
and `flatten` lists the leaves of one.
-/

namespace PathQuery.Command

inductive Error
  /-- The query does not compile. -/
  | query (error : CompileError)
  /-- The input is no JSON text. -/
  | json (fault : String)
  /-- The input is no text. -/
  | encoding
  | noInput
  /-- A letter that stands for no flag. -/
  | unknownFlag (letter : Char)

def Error.message : Error → String
  | query error => "Query error: " ++ error.message
  | json fault => "Invalid JSON: " ++ fault
  | encoding => "IO error: stream did not contain valid UTF-8"
  | noInput => "No input provided. Use --input or pipe JSON to stdin."
  | unknownFlag letter =>
    "Unknown regex flag: '" ++ letter.toString ++ "' (expected any of i, m, x)"

def readFlags (letters : String) : Except Error Flags :=
  (Flags.empty.addLetters letters.toList).mapError .unknownFlag

def readInput (codec : Json.Codec) (input : Option String) : Except Error Json :=
  match input with
  | none => .error .noInput
  | some text => (codec.read text).mapError .json

/-- An answer as a JSON object. Its value is looked up in the node that holds it. -/
def record (answer : Answer Json) : Json :=
  .object [
    ("path", .ofPath answer.location.path),
    ("value", (Tree.child? answer.holder answer.key).getD .null),
    ("captures", .array (answer.location.captures.map .string)),
    ("splats", .array (answer.location.splats.map fun splat => .ofPath splat.path))]

/-- The answers of a query on a document, one record each. The flags are read first, then the
query, then the input. -/
def find [Regex.Engine] (codec : Json.Codec) (query : String) (input flags : Option String) :
    Except Error (List Json) := do
  let flags ← flags.mapM readFlags
  let query ← (Query.compile query flags).mapError .query
  let document ← readInput codec input
  let records := (query.findEach document (fun done answer => done.push (record answer)) #[]).1
  return records.toList

/-- The leaves of a document under the texts of their paths; `raw` leaves special characters
unescaped. -/
def flatten (codec : Json.Codec) (input : Option String) (raw : Bool) : Except Error Json := do
  let document ← readInput codec input
  return .object ((PathQuery.flatten document !raw).map fun (text, _, leaf) => (text, leaf))

end PathQuery.Command
