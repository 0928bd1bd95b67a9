import PathQuery.Path.Split
import PathQuery.Pattern.Compile

/-!
# Segments

A path is a list of segments: a key, a value, and whether the whole subtree is
searched. The marks `.`, `..` and `**` count only where they are the whole text of
a segment or its key.
-/

namespace PathQuery

structure Segment where
  /-- The key; absent if any key will do. -/
  key : Option Token
  /-- The value; absent if any value will do. -/
  value : Option Token
  /-- Whether the whole subtree is searched. -/
  recursive : Bool
  last : Bool := false

namespace Segment

def textToken (text : List Char) : Token := .text (String.ofList text)

/-- The token that accepts every key, as text. -/
def star : Token := textToken ['*']

/-- The segments of the texts of a path; `pending` tells that a `**` before them still waits for
its segment. A `**` that waits at the end searches for everything. -/
def ofTexts (pending : Bool) : List (List Char) → List Segment
  | [] =>
    if pending then [{ key := some (.pattern .any), value := none, recursive := true }] else []
  | [] :: rest => ofTexts pending rest
  | ['.'] :: rest => ofTexts pending rest
  | ['*', '*'] :: rest => ofTexts true rest
  | text :: rest =>
    let (key, value) := Path.splitValue text
    let value := (value.filter (· ≠ [])).map textToken
    match key with
    | ['.', '.'] =>
      if !pending then { key := some .parent, value, recursive := false } :: ofTexts false rest
      else if value.isNone then ofTexts true rest
      else { key := some star, value, recursive := true } :: ofTexts false rest
    | ['*', '*'] => { key := some star, value, recursive := true } :: ofTexts false rest
    | [] => { key := none, value, recursive := pending } :: ofTexts false rest
    | _ => { key := some (textToken key), value, recursive := pending } :: ofTexts false rest

/-- Marks the last of the segments of a path. -/
def markLast : List Segment → List Segment
  | [] => []
  | [segment] => [{ segment with last := true }]
  | segment :: rest => segment :: markLast rest

def ofPath (path : List Char) : List Segment :=
  markLast (ofTexts false (Path.segmentTexts path))

end Segment

end PathQuery
