import PathQuery.Json.Lexeme
import PathQuery.Ordered

/-!
# Reading JSON text

Lexemes are put together from left to right, with one frame for each array or object
that is still open. The first lexeme that cannot stand where it is gives the fault.
A name that comes again in an object keeps its place and takes the later value.
-/

namespace PathQuery.Json

/-- An array or object that a value is read for. -/
inductive Frame
  /-- The items before it, the last first. -/
  | items (done : List Json)
  /-- The members before it, and its name. -/
  | members (done : List (String × Json)) (name : String)

/-- What is expected next, in the frames around. -/
inductive Expected
  | value (outer : List Frame)
  | firstItem (outer : List Frame)
  /-- An item behind a comma. -/
  | item (done : List Json) (outer : List Frame)
  | afterItem (done : List Json) (outer : List Frame)
  | firstName (outer : List Frame)
  /-- A name behind a comma. -/
  | name (done : List (String × Json)) (outer : List Frame)
  | colon (name : String) (done : List (String × Json)) (outer : List Frame)
  | afterMember (done : List (String × Json)) (outer : List Frame)
  | finish (value : Json)

namespace Expected

def deliver (json : Json) : List Frame → Expected
  | [] => finish json
  | .items done :: outer => afterItem (json :: done) outer
  | .members done key :: outer => afterMember (Ordered.put key json done) outer

/-- Reads the lexeme at the start of a value. The `limit`-th array or object inside one another is
a fault. -/
def startValue (limit offset : Nat) (outer : List Frame) : Lexeme → Except Fault Expected
  | .leaf json => .ok (deliver json outer)
  | .string text => .ok (deliver (.string text) outer)
  | .badLeaf fault => .error fault
  | .badString fault => .error fault
  | .arrayStart =>
    if outer.length + 1 < limit then .ok (firstItem outer) else .error ⟨.nestingTooDeep, offset + 1⟩
  | .objectStart =>
    if outer.length + 1 < limit then .ok (firstName outer) else .error ⟨.nestingTooDeep, offset + 1⟩
  | _ => .error ⟨.expectedValue, offset + 1⟩

def startName (offset : Nat) (done : List (String × Json)) (outer : List Frame) :
    Lexeme → Except Fault Expected
  | .string text => .ok (colon text done outer)
  | .badString fault => .error fault
  | _ => .error ⟨.nameNotString, offset + 1⟩

def next (limit offset : Nat) : Expected → Lexeme → Except Fault Expected
  | value outer, l => startValue limit offset outer l
  | firstItem outer, .arrayEnd => .ok (deliver (.array []) outer)
  | firstItem outer, l => startValue limit offset (.items [] :: outer) l
  | item _ _, .arrayEnd => .error ⟨.trailingComma, offset + 1⟩
  | item done outer, l => startValue limit offset (.items done :: outer) l
  | afterItem done outer, .comma => .ok (item done outer)
  | afterItem done outer, .arrayEnd => .ok (deliver (.array done.reverse) outer)
  | afterItem _ _, _ => .error ⟨.expectedArrayEnd, offset + 1⟩
  | firstName outer, .objectEnd => .ok (deliver (.object []) outer)
  | firstName outer, l => startName offset [] outer l
  | name _ _, .objectEnd => .error ⟨.trailingComma, offset + 1⟩
  | name done outer, l => startName offset done outer l
  | colon text done outer, .colon => .ok (value (.members done text :: outer))
  | colon _ _ _, _ => .error ⟨.expectedColon, offset + 1⟩
  | afterMember done outer, .comma => .ok (name done outer)
  | afterMember done outer, .objectEnd => .ok (deliver (.object done) outer)
  | afterMember _ _, _ => .error ⟨.expectedObjectEnd, offset + 1⟩
  | finish _, _ => .error ⟨.trailingText, offset + 1⟩

/-- What a text is that ends here. -/
def close (size : Nat) : Expected → Except Fault Json
  | value _ => .error ⟨.endInValue, size⟩
  | firstItem _ => .error ⟨.endInArray, size⟩
  | item _ _ => .error ⟨.endInValue, size⟩
  | afterItem _ _ => .error ⟨.endInArray, size⟩
  | firstName _ => .error ⟨.endInObject, size⟩
  | name _ _ => .error ⟨.endInValue, size⟩
  | colon _ _ _ => .error ⟨.endInObject, size⟩
  | afterMember _ _ => .error ⟨.endInObject, size⟩
  | finish json => .ok json

end Expected

def assemble (limit size : Nat) : List (Nat × Lexeme) → Expected → Except Fault Json
  | [], expected => expected.close size
  | (offset, l) :: rest, expected =>
    match expected.next limit offset l with
    | .ok expected => assemble limit size rest expected
    | .error fault => .error fault

/-- The number of arrays and objects inside one another at which reading stops. -/
def nestingLimit : Nat := 128

/-- The value that a text spells, where arrays and objects nest less than `limit` deep. -/
def read (limit : Nat) (text : List Char) : Except Fault Json :=
  assemble limit (byteSize text) (lexemes text) (.value [])

end PathQuery.Json
