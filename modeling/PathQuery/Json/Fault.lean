/-!
# Faults of JSON text

What can be wrong with a JSON text, and where: a fault has an offset in bytes, which
is told as a line and a column.
-/

namespace PathQuery.Json

inductive Cause
  | endInValue
  | endInArray
  | endInObject
  | endInString
  | expectedColon
  | expectedArrayEnd
  | expectedObjectEnd
  | expectedValue
  | expectedWord
  | nameNotString
  | trailingComma
  | trailingText
  | badEscape
  | badNumber
  | numberTooLarge
  | loneSurrogate
  | endInEscape
  | controlCharacter
  | nestingTooDeep
  deriving DecidableEq

def Cause.message : Cause → String
  | endInValue => "EOF while parsing a value"
  | endInArray => "EOF while parsing a list"
  | endInObject => "EOF while parsing an object"
  | endInString => "EOF while parsing a string"
  | expectedColon => "expected `:`"
  | expectedArrayEnd => "expected `,` or `]`"
  | expectedObjectEnd => "expected `,` or `\x7d`"
  | expectedValue => "expected value"
  | expectedWord => "expected ident"
  | nameNotString => "key must be a string"
  | trailingComma => "trailing comma"
  | trailingText => "trailing characters"
  | badEscape => "invalid escape"
  | badNumber => "invalid number"
  | numberTooLarge => "number out of range"
  | loneSurrogate => "lone leading surrogate in hex escape"
  | endInEscape => "unexpected end of hex escape"
  | controlCharacter =>
    "control character (\\u0000-\\u001F) found while parsing a string"
  | nestingTooDeep => "recursion limit exceeded"

/-- What is wrong with a JSON text, and the number of bytes up to and with the place. -/
structure Fault where
  cause : Cause
  offset : Nat
  deriving DecidableEq

/-- The number of bytes of a text. -/
def byteSize (text : List Char) : Nat := text.foldr (fun c bytes => c.utf8Size + bytes) 0

/-- Advances a line and a column over the first bytes of a text. -/
def advance : (bytes line column : Nat) → List Char → Nat × Nat
  | 0, line, column, _ => (line, column)
  | _, line, column, [] => (line, column)
  | bytes, line, column, c :: rest =>
    if c == '\n' then advance (bytes - 1) (line + 1) 0 rest
    else advance (bytes - c.utf8Size) line (column + min bytes c.utf8Size) rest

/-- The message of a fault in a text. Lines count from one; the column is the number of bytes of
the line up to and with the place. -/
def Fault.message (fault : Fault) (text : List Char) : String :=
  let (line, column) := advance fault.offset 1 0 text
  fault.cause.message ++ " at line " ++ toString line ++ " column " ++ toString column

end PathQuery.Json
