import PathQuery.Json.Basic

/-!
# Writing JSON text

Values are written in one line without spaces (`compact`) or with one item or member
to a line (`pretty`). Strings are escaped no more than they have to be.
-/

namespace PathQuery.Json

open Number

/-- Doubles in JSON text: written out from `10^-5` up to `10^16`, always a sign on the exponent,
and of two equally near candidates the even one. -/
def layout : Layout := ⟨false, -5, 15, true⟩

/-- A character of a string as it is written: quotes, backslashes and control characters behind a
backslash. -/
def spellChar (c : Char) : List Char :=
  match c with
  | '"' => ['\\', '"']
  | '\\' => ['\\', '\\']
  | '\x08' => ['\\', 'b']
  | '\x0c' => ['\\', 'f']
  | '\n' => ['\\', 'n']
  | '\r' => ['\\', 'r']
  | '\t' => ['\\', 't']
  | c =>
    if c < ' ' then
      ['\\', 'u', '0', '0', Nat.digitChar (c.toNat / 16), Nat.digitChar (c.toNat % 16)]
    else [c]

def spellString (s : String) : String :=
  "\"" ++ String.ofList (s.toList.flatMap spellChar) ++ "\""

/-- A leaf as it is written. Doubles that are no numbers have no text of their own. -/
def spellLeaf : Json → String
  | bool true => "true"
  | bool false => "false"
  | integer n => toString n.toInt
  | unsigned n => toString n.toNat
  | float x => if x.isFinite then layout.write x else "null"
  | string s => spellString s
  | _ => "null"

mutual

/-- A value in one line. -/
def compact : Json → String
  | array items => "[" ++ ",".intercalate (compactItems items) ++ "]"
  | object members => "\x7b" ++ ",".intercalate (compactMembers members) ++ "\x7d"
  | leaf => spellLeaf leaf
termination_by structural value => value

def compactItems : List Json → List String
  | [] => []
  | item :: rest => compact item :: compactItems rest
termination_by structural items => items

def compactMembers : List (String × Json) → List String
  | [] => []
  | (name, value) :: rest => (spellString name ++ ":" ++ compact value) :: compactMembers rest
termination_by structural members => members

end

/-- Lines between brackets, or the brackets alone. -/
def block (indent opening closing : String) (lines : List String) : String :=
  match lines with
  | [] => opening ++ closing
  | _ => opening ++ "\n" ++ ",\n".intercalate lines ++ "\n" ++ indent ++ closing

mutual

/-- A value with one item or member to a line, each two spaces further in than the brackets
around it. -/
def prettyFrom (indent : String) : Json → String
  | array items => block indent "[" "]" (prettyItems (indent ++ "  ") items)
  | object members => block indent "\x7b" "\x7d" (prettyMembers (indent ++ "  ") members)
  | leaf => spellLeaf leaf
termination_by structural value => value

def prettyItems (indent : String) : List Json → List String
  | [] => []
  | item :: rest => (indent ++ prettyFrom indent item) :: prettyItems indent rest
termination_by structural items => items

def prettyMembers (indent : String) : List (String × Json) → List String
  | [] => []
  | (name, value) :: rest =>
    (indent ++ spellString name ++ ": " ++ prettyFrom indent value) :: prettyMembers indent rest
termination_by structural members => members

end

def pretty (value : Json) : String := prettyFrom "" value

end PathQuery.Json
