/-!
# Keys

A key is one step of a path: the name of a member or the position of an item.
Patterns compare keys by their text.
-/

namespace PathQuery

/-- One step of a path from the root of a document. -/
inductive Key
  /-- A member of an object. -/
  | name (name : String)
  /-- An item of an array. -/
  | index (position : Nat)
  deriving DecidableEq, Inhabited

namespace Key

/-- The text of a key: the name itself, or the position in decimal. -/
def text : Key → String
  | name s => s
  | index n => toString n

def index? : Key → Option Nat
  | name _ => none
  | index n => some n

end Key

end PathQuery
