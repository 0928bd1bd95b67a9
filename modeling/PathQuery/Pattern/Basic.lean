import PathQuery.Flags
import PathQuery.Key
import PathQuery.Pattern.Range
import PathQuery.Regex.Expression

/-!
# Patterns

What a token of a query stands for once it is compiled, its text, and when two
patterns are the same.
-/

namespace PathQuery

inductive Pattern
  /-- Accepts everything. -/
  | any
  /-- Accepts one text. -/
  | literal (text : String)
  /-- Accepts the texts that an expression matches, which it captures parts of; written with the
  flags of its query. -/
  | regex (expression : Expression) (flags : Flags)
  /-- Accepts the numbers in a range. -/
  | range (range : Range)
  /-- The step to the parent, which accepts nothing itself. -/
  | parent
  /-- Accepts the text of one key. -/
  | exact (key : Key)

namespace Pattern

def isAny : Pattern → Bool
  | any => true
  | _ => false

def isParent : Pattern → Bool
  | parent => true
  | _ => false

/-- The number of texts that the pattern captures. -/
def captureCount : Pattern → Nat
  | regex e _ => e.groups
  | _ => 0

def text : Pattern → String
  | any => "*"
  | literal s => s
  | regex e flags => "/" ++ e.source ++ "/" ++ String.ofList flags.letters
  | range r => r.text
  | parent => ".."
  | exact key => key.text

/-- Whether two patterns are the same. Expressions are compared as they are written. -/
def same : Pattern → Pattern → Bool
  | any, any => true
  | literal a, literal b => a == b
  | regex a flags, regex b flags' => a.source == b.source && flags == flags'
  | range a, range b => a.same b
  | parent, parent => true
  | exact a, exact b => a == b
  | _, _ => false

end Pattern

end PathQuery
