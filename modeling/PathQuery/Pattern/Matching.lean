import PathQuery.Pattern.Basic
import PathQuery.Tree

/-!
# Matching patterns

Patterns are tested against keys, leaves, objects and arrays, and other patterns.
A test that succeeds gives the texts captured. A pattern accepts another pattern
only if both accept the same text or are the same.
-/

namespace PathQuery

open Number

inductive Subject
  | key (key : Key)
  | leaf (scalar : Scalar)
  /-- An object or an array. -/
  | composite
  | pattern (pattern : Pattern)

namespace Subject

def ofNode {α : Type} [Tree α] (node : α) : Subject :=
  match Tree.scalar? node with
  | some scalar => leaf scalar
  | none => composite

/-- The text of a key or a leaf. -/
def text? : Subject → Option String
  | key k => some k.text
  | leaf scalar => some scalar.text
  | _ => none

/-- The number that a key or a leaf is. -/
def number? : Subject → Option Double
  | key (.index i) => some (.ofInt i)
  | leaf (.integer n) => some (.ofInt n.toInt)
  | leaf (.unsigned n) => some (.ofInt n.toNat)
  | leaf (.float x) => some x
  | _ => none

end Subject

namespace Pattern

def accepts (p other : Pattern) : Bool :=
  match p, other with
  | any, _ => true
  | literal a, literal b => a == b
  | literal a, exact b => a == b.text
  | exact a, literal b => a.text == b
  | exact a, exact b => a.text == b.text
  | literal _, _ => false
  | exact _, _ => false
  | _, _ => p.same other

/-- No captures if the condition holds, else no match. -/
def accepted (condition : Bool) : Option (List String) := if condition then some [] else none

/-- Tests a subject against a pattern and gives the captures. -/
def captures? (p : Pattern) (subject : Subject) : Option (List String) :=
  match subject with
  | .pattern other => accepted (p.accepts other)
  | _ =>
    match p with
    | any => some []
    | parent => none
    | literal s => accepted (subject.text? == some s)
    | exact key => accepted (subject.text? == some key.text)
    | regex e _ => subject.text?.bind fun s => (e.captures? s.toList).map (·.map String.ofList)
    | range r => subject.number?.bind fun x => accepted (r.contains x)

end Pattern

end PathQuery
