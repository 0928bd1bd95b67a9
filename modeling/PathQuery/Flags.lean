/-!
# Match flags

Letters after a query change how its expressions match: `i` ignores case, `x` is
accepted for expressions laid out with blanks and comments, and `m` lets wildcards
cover line ends.
-/

namespace PathQuery

/-- A set of match flags. -/
structure Flags where
  /-- Letters match up to case. -/
  ignoreCase : Bool := false
  /-- Blanks and comments in expressions are layout. -/
  extended : Bool := false
  /-- Wildcards cover line ends. -/
  multiline : Bool := false
  deriving DecidableEq, Inhabited

namespace Flags

def empty : Flags := {}

def union (a b : Flags) : Flags :=
  ⟨a.ignoreCase || b.ignoreCase, a.extended || b.extended, a.multiline || b.multiline⟩

def isEmpty (flags : Flags) : Bool := flags = empty

/-- The set that a letter stands for. -/
def ofLetter? : Char → Option Flags
  | 'i' => some { ignoreCase := true }
  | 'x' => some { extended := true }
  | 'm' => some { multiline := true }
  | _ => none

def isLetter (c : Char) : Bool := (ofLetter? c).isSome

/-- Adds the flags that letters stand for, up to the first character that stands for none,
which is the error. -/
def addLetters (flags : Flags) : List Char → Except Char Flags
  | [] => .ok flags
  | c :: rest =>
    match ofLetter? c with
    | some flag => addLetters (flags.union flag) rest
    | none => .error c

/-- The letters of a set in alphabetical order. -/
def letters (flags : Flags) : List Char :=
  (if flags.ignoreCase then ['i'] else []) ++ (if flags.multiline then ['m'] else []) ++
    (if flags.extended then ['x'] else [])

/-- The set as a number: one bit a flag, in the order `i`, `x`, `m`. -/
def bits (flags : Flags) : Nat :=
  flags.ignoreCase.toNat + 2 * flags.extended.toNat + 4 * flags.multiline.toNat

end Flags

end PathQuery
