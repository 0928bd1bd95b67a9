import PathQuery.Regex.Basic
import PathQuery.Text.CaseFold

/-!
# Matching expressions

A match is found in the order of a reader who tries alternatives from left to
right and lets wildcards take as much as they can. The search never looks at a
place twice: for every place of the text, `outcomes` finds the first way in which
the expression and what follows it succeed from there, given the same for what
follows. Tables of places have one cell for each character and one for the end.
-/

namespace PathQuery.Regex

open Text

/-- How characters are compared. -/
structure Mode where
  ignoreCase : Bool := false
  dotAll : Bool := false
  deriving DecidableEq, Inhabited

namespace Mode

/-- The character that stands for `c` and all that match it. -/
def canon (mode : Mode) (c : Char) : Char := if mode.ignoreCase then foldCase c else c

/-- Whether a wildcard covers `c`. -/
def covers (mode : Mode) (c : Char) : Bool := mode.dotAll || c != '\n'

end Mode

/-- A part of a text, counted in characters. -/
structure Span where
  start : Nat
  stop : Nat
  deriving DecidableEq

def Span.slice (span : Span) (text : List Char) : List Char :=
  (text.drop span.start).take (span.stop - span.start)

/-! ## Tables of places -/

section Tables

variable {β : Type}

/-- The cell of the first place. -/
def here : List (Option β) → Option β
  | [] => none
  | cell :: _ => cell

/-- One character that satisfies `p`, then what the table says. -/
def stepOver (p : Char → Bool) : List Char → List (Option β) → List (Option β)
  | c :: text, _ :: rest => (if p c then here rest else none) :: stepOver p text rest
  | _, _ => [none]

/-- At most one character that satisfies `p`, one if possible, then what the table says. -/
def stepOverOptional (p : Char → Bool) : List Char → List (Option β) → List (Option β)
  | c :: text, cell :: rest =>
    (if p c then (here rest).or cell else cell) :: stepOverOptional p text rest
  | _, table => table

/-- Characters that satisfy `p`, as many as possible, then what the table says. -/
def runOver (p : Char → Bool) : List Char → List (Option β) → List (Option β)
  | c :: text, cell :: rest =>
    let after := runOver p text rest
    (if p c then (here after).or cell else cell) :: after
  | _, table => table

/-- Only the first place, then what the table says. -/
def onlyFirst : List (Option β) → List (Option β)
  | [] => []
  | cell :: rest => cell :: rest.map fun _ => none

/-- Only the last place, then what the table says. -/
def onlyLast : List (Option β) → List (Option β)
  | [] => []
  | [cell] => [cell]
  | _ :: rest => none :: onlyLast rest

end Tables

/-! ## Outcomes -/

/-- What the groups of an expression captured; nothing for a group that took no part. -/
abbrev Captured := List (Option Span)

/-- The captures of an expression that took no part. -/
def unused (e : Regex) : Captured := List.replicate e.groups none

/-- For every place the first way in which the expression and what follows it succeed: what its
groups captured, and what the table of what follows says at the place where it ends. -/
def outcomes (mode : Mode) (text : List Char) :
    Regex → (β : Type) → List (Option β) → List (Option (Captured × β))
  | empty, _, table => table.map (·.map ([], ·))
  | textStart, _, table => (onlyFirst table).map (·.map ([], ·))
  | textEnd, _, table => (onlyLast table).map (·.map ([], ·))
  | char c, _, table =>
    let c := mode.canon c
    (stepOver (· == c) text table).map (·.map ([], ·))
  | anyRun, _, table => (runOver mode.covers text table).map (·.map ([], ·))
  | anyOne, _, table => (stepOverOptional mode.covers text table).map (·.map ([], ·))
  | cat a b, β, table =>
    (outcomes mode text a (Captured × β) (outcomes mode text b β table)).map
      (·.map fun (first, second, x) => (first ++ second, x))
  | alt a b, β, table =>
    List.zipWith Option.or
      ((outcomes mode text a β table).map (·.map fun (captured, x) => (captured ++ unused b, x)))
      ((outcomes mode text b β table).map (·.map fun (captured, x) => (unused a ++ captured, x)))
  | group e, β, table =>
    let ends := table.zipIdx.map fun (cell, stop) => cell.map (stop, ·)
    (outcomes mode text e (Nat × β) ends).zipIdx.map fun (cell, start) =>
      cell.map fun (captured, stop, x) => (some ⟨start, stop⟩ :: captured, x)
  | plainGroup e, β, table => outcomes mode text e β table

/-- A match: the part of the text that the expression covers and what its groups captured. -/
structure Found where
  whole : Span
  captured : Captured
  deriving DecidableEq

/-- The first match in a text: the one that starts first, and of those the one that is tried
first. -/
def search? (e : Regex) (mode : Mode) (text : List Char) : Option Found :=
  let places := (List.range (text.length + 1)).map some
  (outcomes mode (text.map mode.canon) e Nat places).zipIdx.findSome? fun (cell, start) =>
    cell.map fun (captured, stop) => ⟨⟨start, stop⟩, captured⟩

/-- What groups captured of a text, with empty text for a group that took no part. -/
def texts (text : List Char) (captured : Captured) : List (List Char) :=
  captured.map fun
    | some span => span.slice text
    | none => []

/-- What the groups captured in the first match. -/
def captures? (e : Regex) (mode : Mode) (text : List Char) : Option (List (List Char)) :=
  (search? e mode text).map fun found => texts text found.captured

end PathQuery.Regex
