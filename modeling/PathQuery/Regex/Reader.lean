import PathQuery.Regex.Basic

/-!
# Reading expressions

Lexemes are put together from left to right, with one level for each group that is
still open. A bracket without its partner is a fault, and so is an expression that
nests too deeply; a fault says where in the spelling it lies.
-/

namespace PathQuery.Regex

/-! ## Faults -/

/-- What is wrong with an expression. -/
inductive Cause
  | unopened
  | unclosed
  | nesting (limit : Nat)
  deriving DecidableEq

/-- What is wrong with an expression, and the part of its spelling that shows it, counted in
characters. -/
structure Fault where
  cause : Cause
  start : Nat
  stop : Nat
  deriving DecidableEq

def Cause.message : Cause → String
  | unopened => "unopened group"
  | unclosed => "unclosed group"
  | nesting limit =>
    "exceed the maximum number of nested parentheses/brackets (" ++ toString limit ++ ")"

/-- The message of a fault: the spelling with the part in question underlined, and the cause. -/
def Fault.message (fault : Fault) (spelling : String) : String :=
  let underline := String.ofList
    (List.replicate fault.start ' ' ++ List.replicate (fault.stop - fault.start) '^')
  "regex parse error:\n    " ++ spelling ++ "\n    " ++ underline ++ "\nerror: " ++
    fault.cause.message

/-! ## Putting lexemes together -/

/-- The part of an expression read on one level: the finished alternatives and the items of the
one that is being read, each with the last first. -/
structure Level where
  alternatives : List Regex := []
  items : List Regex := []

namespace Level

def push (level : Level) (e : Regex) : Level := { level with items := e :: level.items }

def next (level : Level) : Level := ⟨sequence level.items.reverse :: level.alternatives, []⟩

def finish (level : Level) : Regex := alternation level.next.alternatives.reverse

end Level

/-- A group that is still open: whether it captures, where its bracket stands, and the level
around it. -/
structure OpenGroup where
  captures : Bool
  position : Nat
  outer : Level

def OpenGroup.close (opened : OpenGroup) (body : Regex) : Level :=
  opened.outer.push (if opened.captures then group body else plainGroup body)

/-- Puts lexemes together, with the position of the first of them, the level they are read on,
and the groups around it, the innermost first. -/
def assemble : List Lexeme → Nat → Level → List OpenGroup → Except Fault Regex
  | [], _, level, [] => .ok level.finish
  | [], _, _, opened :: _ => .error ⟨.unclosed, opened.position, opened.position + 1⟩
  | lexeme :: rest, position, level, outer =>
    let after := position + lexeme.spell.length
    match lexeme with
    | .groupStart => assemble rest after {} (⟨true, position, level⟩ :: outer)
    | .plainStart => assemble rest after {} (⟨false, position, level⟩ :: outer)
    | .groupEnd =>
      match outer with
      | [] => .error ⟨.unopened, position, after⟩
      | opened :: outer => assemble rest after (opened.close level.finish) outer
    | .bar => assemble rest after level.next outer
    | .char c => assemble rest after (level.push (char c)) outer
    | .anyRun => assemble rest after (level.push anyRun) outer
    | .anyOne => assemble rest after (level.push anyOne) outer
    | .textStart => assemble rest after (level.push textStart) outer
    | .textEnd => assemble rest after (level.push textEnd) outer

/-! ## Nesting -/

/-- The sequence or alternation that a part continues. -/
inductive Spine
  | none
  | cat
  | alt
  deriving DecidableEq

def nestingLimit : Nat := 250

/-- Whether an expression nests its parts: groups, wildcards, and sequences and alternations where
they begin. -/
def nests : Regex → Spine → Bool
  | cat _ _, spine => spine ≠ .cat
  | alt _ _, spine => spine ≠ .alt
  | group _, _ => true
  | plainGroup _, _ => true
  | anyRun, _ => true
  | anyOne, _ => true
  | _, _ => false

/-- Looks for the first expression, each before its parts, that nests too deeply, given the depth
around it and its position. Gives the position after the expression if there is none. -/
def checkNesting (e : Regex) (spine : Spine) (depth position : Nat) : Except Fault Nat :=
  let depth := if e.nests spine then depth + 1 else depth
  if nestingLimit < depth then
    .error ⟨.nesting nestingLimit, position, position + e.spell.length⟩
  else
    match e with
    | cat a b => do
      let position ← checkNesting a .none depth position
      checkNesting b .cat depth position
    | alt a b => do
      let position ← checkNesting a .none depth position
      checkNesting b .alt depth (position + Lexeme.bar.spell.length)
    | group body => do
      let position ← checkNesting body .none depth (position + Lexeme.groupStart.spell.length)
      return position + Lexeme.groupEnd.spell.length
    | plainGroup body => do
      let position ← checkNesting body .none depth (position + Lexeme.plainStart.spell.length)
      return position + Lexeme.groupEnd.spell.length
    | leaf => return position + leaf.spell.length

def ofLexemes (lexemes : List Lexeme) : Except Fault Regex := do
  let e ← assemble lexemes 0 {} []
  let _ ← checkNesting e .none 0 0
  .ok e

def spellAll (lexemes : List Lexeme) : List Char := lexemes.flatMap Lexeme.spell

end PathQuery.Regex
