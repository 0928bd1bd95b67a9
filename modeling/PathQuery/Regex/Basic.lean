import PathQuery.Regex.Lexeme

/-!
# Expressions

The structure of an expression. Sequences and alternations are binary and nest to
the right, and `Regex.spell` writes the text from which the structure is read.
-/

namespace PathQuery

inductive Regex
  | empty
  | textStart
  | textEnd
  | char (c : Char)
  | anyRun
  | anyOne
  | cat (first second : Regex)
  | alt (first second : Regex)
  /-- A group whose text is captured. -/
  | group (body : Regex)
  /-- A group that only holds an expression together. -/
  | plainGroup (body : Regex)
  deriving DecidableEq, Inhabited

namespace Regex

/-- The number of groups whose text is captured. -/
def groups : Regex → Nat
  | cat a b => groups a + groups b
  | alt a b => groups a + groups b
  | group e => groups e + 1
  | plainGroup e => groups e
  | _ => 0

def spell : Regex → List Char
  | empty => []
  | textStart => Lexeme.textStart.spell
  | textEnd => Lexeme.textEnd.spell
  | char c => Lexeme.spellChar c
  | anyRun => Lexeme.anyRun.spell
  | anyOne => Lexeme.anyOne.spell
  | cat a b => spell a ++ spell b
  | alt a b => spell a ++ Lexeme.bar.spell ++ spell b
  | group e => Lexeme.groupStart.spell ++ spell e ++ Lexeme.groupEnd.spell
  | plainGroup e => Lexeme.plainStart.spell ++ spell e ++ Lexeme.groupEnd.spell

def source (e : Regex) : String := String.ofList e.spell

def sequence : List Regex → Regex
  | [] => empty
  | [e] => e
  | e :: rest => cat e (sequence rest)

def alternation : List Regex → Regex
  | [] => empty
  | [e] => e
  | e :: rest => alt e (alternation rest)

end Regex

end PathQuery
