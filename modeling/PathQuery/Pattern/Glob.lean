import PathQuery.Regex.Reader

/-!
# Wildcard text

Token text with wildcards, groups and bars, as lexemes of an expression. A run of
wildcards stands for its question marks before the first star, one character each,
and then for any text if it has a star.
-/

namespace PathQuery.Glob

open Regex

def isWildcard (c : Char) : Bool := c == '*' || c == '?'

/-- The lexemes of token text; `covered` tells that a star before it stands for the wildcards that
come next. -/
def lexemesFrom (covered : Bool) : List Char → List Lexeme
  | [] => []
  | ['\\'] => []
  | '\\' :: c :: rest => .char c :: lexemesFrom false rest
  | c :: rest =>
    if isWildcard c then
      if covered then lexemesFrom true rest
      else if c == '*' then
        [.groupStart, .anyRun, .groupEnd] ++ lexemesFrom true rest
      else [.groupStart, .anyOne, .groupEnd] ++ lexemesFrom false rest
    else
      let lexeme := match c with
        | '(' => .groupStart
        | ')' => .groupEnd
        | '|' => .bar
        | c => .char c
      lexeme :: lexemesFrom false rest

def lexemes (text : List Char) : List Lexeme := lexemesFrom false text

/-- Lexemes that match from the start of a text to its end. -/
def anchored (lexemes : List Lexeme) : List Lexeme :=
  [.textStart, .plainStart] ++ lexemes ++ [.groupEnd, .textEnd]

end PathQuery.Glob
