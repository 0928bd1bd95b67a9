import PathQuery.Text.Blank

/-!
# Lexemes of expressions

Expressions are spelled with literal characters, brackets, the bar, the two
wildcards `.*` and `.?`, and the marks `\A` and `\z` of the ends of the text. Each
lexeme has one spelling (`Lexeme.spell`), and `Lexeme.read?` reads spellings back.
-/

namespace PathQuery.Regex

open Text

inductive Lexeme
  | char (c : Char)
  /-- Any run of characters, `.*`. -/
  | anyRun
  /-- At most one character, `.?`. -/
  | anyOne
  /-- The start of a group that captures, `(`. -/
  | groupStart
  /-- The start of a group that does not capture, `(?:`. -/
  | plainStart
  | groupEnd
  | bar
  /-- The start of the text, `\A`. -/
  | textStart
  /-- The end of the text, `\z`. -/
  | textEnd
  deriving DecidableEq

namespace Lexeme

/-- Whether a character has a meaning in expressions, so that it is written behind a backslash
where it stands for itself. -/
def isMeta (c : Char) : Bool :=
  ['\\', '.', '+', '*', '?', '(', ')', '|', '[', ']', '{', '}', '^', '$', '#', '&', '-',
    '~'].contains c

/-- The spelling of a literal character: blanks by their number, characters with a meaning behind
a backslash, all others as they are. -/
def spellChar (c : Char) : List Char :=
  if isBlank c then ['\\', 'x', '{'] ++ Nat.toDigits 16 c.toNat ++ ['}']
  else if isMeta c then ['\\', c]
  else [c]

def spell : Lexeme → List Char
  | char c => spellChar c
  | anyRun => ['.', '*']
  | anyOne => ['.', '?']
  | groupStart => ['(']
  | plainStart => ['(', '?', ':']
  | groupEnd => [')']
  | bar => ['|']
  | textStart => ['\\', 'A']
  | textEnd => ['\\', 'z']

def isChar : Lexeme → Bool
  | char _ => true
  | _ => false

def hexDigit? (c : Char) : Option Nat :=
  if '0' ≤ c && c ≤ '9' then some (c.toNat - '0'.toNat)
  else if 'a' ≤ c && c ≤ 'f' then some (c.toNat - 'a'.toNat + 10)
  else none

/-- Reads lexemes; inside the number of a character, its value so far is carried along. -/
def readFrom? : Option Nat → List Char → Option (List Lexeme)
  | some n, '}' :: rest => (readFrom? none rest).map (char (Char.ofNat n) :: ·)
  | some n, c :: rest => (hexDigit? c).bind fun d => readFrom? (some (16 * n + d)) rest
  | some _, [] => none
  | none, [] => some []
  | none, '\\' :: 'A' :: rest => (readFrom? none rest).map (textStart :: ·)
  | none, '\\' :: 'z' :: rest => (readFrom? none rest).map (textEnd :: ·)
  | none, '\\' :: 'x' :: '{' :: rest => readFrom? (some 0) rest
  | none, '\\' :: c :: rest => if isMeta c then (readFrom? none rest).map (char c :: ·) else none
  | none, '.' :: '*' :: rest => (readFrom? none rest).map (anyRun :: ·)
  | none, '.' :: '?' :: rest => (readFrom? none rest).map (anyOne :: ·)
  | none, '(' :: '?' :: ':' :: rest => (readFrom? none rest).map (plainStart :: ·)
  | none, '(' :: rest => (readFrom? none rest).map (groupStart :: ·)
  | none, ')' :: rest => (readFrom? none rest).map (groupEnd :: ·)
  | none, '|' :: rest => (readFrom? none rest).map (bar :: ·)
  | none, c :: rest => if isMeta c then none else (readFrom? none rest).map (char c :: ·)

/-- Reads the spelling of lexemes; `none` if the text spells none of this kind. -/
def read? (text : List Char) : Option (List Lexeme) := readFrom? none text

end Lexeme

end PathQuery.Regex
