import PathQuery.Path.Escape
import PathQuery.Pattern.Basic
import PathQuery.Pattern.Glob
import PathQuery.Regex.Engine

/-!
# Compiling tokens

A token of a query becomes a pattern. Text that is not a range of numbers and has
no wildcards, groups or bars is literal unless the query has flags; all other text
is an expression that matches from the start of a text to its end. Only brackets
that do not pair up, or nest too deeply, are an error, and expressions that are too
large for their engine.
-/

namespace PathQuery

inductive Token
  /-- Text with its escapes. -/
  | text (text : String)
  /-- A key that is compared as it is. -/
  | atom (key : Key)
  /-- A pattern that is used as it is. -/
  | pattern (pattern : Pattern)
  | parent

/-- The error of a token that compiles to no pattern: its text, the source of the expression that it
stands for, and why that does not compile. -/
structure CompileError where
  token : String
  spelling : String
  refusal : Regex.Refusal
  deriving DecidableEq

def CompileError.message (error : CompileError) : String :=
  "Invalid pattern '" ++ error.token ++ "': " ++ error.refusal.message error.spelling

/-- How expressions compare characters under flags. -/
def Flags.mode (flags : Flags) : Regex.Mode := ⟨flags.ignoreCase, flags.multiline⟩

namespace Pattern

variable [Regex.Engine]

/-- Compiles the lexemes of a token to an expression for whole texts, if there is room for it. -/
def ofLexemes (token : String) (lexemes : List Regex.Lexeme) (flags : Flags) :
    Except CompileError Pattern :=
  let source := String.ofList (Regex.spellAll lexemes)
  match Regex.ofLexemes lexemes with
  | .ok e =>
    if Regex.Engine.Fits source flags then
      .ok (regex (e.compiled flags.mode) flags)
    else .error ⟨token, source, .tooLarge Regex.Engine.sizeLimit⟩
  | .error fault => .error ⟨token, source, .malformed fault⟩

/-- Compiles the text of a token. -/
def ofText (token : String) (flags : Option Flags) : Except CompileError Pattern :=
  let text := token.toList
  let plain := Path.unescape text
  if text.all Glob.isWildcard then .ok any
  else
    match Range.read? plain with
    | some r => .ok (if text.contains '\\' then literal (String.ofList plain) else range r)
    | none =>
      let lexemes := Glob.lexemes text
      if lexemes.all Regex.Lexeme.isChar && flags.isNone then .ok (literal (String.ofList plain))
      else ofLexemes token (Glob.anchored lexemes) (flags.getD .empty)

/-- Compiles a token. An absent token accepts everything. -/
def ofToken (token : Option Token) (flags : Option Flags) : Except CompileError Pattern :=
  match token with
  | none => .ok any
  | some (.text s) => ofText s flags
  | some (.atom key) => .ok (exact key)
  | some (.pattern p) => .ok p
  | some .parent => .ok parent

end Pattern

end PathQuery
