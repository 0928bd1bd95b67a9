import PathQuery.Proofs.Regex.Groups

/-!
# Compiled expressions

What patterns use of an expression that an engine has compiled: its source, its groups, and the
match that it finds in a text. The expressions that tokens compile to are of this kind
(`Regex.compiled`), but a pattern can hold any other as well.
-/

namespace PathQuery

/-- A compiled expression, of which only what it does is known. -/
structure Expression where
  source : String
  /-- The number of groups whose text is captured. -/
  groups : Nat
  /-- The first match in a text. -/
  search? : List Char → Option Regex.Found
  /-- A match has a cell for each group, whether or not the group took part. -/
  length_captured : ∀ {text : List Char} {found : Regex.Found},
    search? text = some found → found.captured.length = groups

namespace Expression

/-- What the groups captured in the first match. -/
def captures? (e : Expression) (text : List Char) : Option (List (List Char)) :=
  (e.search? text).map fun found => Regex.texts text found.captured

theorem length_of_captures? {e : Expression} {text : List Char} {texts : List (List Char)}
    (h : e.captures? text = some texts) : texts.length = e.groups := by
  obtain ⟨found, hfound, rfl⟩ := Option.map_eq_some_iff.1 h
  rw [Regex.texts, List.length_map]
  exact e.length_captured hfound

end Expression

namespace Regex

/-- An expression with the way in which it compares characters. -/
def compiled (e : Regex) (mode : Mode) : Expression where
  source := e.source
  groups := e.groups
  search? := e.search? mode
  length_captured := length_of_search?

theorem captures?_compiled (e : Regex) (mode : Mode) (text : List Char) :
    (e.compiled mode).captures? text = e.captures? mode text := rfl

end Regex

end PathQuery
