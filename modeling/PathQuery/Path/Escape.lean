/-!
# Escapes

In path text a backslash takes the meaning from the character after it. `escape`
writes text without meaning, and `unescape` drops the backslashes again.
-/

namespace PathQuery.Path

/-- Whether a character has a meaning in path text. -/
def isSpecial (c : Char) : Bool :=
  ['\\', '/', '.', '*', '?', '(', ')', '|', '=', ','].contains c

/-- Puts a backslash before every character with a meaning. -/
def escape : List Char → List Char
  | [] => []
  | c :: rest => if isSpecial c then '\\' :: c :: escape rest else c :: escape rest

/-- Drops every backslash that takes a meaning away, and one that ends the text. -/
def unescape : List Char → List Char
  | [] => []
  | ['\\'] => []
  | '\\' :: c :: rest => c :: unescape rest
  | c :: rest => c :: unescape rest

/-- Unescaping undoes escaping. -/
theorem unescape_escape (text : List Char) : unescape (escape text) = text := by
  induction text with
  | nil => rfl
  | cons c rest ih =>
    by_cases h : isSpecial c
    · simp [escape, h, unescape, ih]
    · have hc : c ≠ '\\' := fun e => h (e ▸ rfl)
      rw [escape, if_neg h, unescape, ih]
      · intro h' _; exact hc h'
      · intro _ _ h' _; exact hc h'

/-- A name written so that path text reads it as plain text. -/
def escapeName (name : String) : String := String.ofList (escape name.toList)

end PathQuery.Path
