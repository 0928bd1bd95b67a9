import PathQuery.Flags
import PathQuery.Regex.Reader

/-!
# Engines

An engine compiles the source of an expression, if it can be read and is not too large for the
engine. What an expression takes up is the engine's own affair, so it is left open (`Engine`).
-/

namespace PathQuery.Regex

/-- What there is to know about an engine. -/
class Engine where
  /-- The number of bytes that a compiled expression may take up. -/
  sizeLimit : Nat
  /-- The number of bytes that an expression takes up, by its source and its flags. -/
  size : String → Flags → Nat

/-- Whether an engine has room for an expression. -/
abbrev Engine.Fits [Engine] (source : String) (flags : Flags) : Prop :=
  Engine.size source flags ≤ Engine.sizeLimit

/-- An engine with the limit that is set unless another is asked for, which takes 32 bytes for each
character of the source. -/
instance : Engine where
  sizeLimit := 10485760
  size source _ := 32 * source.length

/-- Why an engine does not compile an expression. -/
inductive Refusal
  /-- The source is no expression. -/
  | malformed (fault : Fault)
  /-- The expression is too large for an engine with that limit. -/
  | tooLarge (limit : Nat)
  deriving DecidableEq

namespace Refusal

def isTooLarge : Refusal → Bool
  | malformed _ => false
  | tooLarge _ => true

def message (spelling : String) : Refusal → String
  | malformed fault => fault.message spelling
  | tooLarge limit => "Compiled regex exceeds size limit of " ++ toString limit ++ " bytes."

end Refusal

end PathQuery.Regex
