import PathQuery.Json.Printer
import PathQuery.Json.Reader

/-!
# Codecs

What reads JSON texts and writes JSON values. Commands take it as they find it; `Json.codec` is
made of the reader and the printer here.
-/

namespace PathQuery.Json

structure Codec where
  /-- The value that a text spells, or what is wrong with the text. -/
  read : String → Except String Json
  /-- A value on one line. -/
  compact : Json → String
  /-- A value on several lines. -/
  pretty : Json → String

def codec : Codec where
  read text := (Json.read nestingLimit text.toList).mapError (·.message text.toList)
  compact := Json.compact
  pretty := Json.pretty

end PathQuery.Json
