import PathQuery.Number.Decimal

/-!
# Scalars

The leaves of documents, independent of the document type that holds them, and
their text, which is what patterns compare.
-/

namespace PathQuery

open Number

inductive Scalar
  | null
  | bool (value : Bool)
  | integer (value : Int64)
  /-- A whole number above the range of signed words. -/
  | unsigned (value : UInt64)
  | float (value : Double)
  | string (value : String)
  deriving DecidableEq

namespace Scalar

/-- Doubles as leaf text: written out from `10^-4` up to `10^16`, no sign on a positive exponent,
and of two equally near candidates the upper one. -/
def layout : Layout := ⟨true, -4, 15, false⟩

def text : Scalar → String
  | null => "null"
  | bool true => "true"
  | bool false => "false"
  | integer n => toString n.toInt
  | unsigned n => toString n.toNat
  | float x => layout.write x
  | string s => s

end Scalar

end PathQuery
