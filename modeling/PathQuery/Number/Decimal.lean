import PathQuery.Number.Double

/-!
# Decimal text of doubles

A double is written with the fewest digits that read back as it, and among those
with the nearest. `shortest` finds the digits; a `Layout` says how they are set:
which exponents are written out, how the others are marked, and which of two
equally near candidates is taken.
-/

namespace PathQuery.Number

/-- The number `coefficient * 10^exponent`. -/
structure Decimal where
  coefficient : Nat
  exponent : Int
  deriving DecidableEq

/-- How a double is written. -/
structure Layout where
  /-- Of two equally near candidates take the upper one, else the even one. -/
  tieUp : Bool
  /-- The least exponent of a leading digit that is written out. -/
  plainFrom : Int
  /-- The greatest exponent of a leading digit that is written out. -/
  plainTo : Int
  /-- Whether a positive exponent carries its sign. -/
  signed : Bool

namespace Decimal

/-! ## Shortest digits -/

/-- The exponent of the leading digit of a magnitude of `units`. -/
def leading (units : Nat) : Int :=
  if Double.one ≤ units then (Nat.toDigits 10 (units / Double.one)).length - 1
  else -(((List.range 400).find? fun k => Double.one ≤ units * Nat.pow 10 k).getD 0 : Nat)

/-- The numbers that round to a magnitude, in quarters of a unit, and whether the ends of the
interval do. -/
structure Interval where
  low : Nat
  high : Nat
  closed : Bool

/-- The interval of numbers that round to `units`. Below a power of two the neighbour is
nearer. -/
def interval (units : Nat) : Interval :=
  let gap := spacing units
  let below := if units = 1 <<< units.log2 && 1 < gap then gap else 2 * gap
  ⟨4 * units - below, 4 * units + 2 * gap, units / gap % 2 == 0⟩

/-- The multiple of `10^exponent` in the interval that is nearest to `units`, if there is one. -/
def onGrid? (tieUp : Bool) (units : Nat) (exponent : Int) : Option Nat :=
  let num := Nat.pow 10 (-exponent).toNat
  let den := Double.one * Nat.pow 10 exponent.toNat
  let range := interval units
  let inside (c : Nat) : Bool :=
    let x := 4 * c * den
    if range.closed then range.low * num ≤ x && x ≤ range.high * num
    else range.low * num < x && x < range.high * num
  let below := units * num / den
  let rest := units * num % den
  let above := below + 1
  match inside below, rest != 0 && inside above with
  | true, true =>
    if 2 * rest < den then some below
    else if den < 2 * rest then some above
    else if tieUp || below % 2 == 1 then some above
    else some below
  | true, false => some below
  | false, true => some above
  | false, false => none

/-- The same number with no zero at the end of its coefficient, which has at most `fuel`
digits. -/
def trim : Nat → Decimal → Decimal
  | 0, d => d
  | fuel + 1, d =>
    if d.coefficient % 10 == 0 && d.coefficient != 0 then
      trim fuel ⟨d.coefficient / 10, d.exponent + 1⟩
    else d

/-- The shortest decimal that rounds to a positive magnitude. Seventeen digits are always
enough. -/
def shortest (tieUp : Bool) (units : Nat) : Decimal :=
  let lead := leading units
  let found := (List.range 17).findSome? fun (digits : Nat) =>
    (onGrid? tieUp units (lead - digits)).map (⟨·, lead - digits⟩)
  trim 20 (found.getD ⟨0, 0⟩)

end Decimal

/-! ## Setting the digits -/

namespace Layout

def plain (digits : List Char) (exponent : Int) : List Char :=
  if 0 ≤ exponent then digits ++ List.replicate exponent.toNat '0' ++ ['.', '0']
  else
    let places := (-exponent).toNat
    if places < digits.length then
      digits.take (digits.length - places) ++ '.' :: digits.drop (digits.length - places)
    else '0' :: '.' :: List.replicate (places - digits.length) '0' ++ digits

/-- The digits of a number with a point after the first, and the exponent of the first. -/
def scientific (layout : Layout) (digits : List Char) (lead : Int) : List Char :=
  let fraction := match digits.drop 1 with
    | [] => []
    | rest => '.' :: rest
  let sign := if lead < 0 then ['-'] else if layout.signed then ['+'] else []
  digits.take 1 ++ fraction ++ 'e' :: sign ++ Nat.toDigits 10 lead.natAbs

def magnitude (layout : Layout) (units : Nat) : List Char :=
  if units = 0 then ['0', '.', '0']
  else
    let d := Decimal.shortest layout.tieUp units
    let digits := Nat.toDigits 10 d.coefficient
    let lead := d.exponent + digits.length - 1
    if layout.plainFrom ≤ lead && lead ≤ layout.plainTo then plain digits d.exponent
    else layout.scientific digits lead

def write (layout : Layout) : Double → String
  | .finite negative units _ =>
    String.ofList ((if negative then ['-'] else []) ++ layout.magnitude units)
  | .infinite negative => if negative then "-inf" else "inf"
  | .nan => "NaN"

end Layout

end PathQuery.Number
