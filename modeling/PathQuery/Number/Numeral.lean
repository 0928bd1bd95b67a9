import PathQuery.Number.Double

/-!
# Numbers as they are written

A numeral is a sign, digits, a fraction and a power of ten. Of its digits those count that make an
unsigned word, and its value is computed from them by doubles that are rounded at every step
(`Double.ofScaled`). So it is near the number that is written, but it need not be the nearest.
-/

namespace PathQuery.Number

structure Numeral where
  negative : Bool
  digits : List Char
  fraction : Option (List Char) := none
  /-- The sign of the exponent, which is set for minus, and its digits. -/
  exponent : Option (Bool × List Char) := none

namespace Numeral

/-- Digits are read behind a word as long as it stays one: the word that they make of it, and how
many they are. -/
def takeDigits (n : Nat) : List Char → Nat × Nat
  | [] => (n, 0)
  | c :: rest =>
    let next := 10 * n + (c.toNat - '0'.toNat)
    if next < UInt64.size then
      let (word, taken) := takeDigits next rest
      (word, taken + 1)
    else (n, 0)

/-- The digits before the point that make a word, and how many they are. -/
def leading (numeral : Numeral) : Nat × Nat := takeDigits 0 numeral.digits

/-- The digits that make a word together with some behind the point, and how many of them are
behind it. -/
def significand (numeral : Numeral) : Nat × Nat :=
  takeDigits numeral.leading.1 (numeral.fraction.getD [])

/-- The word that a numeral is, if it is one. -/
def word? (numeral : Numeral) : Option Nat :=
  let (word, taken) := numeral.leading
  if taken = numeral.digits.length && numeral.fraction.isNone && numeral.exponent.isNone then
    some word
  else none

/-- The power of ten that the significand counts. -/
def scale (numeral : Numeral) : Int :=
  let written := match numeral.exponent with
    | none => 0
    | some (negative, digits) => Double.signed negative (Nat.ofDigitChars 10 digits 0)
  written + (numeral.digits.length - numeral.leading.2 : Nat) - numeral.significand.2

def toDouble (numeral : Numeral) : Double :=
  .ofScaled numeral.negative numeral.significand.1 numeral.scale

end Numeral

end PathQuery.Number
