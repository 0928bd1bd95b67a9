import PathQuery.Number.Double

/-!
# Numeric ranges

A range is written with two numerals: `lo..hi` with both ends, `lo...hi` without
the upper one, and `start,count` for `count` numbers from `start` on. Numbers are
compared as doubles.
-/

namespace PathQuery

open Number

inductive Range
  /-- From `low` up to `high`. -/
  | inclusive (low high : Int64)
  /-- From `low` up to but without `high`. -/
  | exclusive (low high : Int64)
  /-- The `count` numbers from `start` on. -/
  | counted (start count : Int64)
  deriving DecidableEq

namespace Range

/-- The word nearest to an integer. -/
def clamp (n : Int) : Int64 := .ofIntClamp n

/-- The lower end and the upper one, which is outside, of a range without its upper end. -/
def halfOpen? : Range → Option (Int64 × Int64)
  | inclusive _ _ => none
  | exclusive low high => some (low, high)
  | counted start count => some (start, clamp (start.toInt + count.toInt))

def contains (range : Range) (x : Double) : Bool :=
  match range with
  | inclusive low high => (Double.ofInt low.toInt).le x && x.le (.ofInt high.toInt)
  | exclusive low high => (Double.ofInt low.toInt).le x && x.lt (.ofInt high.toInt)
  | counted start count =>
    (Double.ofInt start.toInt).le x &&
      x.lt (.ofInt (clamp (start.toInt + count.toInt)).toInt)

/-- Whether two ranges are the same: equal, or both without their upper end and with the same
ends. -/
def same (a b : Range) : Bool :=
  match a.halfOpen?, b.halfOpen? with
  | some ends, some ends' => ends == ends'
  | none, none => a == b
  | _, _ => false

def text : Range → String
  | inclusive low high => toString low.toInt ++ ".." ++ toString high.toInt
  | exclusive low high => toString low.toInt ++ "..." ++ toString high.toInt
  | counted start count => toString start.toInt ++ "," ++ toString count.toInt

/-! ## Reading -/

/-- The value of decimal digits, of which there is at least one. -/
def digits? (text : List Char) : Option Nat :=
  if text ≠ [] && text.all Char.isDigit then some (Nat.ofDigitChars 10 text 0) else none

/-- A numeral: digits, perhaps behind a minus sign, whose value is a signed word. -/
def numeral? (text : List Char) : Option Int64 :=
  let value := match text with
    | '-' :: rest => (digits? rest).map fun n => -(n : Int)
    | _ => (digits? text).map fun n => (n : Int)
  value.bind fun n =>
    if Int64.minValue.toInt ≤ n && n ≤ Int64.maxValue.toInt then some (.ofInt n) else none

/-- The texts before and after the first place where `separator` stands. -/
def splitAt? (separator : List Char) : List Char → Option (List Char × List Char)
  | [] => if separator = [] then some ([], []) else none
  | c :: rest =>
    if separator.isPrefixOf (c :: rest) then some ([], (c :: rest).drop separator.length)
    else (splitAt? separator rest).map fun (before, after) => (c :: before, after)

def numerals? (make : Int64 → Int64 → Range) (texts : List Char × List Char) : Option Range := do
  return make (← numeral? texts.1) (← numeral? texts.2)

/-- A range as it is written. The first separator found decides, the longest first. -/
def read? (text : List Char) : Option Range :=
  match splitAt? ['.', '.', '.'] text with
  | some texts => numerals? exclusive texts
  | none =>
    match splitAt? ['.', '.'] text with
    | some texts => numerals? inclusive texts
    | none => (splitAt? [','] text).bind (numerals? counted)

end Range

end PathQuery
